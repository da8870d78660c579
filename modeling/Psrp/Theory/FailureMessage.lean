import Psrp.Lib.Radix
import Psrp.Theory.Pool.Mock

/-!
# Failure Messages

What a server can put into the error of a failed pipeline.

Its text gets there by several routes: the reason in the state message, and
for each error an exception message, an older field, an identifier or the value
itself. They all end in `escapeRemoteText`, so what is shown of it is one
`Quote`: at most so many characters of a source, none of which can rewrite a
terminal. The rest of a message is the program's own.

## Main definitions

* `Quote`: What is shown of a text of the server.
* `ownReason`, `countRest`: The first and the last part of a message.

## Theorems

* `escapeRemoteText_harmless`: What is shown rewrites nothing.
* `failure_message_parts`: What a failure message is made of.
-/

namespace Psrp

/-- What is shown of one character. -/
def shown (c : Char) : Text := if rewritesOutput c then escapeDebug c else [c]

/-- The start of a text of the server, each character as it is shown, with an
    ellipsis if there was more. -/
def Quote (quoted : Text) : Prop :=
  ∃ source : Text, source.length ≤ 1024
    ∧ (quoted = source.flatMap shown ∨ quoted = source.flatMap shown ++ ['…'])

/-- The digits of a number rewrite nothing. -/
theorem rewritesOutput_digits {radix : Nat} (h1 : 1 < radix) (hradix : radix ≤ 16) (n : Nat) :
    ∀ c ∈ Nat.toDigits radix n, rewritesOutput c = false := by
  refine Radix.forall_mem_toDigits (P := fun c => rewritesOutput c = false) h1 (fun d hd => ?_) n
  have h16 : d < 16 := Nat.lt_of_lt_of_le hd hradix
  interval_cases d <;> rfl

/-- A text of the program itself is checked where it is. -/
theorem harmless_of_all {s : Text} (h : (s.all fun c => !rewritesOutput c) = true) :
    ∀ c ∈ s, rewritesOutput c = false := by
  intro c hc
  have hall := List.all_eq_true.mp h c hc
  rwa [Bool.not_eq_true'] at hall

/-- An escape rewrites nothing, and is short. -/
theorem escapeDebug_harmless (c : Char) :
    (∀ d ∈ escapeDebug c, rewritesOutput d = false) ∧ (escapeDebug c).length ≤ 10 := by
  unfold escapeDebug
  split_ifs
  · exact ⟨harmless_of_all rfl, Nat.le_add_left 2 8⟩
  · exact ⟨harmless_of_all rfl, Nat.le_add_left 2 8⟩
  · exact ⟨harmless_of_all rfl, Nat.le_add_left 2 8⟩
  · exact ⟨harmless_of_all rfl, Nat.le_add_left 2 8⟩
  · constructor
    · intro d hd
      rcases List.mem_append.mp hd with hd | hd
      · rcases List.mem_append.mp hd with hd | hd
        · exact harmless_of_all rfl d hd
        · exact rewritesOutput_digits (by decide) (by decide) _ d hd
      · rw [List.mem_singleton.mp hd]
        rfl
    · -- A code point has at most six hexadecimal digits.
      have hpoint : c.toNat < 16 ^ 6 := by
        have hval : c.toNat = c.val.toNat := rfl
        have hvalid : c.val.toNat < 0xD800 ∨ 0xDFFF < c.val.toNat ∧ c.val.toNat < 0x110000 :=
          c.valid
        omega
      have hdigits := (Nat.length_toDigits_le_iff (by decide) (by decide)).mpr hpoint
      simp only [List.length_append, List.length_cons, List.length_nil]
      omega

/-- A character is shown as itself or escaped. -/
theorem shown_harmless (c : Char) :
    (∀ d ∈ shown c, rewritesOutput d = false) ∧ (shown c).length ≤ 10 := by
  unfold shown
  by_cases hc : rewritesOutput c = true
  · rw [if_pos hc]
    exact escapeDebug_harmless c
  · rw [if_neg hc]
    refine ⟨fun d hd => ?_, Nat.le_add_left 1 9⟩
    rw [List.mem_singleton.mp hd]
    exact Bool.not_eq_true _ ▸ hc

/-- A quote rewrites nothing. -/
theorem Quote.harmless {quoted : Text} (h : Quote quoted) :
    ∀ c ∈ quoted, rewritesOutput c = false := by
  rcases h with ⟨source, _, hquoted⟩
  have hsource : ∀ c ∈ source.flatMap shown, rewritesOutput c = false := by
    intro c hc
    rcases List.mem_flatMap.mp hc with ⟨d, _, hd⟩
    exact (shown_harmless d).1 c hd
  rcases hquoted with rfl | rfl
  · exact hsource
  · intro c hc
    rcases List.mem_append.mp hc with hc | hc
    · exact hsource c hc
    · rw [List.mem_singleton.mp hc]
      rfl

/-- A quote is not long. -/
theorem Quote.length_le {quoted : Text} (h : Quote quoted) : quoted.length ≤ 10 * 1024 + 1 := by
  rcases h with ⟨source, hlength, hquoted⟩
  have hsource : (source.flatMap shown).length ≤ 10 * source.length := by
    clear hlength hquoted
    induction source with
    | nil => exact Nat.le_refl _
    | cons c source ih =>
        have hc := (shown_harmless c).2
        rw [List.flatMap_cons, List.length_append, List.length_cons]
        omega
  rcases hquoted with rfl | rfl
  · omega
  · rw [List.length_append, List.length_singleton]
    omega

/-- Server text is quoted. -/
theorem quote_escapeRemoteText (s : Text) :
    Quote (escapeRemoteText s MAX_SERVER_MESSAGE_CHARS) := by
  refine ⟨s.take 1024, List.length_take_le _ _, ?_⟩
  unfold escapeRemoteText
  split
  · exact Or.inr rfl
  · exact Or.inl (List.append_nil _)

/-- The reason in a state message is quoted. -/
theorem quote_terminalStateReason {p : Platform} {xml reason : Text}
    (h : terminalStateReason p xml = some reason) : Quote reason := by
  unfold terminalStateReason at h
  simp only [Option.bind_eq_bind, Option.bind_eq_some_iff] at h
  rcases h with ⟨_, _, message, _, h⟩
  split at h
  · cases h
  · cases h
    exact quote_escapeRemoteText _

/-- The errors that a failure message quotes. -/
def quotedErrors (p : PoolPlatform) (errors : List PsValue) : List Text :=
  (errors.take 8).map fun v => escapeRemoteText (Text.trim (errorText p v)) 1024

/-- The reason of the state itself, unless a quoted error reads the same. -/
def ownReason (p : PoolPlatform) (stateData : Text) (errors : List PsValue) : List Text :=
  (terminalStateReason p.toPlatform stateData).toList.filter fun reason =>
    !(quotedErrors p errors).contains reason

/-- How many errors are left out, if any are. -/
def countRest (errors : List PsValue) : List Text :=
  if 8 < errors.length then [s!"… and {errors.length - 8} more".toList] else []

/-- All parts of a failure message, in order. -/
def messageParts (p : PoolPlatform) (stateData : Text) (errors : List PsValue) : List Text :=
  ownReason p stateData errors ++ quotedErrors p errors ++ countRest errors

/-- A failure message is its parts, and says so if there are none. -/
theorem failureMessage_eq (p : PoolPlatform) (stateData : Text) (errors : List PsValue) :
    failureMessage p stateData errors
      = if messageParts p stateData errors = [] then "unknown error".toList
        else List.intercalate "; ".toList (messageParts p stateData errors) := by
  -- What is left out is counted at the end.
  have hjoin : ∀ parts : List Text, joinParts parts (errors.length - 8)
      = if parts ++ countRest errors = [] then "unknown error".toList
        else List.intercalate "; ".toList (parts ++ countRest errors) := by
    intro parts
    unfold joinParts countRest
    by_cases hmore : 8 < errors.length
    · have hpos : 0 < errors.length - 8 := Nat.sub_pos_of_lt hmore
      simp only [if_pos hpos, if_pos hmore]
    · have hzero : ¬ 0 < errors.length - 8 := by omega
      simp only [if_neg hzero, if_neg hmore, List.append_nil]
  unfold failureMessage messageParts ownReason
  rw [← hjoin]
  cases hreason : terminalStateReason p.toPlatform stateData with
  | none => rfl
  | some reason =>
      change joinParts (if (quotedErrors p errors).contains reason then quotedErrors p errors
        else reason :: quotedErrors p errors) (errors.length - 8) = _
      -- The reason is not repeated if an error says the same.
      by_cases hquoted : (quotedErrors p errors).contains reason = true
      · rw [if_pos hquoted]
        simp only [Option.toList_some, List.filter_cons, hquoted, Bool.not_true,
          Bool.false_eq_true, if_false, List.filter_nil, List.nil_append]
      · rw [if_neg hquoted]
        simp only [Option.toList_some, List.filter_cons, Bool.eq_false_iff.mpr hquoted,
          Bool.not_false, if_true, List.filter_nil, List.singleton_append]

/-- What joins the parts, the count and the text in their absence rewrite
    nothing. -/
theorem countRest_harmless {errors : List PsValue} {part : Text} (h : part ∈ countRest errors) :
    ∀ c ∈ part, rewritesOutput c = false := by
  unfold countRest at h
  split at h
  · rw [List.mem_singleton.mp h]
    intro c hc
    have htext : (s!"… and {errors.length - 8} more").toList
        = "… and ".toList ++ Nat.toDigits 10 (errors.length - 8) ++ " more".toList := by
      simp only [String.toList_append, ← Nat.toList_repr]
      rfl
    rw [htext] at hc
    rcases List.mem_append.mp hc with hc | hc
    · rcases List.mem_append.mp hc with hc | hc
      · exact harmless_of_all rfl c hc
      · exact rewritesOutput_digits (by decide) (by decide) _ c hc
    · exact harmless_of_all rfl c hc
  · exact absurd h List.not_mem_nil

theorem quote_ownReason {p : PoolPlatform} {stateData : Text} {errors : List PsValue} {part : Text}
    (h : part ∈ ownReason p stateData errors ++ quotedErrors p errors) : Quote part := by
  rcases List.mem_append.mp h with h | h
  · have hreason := (List.mem_filter.mp h).1
    rw [Option.mem_toList] at hreason
    exact quote_terminalStateReason hreason
  · rcases List.mem_map.mp h with ⟨v, _, rfl⟩
    exact quote_escapeRemoteText _

/-- For every state message and all errors: no character of a failure message
    can rewrite a terminal or a log. The message is made of the reason of the
    state, unless there is none or a quoted error reads the same, of the first
    eight errors in order, and of the number of the others if there are any;
    where there is nothing at all, it is a fixed text. At most nine of its
    parts are server text, and each of them is a quote of at most 1024
    characters. -/
theorem failure_message_parts (p : PoolPlatform) (stateData : Text) (errors : List PsValue) :
    let msg := failureMessage p stateData errors
    let quoted := (errors.take 8).map fun v => escapeRemoteText (Text.trim (errorText p v)) 1024
    let reason := (terminalStateReason p.toPlatform stateData).toList.filter fun reason =>
      !quoted.contains reason
    let rest := if 8 < errors.length then [s!"… and {errors.length - 8} more".toList] else []
    (∀ c ∈ msg, rewritesOutput c = false)
    ∧ msg = (if reason ++ quoted ++ rest = [] then "unknown error".toList
        else List.intercalate "; ".toList (reason ++ quoted ++ rest))
    ∧ (reason ++ quoted).length ≤ 9
    ∧ ∀ part ∈ reason ++ quoted, Quote part ∧ part.length ≤ 10 * 1024 + 1 := by
  intro msg quoted reason rest
  have hmsg : msg = if messageParts p stateData errors = [] then "unknown error".toList
      else List.intercalate "; ".toList (messageParts p stateData errors) :=
    failureMessage_eq p stateData errors
  refine ⟨fun c hc => ?_, hmsg, ?_, fun part hpart => ?_⟩
  · rw [hmsg] at hc
    split at hc
    · exact harmless_of_all rfl c hc
    · rcases mem_intercalate hc with ⟨part, hpart, hc⟩ | hc
      · rcases List.mem_append.mp hpart with hpart | hpart
        · exact (quote_ownReason hpart).harmless c hc
        · exact countRest_harmless hpart c hc
      · exact harmless_of_all rfl c hc
  · -- At most one reason and eight errors.
    have hreason : reason.length ≤ 1 := by
      have hfilter : reason.length ≤ (terminalStateReason p.toPlatform stateData).toList.length :=
        List.length_filter_le _ _
      have hone := Option.length_toList_le (o := terminalStateReason p.toPlatform stateData)
      omega
    have hquoted : quoted.length ≤ 8 := by
      rw [List.length_map]
      exact List.length_take_le _ _
    rw [List.length_append]
    omega
  · have hquote : Quote part := quote_ownReason hpart
    exact ⟨hquote, hquote.length_le⟩

/-- The state of a failed pipeline and nothing else: with neither a reason nor an
    error, a message is made of no parts and still says something. -/
theorem failure_message_fallback :
    ¬ ∀ (p : PoolPlatform) (stateData : Text) (errors : List PsValue),
      let quoted := (errors.take 8).map fun v => escapeRemoteText (Text.trim (errorText p v)) 1024
      let reason := (terminalStateReason p.toPlatform stateData).toList.filter fun reason =>
        decide (reason ∉ quoted)
      let rest := if 8 < errors.length then [s!"… and {errors.length - 8} more".toList] else []
      failureMessage p stateData errors
        = List.intercalate "; ".toList (reason ++ quoted ++ rest) := by
  intro h
  let bare := numberBody Platform.basic "PipelineState" 5
  have hreason : terminalStateReason Platform.basic bare = none := by
    rw [terminalStateReason, parse_numberBody Platform.basic_lawful 5 (by decide)]
    rfl
  have hfallback : failureMessage .basic bare [] = "unknown error".toList := by
    unfold failureMessage
    rw [show terminalStateReason PoolPlatform.basic.toPlatform bare = none from hreason]
    rfl
  have hempty := h .basic bare []
  rw [hfallback, show terminalStateReason PoolPlatform.basic.toPlatform bare = none from hreason]
    at hempty
  exact absurd hempty (by decide)

end Psrp

import Psrp.Core.Decode

/-!
# What the Decoder Does to Its Cursor

Every function of the decoder consumes events and leaves the nesting counter
as it found it, whether it returns or fails.

Both facts are instances of one. A relation between the cursor before and
after a program is `Framing` when it is reflexive and transitive, and allows
what the decoder does: reading an event, changing the state beside the
counter, and running a program one level deeper. `respects_parseElement` says
that the decoder respects every framing relation, by recursion on the nesting
still allowed and one lemma for each loop.

## Main definitions

* `Framing`: The relations the decoder respects.
* `SameDepth`: The nesting counter is as it was.
* `LeafOf`: What can be made of the text of a leaf.

## Theorems

* `resolveRef_cases`, `parseEmpty_cases`, `leafParser_cases`: What a reference,
  a self-closed element and a leaf can be.
* `respects_parseElement`: The decoder respects every framing relation.
* `consumes_parseElement`: No function puts an event back.
* `parseElement_depth`: The nesting counter is restored, on success and on
  failure.
-/

namespace Psrp

open Xml (Attr Event)
open Pull (Turn Respects Consumes update lift)

/-- The relations between cursors that the decoder respects. -/
structure Framing (R : Cursor Event DecoderState → Cursor Event DecoderState → Prop) : Prop where
  refl : ∀ c, R c c
  trans : ∀ c c' c'', R c c' → R c' c'' → R c c''
  next : Respects R (Pull.next clixmlError : Decode (Option Event))
  /-- The state may change beside the counter. -/
  state : ∀ c s, s.depth = c.state.depth → R c { c with state := s }
  /-- A level down and a level up. -/
  nested : ∀ {α : Type} (m : Decode α), Respects R m → ∀ c,
    R c (Pull.cursorOf (leaving m { c with state := { c.state with depth := c.state.depth + 1 } }))

/-- The nesting counter is as it was. -/
def SameDepth (c c' : Cursor Event DecoderState) : Prop := c'.state.depth = c.state.depth

theorem framing_consumes : Framing Consumes where
  refl := Consumes.refl
  trans := Consumes.trans
  next := Pull.consumes_next _
  state _ _ _ := Nat.le_refl _
  nested m h c := by
    have hm := h { c with state := { c.state with depth := c.state.depth + 1 } }
    rw [leaving]
    cases hrun : m { c with state := { c.state with depth := c.state.depth + 1 } } with
    | ok a c' =>
        rw [hrun] at hm
        exact hm
    | error e c' =>
        rw [hrun] at hm
        exact hm

theorem framing_sameDepth : Framing SameDepth where
  refl _ := rfl
  trans _ _ _ h h' := h'.trans h
  next := by
    rintro ⟨events, ft, s⟩
    rcases events with _ | ⟨e, es⟩
    · cases ft <;> rfl
    · rfl
  state _ _ h := h
  nested m h c := by
    have hm := h { c with state := { c.state with depth := c.state.depth + 1 } }
    rw [leaving]
    cases hrun : m { c with state := { c.state with depth := c.state.depth + 1 } } with
    | ok a c' =>
        rw [hrun] at hm
        have hdepth : c'.state.depth = c.state.depth + 1 := hm
        show c'.state.depth - 1 = c.state.depth
        omega
    | error e c' =>
        rw [hrun] at hm
        have hdepth : c'.state.depth = c.state.depth + 1 := hm
        show c'.state.depth - 1 = c.state.depth
        omega

/-- Charging does not touch the counter. -/
theorem charge_depth (s s' : DecoderState) (w : Nat) (h : s.charge w = .ok s') :
    s'.depth = s.depth := by
  simp only [DecoderState.charge] at h
  split_ifs at h
  cases h
  rfl

/-- A reference is null, or a copy within the nesting that was charged. -/
theorem resolveRef_cases (attrs : List Attr) (level : Nat) (s s' : DecoderState) (v : PsValue)
    (h : resolveRef attrs level s = .ok (v, s')) :
    (v = .null ∧ s' = s) ∨ ∃ id, refRefIdAttr attrs = .ok (some id) ∧ IndexMap.get id s.refs = some v
      ∧ satAdd32 (satAdd32 s.depth level) (measure v).2 ≤ MAX_NESTING_DEPTH
      ∧ s.charge (measure v).1 = .ok s' := by
  simp only [resolveRef, bind, Except.bind, pure, Except.pure] at h
  cases hid : refRefIdAttr attrs with
  | error e =>
      rw [hid] at h
      cases h
  | ok rid =>
      simp only [hid] at h
      -- An id that nothing was kept under stands for null.
      cases hget : rid.bind fun r => IndexMap.get r s.refs with
      | none =>
          rw [hget] at h
          cases h
          exact Or.inl ⟨rfl, rfl⟩
      | some target =>
          simp only [hget] at h
          split_ifs at h with hnest
          cases hcharge : s.charge (measure target).1 with
          | error e =>
              rw [hcharge] at h
              cases h
          | ok t =>
              rw [hcharge] at h
              cases h
              rw [Option.bind_eq_some_iff] at hget
              rcases hget with ⟨id, rfl, hget⟩
              exact Or.inr ⟨id, rfl, hget, by omega, hcharge⟩

/-- The self-closed elements that have a value. -/
theorem parseEmpty_cases (tag : String) (attrs : List Attr) (s s' : DecoderState)
    (v : Option PsValue) (h : parseEmpty tag attrs s = .ok (v, s')) :
    (tag = "Nil" ∧ v = some .null ∧ s' = s)
      ∨ (tag = "Ref" ∧ ∃ w, v = some w ∧ resolveRef attrs 1 s = .ok (w, s'))
      ∨ (tag = "S" ∧ v = some (.string []) ∧ s' = s)
      ∨ ((tag = "SBK" ∨ tag = "SCT") ∧ v = some (.scriptBlock []) ∧ s' = s)
      ∨ (v = none ∧ s' = s) := by
  rw [parseEmpty] at h
  -- The tags are asked for one after the other.
  by_cases hnil : tag = "Nil"
  · rw [if_pos hnil] at h
    cases h
    exact Or.inl ⟨hnil, rfl, rfl⟩
  rw [if_neg hnil] at h
  by_cases href : tag = "Ref"
  · rw [if_pos href, except_map_eq_ok] at h
    rcases h with ⟨⟨w, t⟩, hres, h⟩
    cases h
    exact Or.inr (Or.inl ⟨href, w, rfl, hres⟩)
  rw [if_neg href] at h
  by_cases hs : tag = "S"
  · rw [if_pos hs] at h
    cases h
    exact Or.inr (Or.inr (Or.inl ⟨hs, rfl, rfl⟩))
  rw [if_neg hs] at h
  by_cases hsbk : tag = "SBK" ∨ tag = "SCT"
  · rw [if_pos hsbk] at h
    cases h
    exact Or.inr (Or.inr (Or.inr (Or.inl ⟨hsbk, rfl, rfl⟩)))
  · rw [if_neg hsbk] at h
    cases h
    exact Or.inr (Or.inr (Or.inr (Or.inr ⟨rfl, rfl⟩)))

/-- Values whose text is not kept. -/
def PsValue.isScalar : PsValue → Bool
  | .bool _ | .i8 _ | .u8 _ | .i16 _ | .u16 _ | .i32 _ | .u32 _ | .i64 _ | .u64 _ | .f32 _
  | .double _ | .char _ | .guid _ => true
  | _ => false

/-- What can be made of the text of a leaf. -/
inductive LeafOf (t : Text) : PsValue → Prop where
  | text {v : PsValue} : v ∈ [PsValue.string t, .dateTime t, .duration t, .version t, .uri t,
    .xml t, .scriptBlock t, .secureString t] → LeafOf t v
  | decimal : LeafOf t (.decimal (Text.trim t))
  | bytes {b : List UInt8} : base64Decode (Text.trim t) = some b → LeafOf t (.bytes b)
  | scalar {v : PsValue} : v.isScalar = true → LeafOf t v

theorem LeafOf.isContainer {t : Text} {v : PsValue} (h : LeafOf t v) : v.isContainer = false := by
  cases h with
  | text hv =>
      simp only [List.mem_cons, List.not_mem_nil, or_false] at hv
      rcases hv with rfl | rfl | rfl | rfl | rfl | rfl | rfl | rfl <;> rfl
  | decimal => rfl
  | bytes => rfl
  | scalar hv =>
      cases v <;> first
        | rfl
        | cases hv

theorem parseIntLeaf_ok {lo hi : Int} {closing : String} {wrap : Int → PsValue} {t : Text}
    {v : PsValue} (h : parseIntLeaf lo hi closing wrap t = .ok v) : ∃ n, v = wrap n := by
  rw [parseIntLeaf, except_map_eq_ok] at h
  rcases h with ⟨n, _, rfl⟩
  exact ⟨n, rfl⟩

/-- What a leaf can be. -/
theorem leafParser_cases {p : Platform} {tag : String} {parse : Text → Except PsrpError PsValue}
    {t : Text} {v : PsValue} (hparser : leafParser p tag = some parse) (h : parse t = .ok v) :
    LeafOf t v := by
  unfold leafParser at hparser
  split at hparser <;> cases hparser
  -- The elements with a text, and those with an integer.
  all_goals first
    | (cases h; exact .decimal)
    | (cases h; exact .text (by simp only [List.mem_cons, true_or, or_true]))
    | (rcases parseIntLeaf_ok h with ⟨n, rfl⟩; exact .scalar rfl)
    | skip
  case h_4.refl =>
      simp only [except_map_eq_ok] at h
      rcases h with ⟨b, _, rfl⟩
      exact .scalar rfl
  case h_5.refl | h_6.refl | h_18.refl =>
      simp only [] at h
      split at h
      · cases h
        exact .scalar rfl
      · cases h
  case h_15.refl =>
      simp only [] at h
      split at h
      next b hb =>
        cases h
        exact .bytes hb
      · cases h

theorem resolveRef_depth (attrs : List Attr) (level : Nat) (s s' : DecoderState) (v : PsValue)
    (h : resolveRef attrs level s = .ok (v, s')) : s'.depth = s.depth := by
  rcases resolveRef_cases attrs level s s' v h with ⟨_, rfl⟩ | ⟨_, _, _, _, hcharge⟩
  · rfl
  · exact charge_depth s s' _ hcharge

theorem parseEmpty_depth (tag : String) (attrs : List Attr) (s s' : DecoderState)
    (v : Option PsValue) (h : parseEmpty tag attrs s = .ok (v, s')) : s'.depth = s.depth := by
  rcases parseEmpty_cases tag attrs s s' v h with
    ⟨_, _, rfl⟩ | ⟨_, w, _, hres⟩ | ⟨_, _, rfl⟩ | ⟨_, _, rfl⟩ | ⟨_, rfl⟩
  · rfl
  · exact resolveRef_depth attrs 1 s s' w hres
  · rfl
  · rfl
  · rfl

theorem keepReferenced_depth (refId : Option Text) (v : PsValue) (s s' : DecoderState)
    (h : keepReferenced refId v s = .ok s') : s'.depth = s.depth := by
  simp only [keepReferenced] at h
  split at h
  · cases h
    rfl
  · cases hcharge : s.charge (measure v).1 with
    | error e =>
        rw [hcharge] at h
        cases h
    | ok t =>
        rw [hcharge] at h
        cases h
        exact charge_depth s t _ hcharge

theorem rememberTypeNames_depth (rid : Option Text) (names : List Text) (s : DecoderState) :
    (rememberTypeNames rid names s).depth = s.depth := by
  cases rid <;> rfl

section Respects

variable {R : Cursor Event DecoderState → Cursor Event DecoderState → Prop} (hR : Framing R)
  {el : String → List Attr → Decode (Option PsValue)}

include hR

/-- A change of state that keeps the counter. -/
theorem Framing.update {α : Type} (f : DecoderState → Except PsrpError (α × DecoderState))
    (hf : ∀ s a s', f s = .ok (a, s') → s'.depth = s.depth) : Respects R (update f : Decode α) := by
  intro c
  rw [Pull.update]
  cases hrun : f c.state with
  | error e => exact hR.refl c
  | ok r => exact hR.state c r.2 (hf _ _ _ hrun)

theorem Framing.bind {α β : Type} {m : Decode α} {f : α → Decode β} (hm : Respects R m)
    (hf : ∀ a, Respects R (f a)) : Respects R (m >>= f) := Respects.bind hR.trans hm hf

theorem Framing.pure {α : Type} (a : α) : Respects R (pure a : Decode α) :=
  Respects.pure hR.refl a

theorem Framing.throw {α : Type} (e : PsrpError) : Respects R (throw e : Decode α) :=
  Respects.throw hR.refl e

theorem Framing.lift {α : Type} (r : Except PsrpError α) : Respects R (lift r : Decode α) :=
  Respects.lift hR.refl r

theorem Framing.loop {α β : Type} {turn : α → Event → Decode (Turn α β)} {eof : α → Decode β}
    (hturn : ∀ a e, Respects R (turn a e)) (heof : ∀ a, Respects R (eof a)) (a : α) :
    Respects R (Pull.loop clixmlError turn eof a) :=
  Respects.loop hR.refl hR.trans hR.next hturn heof a

theorem Framing.parseEmpty (tag : String) (attrs : List Attr) :
    Respects R (Pull.update (Psrp.parseEmpty tag attrs) : Decode (Option PsValue)) :=
  hR.update _ fun s a s' h => parseEmpty_depth tag attrs s s' a h

theorem respects_textTurn (closing : String) (out : Text) (e : Event) :
    Respects R (textTurn closing out e) := by
  cases e <;> first
    | exact hR.pure _
    | exact hR.bind (hR.lift _) fun _ => hR.pure _

theorem respects_readText (closing : String) : Respects R (readText closing) :=
  hR.bind (hR.loop (respects_textTurn hR closing) (fun _ => hR.throw _) _) fun _ => hR.pure _

theorem respects_skipTurn (depth : Nat) (e : Event) : Respects R (skipTurn depth e) := by
  cases e <;> exact hR.pure _

theorem respects_skipToEnd : Respects R skipToEnd :=
  hR.loop (respects_skipTurn hR) (fun _ => hR.pure _) 1

theorem respects_typeNamesTurn (out : List Text) (e : Event) :
    Respects R (typeNamesTurn out e) := by
  cases e with
  | start tag attrs =>
      rw [typeNamesTurn]
      split_ifs
      · exact hR.bind (respects_readText hR "T") fun _ => hR.pure _
      · exact hR.pure _
  | _ => exact hR.pure _

theorem respects_parseTypeNames : Respects R parseTypeNames :=
  hR.loop (respects_typeNamesTurn hR) (fun _ => hR.throw _) []

variable (hel : ∀ tag attrs, Respects R (el tag attrs))

include hel

theorem respects_entryTurn (entry : PsValue × PsValue) (e : Event) :
    Respects R (entryTurn el entry e) := by
  cases e with
  | start tag attrs =>
      refine hR.bind (hR.lift _) fun _ => hR.bind (hel tag attrs) fun v => ?_
      cases v <;> exact hR.pure _
  | empty tag attrs =>
      refine hR.bind (hR.parseEmpty tag attrs) fun v => ?_
      cases v with
      | none => exact hR.pure _
      | some v => exact hR.bind (hR.lift _) fun _ => hR.pure _
  | _ => exact hR.pure _

theorem respects_dictTurn (entries : List (PsValue × PsValue)) (e : Event) :
    Respects R (dictTurn el entries e) := by
  cases e with
  | start tag attrs =>
      rw [dictTurn]
      split_ifs
      · exact hR.bind (hR.loop (respects_entryTurn hR hel) (fun _ => hR.throw _) _)
          fun _ => hR.pure _
      · exact hR.pure _
  | _ => exact hR.pure _

theorem respects_listTurn (closing : String) (items : List PsValue) (e : Event) :
    Respects R (listTurn el closing items e) := by
  cases e with
  | start tag attrs =>
      refine hR.bind (hel tag attrs) fun v => ?_
      cases v <;> exact hR.pure _
  | empty tag attrs =>
      refine hR.bind (hR.parseEmpty tag attrs) fun v => ?_
      cases v <;> exact hR.pure _
  | _ => exact hR.pure _

theorem respects_membersTurn (closing : String) (obj : PsObject) (e : Event) :
    Respects R (membersTurn el closing obj e) := by
  cases e with
  | start tag attrs =>
      refine hR.bind (hR.lift _) fun _ => hR.bind (hel tag attrs) fun v => ?_
      cases v <;> exact hR.pure _
  | empty tag attrs =>
      rw [membersTurn]
      split_ifs
      · refine hR.bind (hR.lift _) fun name => ?_
        cases name <;> exact hR.pure _
      · refine hR.bind (hR.parseEmpty tag attrs) fun v => ?_
        cases v with
        | none => exact hR.pure _
        | some v => exact hR.bind (hR.lift _) fun _ => hR.pure _
  | _ => exact hR.pure _

theorem respects_objTurn (body : PsObject × Option PsValue) (e : Event) :
    Respects R (objTurn el body e) := by
  -- Taking over type names changes neither depth nor events.
  have hshare : ∀ rid : Option Text, Respects R
      (Pull.update fun s => .ok (sharedTypeNames rid s body.1, s) : Decode PsObject) :=
    fun rid => hR.update _ fun s a s' h => by cases h; rfl
  cases e with
  | start tag attrs =>
      rw [objTurn]
      split_ifs
      · exact hR.bind (hR.loop (respects_membersTurn hR hel tag) (fun _ => hR.throw _) _)
          fun _ => hR.pure _
      · refine hR.bind (hR.lift _) fun rid => hR.bind (respects_parseTypeNames hR) fun names =>
          hR.bind (hR.update _ fun s a s' h => ?_) fun _ => hR.pure _
        cases h
        exact rememberTypeNames_depth rid names s
      · exact hR.bind (hR.lift _) fun rid => hR.bind (respects_skipToEnd hR) fun _ =>
          hR.bind (hshare rid) fun _ => hR.pure _
      · exact hR.bind (hR.loop (respects_listTurn hR hel tag) (fun _ => hR.throw _) _)
          fun _ => hR.pure _
      · exact hR.bind (hR.loop (respects_dictTurn hR hel) (fun _ => hR.throw _) _)
          fun _ => hR.pure _
      · exact hR.bind (hel tag attrs) fun _ => hR.pure _
  | empty tag attrs =>
      rw [objTurn]
      split_ifs
      · exact hR.bind (hR.lift _) fun rid => hR.bind (hshare rid) fun _ => hR.pure _
      · exact hR.pure _
  | _ => exact hR.pure _

theorem respects_parseElementInner (p : Platform) (tag : String) (attrs : List Attr) :
    Respects R (parseElementInner el p tag attrs) := by
  rw [parseElementInner]
  cases leafParser p tag with
  | some parse =>
      exact hR.bind (respects_readText hR tag) fun _ => hR.bind (hR.lift _) fun _ => hR.pure _
  | none =>
      simp only []
      -- An object, a reference, or an element that is skipped.
      split_ifs
      · refine hR.bind (hR.lift _) fun refId => hR.bind ?_ fun obj =>
          hR.bind (hR.update _ fun s a s' h => ?_) fun _ => hR.pure _
        · exact hR.bind (hR.loop (respects_objTurn hR hel) (fun _ => hR.throw _) _)
            fun _ => hR.pure _
        · cases hkeep : keepReferenced refId (.object obj) s with
          | error x =>
              rw [hkeep] at h
              cases h
          | ok t =>
              rw [hkeep] at h
              cases h
              exact keepReferenced_depth refId _ s _ hkeep
      · exact hR.bind (hR.update _ fun s a s' h => resolveRef_depth attrs 0 s s' a h) fun _ =>
          hR.bind (respects_skipToEnd hR) fun _ => hR.pure _
      · exact hR.bind (respects_skipToEnd hR) fun _ => hR.pure _

omit hel

/-- The decoder respects every framing relation. -/
theorem respects_parseElement (p : Platform) :
    ∀ (allowed : Nat) (tag : String) (attrs : List Attr),
      Respects R (parseElement p allowed tag attrs)
  | 0, _, _ => hR.throw _
  | allowed + 1, tag, attrs => by
      intro c
      have hinner := hR.nested _ (respects_parseElementInner hR
        (fun t a => respects_parseElement p allowed t a) p tag attrs) c
      simp only [parseElement, Bind.bind, EStateM.bind, Pull.update]
      by_cases hdepth : MAX_NESTING_DEPTH ≤ c.state.depth
      · simp only [if_pos hdepth]
        exact hR.refl c
      · simp only [if_neg hdepth]
        exact hinner

end Respects

/-- No function of the decoder puts an event back. -/
theorem consumes_parseElement (p : Platform) (allowed : Nat) (tag : String) (attrs : List Attr) :
    Respects Consumes (parseElement p allowed tag attrs) :=
  respects_parseElement framing_consumes p allowed tag attrs

/-- The nesting counter is restored, on success and on failure. -/
theorem parseElement_depth (p : Platform) (allowed : Nat) (tag : String) (attrs : List Attr) :
    Respects SameDepth (parseElement p allowed tag attrs) :=
  respects_parseElement framing_sameDepth p allowed tag attrs

end Psrp

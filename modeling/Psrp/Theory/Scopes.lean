import Psrp.Lib.Xml
import Psrp.Theory.SelfClosing

/-!
# What a Balanced Part of a Document Leaves Open

The scopes of the stack machine, and how matching tags close them.

A scope is a loop of the decoder that an end tag ends: the body of an object,
a list, a dictionary and an entry of it, the text of a leaf, a level of what is
skipped. A start tag opens at most one scope, and an end tag closes at most
one, except that it is ignored where nothing waits for it. The decoder does
not compare an end tag with the start tag it belongs to, but with the scope on
top. So a part of a document whose tags match may close more than it opened,
and never less (`scopes_of_balanced`).

What is gathered in a dictionary or among type names grows until it is
closed, and a scope that was closed is not opened again by the same part of
the document (`gathered_of_balanced`).

## Main definitions

* `Config.scopes`: What is open, innermost first, with the end tag that
  closes it.
* `Activity.gathered`: How much has been gathered in the scope of a frame.

## Theorems

* `scopes_start`, `scopes_stop`, `scopes_flat`: What an event does to scopes.
* `scopes_of_balanced`: What stays open.
-/

namespace Psrp

namespace Machine

open Xml (Attr Event Balanced)

/-- A scope. -/
inductive Scope where
  /-- A loop over children, which an end tag closes. -/
  | loop (closing : String)
  /-- A text, which an end tag closes. -/
  | text (closing : String)
  /-- A level of what is skipped, which any end tag closes. -/
  | skipped

/-- Whether an end tag closes a scope. -/
def Scope.Awaits (tag : String) : Scope → Prop
  | .loop closing | .text closing => closing = tag
  | .skipped => True

/-- The scopes of an object within its body. -/
def Mode.scopes : Mode → List Scope
  | .body => []
  | .members closing | .list closing _ => [.loop closing]
  | .dict _ => [.loop "DCT"]
  | .entry _ _ => [.loop "En", .loop "DCT"]
  | .typeNames _ _ => [.loop "TN"]
  | .typeName _ _ _ => [.text "T", .loop "TN"]
  | .skipRef _ level => .skipped :: List.replicate (level - 1) .skipped

/-- The scopes of a frame. -/
def Activity.scopes : Activity → List Scope
  | .leaf tag _ _ => [.text tag]
  | .skip level _ => .skipped :: List.replicate (level - 1) .skipped
  | .object _ mode => mode.scopes ++ [.loop "Obj"]

/-- Everything that is open, innermost first. -/
def Config.scopes (c : Config) : List Scope := c.stack.flatMap fun f => f.activity.scopes

/-- Every frame has a scope of its own. -/
theorem Activity.scopes_eq_cons (a : Activity) : ∃ x xs, a.scopes = x :: xs := by
  cases a with
  | leaf | skip => exact ⟨_, _, rfl⟩
  | object ctx mode => cases mode <;> exact ⟨_, _, rfl⟩

theorem Activity.scopes_pos (a : Activity) : 1 ≤ a.scopes.length := by
  rcases a.scopes_eq_cons with ⟨x, xs, h⟩
  rw [h]
  exact Nat.le_add_left 1 _

theorem Config.stack_le_scopes (c : Config) : c.stack.length ≤ c.scopes.length := by
  rcases c with ⟨stack, s, out⟩
  induction stack with
  | nil => exact Nat.le_refl 0
  | cons f rest ih =>
      have hpos := f.activity.scopes_pos
      simp only [Config.scopes, List.flatMap_cons, List.length_append, List.length_cons] at ih ⊢
      omega

/-- Delivering a value opens nothing and closes nothing. -/
theorem receive_scopes (name : Text) (v : Option PsValue) (a : Activity) :
    (receive name v a).scopes = a.scopes := by
  cases a with
  | leaf | skip => rfl
  | object ctx mode =>
      cases mode with
      | members | entry => cases v <;> rfl
      | _ => rfl

theorem deliver_scopes (name : Text) (v : Option PsValue) (c : Config) :
    (deliver name v c).scopes = c.scopes := by
  rcases c with ⟨stack, s, out⟩
  cases stack with
  | nil => rfl
  | cons f rest =>
      rw [deliver, Config.scopes, Config.scopes, List.flatMap_cons, List.flatMap_cons,
        receive_scopes]

/-- What a move does to the scopes of the frame on top. -/
def Move.scopes (a : Activity) : Move → List Scope
  | .goto b => b.scopes
  | .push child => child.activity.scopes ++ a.scopes
  | .pop _ => []

theorem move_scopes (name : Text) (rest : List Frame) (a : Activity) (out : List PsValue)
    (s : DecoderState) (m : Move) :
    (Config.move name rest a out s m).scopes
      = m.scopes a ++ rest.flatMap fun f => f.activity.scopes := by
  cases m with
  | goto b => rfl
  | push child =>
      simp only [Config.move, Config.scopes, List.flatMap_cons, Move.scopes, List.append_assoc]
  | pop v =>
      rw [Config.move, deliver_scopes]
      rfl

section Opening

variable {p : Platform} {s s' : DecoderState} {m : Move}

/-- An element that is read opens one scope. -/
theorem openElement_scopes {name : Text} {tag : String} {attrs : List Attr} {f : Frame}
    (h : openElement p name tag attrs s = .ok (f, s')) :
    ∃ x : Scope, x.Awaits tag ∧ f.activity.scopes = [x] := by
  rcases (openElement_cases p name tag attrs s s' f h).2 with
    ⟨_, _, rfl, _⟩ | ⟨_, rfl, _, rfl, _⟩ | ⟨_, _, _, rfl⟩ | ⟨_, _, _, rfl, _⟩
  · exact ⟨.text tag, rfl, rfl⟩
  · exact ⟨.loop "Obj", rfl, rfl⟩
  · exact ⟨.skipped, trivial, rfl⟩
  · exact ⟨.skipped, trivial, rfl⟩

/-- What a start tag adds. -/
def Opens (tag : String) (before after : List Scope) : Prop :=
  after = before ∨ ∃ x : Scope, x.Awaits tag ∧ after = x :: before

theorem pushElement_scopes {name : Text} {tag : String} {attrs : List Attr} {a : Activity}
    (h : pushElement p name tag attrs s = .ok (m, s')) : Opens tag a.scopes (m.scopes a) := by
  rw [pushElement, except_map_eq_ok] at h
  rcases h with ⟨⟨f, t⟩, hopen, h⟩
  cases h
  rcases openElement_scopes hopen with ⟨x, hx, hf⟩
  exact Or.inr ⟨x, hx, congrArg (· ++ a.scopes) hf⟩

theorem pushNamed_scopes {tag : String} {attrs : List Attr} {a : Activity}
    (h : pushNamed p tag attrs s = .ok (m, s')) : Opens tag a.scopes (m.scopes a) := by
  rw [pushNamed] at h
  cases hname : nameAttr attrs with
  | error x =>
      rw [hname] at h
      cases h
  | ok name =>
      rw [hname] at h
      exact pushElement_scopes h

/-- A start tag opens at most one scope, which its end tag closes. -/
theorem step_start_scopes {a : Activity} {tag : String} {attrs : List Attr}
    (h : a.step p s (.start tag attrs) = .ok (m, s')) : Opens tag a.scopes (m.scopes a) := by
  -- An open tag is either taken by the reader or passed over; what it takes opens one scope.
  cases a with
  | leaf name parse text =>
      cases h
      exact Or.inl rfl
  | skip level value =>
      cases h
      cases level with
      | zero => exact Or.inl rfl
      | succ n => exact Or.inr ⟨.skipped, trivial, rfl⟩
  | object ctx mode =>
      cases mode with
      | body =>
          simp only [Activity.step, bodyStep] at h
          -- The body of an object opens its parts, and any other tag as an element.
          split_ifs at h with hmembers htn href hlist hdict
          · cases h
            exact Or.inr ⟨.loop tag, rfl, rfl⟩
          · rw [except_map_eq_ok] at h
            rcases h with ⟨rid, _, h⟩
            cases h
            exact Or.inr ⟨.loop "TN", htn.symm, rfl⟩
          · rw [except_map_eq_ok] at h
            rcases h with ⟨rid, _, h⟩
            cases h
            exact Or.inr ⟨.skipped, trivial, rfl⟩
          · cases h
            exact Or.inr ⟨.loop tag, rfl, rfl⟩
          · cases h
            exact Or.inr ⟨.loop "DCT", hdict.symm, rfl⟩
          · exact pushElement_scopes h
      | members => exact pushNamed_scopes h
      | list => exact pushElement_scopes h
      | entry => exact pushNamed_scopes h
      | dict entries =>
          cases h
          by_cases htag : tag = "En"
          · rw [if_pos htag]
            exact Or.inr ⟨.loop "En", htag.symm, rfl⟩
          · rw [if_neg htag]
            exact Or.inl rfl
      | typeNames rid names =>
          cases h
          by_cases htag : tag = "T"
          · rw [if_pos htag]
            exact Or.inr ⟨.text "T", htag.symm, rfl⟩
          · rw [if_neg htag]
            exact Or.inl rfl
      | typeName =>
          cases h
          exact Or.inl rfl
      | skipRef rid level =>
          cases h
          cases level with
          | zero => exact Or.inl rfl
          | succ n => exact Or.inr ⟨.skipped, trivial, rfl⟩

end Opening

section Closing

variable {p : Platform} {s s' : DecoderState} {m : Move}

/-- What an end tag takes away: the scope on top, if it waits for that tag. -/
def Closes (tag : String) (before after : List Scope) : Prop :=
  (after = before ∧ ∀ x outer, before = x :: outer → ¬ x.Awaits tag) ∨ ∃ x, before = x :: after

/-- An end tag that nothing waits for. -/
theorem closes_other {tag closing : String} {x : Scope}
    (hx : x.Awaits tag = (closing = tag)) (h : tag ≠ closing) (outer : List Scope) :
    Closes tag (x :: outer) (x :: outer) := by
  refine Or.inl ⟨rfl, fun y zs heq => ?_⟩
  cases heq
  rw [hx]
  exact Ne.symm h

/-- A level of what is skipped. -/
theorem skipped_scopes (level : Nat) (hlevel : level - 1 ≠ 0) :
    Scope.skipped :: List.replicate (level - 1) .skipped
      = .skipped :: (.skipped :: List.replicate (level - 1 - 1) .skipped) := by
  rcases level with _ | _ | n
  · exact absurd rfl hlevel
  · exact absurd rfl hlevel
  · rfl

/-- An end tag closes at most one scope: the one on top, which it closes if
    that waits for it. -/
theorem step_stop_scopes {a : Activity} {tag : String}
    (h : a.step p s (.stop tag) = .ok (m, s')) : Closes tag a.scopes (m.scopes a) := by
  -- An end tag closes the innermost scope if it is the one that scope waits for.
  cases a with
  | leaf name parse text =>
      simp only [Activity.step, leafStep] at h
      by_cases htag : tag = name
      · rw [if_pos htag, except_map_eq_ok] at h
        rcases h with ⟨v, _, h⟩
        cases h
        exact Or.inr ⟨.text name, rfl⟩
      · rw [if_neg htag] at h
        cases h
        exact closes_other rfl htag []
  | skip level value =>
      simp only [Activity.step, skipStep] at h
      cases h
      -- A skip waits for as many end tags as it has seen open.
      by_cases hlevel : level - 1 = 0
      · rw [if_pos hlevel]
        refine Or.inr ⟨.skipped, ?_⟩
        rw [Activity.scopes, hlevel]
        rfl
      · rw [if_neg hlevel]
        exact Or.inr ⟨.skipped, skipped_scopes level hlevel⟩
  | object ctx mode =>
      cases mode with
      | body =>
          simp only [Activity.step, bodyStep] at h
          by_cases htag : tag = "Obj"
          · rw [if_pos htag, except_map_eq_ok] at h
            rcases h with ⟨t, _, h⟩
            cases h
            exact Or.inr ⟨_, rfl⟩
          · rw [if_neg htag] at h
            cases h
            exact closes_other rfl htag []
      | members closing =>
          cases h
          by_cases htag : tag = closing
          · rw [if_pos htag]
            exact Or.inr ⟨_, rfl⟩
          · rw [if_neg htag]
            exact closes_other rfl htag _
      | list closing items =>
          simp only [Activity.step, listStep] at h
          by_cases htag : tag = closing
          · rw [if_pos htag] at h
            cases h
            exact Or.inr ⟨_, rfl⟩
          · rw [if_neg htag] at h
            cases h
            exact closes_other rfl htag _
      | dict entries =>
          simp only [Activity.step, dictStep] at h
          by_cases htag : tag = "DCT"
          · rw [if_pos htag] at h
            cases h
            exact Or.inr ⟨_, rfl⟩
          · rw [if_neg htag] at h
            cases h
            exact closes_other rfl htag _
      | entry entries current =>
          cases h
          by_cases htag : tag = "En"
          · rw [if_pos htag]
            exact Or.inr ⟨_, rfl⟩
          · rw [if_neg htag]
            exact closes_other rfl htag _
      | typeNames rid names =>
          simp only [Activity.step, typeNamesStep] at h
          by_cases htag : tag = "TN"
          · rw [if_pos htag] at h
            cases h
            exact Or.inr ⟨_, rfl⟩
          · rw [if_neg htag] at h
            cases h
            exact closes_other rfl htag _
      | typeName rid names text =>
          cases h
          by_cases htag : tag = "T"
          · rw [if_pos htag]
            exact Or.inr ⟨_, rfl⟩
          · rw [if_neg htag]
            exact closes_other rfl htag _
      | skipRef rid level =>
          simp only [Activity.step, skipRefStep] at h
          by_cases hlevel : level - 1 = 0
          · rw [if_pos hlevel] at h
            cases h
            refine Or.inr ⟨.skipped, ?_⟩
            rw [Activity.scopes, Mode.scopes, hlevel]
            rfl
          · rw [if_neg hlevel] at h
            cases h
            refine Or.inr ⟨.skipped, ?_⟩
            rw [Activity.scopes, Mode.scopes, skipped_scopes level hlevel]
            rfl

end Closing

section Flat

variable {p : Platform} {s s' : DecoderState} {m : Move}

theorem receiveEmpty_scopes {named : Bool} {a : Activity} {tag : String} {attrs : List Attr}
    (h : receiveEmpty named a tag attrs s = .ok (m, s')) : m.scopes a = a.scopes := by
  rw [receiveEmpty] at h
  cases hempty : parseEmpty tag attrs s with
  | error x =>
      rw [hempty] at h
      cases h
  | ok r =>
      rcases r with ⟨v, t⟩
      cases v with
      | none =>
          rw [hempty] at h
          cases h
          rfl
      | some v =>
          simp only [hempty] at h
          cases named with
          | false =>
              cases h
              exact receive_scopes _ _ a
          | true =>
              rw [if_pos rfl, except_map_eq_ok] at h
              rcases h with ⟨name, _, h⟩
              cases h
              exact receive_scopes _ _ a

/-- Nothing else opens a scope or closes one. -/
theorem step_flat_scopes {a : Activity} {e : Event} (he : e.isFlat = true)
    (h : a.step p s e = .ok (m, s')) : m.scopes a = a.scopes := by
  -- Text and self-closed tags leave the reader where it is.
  cases a with
  | leaf name parse text =>
      cases e with
      | start | stop => cases he
      | empty | text | cdata | generalRef | other =>
          simp only [Activity.step, leafStep, except_map_eq_ok] at h
          rcases h with ⟨t, _, h⟩
          cases h
          rfl
  | skip level value =>
      cases e with
      | start | stop => cases he
      | _ =>
          cases h
          rfl
  | object ctx mode =>
      cases e with
      | start | stop => cases he
      | empty tag attrs =>
          cases mode with
          | body =>
              simp only [Activity.step, bodyStep] at h
              split_ifs at h
              · rw [except_map_eq_ok] at h
                rcases h with ⟨rid, _, h⟩
                cases h
                rfl
              · cases h
                rfl
          | members closing =>
              simp only [Activity.step, membersStep] at h
              split_ifs at h
              · rw [except_map_eq_ok] at h
                rcases h with ⟨name, _, h⟩
                cases h
                exact receive_scopes _ _ _
              · exact receiveEmpty_scopes h
          | list => exact receiveEmpty_scopes h
          | entry => exact receiveEmpty_scopes h
          | _ =>
              cases h
              rfl
      | text | cdata | generalRef | other =>
          cases mode with
          | typeName rid names text =>
              simp only [Activity.step, typeNameStep, except_map_eq_ok] at h
              rcases h with ⟨t, _, h⟩
              cases h
              rfl
          | _ =>
              cases h
              rfl

end Flat

section Config

variable {p : Platform} {c c' : Config}

theorem scopes_start {tag : String} {attrs : List Attr}
    (h : c.step p (.start tag attrs) = .ok c') : Opens tag c.scopes c'.scopes := by
  rcases c with ⟨stack, s, out⟩
  cases stack with
  | nil =>
      simp only [Config.step, except_map_eq_ok] at h
      rcases h with ⟨⟨f, s'⟩, hopen, rfl⟩
      simp only [Opens, Config.scopes, List.flatMap_cons, List.flatMap_nil, List.append_nil]
      exact Or.inr (openElement_scopes hopen)
  | cons f rest =>
      simp only [Config.step, except_map_eq_ok] at h
      rcases h with ⟨⟨m, s'⟩, hstep, rfl⟩
      rw [move_scopes]
      rcases step_start_scopes hstep with heq | ⟨x, hx, heq⟩
      · exact Or.inl (congrArg (· ++ _) heq)
      · exact Or.inr ⟨x, hx, congrArg (· ++ _) heq⟩

theorem scopes_stop {tag : String} (h : c.step p (.stop tag) = .ok c') :
    Closes tag c.scopes c'.scopes := by
  rcases c with ⟨stack, s, out⟩
  cases stack with
  | nil =>
      cases h
      exact Or.inl ⟨rfl, nofun⟩
  | cons f rest =>
      simp only [Config.step, except_map_eq_ok] at h
      rcases h with ⟨⟨m, s'⟩, hstep, rfl⟩
      rw [move_scopes]
      rcases step_stop_scopes hstep with ⟨heq, hno⟩ | ⟨x, heq⟩
      · refine Or.inl ⟨congrArg (· ++ _) heq, fun x outer htop => ?_⟩
        -- Every frame has a scope of its own, so the one on top is the frame's.
        rcases f.activity.scopes_eq_cons with ⟨y, ys, hy⟩
        rw [Config.scopes, List.flatMap_cons, hy, List.cons_append] at htop
        rw [← (List.cons.inj htop).1]
        exact hno y ys hy
      · refine Or.inr ⟨x, ?_⟩
        rw [Config.scopes, List.flatMap_cons, heq, List.cons_append]

theorem scopes_flat {e : Event} (he : e.isFlat = true) (h : c.step p e = .ok c') :
    c'.scopes = c.scopes := by
  rcases c with ⟨stack, s, out⟩
  cases stack with
  | nil =>
      cases e with
      | start | stop => cases he
      | empty tag attrs =>
          simp only [Config.step, except_map_eq_ok] at h
          rcases h with ⟨⟨v, s'⟩, _, rfl⟩
          rfl
      | _ =>
          cases h
          rfl
  | cons f rest =>
      simp only [Config.step, except_map_eq_ok] at h
      rcases h with ⟨⟨m, s'⟩, hstep, rfl⟩
      rw [move_scopes, step_flat_scopes he hstep]
      rfl

theorem Closes.suffix {tag : String} {before after : List Scope} (h : Closes tag before after) :
    after <:+ before := by
  rcases h with ⟨heq, _⟩ | ⟨x, heq⟩
  · exact heq ▸ List.suffix_rfl
  · exact heq ▸ List.suffix_cons x after

/-- The end tag of an element, where at most the scope its start tag opened is
    left of it. -/
theorem Closes.element {tag : String} {outer opened inner closed : List Scope}
    (hopens : Opens tag outer opened) (hinner : inner <:+ opened) (hcloses : Closes tag inner closed) :
    closed <:+ outer := by
  rcases hopens with rfl | ⟨x, hx, rfl⟩
  · exact hcloses.suffix.trans hinner
  · rcases List.suffix_cons_iff.mp hinner with rfl | hinner
    · rcases hcloses with ⟨_, hno⟩ | ⟨y, heq⟩
      · exact absurd hx (hno x outer rfl)
      · exact (List.cons.inj heq).2 ▸ List.suffix_rfl
    · exact hcloses.suffix.trans hinner

/-- A part of a document whose tags match closes what it opens, and perhaps
    more. -/
theorem scopes_of_balanced {es : List Event} (hes : Balanced es) (h : c.Reaches p es c') :
    c'.scopes <:+ c.scopes := by
  induction hes generalizing c c' with
  | nil =>
      cases h
      exact List.suffix_rfl
  | flat he _ ih =>
      cases h with
      | step hstep hrest => exact scopes_flat he hstep ▸ ih hrest
  | @element name attrs inner es _ _ ihinner ih =>
      cases h with
      | @step _ c1 _ _ _ hstart hrest =>
          rcases hrest.split with ⟨c2, hinner, hrest⟩
          cases hrest with
          | step hstop hrest =>
              exact (ih hrest).trans
                (Closes.element (scopes_start hstart) (ihinner hinner) (scopes_stop hstop))

end Config

section Gathering

variable {p : Platform} {c c' : Config}

/-- How much is gathered in a scope: twice the number of entries or names, and
    one more while the next is read. -/
def Activity.gathered : Activity → Option Nat
  | .object _ (.dict entries) => some (2 * entries.length)
  | .object _ (.entry entries _) => some (2 * entries.length + 1)
  | .object _ (.typeNames _ names) => some (2 * names.length)
  | .object _ (.typeName _ names _) => some (2 * names.length + 1)
  | _ => none

/-- What the outermost frame has gathered. -/
def Config.gathered (c : Config) : Option Nat := c.stack.getLast?.bind fun f => f.activity.gathered

/-- What was gathered is still there, or its scope was closed. -/
def Config.Kept (n : Nat) (c : Config) : Prop :=
  (∃ k, n ≤ k ∧ c.gathered = some k) ∨ c.scopes.length ≤ 1

theorem receive_gathered (name : Text) (v : Option PsValue) (a : Activity) :
    (receive name v a).gathered = a.gathered := by
  cases a with
  | leaf | skip => rfl
  | object ctx mode =>
      cases mode with
      | members | entry => cases v <;> rfl
      | _ => rfl

/-- Gathering goes on until the scope is closed. -/
theorem Steps.gathered {s s' : DecoderState} {a : Activity} {e : Event} {m : Move} {n : Nat}
    (h : Steps p s a e m s') (hn : a.gathered = some n) :
    (∃ child, m = .push child)
      ∨ ∃ b, m = .goto b ∧ ((∃ k, n ≤ k ∧ b.gathered = some k) ∨ b.scopes.length ≤ 1) := by
  cases h with
  | opened => exact Or.inl ⟨_, rfl⟩
  | received =>
      exact Or.inr ⟨_, rfl, Or.inl ⟨n, Nat.le_refl n, (receive_gathered _ _ _).trans hn⟩⟩
  | ignored => exact Or.inr ⟨_, rfl, Or.inl ⟨n, Nat.le_refl n, hn⟩⟩
  | shared => exact Or.inr ⟨_, rfl, Or.inr (Nat.le_refl 1)⟩
  | dictClosed => exact Or.inr ⟨_, rfl, Or.inr (Nat.le_refl 1)⟩
  | typeNamesClosed => exact Or.inr ⟨_, rfl, Or.inr (Nat.le_refl 1)⟩
  | entryOpened =>
      cases hn
      exact Or.inr ⟨_, rfl, Or.inl ⟨_, Nat.le_succ _, rfl⟩⟩
  | typeNameOpened =>
      cases hn
      exact Or.inr ⟨_, rfl, Or.inl ⟨_, Nat.le_succ _, rfl⟩⟩
  | typeNameText =>
      cases hn
      exact Or.inr ⟨_, rfl, Or.inl ⟨_, Nat.le_refl _, rfl⟩⟩
  | @entryClosed ctx entries entry =>
      cases hn
      refine Or.inr ⟨_, rfl, Or.inl ⟨_, ?_, rfl⟩⟩
      rw [List.length_append, List.length_singleton]
      omega
  | @typeNameClosed ctx rid names text =>
      cases hn
      refine Or.inr ⟨_, rfl, Or.inl ⟨_, ?_, rfl⟩⟩
      rw [List.length_append, List.length_singleton]
      omega
  | leafText | leafClosed | skipped | skipClosed | entered | objectClosed | refSkipped
  | membersClosed | listClosed => cases hn

/-- Delivering a value gathers nothing. -/
theorem deliver_gathered (name : Text) (v : Option PsValue) (c : Config) :
    (deliver name v c).gathered = c.gathered := by
  rcases c with ⟨stack, s, out⟩
  rcases stack with _ | ⟨f, _ | ⟨g, rest⟩⟩
  · rfl
  · exact receive_gathered name v f.activity
  · rfl

theorem step_kept {n : Nat} {e : Event} (hn : c.gathered = some n) (h : c.step p e = .ok c') :
    c'.Kept n := by
  rcases c with ⟨stack, s, out⟩
  cases stack with
  | nil => cases hn
  | cons f rest =>
      simp only [Config.step, except_map_eq_ok] at h
      rcases h with ⟨⟨m, s'⟩, hstep, rfl⟩
      cases rest with
      | cons g rest =>
          -- The outermost frame is not the one that moves.
          refine Or.inl ⟨n, Nat.le_refl n, ?_⟩
          cases m with
          | goto b => exact hn
          | push child => exact hn
          | pop v => exact (deliver_gathered _ _ _).trans hn
      | nil =>
          rcases (steps_of_step f.activity e hstep).gathered hn with
            ⟨child, rfl⟩ | ⟨b, rfl, ⟨k, hk, hb⟩ | hb⟩
          · exact Or.inl ⟨n, Nat.le_refl n, hn⟩
          · exact Or.inl ⟨k, hk, hb⟩
          · refine Or.inr ?_
            rw [move_scopes, List.flatMap_nil, List.append_nil]
            exact hb

theorem Config.Kept.weaken {m n : Nat} (h : c.Kept n) (hm : m ≤ n) : c.Kept m := by
  rcases h with ⟨k, hk, hn⟩ | hclosed
  · exact Or.inl ⟨k, Nat.le_trans hm hk, hn⟩
  · exact Or.inr hclosed

/-- An end tag does not open anything. -/
theorem kept_stop {n : Nat} {tag : String} (hc : c.Kept n) (h : c.step p (.stop tag) = .ok c') :
    c'.Kept n := by
  rcases hc with ⟨k, hk, hn⟩ | hclosed
  · exact (step_kept hn h).weaken hk
  · exact Or.inr (Nat.le_trans (scopes_stop h).suffix.length_le hclosed)

/-- What was gathered is kept by a part of a document whose tags match, or its
    scope is closed at the end too. -/
theorem kept_of_balanced {n : Nat} {es : List Event} (hes : Balanced es) (hc : c.Kept n)
    (h : c.Reaches p es c') : c'.Kept n := by
  induction hes generalizing c c' n with
  | nil =>
      cases h
      exact hc
  | flat he hes ih =>
      rcases hc with ⟨k, hk, hn⟩ | hclosed
      · cases h with
        | step hstep hrest => exact ih ((step_kept hn hstep).weaken hk) hrest
      · exact Or.inr (Nat.le_trans (scopes_of_balanced (.flat he hes) h).length_le hclosed)
  | element hinner hes ihinner ih =>
      rcases hc with ⟨k, hk, hn⟩ | hclosed
      · cases h with
        | step hstart hrest =>
            rcases hrest.split with ⟨d, hd, hrest⟩
            cases hrest with
            | step hstop hrest =>
                exact ih (kept_stop (ihinner ((step_kept hn hstart).weaken hk) hd) hstop) hrest
      · exact Or.inr (Nat.le_trans (scopes_of_balanced (.element hinner hes) h).length_le hclosed)

end Gathering

end Machine

end Psrp

import Psrp.Theory.Steps
import Psrp.Theory.Weight

/-!
# The Budget of References

What a document is charged for, and what its parts are in bytes.

A reference copies a value and charges its weight to the budget, and so does
an object that is kept for references to it. The budget of a document is less
than the largest 64-bit number, so a charge that is accepted is exact
(`charge_exact`). No step touches the budget itself, and what was charged
stays charged and stays within it (`Spends`).

## Main definitions

* `attrsSize`: The bytes of attributes.
* `Spends`: What a step does to the budget.
* `startOf`: The machine before a document.

## Theorems

* `resolveRef_weight`, `parseEmpty_weight`: A reference weighs what it is
  charged.
* `Steps.spends`, `Config.Reaches.spends`: What a step and a run do to the
  budget.
-/

namespace Psrp

open Xml (Attr Event)

/-- The bytes of attributes. -/
def attrsSize (attrs : List Attr) : Nat := (attrs.map Attr.size).sum

/-- The value of an attribute is among the bytes of the tag. -/
theorem attrValue_size (key : String) (attrs : List Attr) (v : Text)
    (h : attrValue key attrs = .ok (some v)) : Text.utf8Len v ≤ attrsSize attrs := by
  induction attrs with
  | nil => cases h
  | cons a rest ih =>
      have hcons : attrsSize (a :: rest) = a.size + attrsSize rest := by
        simp only [attrsSize, List.map_cons, List.sum_cons]
      rw [attrValue] at h
      -- The first attribute of the name, or one of the rest.
      split_ifs at h
      · cases hvalue : a.value with
        | error m =>
            rw [hvalue] at h
            cases h
        | ok u =>
            rw [hvalue] at h
            cases h
            rw [hcons, Attr.size, hvalue]
            simp only []
            omega
      · have hrest := ih h
        omega

theorem nameAttr_size (attrs : List Attr) (name : Option Text) (h : nameAttr attrs = .ok name) :
    Text.utf8Len (name.getD []) ≤ attrsSize attrs := by
  rw [nameAttr, except_map_eq_ok] at h
  rcases h with ⟨v, hv, rfl⟩
  cases v with
  | none => exact Nat.zero_le _
  | some v => exact Nat.le_trans (utf8Len_decodePwshEscapes_le v) (attrValue_size "N" attrs v hv)

/-- The character data of an event is within the event. -/
theorem eventText_size (e : Event) (t : Text) (h : eventText e = .ok t) :
    Text.utf8Len t ≤ e.size := by
  cases e with
  | text u =>
      cases h
      exact Nat.le_refl _
  | cdata u =>
      cases h
      exact Nat.le_refl _
  | generalRef name char =>
      rcases char with m | c
      · cases h
      · cases c with
        | some c =>
            cases h
            exact Nat.le_of_eq (by simp only [Text.utf8Len_cons, Text.utf8Len_nil]; rfl)
        | none =>
            simp only [eventText] at h
            -- A predefined entity stands for one character.
            have hone : ∀ u, Xml.resolvePredefinedEntity name = some u → Text.utf8Len u = 1 := by
              intro u hu
              rw [Xml.resolvePredefinedEntity] at hu
              split_ifs at hu <;> cases hu <;> decide
            cases hres : Xml.resolvePredefinedEntity name with
            | none =>
                rw [hres] at h
                cases h
            | some u =>
                rw [hres] at h
                cases h
                rw [hone _ hres]
                show 1 ≤ Text.utf8Len name + 2
                omega
  | start | empty | stop | other =>
      cases h
      exact Nat.zero_le _

/-- What a step does to the budget: it is the same, and what was charged stays
    charged. -/
structure Spends (s s' : DecoderState) : Prop where
  budget : s'.budget = s.budget
  mono : s.expanded ≤ s'.expanded
  within : s.expanded ≤ s.budget → s'.expanded ≤ s'.budget

theorem Spends.refl (s : DecoderState) : Spends s s := ⟨rfl, Nat.le_refl _, id⟩

/-- A charge that is accepted is exact. -/
theorem charge_exact (s s' : DecoderState) (w : Nat) (hbudget : s.budget < maxWeight)
    (h : s.charge w = .ok s') : s'.expanded = s.expanded + w ∧ Spends s s' := by
  simp only [DecoderState.charge] at h
  split_ifs at h with hfits
  cases h
  have hexact : satAdd s.expanded w = s.expanded + w := by
    simp only [satAdd, maxWeight] at hfits hbudget ⊢
    omega
  exact ⟨hexact, rfl, by simp only [hexact]; omega, fun _ => by simp only []; omega⟩

/-- A charged weight is not saturated. -/
theorem charge_weight (s s' : DecoderState) (v : PsValue) (hbudget : s.budget < maxWeight)
    (h : s.charge (measure v).1 = .ok s') : s'.expanded = s.expanded + weight v ∧ Spends s s' := by
  have hexact := charge_exact s s' _ hbudget h
  refine ⟨?_, hexact.2⟩
  have hmeasure := measure_weight v
  have hwithin : s'.expanded ≤ s.budget := by
    simp only [DecoderState.charge] at h
    split_ifs at h with hfits
    cases h
    exact Nat.le_of_not_lt hfits
  have hsum := hexact.1
  omega

/-- A reference weighs what it is charged, or is null. -/
theorem resolveRef_weight (attrs : List Attr) (level : Nat) (s s' : DecoderState) (v : PsValue)
    (hbudget : s.budget < maxWeight) (h : resolveRef attrs level s = .ok (v, s')) :
    weight v + s.expanded ≤ s'.expanded + 1 ∧ Spends s s' := by
  rcases resolveRef_cases attrs level s s' v h with ⟨rfl, rfl⟩ | ⟨_, _, _, _, hcharge⟩
  · exact ⟨Nat.le_of_eq (Nat.add_comm _ _), Spends.refl _⟩
  · have hexact := charge_weight s s' v hbudget hcharge
    exact ⟨by omega, hexact.2⟩

/-- A self-closed element is charged for what it refers to. -/
theorem parseEmpty_weight (tag : String) (attrs : List Attr) (s s' : DecoderState)
    (v : Option PsValue) (hbudget : s.budget < maxWeight)
    (h : parseEmpty tag attrs s = .ok (v, s')) :
    (v.map weight).getD 0 + s.expanded ≤ s'.expanded + 1 ∧ Spends s s' := by
  have hone : 1 + s.expanded ≤ s.expanded + 1 := by omega
  rcases parseEmpty_cases tag attrs s s' v h with
    ⟨_, rfl, rfl⟩ | ⟨_, w, rfl, hres⟩ | ⟨_, rfl, rfl⟩ | ⟨_, rfl, rfl⟩ | ⟨rfl, rfl⟩
  · exact ⟨hone, Spends.refl _⟩
  · exact resolveRef_weight attrs 1 s s' w hbudget hres
  · exact ⟨hone, Spends.refl _⟩
  · exact ⟨hone, Spends.refl _⟩
  · exact ⟨by simp only [Option.map_none, Option.getD_none]; omega, Spends.refl _⟩

theorem keepReferenced_spends (refId : Option Text) (v : PsValue) (s s' : DecoderState)
    (hbudget : s.budget < maxWeight) (h : keepReferenced refId v s = .ok s') : Spends s s' := by
  simp only [keepReferenced] at h
  split at h
  · cases h
    exact Spends.refl _
  · rw [except_map_eq_ok] at h
    rcases h with ⟨t, hcharge, rfl⟩
    have hspends := (charge_exact s t _ hbudget hcharge).2
    exact ⟨hspends.budget, hspends.mono, hspends.within⟩

theorem rememberTypeNames_spends (rid : Option Text) (names : List Text) (s : DecoderState) :
    Spends s (rememberTypeNames rid names s) := by
  cases rid <;> exact ⟨rfl, Nat.le_refl _, id⟩

namespace Machine

theorem namedBy_size {attrs : List Attr} {name : Text} (h : NamedBy attrs name) :
    Text.utf8Len name ≤ attrsSize attrs := by
  rcases h with rfl | ⟨n, hn, rfl⟩
  · exact Nat.zero_le _
  · exact nameAttr_size attrs n hn

/-- Opening an element spends what it refers to. -/
theorem openElement_spends {p : Platform} {name : Text} {tag : String} {attrs : List Attr}
    {s s' : DecoderState} {f : Frame} (hbudget : s.budget < maxWeight)
    (h : openElement p name tag attrs s = .ok (f, s')) : Spends s s' := by
  have hdeeper : Spends s { s with depth := s.depth + 1 } := ⟨rfl, Nat.le_refl _, id⟩
  rcases (openElement_cases p name tag attrs s s' f h).2 with
    ⟨_, _, _, rfl⟩ | ⟨_, _, _, _, rfl⟩ | ⟨v, _, hres, _⟩ | ⟨_, _, _, _, rfl⟩
  · exact hdeeper
  · exact hdeeper
  · have hspends := (resolveRef_weight attrs 0 { s with depth := s.depth + 1 } s' v hbudget hres).2
    exact ⟨hspends.budget, hspends.mono, hspends.within⟩
  · exact hdeeper

/-- What a step does to the budget. -/
theorem Steps.spends {p : Platform} {s s' : DecoderState} {a : Activity} {e : Event} {m : Move}
    (h : Steps p s a e m s') (hbudget : s.budget < maxWeight) : Spends s s' := by
  cases h with
  | opened _ hopen => exact openElement_spends hbudget hopen
  | received _ hempty => exact (parseEmpty_weight _ _ s s' _ hbudget hempty).2
  | objectClosed hkeep => exact keepReferenced_spends _ _ s s' hbudget hkeep
  | typeNamesClosed => exact rememberTypeNames_spends _ _ s
  | _ => exact Spends.refl _

/-- So does every step. -/
theorem Config.step_spends {p : Platform} {c c' : Config} {e : Event}
    (hbudget : c.state.budget < maxWeight) (h : c.step p e = .ok c') :
    Spends c.state c'.state := by
  rcases c with ⟨stack, s, out⟩
  cases stack with
  | nil =>
      cases e with
      | start tag attrs =>
          simp only [Config.step, except_map_eq_ok] at h
          rcases h with ⟨⟨f, s'⟩, hopen, rfl⟩
          exact openElement_spends hbudget hopen
      | empty tag attrs =>
          simp only [Config.step, except_map_eq_ok] at h
          rcases h with ⟨⟨v, s'⟩, hempty, rfl⟩
          exact (parseEmpty_weight tag attrs s s' v hbudget hempty).2
      | _ =>
          cases h
          exact Spends.refl _
  | cons f rest =>
      simp only [Config.step, except_map_eq_ok] at h
      rcases h with ⟨⟨m, s'⟩, hstep, rfl⟩
      -- Only what the innermost activity does can spend anything.
      have hspends := (steps_of_step f.activity e hstep).spends hbudget
      cases m with
      | pop v =>
          rw [Config.move, deliver_state]
          exact ⟨hspends.budget, hspends.mono, hspends.within⟩
      | _ => exact hspends

/-- What a run does to the budget. -/
theorem Config.Reaches.spends {p : Platform} {c c' : Config} {es : List Event}
    (h : c.Reaches p es c') (hbudget : c.state.budget < maxWeight) :
    Spends c.state c'.state := by
  induction h with
  | refl => exact Spends.refl _
  | step hstep _ ih =>
      have hspends := Config.step_spends hbudget hstep
      have hrest := ih (hspends.budget ▸ hbudget)
      exact ⟨hrest.budget.trans hspends.budget, Nat.le_trans hspends.mono hrest.mono,
        fun h => hrest.within (hspends.within h)⟩

end Machine

open Machine (Config)

/-- The machine before a document. -/
def startOf (p : Platform) (xml : Text) : Config :=
  Config.start (initialState (p.read (cleanDocument xml)).events
    (Text.utf8Len (cleanDocument xml)))

theorem refBudget_lt (n : Nat) : refBudget n < maxWeight := by
  simp only [refBudget, REF_BUDGET_CEILING, maxWeight]
  omega

theorem refBudget_mono {m n : Nat} (h : m ≤ n) : refBudget m ≤ refBudget n := by
  simp only [refBudget, satAdd, REF_BUDGET_FLOOR, REF_BUDGET_CEILING, REF_BUDGET_PER_BYTE]
  omega

/-- Cleaning a document never lengthens it. -/
theorem utf8Len_cleanDocument_le (xml : Text) :
    Text.utf8Len (cleanDocument xml) ≤ Text.utf8Len xml :=
  Text.utf8Len_le_of_sublist ((List.dropWhile_sublist _).trans (List.dropWhile_sublist _))

end Psrp

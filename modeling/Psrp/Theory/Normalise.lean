import Psrp.Core.Decode

/-!
# What a Round Trip Makes of a Value

The normal form of a value, and its nesting in a document.

A document cannot say everything a value can. A list or a dictionary has no
element of its own and travels inside an object, as the one property
`_value`; a `_value` beside other properties is not read back, and neither is
a null one or the text of `ToString`. A `Decimal` is trimmed, and a character
outside the basic plane has no code unit. `norm` says what comes back.

`nest` counts the elements the decoder counts. Every object, every leaf with
content and every `ToString` is one level; a null is self-closed, and the
elements of lists, dictionaries, members and type names are read in loops.

## Main definitions

* `norm`: The normal form.
* `nest`: The nesting.

## Theorems

* `norm_norm`: Normalising is idempotent.
-/

namespace Psrp

namespace PsValue

/-- An object around a bare container. -/
def wrap (v : PsValue) : PsValue := .object ⟨[(valueKey, v)], [], none⟩

/-- Whether all properties are the synthetic one. -/
def onlyValue (props : List (Text × PsValue)) : Bool := props.all fun (k, _) => k = valueKey

mutual

/-- The value a round trip makes of a value. -/
def norm : PsValue → PsValue
  | .list items => wrap (.list (normItems items))
  | .dict entries => wrap (.dict (normEntries entries))
  | .object ⟨props, typeNames, _⟩ =>
    .object ⟨if onlyValue props then (normValue props).elim [] fun v => [(valueKey, v)]
      else normMembers props, typeNames, none⟩
  | .decimal s => .decimal (Text.trim s)
  | .char c => .char (if c.toNat < 2 ^ 16 then c else replacementCharacter)
  | v => v

def normItems : List PsValue → List PsValue
  | [] => []
  | v :: vs => norm v :: normItems vs

def normEntries : List (PsValue × PsValue) → List (PsValue × PsValue)
  | [] => []
  | (k, v) :: es => (norm k, norm v) :: normEntries es

/-- What stands bare in an object for its `_value`, unless that is null. -/
def normValue : List (Text × PsValue) → Option PsValue
  | [] => none
  | (k, v) :: ps =>
    if k = valueKey then
      match v with
      | .null => none
      | .list items => some (.list (normItems items))
      | .dict entries => some (.dict (normEntries entries))
      | v => some (norm v)
    else normValue ps

/-- The other properties. -/
def normMembers : List (Text × PsValue) → List (Text × PsValue)
  | [] => []
  | (k, v) :: ps => if k = valueKey then normMembers ps else (k, norm v) :: normMembers ps

end

mutual

/-- The element nesting of the document of a value. -/
def nest : PsValue → Nat
  | .null => 0
  | .list items => nestItems items + 1
  | .dict entries => nestEntries entries + 1
  | .object ⟨props, _, toString⟩ =>
    max (max (if toString.isSome then 1 else 0) (nestValue props)) (nestMembers props) + 1
  | _ => 1

def nestItems : List PsValue → Nat
  | [] => 0
  | v :: vs => max (nest v) (nestItems vs)

def nestEntries : List (PsValue × PsValue) → Nat
  | [] => 0
  | (k, v) :: es => max (max (nest k) (nest v)) (nestEntries es)

/-- The nesting of what stands bare in an object. -/
def nestValue : List (Text × PsValue) → Nat
  | [] => 0
  | (k, v) :: ps =>
    if k = valueKey then
      match v with
      | .list items => nestItems items
      | .dict entries => nestEntries entries
      | v => nest v
    else nestValue ps

def nestMembers : List (Text × PsValue) → Nat
  | [] => 0
  | (k, v) :: ps => if k = valueKey then nestMembers ps else max (nest v) (nestMembers ps)

end

theorem normItems_eq_map (items : List PsValue) : normItems items = items.map norm := by
  induction items with
  | nil => rfl
  | cons v vs ih => rw [normItems, ih, List.map_cons]

theorem normEntries_eq_map (entries : List (PsValue × PsValue)) :
    normEntries entries = entries.map fun e => (norm e.1, norm e.2) := by
  induction entries with
  | nil => rfl
  | cons e es ih => rw [normEntries, ih, List.map_cons]

/-- The members are normalised one by one. -/
theorem normMembers_eq_map (props : List (Text × PsValue)) :
    normMembers props = (props.filter fun (k, _) => k ≠ valueKey).map fun q => (q.1, norm q.2) := by
  induction props with
  | nil => rfl
  | cons q ps ih =>
      rcases q with ⟨k, v⟩
      rw [normMembers, ih]
      by_cases hk : k = valueKey
      · rw [if_pos hk, List.filter_cons_of_neg (by simp only [hk, ne_eq, not_true_eq_false,
          decide_false, Bool.false_eq_true, not_false_eq_true])]
      · rw [if_neg hk, List.filter_cons_of_pos (by simp only [ne_eq, hk, not_false_eq_true,
          decide_true]), List.map_cons]

/-- An object of nothing but the synthetic property has no members. -/
theorem members_of_onlyValue (props : List (Text × PsValue)) (h : onlyValue props = true) :
    normMembers props = [] ∧ nestMembers props = 0 := by
  induction props with
  | nil => exact ⟨rfl, rfl⟩
  | cons q ps ih =>
      rcases q with ⟨k, v⟩
      simp only [onlyValue, List.all_cons, Bool.and_eq_true, decide_eq_true_eq] at h
      rw [normMembers, nestMembers, if_pos h.1, if_pos h.1]
      exact ih h.2

/-- The names of the members are among the names of the properties. -/
theorem keyed_normMembers (props : List (Text × PsValue)) (h : IndexMap.Keyed props) :
    IndexMap.Keyed (normMembers props) := by
  rw [IndexMap.Keyed, normMembers_eq_map, List.map_map]
  exact h.sublist (List.Sublist.map Prod.fst List.filter_sublist)

/-- Normalising twice is normalising once, of everything below. -/
theorem normItems_normItems (items : List PsValue) (h : ∀ v ∈ items, norm (norm v) = norm v) :
    normItems (normItems items) = normItems items := by
  rw [normItems_eq_map, normItems_eq_map, List.map_map]
  exact List.map_congr_left h

theorem normEntries_normEntries (entries : List (PsValue × PsValue))
    (h : ∀ e ∈ entries, norm (norm e.1) = norm e.1 ∧ norm (norm e.2) = norm e.2) :
    normEntries (normEntries entries) = normEntries entries := by
  rw [normEntries_eq_map, normEntries_eq_map, List.map_map]
  refine List.map_congr_left fun e he => ?_
  simp only [Function.comp, (h e he).1, (h e he).2]

theorem normMembers_normMembers (props : List (Text × PsValue))
    (h : ∀ q ∈ props, norm (norm q.2) = norm q.2) :
    normMembers (normMembers props) = normMembers props := by
  induction props with
  | nil => rfl
  | cons q ps ih =>
      rcases q with ⟨k, v⟩
      have hrest := ih fun w hw => h w (List.mem_cons_of_mem _ hw)
      rw [normMembers]
      by_cases hk : k = valueKey
      · rw [if_pos hk, hrest]
      · rw [if_neg hk, normMembers, if_neg hk, hrest, h (k, v) (List.mem_cons_self ..)]

theorem onlyValue_cons (k : Text) (v : PsValue) (ps : List (Text × PsValue)) :
    onlyValue ((k, v) :: ps) = (decide (k = valueKey) && onlyValue ps) := rfl

/-- Members that are not the synthetic property stay such. -/
theorem onlyValue_normMembers (props : List (Text × PsValue)) (h : onlyValue props = false) :
    onlyValue (normMembers props) = false := by
  induction props with
  | nil => cases h
  | cons q ps ih =>
      rcases q with ⟨k, v⟩
      rw [normMembers]
      by_cases hk : k = valueKey
      · rw [if_pos hk]
        refine ih ?_
        rwa [onlyValue_cons, decide_eq_true hk, Bool.true_and] at h
      · rw [if_neg hk, onlyValue_cons, decide_eq_false hk, Bool.false_and]

/-- The normal form of an object: what is read bare counts only when no member is. -/
theorem norm_object (props : List (Text × PsValue)) (typeNames : List Text)
    (toString : Option Text) :
    norm (.object ⟨props, typeNames, toString⟩) = .object (exposeValue (normValue props)
      ⟨normMembers props, typeNames, none⟩) := by
  rw [norm]
  by_cases honly : onlyValue props = true
  · rw [if_pos honly, (members_of_onlyValue props honly).1]
    cases normValue props with
    | none => rfl
    | some v => rfl
  · have hmembers : normMembers props ≠ [] := by
      intro hnil
      have hagain := onlyValue_normMembers props (Bool.eq_false_iff.mpr honly)
      rw [hnil] at hagain
      cases hagain
    rw [if_neg honly]
    cases normValue props with
    | none => rfl
    | some v => rw [exposeValue, if_neg hmembers]

/-- What stands bare is normalised once and for all. -/
theorem normValue_normValue (props : List (Text × PsValue)) (u : PsValue)
    (h : ∀ q ∈ props, norm (norm q.2) = norm q.2
      ∧ match q.2 with
        | .list items => ∀ v ∈ items, norm (norm v) = norm v
        | .dict entries =>
          ∀ e ∈ entries, norm (norm e.1) = norm e.1 ∧ norm (norm e.2) = norm e.2
        | _ => True)
    (hu : normValue props = some u) : normValue [(valueKey, u)] = some u := by
  induction props with
  | nil => cases hu
  | cons q ps ih =>
      rcases q with ⟨k, v⟩
      have hq := h (k, v) (List.mem_cons_self ..)
      -- The first bare value decides; it is in normal form already, and so are its parts.
      by_cases hk : k = valueKey
      · cases v with
        | null =>
            simp only [normValue, if_pos hk] at hu
            cases hu
        | list items =>
            simp only [normValue, if_pos hk] at hu
            cases hu
            simp only [normValue, if_true, normItems_normItems items hq.2]
        | dict entries =>
            simp only [normValue, if_pos hk] at hu
            cases hu
            simp only [normValue, if_true, normEntries_normEntries entries hq.2]
        | object o =>
            simp only [normValue, if_pos hk] at hu
            cases hu
            have hnorm := hq.1
            rcases o with ⟨props, typeNames, toString⟩
            rw [norm] at hnorm ⊢
            simp only [normValue, if_true, hnorm]
        | decimal s =>
            simp only [normValue, if_pos hk] at hu
            cases hu
            have hnorm := hq.1
            rw [norm] at hnorm ⊢
            simp only [normValue, if_true, hnorm]
        | char c =>
            simp only [normValue, if_pos hk] at hu
            cases hu
            have hnorm := hq.1
            rw [norm] at hnorm ⊢
            simp only [normValue, if_true, hnorm]
        | _ =>
            simp only [normValue, if_pos hk] at hu
            cases hu
            simp only [norm, normValue, if_true]
      · refine ih (fun w hw => h w (List.mem_cons_of_mem _ hw)) ?_
        cases v <;> simpa only [normValue, if_neg hk] using hu

/-- Normalising is idempotent. -/
theorem norm_norm (v : PsValue) : norm (norm v) = norm v := by
  suffices hboth : norm (norm v) = norm v ∧ match v with
      | .list items => ∀ v ∈ items, norm (norm v) = norm v
      | .dict entries =>
        ∀ e ∈ entries, norm (norm e.1) = norm e.1 ∧ norm (norm e.2) = norm e.2
      | _ => True from hboth.1
  induction v using PsValue.induction with
  | leaf v hv =>
      cases v with
      | list | dict | object => cases hv
      | decimal s => exact ⟨by rw [norm, norm, Text.trim_trim], trivial⟩
      | char c =>
          refine ⟨?_, trivial⟩
          rw [norm, norm]
          -- A character outside the plane becomes the replacement, which is in it.
          by_cases hc : c.toNat < 2 ^ 16
          · rw [if_pos hc, if_pos hc]
          · rw [if_neg hc]
            rfl
      | _ => exact ⟨rfl, trivial⟩
  | list items ih =>
      have hitems : ∀ v ∈ items, norm (norm v) = norm v := fun v hv => (ih v hv).1
      refine ⟨?_, hitems⟩
      have hwrap : normValue [(valueKey, list (normItems items))]
          = some (list (normItems (normItems items))) := by
        simp only [normValue, if_true]
      rw [norm, wrap, norm, hwrap, normItems_normItems items hitems]
      rfl
  | dict entries ih =>
      have hentries : ∀ e ∈ entries, norm (norm e.1) = norm e.1 ∧ norm (norm e.2) = norm e.2 :=
        fun e he => ⟨(ih e he).1.1, (ih e he).2.1⟩
      refine ⟨?_, hentries⟩
      have hwrap : normValue [(valueKey, dict (normEntries entries))]
          = some (dict (normEntries (normEntries entries))) := by
        simp only [normValue, if_true]
      rw [norm, wrap, norm, hwrap, normEntries_normEntries entries hentries]
      rfl
  | object o ih =>
      rcases o with ⟨props, typeNames, toString⟩
      refine ⟨?_, trivial⟩
      rw [norm]
      -- An object that is a bare value only is that value.
      by_cases honly : onlyValue props = true
      · rw [if_pos honly]
        cases hvalue : normValue props with
        | none => rfl
        | some u =>
            have hagain := normValue_normValue props u ih hvalue
            rw [Option.elim_some, norm, hagain]
            rfl
      · rw [if_neg honly, norm, if_neg, normMembers_normMembers props fun q hq => (ih q hq).1]
        rw [onlyValue_normMembers props (Bool.eq_false_iff.mpr honly)]
        exact Bool.false_ne_true

end PsValue

end Psrp

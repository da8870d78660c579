import Mathlib.Data.List.Nodup

/-!
# Insertion-Ordered Maps

A map that remembers the order its keys were first inserted in, as the list
of its entries.

Inserting an existing key replaces the value where it stands; inserting a new
one appends. Distinct keys (`Keyed`) is the invariant of the type, kept by
`insert` from the empty map on. It is a predicate rather than a field because
the maps nest inside the values they hold.

## Main definitions

* `IndexMap`: Entries in insertion order.
* `IndexMap.get`: Look a key up.
* `IndexMap.insert`: Insert or replace.
* `IndexMap.Keyed`: No key occurs twice.
* `IndexMap.Matches`: The same keys, with related values.

## Theorems

* `IndexMap.get_insert`: Looking up after an insertion.
* `IndexMap.mem_insert`: The entries after an insertion.
* `IndexMap.keyed_insert`: Insertion keeps the keys distinct.
* `IndexMap.insert_of_not_mem`: Inserting a new key appends.
* `IndexMap.get_eq_some_iff`: Looking up finds exactly the entries.
* `IndexMap.get_matches`, `IndexMap.insert_matches`: Related maps are looked up
  and extended alike.
-/

namespace Psrp

/-- The entries of an insertion-ordered map. -/
abbrev IndexMap (κ α : Type) := List (κ × α)

namespace IndexMap

variable {κ α β : Type} [DecidableEq κ]

/-- Look a key up. -/
def get (k : κ) : IndexMap κ α → Option α
  | [] => none
  | (k', v) :: rest => if k' = k then some v else get k rest

/-- Insert a key, or replace its value where it stands. -/
def insert (k : κ) (v : α) : IndexMap κ α → IndexMap κ α
  | [] => [(k, v)]
  | (k', v') :: rest => if k' = k then (k, v) :: rest else (k', v') :: insert k v rest

/-- No key occurs twice. -/
def Keyed (m : IndexMap κ α) : Prop := (m.map Prod.fst).Nodup

instance (m : IndexMap κ α) : Decidable (Keyed m) := inferInstanceAs (Decidable (List.Nodup _))

@[simp] theorem get_nil (k : κ) : get k ([] : IndexMap κ α) = none := rfl

/-- A look-up after an insertion. -/
theorem get_insert (k k' : κ) (v : α) (m : IndexMap κ α) :
    get k' (insert k v m) = if k = k' then some v else get k' m := by
  induction m with
  | nil => rfl
  | cons e rest ih =>
      rcases e with ⟨l, w⟩
      rw [insert]
      by_cases hl : l = k
      · rw [if_pos hl, get, get, hl]
        by_cases hk : k = k'
        · rw [if_pos hk, if_pos hk]
        · rw [if_neg hk, if_neg hk, if_neg hk]
      · rw [if_neg hl, get, get, ih]
        by_cases hk : l = k'
        · rw [if_pos hk, if_pos hk, if_neg (fun h => hl (hk.trans h.symm))]
        · rw [if_neg hk, if_neg hk]

/-- An insertion adds one entry at most. -/
theorem mem_insert (k : κ) (v : α) (m : IndexMap κ α) (e : κ × α) (h : e ∈ insert k v m) :
    e = (k, v) ∨ e ∈ m := by
  induction m with
  | nil => exact Or.inl (List.mem_singleton.mp h)
  | cons d rest ih =>
      rcases d with ⟨l, w⟩
      rw [insert] at h
      split_ifs at h with hl
      · rcases List.mem_cons.mp h with h | h
        · exact Or.inl h
        · exact Or.inr (List.mem_cons_of_mem _ h)
      · rcases List.mem_cons.mp h with h | h
        · exact Or.inr (h ▸ List.mem_cons_self ..)
        · rcases ih h with h | h
          · exact Or.inl h
          · exact Or.inr (List.mem_cons_of_mem _ h)

/-- A key keeps its place; a new one goes last. -/
theorem keys_insert (k : κ) (v : α) (m : IndexMap κ α) :
    (insert k v m).map Prod.fst
      = if k ∈ m.map Prod.fst then m.map Prod.fst else m.map Prod.fst ++ [k] := by
  induction m with
  | nil => rfl
  | cons d rest ih =>
      rcases d with ⟨l, w⟩
      rw [insert, List.map_cons]
      by_cases hl : l = k
      · rw [if_pos hl, if_pos (by rw [hl]; exact List.mem_cons_self ..), List.map_cons, hl]
      · have hkl : ¬ k = l := fun h => hl h.symm
        rw [if_neg hl, List.map_cons, ih]
        by_cases hk : k ∈ rest.map Prod.fst
        · rw [if_pos hk, if_pos (List.mem_cons_of_mem _ hk)]
        · rw [if_neg hk, if_neg (by rw [List.mem_cons]; exact fun h => h.elim hkl hk),
            List.cons_append]

theorem keyed_insert (k : κ) (v : α) (m : IndexMap κ α) (h : Keyed m) : Keyed (insert k v m) := by
  rw [Keyed, keys_insert]
  split_ifs with hk
  · exact h
  · exact List.Nodup.append h (List.nodup_singleton k)
      (List.disjoint_singleton.mpr hk)

/-- A new entry goes last. -/
theorem insert_of_not_mem (k : κ) (v : α) (m : IndexMap κ α) (h : k ∉ m.map Prod.fst) :
    insert k v m = m ++ [(k, v)] := by
  induction m with
  | nil => rfl
  | cons d rest ih =>
      rcases d with ⟨l, w⟩
      rw [List.map_cons, List.mem_cons, not_or] at h
      rw [insert, if_neg (fun hl => h.1 hl.symm), ih h.2, List.cons_append]

/-- A look-up finds the entry of a key. -/
theorem get_eq_some_iff (k : κ) (v : α) (m : IndexMap κ α) (h : Keyed m) :
    get k m = some v ↔ (k, v) ∈ m := by
  induction m with
  | nil => simp only [get_nil, reduceCtorEq, List.not_mem_nil]
  | cons d rest ih =>
      rcases d with ⟨l, w⟩
      rw [Keyed, List.map_cons, List.nodup_cons] at h
      rw [get, List.mem_cons, Prod.mk.injEq]
      -- The key is the first one here, and no later entry has it.
      by_cases hl : l = k
      · rw [if_pos hl, Option.some.injEq]
        constructor
        · intro hw
          exact Or.inl ⟨hl.symm, hw.symm⟩
        · rintro (⟨_, hv⟩ | hmem)
          · exact hv.symm
          · exact absurd (List.mem_map_of_mem (f := Prod.fst) hmem) (hl ▸ h.1)
      · rw [if_neg hl, ih h.2]
        constructor
        · exact Or.inr
        · rintro (⟨hk, _⟩ | hmem)
          · exact absurd hk.symm hl
          · exact hmem

theorem mem_of_get (k : κ) (v : α) (m : IndexMap κ α) (h : get k m = some v) : (k, v) ∈ m := by
  induction m with
  | nil => exact absurd h (by simp only [get_nil, reduceCtorEq, not_false_eq_true])
  | cons d rest ih =>
      rcases d with ⟨l, w⟩
      rw [get] at h
      split_ifs at h with hl
      · cases h
        rw [hl]
        exact List.mem_cons_self ..
      · exact List.mem_cons_of_mem _ (ih h)

/-- The same keys in the same order, and related values. -/
def Matches (r : α → β → Prop) (m : IndexMap κ α) (m' : IndexMap κ β) : Prop :=
  List.Forall₂ (fun a b => a.1 = b.1 ∧ r a.2 b.2) m m'

/-- Look-ups in related maps are related. -/
theorem get_matches {r : α → β → Prop} {m : IndexMap κ α} {m' : IndexMap κ β}
    (h : Matches r m m') (k : κ) : Option.Rel r (get k m) (get k m') := by
  induction h with
  | nil => exact .none
  | @cons a b _ _ hab _ ih =>
      rcases a with ⟨l, v⟩
      rcases b with ⟨_, w⟩
      rcases hab with ⟨rfl, hvw⟩
      rw [get, get]
      split_ifs
      · exact .some hvw
      · exact ih

/-- Inserting related values under one key keeps the maps related. -/
theorem insert_matches {r : α → β → Prop} {m : IndexMap κ α} {m' : IndexMap κ β}
    (h : Matches r m m') (k : κ) {v : α} {w : β} (hvw : r v w) :
    Matches r (insert k v m) (insert k w m') := by
  induction h with
  | nil => exact .cons ⟨rfl, hvw⟩ .nil
  | @cons a b _ _ hab htail ih =>
      rcases a with ⟨l, v'⟩
      rcases b with ⟨_, w'⟩
      rcases hab with ⟨rfl, hvw'⟩
      rw [insert, insert]
      split_ifs
      · exact .cons ⟨rfl, hvw⟩ htail
      · exact .cons ⟨rfl, hvw'⟩ ih

end IndexMap

end Psrp

import Psrp.Theory.Base64
import Psrp.Theory.Descent
import Psrp.Theory.Escape

/-!
# The Weight of Values

The weight `measure` gives a value, without saturation, and what leaves weigh
against the text they are read from.

`measure` adds with saturation, so it is exact below the largest 64-bit number
and a lower bound beyond (`measure_weight`). A charge that fits the budget is
therefore exact.

## Main definitions

* `weight`: The weight of a value, without saturation.

## Theorems

* `measure_weight`: Measuring saturates the weight.
* `LeafOf.weight_le`: A leaf weighs at most its text and one.
-/

namespace Psrp

open Xml (Attr Event)

/-- The largest 64-bit number. -/
def maxWeight : Nat := 2 ^ 64 - 1

/-- The weight of type names. -/
def namesWeight (names : List Text) : Nat := (names.map fun t => Text.utf8Len t + 1).sum

mutual

/-- The weight of a value, without saturation. -/
def weight : PsValue → Nat
  | .string s | .decimal s | .dateTime s | .duration s | .version s | .uri s | .xml s
  | .scriptBlock s | .secureString s => Text.utf8Len s + 1
  | .bytes b => b.length + 1
  | .list items => 1 + itemsWeight items
  | .dict entries => 1 + entriesWeight entries
  | .object ⟨props, typeNames, toString⟩ =>
    (toString.map Text.utf8Len).getD 0 + 1 + namesWeight typeNames + propsWeight props
  | _ => 1

def itemsWeight : List PsValue → Nat
  | [] => 0
  | v :: vs => weight v + itemsWeight vs

def entriesWeight : List (PsValue × PsValue) → Nat
  | [] => 0
  | (k, v) :: es => weight k + weight v + entriesWeight es

def propsWeight : List (Text × PsValue) → Nat
  | [] => 0
  | (name, v) :: ps => Text.utf8Len name + 1 + weight v + propsWeight ps

end

theorem satAdd_min (a b : Nat) :
    satAdd (min a maxWeight) (min b maxWeight) = min (a + b) maxWeight := by
  simp only [satAdd, maxWeight]
  omega

theorem satAdd_min_left (a b : Nat) : satAdd (min a maxWeight) b = min (a + b) maxWeight := by
  simp only [satAdd, maxWeight]
  omega

theorem measureTypeNames_eq (names : List Text) : ∀ w : Nat,
    measureTypeNames (min w maxWeight) names = min (w + namesWeight names) maxWeight := by
  induction names with
  | nil => exact fun w => rfl
  | cons t names ih =>
      intro w
      have hcons : namesWeight (t :: names) = Text.utf8Len t + 1 + namesWeight names := by
        simp only [namesWeight, List.map_cons, List.sum_cons]
      have hrest := ih (w + Text.utf8Len t + 1)
      rw [measureTypeNames] at hrest ⊢
      rw [List.foldl_cons, satAdd_min_left, satAdd_min_left, hrest, hcons]
      congr 1
      omega

/-- Measuring saturates the weight of everything below. -/
theorem measureItems_weight (items : List PsValue)
    (h : ∀ v ∈ items, (measure v).1 = min (weight v) maxWeight) : ∀ w height : Nat,
    (measureItems items (min w maxWeight, height)).1
      = min (w + itemsWeight items) maxWeight := by
  induction items with
  | nil => exact fun w _ => rfl
  | cons v vs ih =>
      intro w height
      have hv := h v (List.mem_cons_self ..)
      simp only [measureItems, hv, satAdd_min]
      rw [ih (fun u hu => h u (List.mem_cons_of_mem _ hu)), itemsWeight, Nat.add_assoc]

theorem measureEntries_weight (entries : List (PsValue × PsValue))
    (h : ∀ e ∈ entries, (measure e.1).1 = min (weight e.1) maxWeight
      ∧ (measure e.2).1 = min (weight e.2) maxWeight) : ∀ w height : Nat,
    (measureEntries entries (min w maxWeight, height)).1
      = min (w + entriesWeight entries) maxWeight := by
  induction entries with
  | nil => exact fun w _ => rfl
  | cons e es ih =>
      rcases e with ⟨k, v⟩
      intro w height
      have he := h (k, v) (List.mem_cons_self ..)
      simp only [measureEntries, he.1, he.2, satAdd_min]
      rw [ih (fun u hu => h u (List.mem_cons_of_mem _ hu)), entriesWeight]
      congr 1
      omega

theorem measureProps_weight (props : List (Text × PsValue))
    (h : ∀ q ∈ props, (measure q.2).1 = min (weight q.2) maxWeight) : ∀ w height : Nat,
    (measureProps props (min w maxWeight, height)).1
      = min (w + propsWeight props) maxWeight := by
  induction props with
  | nil => exact fun w _ => rfl
  | cons q ps ih =>
      rcases q with ⟨name, v⟩
      intro w height
      have hq := h (name, v) (List.mem_cons_self ..)
      simp only [measureProps, hq]
      rw [satAdd_min_left, satAdd_min_left, satAdd_min,
        ih (fun u hu => h u (List.mem_cons_of_mem _ hu)), propsWeight]
      congr 1
      omega

/-- Measuring saturates the weight. -/
theorem measure_weight (v : PsValue) : (measure v).1 = min (weight v) maxWeight := by
  induction v using PsValue.induction with
  | leaf v hv =>
      cases v with
      | list | dict | object => cases hv
      | _ => rfl
  | list items ih => exact measureItems_weight items ih 1 1
  | dict entries ih => exact measureEntries_weight entries ih 1 1
  | object o ih =>
      rcases o with ⟨props, typeNames, toString⟩
      have hbase : satAdd ((toString.map Text.utf8Len).getD 0) 1
          = min ((toString.map Text.utf8Len).getD 0 + 1) maxWeight := rfl
      simp only [measure, hbase, measureTypeNames_eq]
      exact measureProps_weight props ih _ 1

theorem measure_le_weight (v : PsValue) : (measure v).1 ≤ weight v := by
  rw [measure_weight]
  exact Nat.min_le_left _ _

theorem itemsWeight_append (vs ws : List PsValue) :
    itemsWeight (vs ++ ws) = itemsWeight vs + itemsWeight ws := by
  induction vs with
  | nil => rw [List.nil_append, itemsWeight, Nat.zero_add]
  | cons v vs ih => rw [List.cons_append, itemsWeight, itemsWeight, ih, Nat.add_assoc]

theorem entriesWeight_append (es fs : List (PsValue × PsValue)) :
    entriesWeight (es ++ fs) = entriesWeight es + entriesWeight fs := by
  induction es with
  | nil => rw [List.nil_append, entriesWeight, Nat.zero_add]
  | cons e es ih =>
      simp only [List.cons_append, entriesWeight, ih]
      omega

theorem namesWeight_append (ns ms : List Text) :
    namesWeight (ns ++ ms) = namesWeight ns + namesWeight ms := by
  simp only [namesWeight, List.map_append, List.sum_append]

/-- A leaf weighs at most its text and one. -/
theorem LeafOf.weight_le {t : Text} {v : PsValue} (h : LeafOf t v) :
    weight v ≤ Text.utf8Len t + 1 := by
  cases h with
  | text hv =>
      simp only [List.mem_cons, List.not_mem_nil, or_false] at hv
      rcases hv with rfl | rfl | rfl | rfl | rfl | rfl | rfl | rfl <;> exact Nat.le_refl _
  | decimal => exact Nat.succ_le_succ (Text.utf8Len_trim_le t)
  | bytes hb =>
      exact Nat.succ_le_succ (Nat.le_trans (base64Decode_length _ _ hb) (Text.utf8Len_trim_le t))
  -- Numbers, flags and the like weigh one, whatever their text is.
  | scalar hv =>
      have hone : weight v = 1 := by
        cases v <;> first
          | rfl
          | cases hv
      rw [hone]
      exact Nat.le_add_left _ _

end Psrp

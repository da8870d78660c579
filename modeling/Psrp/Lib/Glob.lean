import Mathlib.Computability.Language

/-!
# Patterns with Wildcards

Patterns over any alphabet whose symbols stand for one letter of some kind, or
for any string.

What a pattern matches is a language, the product of the languages of its
symbols. A matcher that goes through a text once can keep the last wildcard for
any string and forget the ones before it: whatever the part of the pattern up
to that wildcard matches, it can just as well match the shortest way. The
lemmas here say what is left to match after letters that stand for themselves
(`mem_letters_append`) and after a wildcard (`mem_many`, `mem_letters_many`).

## Main definitions

* `Symbol`, `language`: Patterns and what they match.
* `splits`: The matcher that tries every split at a wildcard.

## Theorems

* `splits_iff`: It decides the language.
* `mem_letters_append`, `mem_letters_many`: What is left to match.
-/

namespace Psrp

namespace Glob

/-- A symbol of a pattern. -/
inductive Symbol (α : Type) where
  | many
  | one (accepts : α → Bool)

variable {α : Type} {accepts : α → Bool} {letters : List (α → Bool)} {p : List (Symbol α)}
  {u x y : List α} {a : α}

/-- What a symbol matches. -/
def Symbol.language : Symbol α → Language α
  | many => ⊤
  | one accepts => {x | ∃ a, accepts a = true ∧ x = [a]}

/-- What a pattern matches. -/
def language : List (Symbol α) → Language α
  | [] => 1
  | s :: p => s.language * language p

/-- Try every split at every wildcard. -/
def splits : List (Symbol α) → List α → Bool
  | [], x => x.isEmpty
  | .many :: p, x => x.tails.any (splits p)
  | .one _ :: _, [] => false
  | .one accepts :: p, a :: x => accepts a && splits p x

theorem mem_nil : x ∈ language ([] : List (Symbol α)) ↔ x = [] := Language.mem_one x

theorem mem_many : x ∈ language (.many :: p) ↔ ∃ y, y <:+ x ∧ y ∈ language p := by
  rw [language, Language.mem_mul]
  constructor
  · rintro ⟨w, _, y, hy, rfl⟩
    exact ⟨y, List.suffix_append w y, hy⟩
  · rintro ⟨y, ⟨w, rfl⟩, hy⟩
    exact ⟨w, trivial, y, hy, rfl⟩

theorem mem_one_cons : a :: x ∈ language (.one accepts :: p)
    ↔ accepts a = true ∧ x ∈ language p := by
  rw [language, Language.mem_mul]
  constructor
  · rintro ⟨w, ⟨b, hb, rfl⟩, y, hy, heq⟩
    rw [List.singleton_append, List.cons.injEq] at heq
    rcases heq with ⟨rfl, rfl⟩
    exact ⟨hb, hy⟩
  · rintro ⟨ha, hx⟩
    exact ⟨[a], ⟨a, ha, rfl⟩, x, hx, rfl⟩

theorem not_mem_one_nil : [] ∉ language (.one accepts :: p) := by
  rw [language, Language.mem_mul]
  rintro ⟨w, ⟨b, _, rfl⟩, y, _, heq⟩
  exact List.cons_ne_nil b y heq

/-- Trying every split decides the language. -/
theorem splits_iff (p : List (Symbol α)) (x : List α) : splits p x = true ↔ x ∈ language p := by
  induction p generalizing x with
  | nil =>
      rw [mem_nil]
      exact List.isEmpty_iff
  | cons s p ih =>
      cases s with
      | many =>
          rw [splits, List.any_eq_true, mem_many]
          simp only [List.mem_tails, ih]
      | one accepts =>
          cases x with
          | nil => exact ⟨fun h => absurd h Bool.false_ne_true, fun h => absurd h not_mem_one_nil⟩
          | cons a x => rw [splits, Bool.and_eq_true, mem_one_cons, ih]

/-- Only wildcards match nothing. -/
theorem nil_mem : [] ∈ language p ↔ ∀ s ∈ p, s = .many := by
  induction p with
  | nil => exact ⟨fun _ s hs => absurd hs List.not_mem_nil, fun _ => mem_nil.mpr rfl⟩
  | cons s p ih =>
      cases s with
      | many =>
          rw [mem_many]
          simp only [List.suffix_nil, exists_eq_left, ih, List.mem_cons, forall_eq_or_imp,
            true_and]
      | one accepts =>
          refine ⟨fun h => absurd h not_mem_one_nil, fun h => ?_⟩
          cases h _ List.mem_cons_self

/-- Letters of a text are what letters of a pattern ask for. -/
def Fits (letters : List (α → Bool)) (u : List α) : Prop :=
  List.Forall₂ (fun accepts a => accepts a = true) letters u

theorem Fits.snoc (h : Fits letters u) (ha : accepts a = true) :
    Fits (letters ++ [accepts]) (u ++ [a]) := by
  induction h with
  | nil => exact .cons ha .nil
  | cons hb _ ih => exact .cons hb ih

/-- What is left to match after letters. -/
theorem mem_letters_append (h : Fits letters u) :
    u ++ x ∈ language (letters.map .one ++ p) ↔ x ∈ language p := by
  induction h with
  | nil => rfl
  | cons ha _ ih =>
      rw [List.map_cons, List.cons_append, List.cons_append, mem_one_cons, ih]
      exact and_iff_right ha

/-- A text that a pattern matches begins with what its letters ask for. -/
theorem fits_of_mem (h : x ∈ language (letters.map .one ++ p)) :
    ∃ u y, x = u ++ y ∧ Fits letters u ∧ y ∈ language p := by
  induction letters generalizing x with
  | nil => exact ⟨[], x, rfl, .nil, h⟩
  | cons accepts letters ih =>
      rw [List.map_cons, List.cons_append] at h
      cases x with
      | nil => exact absurd h not_mem_one_nil
      | cons a x =>
          rw [mem_one_cons] at h
          rcases ih h.2 with ⟨u, y, rfl, hu, hy⟩
          exact ⟨a :: u, y, rfl, .cons h.1 hu, hy⟩

/-- Letters as many as the text leave nothing to match. -/
theorem mem_letters_suffix (h : Fits letters u) :
    (∃ z, z <:+ u ∧ z ∈ language (letters.map .one ++ p)) ↔ [] ∈ language p := by
  constructor
  · rintro ⟨z, hz, hmem⟩
    rcases fits_of_mem hmem with ⟨u', y, rfl, hu', hy⟩
    have hlen : u'.length = u.length := hu'.length_eq.symm.trans h.length_eq
    have hlong := hz.length_le
    rw [List.length_append] at hlong
    rcases List.eq_nil_of_length_eq_zero (by omega : y.length = 0) with rfl
    exact hy
  · intro hnil
    refine ⟨u, List.suffix_refl u, ?_⟩
    rw [← List.append_nil u]
    exact (mem_letters_append h).mpr hnil

/-- Letters that a text begins with can be matched there: no end of the text
    that a pattern matches after them and a wildcard is out of reach. -/
theorem mem_letters_many (h : Fits letters u) :
    (∃ z, z <:+ u ++ x ∧ z ∈ language (letters.map .one ++ .many :: p))
      ↔ ∃ y, y <:+ x ∧ y ∈ language p := by
  constructor
  · rintro ⟨z, hz, hmem⟩
    rcases fits_of_mem hmem with ⟨u', rest, rfl, hu', hrest⟩
    rcases mem_many.mp hrest with ⟨y, hy, hmem⟩
    refine ⟨y, hy.trans ?_, hmem⟩
    -- As many letters are gone as in the given text, or more.
    have hlen : u'.length = u.length := hu'.length_eq.symm.trans h.length_eq
    have hlong := hz.length_le
    rw [List.length_append, List.length_append] at hlong
    refine List.suffix_of_suffix_length_le ((List.suffix_append u' rest).trans hz)
      (List.suffix_append u x) ?_
    omega
  · rintro ⟨y, hy, hmem⟩
    exact ⟨u ++ x, List.suffix_refl _, (mem_letters_append h).mpr (mem_many.mpr ⟨y, hy, hmem⟩)⟩

end Glob

end Psrp

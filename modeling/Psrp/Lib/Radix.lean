import Mathlib.Data.List.Forall2
import Mathlib.Data.Nat.Digits.Defs
import Mathlib.Tactic.IntervalCases
import Psrp.Lib.Text

/-!
# Numbers in a Radix

Reading a number written in any radix up to 36, the way Rust's `char::to_digit`
and `from_str_radix` do.

`Reads` says what a text of digits stands for, by the positional value of its
digits. `accumulate` is the loop of a reader of a type with finitely many
values, which gives up as soon as a value does not fit. It gives up too early
on no number, since more digits never lower a value (`accumulate_iff`).

## Main definitions

* `Radix.digit`: The value of a digit.
* `Radix.Reads`: The number a text of digits stands for.
* `Radix.accumulate`: The digit loop of a bounded type.

## Theorems

* `Radix.accumulate_iff`: What the loop returns.
* `Radix.reads_toDigits`: A number is read back from its digits.
* `Radix.digit_toLower`: The case of a digit does not matter.
-/

namespace Psrp

namespace Radix

/-- The value of a digit or letter, whatever the radix. -/
def rank (c : Char) : Option Nat :=
  if c.isDigit then some (c.toNat - '0'.toNat)
  else if c.isLower then some (c.toNat - 'a'.toNat + 10)
  else if c.isUpper then some (c.toNat - 'A'.toNat + 10)
  else none

/-- `char::to_digit`. -/
def digit (radix : Nat) (c : Char) : Option Nat := (rank c).filter (· < radix)

/-- The number that a text of digits stands for. -/
def Reads (radix : Nat) (cs : Text) (n : Nat) : Prop :=
  ∃ ds, List.Forall₂ (fun c d => digit radix c = some d) cs ds ∧ n = Nat.ofDigits radix ds.reverse

/-- The digit loop of a type whose values are below `limit`. -/
def accumulate (radix limit : Nat) : Nat → Text → Option Nat
  | acc, [] => some acc
  | acc, c :: cs =>
    match digit radix c with
    | none => none
    | some d =>
      if acc * radix + d < limit then accumulate radix limit (acc * radix + d) cs else none

variable {radix limit acc d n : Nat} {c : Char} {cs : Text} {ds : List Nat}

theorem digit_lt (h : digit radix c = some d) : d < radix := by
  have hlt := (Option.filter_eq_some_iff.mp h).2
  exact of_decide_eq_true hlt

theorem ofDigits_reverse_cons :
    Nat.ofDigits radix (d :: ds).reverse
      = d * radix ^ ds.length + Nat.ofDigits radix ds.reverse := by
  rw [List.reverse_cons, Nat.ofDigits_append, Nat.ofDigits_singleton, List.length_reverse]
  ring

/-- The loop from any value read so far. -/
theorem accumulate_from_iff (h : acc < limit) :
    accumulate radix limit acc cs = some n ↔
      n < limit ∧ ∃ ds, List.Forall₂ (fun c d => digit radix c = some d) cs ds ∧
        n = acc * radix ^ ds.length + Nat.ofDigits radix ds.reverse := by
  induction cs generalizing acc with
  | nil =>
      constructor
      · intro heq
        cases heq
        exact ⟨h, [], .nil, by simp⟩
      · rintro ⟨-, ds, hds, rfl⟩
        cases hds
        simp [accumulate]
  | cons c cs ih =>
      -- The next digit moves the rest one place up.
      have hvalue : ∀ (d : Nat) (ds : List Nat),
          acc * radix ^ (d :: ds).length + Nat.ofDigits radix (d :: ds).reverse
            = (acc * radix + d) * radix ^ ds.length + Nat.ofDigits radix ds.reverse := by
        intro d ds
        rw [ofDigits_reverse_cons, List.length_cons]
        ring
      unfold accumulate
      rcases hd : digit radix c with _ | d
      · refine iff_of_false (fun heq => ?_) ?_
        · cases heq
        · rintro ⟨-, ds, hds, -⟩
          cases hds with
          | cons hd' _ => cases hd.symm.trans hd'
      · -- Below the limit the reading goes on; above, it stops for good.
        by_cases hlt : acc * radix + d < limit
        · simp only [if_pos hlt, ih hlt]
          constructor
          · rintro ⟨hn, ds, hds, rfl⟩
            exact ⟨hn, d :: ds, .cons hd hds, (hvalue d ds).symm⟩
          · rintro ⟨hn, ds', hds, rfl⟩
            cases hds with
            | @cons _ d' _ ds hd' hds =>
                cases hd.symm.trans hd'
                exact ⟨hn, ds, hds, hvalue d ds⟩
        · simp only [if_neg hlt]
          refine iff_of_false (fun heq => ?_) ?_
          · cases heq
          · -- What is read so far is never more than the number.
            rintro ⟨hn, ds', hds, rfl⟩
            cases hds with
            | @cons _ d' _ ds hd' hds =>
                cases hd.symm.trans hd'
                rw [hvalue d ds] at hn
                have hpos : 0 < radix ^ ds.length := Nat.pow_pos (Nat.zero_lt_of_lt (digit_lt hd))
                have hle := Nat.le_mul_of_pos_right (acc * radix + d) hpos
                omega

/-- What the loop of a bounded reader returns. -/
theorem accumulate_iff (h : 0 < limit) :
    accumulate radix limit 0 cs = some n ↔ n < limit ∧ Reads radix cs n := by
  rw [accumulate_from_iff h]
  simp only [Nat.zero_mul, Nat.zero_add, Reads]

theorem Reads.snoc (h : Reads radix cs n) (hd : digit radix c = some d) :
    Reads radix (cs ++ [c]) (n * radix + d) := by
  rcases h with ⟨ds, hds, rfl⟩
  refine ⟨ds ++ [d], List.rel_append hds (.cons hd .nil), ?_⟩
  rw [List.reverse_append, List.reverse_singleton, List.singleton_append, Nat.ofDigits_cons]
  ring

/-- Every digit that numbers are printed with is read back. -/
theorem digit_digitChar (hradix : radix ≤ 16) (h : d < radix) :
    digit radix d.digitChar = some d := by
  have hrank : rank d.digitChar = some d := by
    have h16 : d < 16 := Nat.lt_of_lt_of_le h hradix
    interval_cases d <;> rfl
  rw [digit, hrank, Option.filter_some, decide_eq_true h]
  rfl

/-- A number is read back from its digits. -/
theorem reads_toDigits (h1 : 1 < radix) (hradix : radix ≤ 16) (n : Nat) :
    Reads radix (Nat.toDigits radix n) n := by
  induction n using Nat.strongRecOn with
  | ind n ih =>
      by_cases hlt : n < radix
      · rw [Nat.toDigits_of_lt_base hlt]
        refine ⟨[n], .cons (digit_digitChar hradix hlt) .nil, ?_⟩
        exact Nat.ofDigits_singleton.symm
      · have hle : radix ≤ n := Nat.le_of_not_lt hlt
        have hmod : n % radix < radix := Nat.mod_lt _ (Nat.zero_lt_of_lt h1)
        rw [Nat.toDigits_of_base_le h1 hle]
        have hread := (ih (n / radix) (Nat.div_lt_self (by omega) h1)).snoc
          (digit_digitChar hradix hmod)
        rwa [Nat.mul_comm, Nat.div_add_mod] at hread

/-- What holds of every digit holds of every character of a number. -/
theorem forall_mem_toDigits {P : Char → Prop} (h1 : 1 < radix)
    (h : ∀ d, d < radix → P d.digitChar) (n : Nat) : ∀ c ∈ Nat.toDigits radix n, P c := by
  induction n using Nat.strongRecOn with
  | ind n ih =>
      intro c hc
      by_cases hlt : n < radix
      · rw [Nat.toDigits_of_lt_base hlt, List.mem_singleton] at hc
        rw [hc]
        exact h n hlt
      · have hle : radix ≤ n := Nat.le_of_not_lt hlt
        rw [Nat.toDigits_of_base_le h1 hle] at hc
        rcases List.mem_append.mp hc with hc | hc
        · exact ih (n / radix) (Nat.div_lt_self (by omega) h1) c hc
        · rw [List.mem_singleton.mp hc]
          exact h (n % radix) (Nat.mod_lt _ (by omega))

/-- Only zero is printed with a leading zero. -/
theorem head_toDigits (h1 : 1 < radix) (hradix : radix ≤ 16)
    (h : (Nat.toDigits radix n).head? = some '0') : n = 0 := by
  induction n using Nat.strongRecOn with
  | ind n ih =>
      by_cases hlt : n < radix
      · rw [Nat.toDigits_of_lt_base hlt, List.head?_cons, Option.some.injEq] at h
        have hdigit := digit_digitChar hradix hlt
        have hzero := digit_digitChar hradix (Nat.zero_lt_of_lt h1)
        rw [h] at hdigit
        exact Option.some.inj (hdigit.symm.trans hzero)
      · have hle : radix ≤ n := Nat.le_of_not_lt hlt
        rw [Nat.toDigits_of_base_le h1 hle, List.head?_append] at h
        rcases hhead : (Nat.toDigits radix (n / radix)).head? with _ | c
        · exact absurd (List.head?_eq_none_iff.mp hhead) Nat.toDigits_ne_nil
        · rw [hhead, Option.some_or] at h
          have hzero := ih (n / radix) (Nat.div_lt_self (by omega) h1) (hhead.trans h)
          have hpos := Nat.div_pos hle (Nat.zero_lt_of_lt h1)
          omega

/-- The case of a digit does not matter. -/
theorem digit_toLower (radix : Nat) (c : Char) : digit radix c.toLower = digit radix c := by
  have hletters : ∀ n, 65 ≤ n → n ≤ 90 → rank (Char.ofNat n).toLower = rank (Char.ofNat n) := by
    intro n hlo hhi
    interval_cases n <;> rfl
  have hrank : rank c.toLower = rank c := by
    rcases Text.toLower_induction (P := fun c => rank c.toLower = rank c) hletters c with hc | hc
    · exact hc
    · rw [hc]
  rw [digit, digit, hrank]

theorem reads_toLower : Reads radix (cs.map Char.toLower) n ↔ Reads radix cs n := by
  unfold Reads
  simp only [List.forall₂_map_left_iff, digit_toLower]

end Radix

end Psrp

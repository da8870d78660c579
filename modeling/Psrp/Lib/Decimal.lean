import Psrp.Lib.Text

/-!
# Decimal Integers

Printing and reading integers the way Rust's `Display` and `FromStr` do.

Reading is a left-to-right accumulation that fails at the first character
that is no digit or that takes the value out of the type's range. The range
is a parameter: one definition serves every integer type, signed or not, the
only difference being that a type with no negative value does not accept a
minus sign.

`parseInt_intText` is the round trip: every value of the range is read back
from its own decimal form. The accumulator never leaves the range on the way,
because it only ever moves towards the final value.

## Main definitions

* `ParseIntError`: Why a text is no integer of the type.
* `intText`: The decimal form of an integer.
* `accumulate`: The digit loop.
* `parseInt`: Reading an integer of a given range.

## Theorems

* `le_ofDigitChars`: Reading more digits never lowers the value.
* `accumulate_digits`: The loop on digits whose value is in range.
* `parseInt_intText`: An integer is read back from its decimal form.
* `intText_chars`: A decimal form holds digits and minus signs only.
-/

namespace Psrp

/-- Why a text was not read as an integer. -/
inductive ParseIntError where
  | empty
  | invalidDigit
  | posOverflow
  | negOverflow
  deriving DecidableEq, Repr

/-- The `Display` text of the error. -/
def ParseIntError.message : ParseIntError → String
  | .empty => "cannot parse integer from empty string"
  | .invalidDigit => "invalid digit found in string"
  | .posOverflow => "number too large to fit in target type"
  | .negOverflow => "number too small to fit in target type"

/-- The decimal form of an integer. -/
def intText (n : Int) : Text :=
  if n < 0 then '-' :: Nat.toDigits 10 n.natAbs else Nat.toDigits 10 n.natAbs

/-- The digit loop, in the direction the sign sets. -/
def accumulate (lo hi : Int) (negative : Bool) : Int → Text → Except ParseIntError Int
  | acc, [] => .ok acc
  | acc, c :: cs =>
    if c.isDigit then
      let d : Int := (c.toNat - '0'.toNat : Nat)
      let acc' := if negative then 10 * acc - d else 10 * acc + d
      if hi < acc' then .error .posOverflow
      else if acc' < lo then .error .negOverflow
      else accumulate lo hi negative acc' cs
    else .error .invalidDigit

/-- Read an integer between `lo` and `hi`. A leading plus sign is accepted,
    a leading minus sign only when the type has negative values. -/
def parseInt (lo hi : Int) (s : Text) : Except ParseIntError Int :=
  match s with
  | [] => .error .empty
  | ['+'] => .error .invalidDigit
  | ['-'] => .error .invalidDigit
  | '+' :: cs => accumulate lo hi false 0 cs
  | '-' :: cs => if lo < 0 then accumulate lo hi true 0 cs else .error .invalidDigit
  | cs => accumulate lo hi false 0 cs

theorem le_ofDigitChars (ds : Text) (a : Nat) : a ≤ Nat.ofDigitChars 10 ds a := by
  induction ds generalizing a with
  | nil => exact Nat.le_refl _
  | cons c cs ih =>
      rw [Nat.ofDigitChars_cons]
      exact Nat.le_trans (by omega) (ih _)

/-- On digits whose value, taken with its sign, stays in range, the loop
    returns that value. The accumulator is the sign times what was read. -/
theorem accumulate_digits (lo hi : Int) (negative : Bool) (hlo : lo ≤ 0) (hhi : 0 ≤ hi) :
    ∀ (ds : Text) (a : Nat), (∀ c ∈ ds, c.isDigit = true) →
      (if negative then lo ≤ -(Nat.ofDigitChars 10 ds a : Int)
        else (Nat.ofDigitChars 10 ds a : Int) ≤ hi) →
      accumulate lo hi negative (if negative then -(a : Int) else a) ds
        = .ok (if negative then -(Nat.ofDigitChars 10 ds a : Int)
            else Nat.ofDigitChars 10 ds a) := by
  intro ds
  induction ds with
  | nil => intro a _ _; rfl
  | cons c cs ih =>
      intro a hdig hrange
      have hc : c.isDigit = true := hdig c (List.mem_cons_self ..)
      rw [Nat.ofDigitChars_cons] at hrange ⊢
      set b : Nat := 10 * a + (c.toNat - '0'.toNat) with hb
      have hmono := le_ofDigitChars cs b
      have hacc : (if negative then 10 * (if negative then -(a : Int) else a)
            - ((c.toNat - '0'.toNat : Nat) : Int)
          else 10 * (if negative then -(a : Int) else a) + ((c.toNat - '0'.toNat : Nat) : Int))
          = if negative then -(b : Int) else b := by
        cases negative <;> simp only [Bool.false_eq_true, if_true, if_false, hb] <;> omega
      have hhigh : ¬ hi < (if negative then -(b : Int) else b) := by
        cases negative <;> simp only [Bool.false_eq_true, if_true, if_false] at hrange ⊢ <;> omega
      have hlow : ¬ (if negative then -(b : Int) else b) < lo := by
        cases negative <;> simp only [Bool.false_eq_true, if_true, if_false] at hrange ⊢ <;> omega
      simp only [accumulate, hc, if_true, hacc, if_neg hhigh, if_neg hlow]
      exact ih b (fun d hd => hdig d (List.mem_cons_of_mem _ hd)) hrange

theorem toDigits_isDigit (n : Nat) : ∀ c ∈ Nat.toDigits 10 n, c.isDigit = true :=
  fun _ hc => Nat.isDigit_of_mem_toDigits (by decide) (by decide) hc

/-- Every integer of the range is read back from its decimal form. -/
theorem parseInt_intText (lo hi n : Int) (hlo : lo ≤ 0) (hhi : 0 ≤ hi)
    (h1 : lo ≤ n) (h2 : n ≤ hi) : parseInt lo hi (intText n) = .ok n := by
  have hval : Nat.ofDigitChars 10 (Nat.toDigits 10 n.natAbs) 0 = n.natAbs :=
    Nat.ofDigitChars_ten_toDigits
  have hdig := toDigits_isDigit n.natAbs
  cases hds : Nat.toDigits 10 n.natAbs with
  | nil => exact absurd hds Nat.toDigits_ne_nil
  | cons d ds =>
      rw [hds] at hval hdig
      have hd : d.isDigit = true := hdig d (List.mem_cons_self ..)
      have hplus : d ≠ '+' := by rintro rfl; exact absurd hd (by decide)
      have hminus : d ≠ '-' := by rintro rfl; exact absurd hd (by decide)
      by_cases hn : n < 0
      · have hacc : accumulate lo hi true 0 (d :: ds) = .ok (-(n.natAbs : Int)) := by
          have h := accumulate_digits lo hi true hlo hhi (d :: ds) 0 hdig
            (by simp only [if_true, hval]; omega)
          simpa [hval] using h
        rw [intText, if_pos hn, hds, parseInt, if_pos (show lo < 0 by omega), hacc]
        · congr 1
          omega
        · rintro ⟨⟩
      · have hacc : accumulate lo hi false 0 (d :: ds) = .ok (n.natAbs : Int) := by
          have h := accumulate_digits lo hi false hlo hhi (d :: ds) 0 hdig
            (by simp only [Bool.false_eq_true, if_false, hval]; omega)
          simpa [hval] using h
        rw [intText, if_neg hn, hds, parseInt, hacc]
        · congr 1
          omega
        all_goals simp only [List.cons.injEq, reduceCtorEq, not_false_eq_true, imp_false,
          not_and, hplus, hminus, false_implies, implies_true]

/-- A decimal form holds nothing but digits and minus signs. -/
theorem intText_chars (n : Int) : ∀ c ∈ intText n, c.isDigit = true ∨ c = '-' := by
  intro c hc
  rw [intText] at hc
  split at hc
  · rcases List.mem_cons.mp hc with hc | hc
    · exact Or.inr hc
    · exact Or.inl (toDigits_isDigit _ c hc)
  · exact Or.inl (toDigits_isDigit _ c hc)

end Psrp

import Psrp.Lib.Bytes

/-!
# Bits

The binary digits of a number, most significant first, and the bytes of a
string of digits.

A field of fixed width is its low digits, so writing two fields next to each
other is multiplying and adding: `bitsOf_add` takes such a number apart again.
`wholeBytes` reads digits eight at a time and drops what does not fill a byte.

## Main definitions

* `bitsOf`: The low digits of a number.
* `ofBits`: The number of a string of digits.
* `wholeBytes`: The bytes of a string of digits.

## Theorems

* `ofBits_bitsOf`: The digits kept are the number modulo their range.
* `bitsOf_add`: A field after another field.
* `wholeBytes_append`, `wholeBytes_of_lt`: A byte at the head, and none.
-/

namespace Psrp

/-- The low digits of a number, most significant first. -/
def bitsOf : Nat → Nat → List Bool
  | 0, _ => []
  | width + 1, n => bitsOf width (n / 2) ++ [decide (n % 2 = 1)]

/-- The number of a string of digits. -/
def ofBits (bits : List Bool) : Nat := bits.foldl (fun n b => 2 * n + b.toNat) 0

/-- The bytes of a string of digits, without the digits of a last byte that is
    not whole. -/
def wholeBytes : List Bool → Bytes
  | b7 :: b6 :: b5 :: b4 :: b3 :: b2 :: b1 :: b0 :: rest =>
    UInt8.ofNat (ofBits [b7, b6, b5, b4, b3, b2, b1, b0]) :: wholeBytes rest
  | _ => []

@[simp] theorem length_bitsOf (width n : Nat) : (bitsOf width n).length = width := by
  induction width generalizing n with
  | zero => rfl
  | succ width ih => rw [bitsOf, List.length_append, ih, List.length_singleton]

theorem ofBits_bitsOf (width n : Nat) : ofBits (bitsOf width n) = n % 2 ^ width := by
  induction width generalizing n with
  | zero => rw [Nat.pow_zero, Nat.mod_one]; rfl
  | succ width ih =>
      have hih := ih (n / 2)
      have hlow : (decide (n % 2 = 1)).toNat = n % 2 := by
        by_cases h : n % 2 = 1
        · rw [decide_eq_true h, h]; rfl
        · rw [decide_eq_false h]
          have := Nat.mod_two_eq_zero_or_one n
          simp only [Bool.toNat_false]
          omega
      rw [ofBits] at hih
      rw [ofBits, bitsOf, List.foldl_append, hih, List.foldl_cons, List.foldl_nil, hlow,
        Nat.pow_succ, Nat.mul_comm (2 ^ width) 2, Nat.mod_mul, Nat.add_comm]

/-- Digits above the width are not looked at. -/
theorem bitsOf_mod {width m : Nat} (n : Nat) (h : width ≤ m) :
    bitsOf width (n % 2 ^ m) = bitsOf width n := by
  induction width generalizing n m with
  | zero => rfl
  | succ width ih =>
      obtain ⟨m, rfl⟩ : ∃ m', m = m' + 1 := ⟨m - 1, by omega⟩
      have hhalf : n % 2 ^ (m + 1) / 2 = n / 2 % 2 ^ m := by
        rw [Nat.pow_succ, Nat.mul_comm, Nat.mod_mul_right_div_self]
      have hlow : n % 2 ^ (m + 1) % 2 = n % 2 := by
        rw [Nat.pow_succ, Nat.mul_comm, Nat.mod_mul_right_mod]
      rw [bitsOf, bitsOf, hhalf, hlow, ih (n / 2) (by omega)]

/-- The digits of two fields next to each other. -/
theorem bitsOf_add (high low n : Nat) :
    bitsOf (high + low) n = bitsOf high (n / 2 ^ low) ++ bitsOf low n := by
  induction low generalizing n with
  | zero => rw [Nat.pow_zero, Nat.div_one, bitsOf, List.append_nil]; rfl
  | succ low ih =>
      have hdiv : n / 2 / 2 ^ low = n / 2 ^ (low + 1) := by
        rw [Nat.div_div_eq_div_mul, Nat.pow_succ, Nat.mul_comm]
      rw [← Nat.add_assoc, bitsOf, bitsOf, ih, hdiv, List.append_assoc]

theorem wholeBytes_append {byte : List Bool} (rest : List Bool) (h : byte.length = 8) :
    wholeBytes (byte ++ rest) = UInt8.ofNat (ofBits byte) :: wholeBytes rest := by
  match byte, h with
  | [b7, b6, b5, b4, b3, b2, b1, b0], _ => rfl

theorem wholeBytes_of_lt {bits : List Bool} (h : bits.length < 8) : wholeBytes bits = [] := by
  unfold wholeBytes
  split
  · simp only [List.length_cons] at h
    omega
  · rfl

end Psrp

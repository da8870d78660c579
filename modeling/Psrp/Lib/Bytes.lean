import Mathlib.Data.List.Basic
import Psrp.Lib.Text

/-!
# Bytes

Byte strings as lists, and the numbers and texts written in them.

A fixed-width number is its base-256 digits, most or least significant first;
reading back what was written gives the number modulo the width, which is the
number itself when it fits. UTF-8 is the language's own: `toUtf8` writes the
bytes of each character in turn, and `fromUtf8` reads them back or says where
the bytes stop being a text.

`splitFirst` takes a prefix of fixed length off a byte string, and fails when
the string is shorter; a header is read by taking its fields off one after
the other.

## Main definitions

* `Bytes`: A byte string.
* `beBytes`, `leBytes`: A number in fixed width, big and little endian.
* `ofBe`, `ofLe`: The number a byte string writes.
* `splitFirst`: A prefix of fixed length and the rest.
* `Text.toUtf8`, `Text.fromUtf8`: To and from UTF-8.

## Theorems

* `ofBe_beBytes`, `ofLe_leBytes`: What was written is read back.
* `beBytes_ofBe`, `leBytes_ofLe`: What was read is written back.
* `splitFirst_append`: A prefix of the right length is split off.
* `Text.fromUtf8_toUtf8`: A text is read back.
-/

namespace Psrp

/-- A byte string. -/
abbrev Bytes := List UInt8

/-- A number in a fixed number of bytes, least significant first. -/
def leBytes : Nat → Nat → Bytes
  | 0, _ => []
  | width + 1, n => UInt8.ofNat (n % 256) :: leBytes width (n / 256)

/-- The number of a byte string, least significant byte first. -/
def ofLe : Bytes → Nat
  | [] => 0
  | b :: bs => b.toNat + 256 * ofLe bs

/-- A number in a fixed number of bytes, most significant first. -/
def beBytes (width n : Nat) : Bytes := (leBytes width n).reverse

/-- The number of a byte string, most significant byte first. -/
def ofBe (bs : Bytes) : Nat := ofLe bs.reverse

@[simp] theorem length_leBytes (width n : Nat) : (leBytes width n).length = width := by
  induction width generalizing n with
  | zero => rfl
  | succ width ih => rw [leBytes, List.length_cons, ih]

@[simp] theorem length_beBytes (width n : Nat) : (beBytes width n).length = width := by
  rw [beBytes, List.length_reverse, length_leBytes]

theorem ofLe_leBytes (width n : Nat) (h : n < 256 ^ width) : ofLe (leBytes width n) = n := by
  induction width generalizing n with
  | zero =>
      rw [Nat.pow_zero] at h
      rw [leBytes, ofLe]
      omega
  | succ width ih =>
      have hdiv : n / 256 < 256 ^ width := by
        rw [Nat.div_lt_iff_lt_mul (by omega), ← Nat.pow_succ]
        exact h
      rw [leBytes, ofLe, ih _ hdiv, UInt8.toNat_ofNat']
      omega

theorem ofBe_beBytes (width n : Nat) (h : n < 256 ^ width) : ofBe (beBytes width n) = n := by
  rw [ofBe, beBytes, List.reverse_reverse, ofLe_leBytes width n h]

theorem leBytes_ofLe (bs : Bytes) : leBytes bs.length (ofLe bs) = bs := by
  induction bs with
  | nil => rfl
  | cons b bs ih =>
      have hb := b.toNat_lt
      have hmod : (b.toNat + 256 * ofLe bs) % 256 = b.toNat := by omega
      have hdiv : (b.toNat + 256 * ofLe bs) / 256 = ofLe bs := by omega
      rw [List.length_cons, leBytes, ofLe, hmod, hdiv, ih, UInt8.ofNat_toNat]

theorem ofLe_lt (bs : Bytes) : ofLe bs < 256 ^ bs.length := by
  induction bs with
  | nil => exact Nat.one_pos
  | cons b bs ih =>
      have hb := b.toNat_lt
      rw [ofLe, List.length_cons, Nat.pow_succ]
      omega

/-- Bytes are those of the number they write. -/
theorem beBytes_ofBe {bs : Bytes} {width : Nat} (h : bs.length = width) :
    beBytes width (ofBe bs) = bs := by
  have hback := leBytes_ofLe bs.reverse
  rw [List.length_reverse, h] at hback
  rw [beBytes, ofBe, hback, List.reverse_reverse]

theorem ofBe_lt {bs : Bytes} {width : Nat} (h : bs.length = width) : ofBe bs < 256 ^ width := by
  have hlt := ofLe_lt bs.reverse
  rwa [List.length_reverse, h] at hlt

/-- The first `n` bytes and the rest, unless there are fewer. -/
def splitFirst (n : Nat) (bs : Bytes) : Option (Bytes × Bytes) :=
  if n ≤ bs.length then some (bs.take n, bs.drop n) else none

theorem splitFirst_append (n : Nat) (a b : Bytes) (h : a.length = n) :
    splitFirst n (a ++ b) = some (a, b) := by
  rw [splitFirst, if_pos (by rw [List.length_append]; omega), List.take_left' h, List.drop_left' h]

theorem splitFirst_eq_some {n : Nat} {bs a b : Bytes} (h : splitFirst n bs = some (a, b)) :
    bs = a ++ b ∧ a.length = n := by
  rw [splitFirst] at h
  split_ifs at h with hn
  cases h
  refine ⟨(List.take_append_drop n bs).symm, ?_⟩
  rw [List.length_take]
  omega

namespace Text

/-- The UTF-8 form of a text. -/
def toUtf8 (s : Text) : Bytes := s.flatMap String.utf8EncodeChar

/-- How many bytes the character that starts with a given byte takes; zero
    for a byte that starts none. -/
def utf8Width (b : UInt8) : Nat :=
  if b < 0x80 then 1
  else if b < 0xC2 then 0
  else if b < 0xE0 then 2
  else if b < 0xF0 then 3
  else if b < 0xF5 then 4
  else 0

/-- Whether a byte continues a character. -/
def continues (b : UInt8) : Bool := 0x80 ≤ b && b < 0xC0

/-- Whether a second byte may follow a first one: neither an overlong form,
    nor a surrogate, nor beyond the last code point. -/
def followsFirst (b c : UInt8) : Bool :=
  continues c && !(b == 0xE0 && c < 0xA0) && !(b == 0xED && 0xA0 ≤ c)
    && !(b == 0xF0 && c < 0x90) && !(b == 0xF4 && 0x90 ≤ c)

/-- How many bytes at the head of a byte string are a character cut short by
    something else, if it does not start with a character; `none` when the
    string ends inside one. -/
def utf8Broken : Bytes → Option (Option Nat)
  | [] => none
  | b :: bs =>
    let width := utf8Width b
    if width = 0 then some (some 1)
    else if width = 1 then none
    else match bs with
      | [] => some none
      | c :: bs =>
        if !followsFirst b c then some (some 1)
        else if width = 2 then none
        else match bs with
          | [] => some none
          | d :: bs =>
            if !continues d then some (some 2)
            else if width = 3 then none
            else match bs with
              | [] => some none
              | e :: _ => if !continues e then some (some 3) else none

/-- Where a byte string stops being UTF-8, from a given position on. -/
def utf8Fault : Nat → Nat → Bytes → String
  | 0, pos, _ => s!"incomplete utf-8 byte sequence from index {pos}"
  | fuel + 1, pos, bs =>
    match utf8Broken bs with
    | some (some n) => s!"invalid utf-8 sequence of {n} bytes from index {pos}"
    | some none => s!"incomplete utf-8 byte sequence from index {pos}"
    | none =>
      let width := utf8Width (bs.headD 0)
      utf8Fault fuel (pos + width) (bs.drop width)

/-- Read UTF-8, or say where it stops being that. -/
def fromUtf8 (bs : Bytes) : Except String Text :=
  match bs.toByteArray.utf8Decode? with
  | some cs => .ok cs.toList
  | none => .error (utf8Fault (bs.length + 1) 0 bs)

/-- The same, with as many steps as there are bytes at most. -/
def lossyFrom : Nat → Bytes → Text
  | 0, _ | _, [] => []
  | fuel + 1, bs =>
    match utf8Broken bs with
    | some (some n) => '\uFFFD' :: lossyFrom fuel (bs.drop n)
    | some none => ['\uFFFD']
    | none =>
      let width := utf8Width (bs.headD 0)
      (fromUtf8 (bs.take width)).toOption.getD [] ++ lossyFrom fuel (bs.drop width)

/-- Read UTF-8 with U+FFFD in the place of what is not. -/
def fromUtf8Lossy (bs : Bytes) : Text := lossyFrom bs.length bs

theorem toByteArray_toUtf8 (s : Text) : s.toUtf8.toByteArray = s.utf8Encode := rfl

theorem fromUtf8_toUtf8 (s : Text) : fromUtf8 s.toUtf8 = .ok s := by
  rw [fromUtf8, toByteArray_toUtf8, List.utf8Decode?_utf8Encode]

@[simp] theorem toUtf8_nil : toUtf8 [] = [] := rfl

@[simp] theorem toUtf8_cons (c : Char) (s : Text) :
    toUtf8 (c :: s) = String.utf8EncodeChar c ++ toUtf8 s := rfl

end Text

end Psrp

import Psrp.Lib.Text

/-!
# Base64

The base64 codec of byte arrays, the standard alphabet with padding.

The encoder cuts the bytes into groups of three and writes four symbols for
each; a last group of one or two bytes is padded. The decoder shifts every
symbol into a 32-bit accumulator and takes a byte off whenever it holds eight
bits or more. Shifts and masks are written as arithmetic.

The decoder of the source runs over the bytes of the text. A character
outside ASCII is none of the accepted bytes, so that running over characters
refuses the same texts.

## Main definitions

* `base64Encode`: Bytes to text.
* `base64Decode`: Text to bytes; white space is skipped, anything else outside
  the alphabet is refused.
-/

namespace Psrp

/-- The standard alphabet. -/
def base64Alphabet : Text :=
  "ABCDEFGHIJKLMNOPQRSTUVWXYZabcdefghijklmnopqrstuvwxyz0123456789+/".toList

/-- Alphabet character for the low six bits of a sextet. -/
def base64Char (sextet : Nat) : Char := base64Alphabet.getD (sextet % 64) 'A'

/-- Encode bytes, three at a time. -/
def base64Encode : List UInt8 → Text
  | [] => []
  | [b0] => [base64Char (b0.toNat / 4), base64Char (b0.toNat % 4 * 16), '=', '=']
  | [b0, b1] =>
    [base64Char (b0.toNat / 4), base64Char (b0.toNat % 4 * 16 + b1.toNat / 16),
      base64Char (b1.toNat % 16 * 4), '=']
  | b0 :: b1 :: b2 :: rest =>
    base64Char (b0.toNat / 4) :: base64Char (b0.toNat % 4 * 16 + b1.toNat / 16)
      :: base64Char (b1.toNat % 16 * 4 + b2.toNat / 64) :: base64Char b2.toNat
      :: base64Encode rest

/-- The value of a symbol. -/
def base64Value (c : Char) : Option Nat :=
  if 'A' ≤ c ∧ c ≤ 'Z' then some (c.toNat - 'A'.toNat)
  else if 'a' ≤ c ∧ c ≤ 'z' then some (c.toNat - 'a'.toNat + 26)
  else if '0' ≤ c ∧ c ≤ '9' then some (c.toNat - '0'.toNat + 52)
  else if c = '+' then some 62
  else if c = '/' then some 63
  else none

/-- The symbol loop: the accumulator, how many of its low bits are unread, and
    the symbols to come. -/
def base64Symbols (buf bits : Nat) : Text → Option (List UInt8)
  | [] => some []
  | c :: cs => do
    let v ← base64Value c
    let buf := (buf * 64 + v) % 2 ^ 32
    let bits := bits + 6
    if 8 ≤ bits then
      let bits := bits - 8
      let out ← base64Symbols buf bits cs
      return UInt8.ofNat (buf / 2 ^ bits % 256) :: out
    else base64Symbols buf bits cs

/-- Whether a character is skipped wherever it stands. -/
def base64Skips (c : Char) : Bool := c = ' ' || c = '\t' || c = '\r' || c = '\n'

/-- Decode a text. -/
def base64Decode (s : Text) : Option (List UInt8) :=
  let symbols := s.filter fun c => !base64Skips c
  if symbols.length % 4 ≠ 0 then none
  else
    let padding := (symbols.reverse.takeWhile (· = '=')).length
    if 2 < padding then none
    else base64Symbols 0 0 (symbols.take (symbols.length - padding))

end Psrp

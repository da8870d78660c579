import Psrp.Lib.Xml

/-!
# CLIXML Escapes

How the codec escapes text, and how it reads PowerShell's escapes back.

Two layers meet in `escapeInner`. XML metacharacters become entities, and
control characters become PowerShell's `_xHHHH_` escapes, one UTF-16 code
unit each. An underscore before an `x` is escaped itself, so that the user's
own text is never read back as an escape.

The decoder works on text whose entities are already resolved. It collects a
run of adjacent escapes as UTF-16 units, so that a surrogate pair becomes one
character, and copies everything else.

## Main definitions

* `escapeInner`, `escape`, `escapeAttr`: The encoder's escaping.
* `splitPwshEscape`: The escape that starts a text.
* `decodeUtf16`: UTF-16 units as characters.
* `decodePwshEscapes`: The decoder's unescaping.
-/

namespace Psrp

/-- An uppercase hexadecimal digit. -/
def upperHexDigit (n : Nat) : Char := (Nat.digitChar n).toUpper

/-- `{:04X}` of a number of at most four hexadecimal digits. -/
def hex4 (n : Nat) : Text :=
  [upperHexDigit (n / 4096 % 16), upperHexDigit (n / 256 % 16), upperHexDigit (n / 16 % 16),
    upperHexDigit (n % 16)]

/-- The `_xHHHH_` escape of a character. -/
def pwshEscapeOf (c : Char) : Text := ['_', 'x'] ++ hex4 c.toNat ++ ['_']

/-- Escape a text, for an attribute value or for character data. -/
def escapeInner (inAttr : Bool) : Text → Text
  | [] => []
  | c :: cs =>
    (if c = '<' then "&lt;".toList
    else if c = '>' then "&gt;".toList
    else if c = '&' then "&amp;".toList
    else if c = '"' then "&quot;".toList
    else if c = '\'' then "&apos;".toList
    -- A literal `_x` would be read back as the start of an escape.
    else if c = '_' ∧ (cs.head? = some 'x' ∨ cs.head? = some 'X') then "_x005F_".toList
    -- Tab and line feed survive character data, not attribute values.
    else if (c = '\t' ∨ c = '\n') ∧ inAttr = true then pwshEscapeOf c
    else if c.toNat < 0x20 ∧ c ≠ '\t' ∧ c ≠ '\n' then pwshEscapeOf c
    else [c])
    ++ escapeInner inAttr cs

/-- Escape a text for character data. -/
def escape (s : Text) : Text := escapeInner false s

/-- Escape a text for an attribute value. -/
def escapeAttr (s : Text) : Text := escapeInner true s

/-- The value of a hexadecimal digit of either case. -/
def hexDigitValue (c : Char) : Option Nat :=
  if '0' ≤ c ∧ c ≤ '9' then some (c.toNat - '0'.toNat)
  else if 'a' ≤ c ∧ c ≤ 'f' then some (c.toNat - 'a'.toNat + 10)
  else if 'A' ≤ c ∧ c ≤ 'F' then some (c.toNat - 'A'.toNat + 10)
  else none

/-- The digit loop of `u16::from_str_radix(_, 16)`. -/
def hexAccumulate : Nat → Text → Option UInt16
  | acc, [] => some (UInt16.ofNat acc)
  | acc, c :: cs => do
    let d ← hexDigitValue c
    if 16 * acc + d < 65536 then hexAccumulate (16 * acc + d) cs else none

/-- `u16::from_str_radix(_, 16)`: a leading plus sign is accepted. -/
def u16FromHex (s : Text) : Option UInt16 :=
  match s with
  | [] => none
  | ['+'] => none
  | '+' :: cs => hexAccumulate 0 cs
  | cs => hexAccumulate 0 cs

/-- The code unit of the `_xHHHH_` escape that starts a text, and the text
    after it. The seven bytes the source slices off are seven characters
    whenever they form an escape, as all of them are then ASCII. -/
def splitPwshEscape (s : Text) : Option (UInt16 × Text) :=
  match s with
  | '_' :: 'x' :: a :: b :: c :: d :: '_' :: tail => (u16FromHex [a, b, c, d]).map fun u => (u, tail)
  | _ => none

/-- The character that stands for what cannot be decoded. -/
def replacementCharacter : Char := Char.ofNat 0xFFFD

/-- UTF-16 units as characters; a surrogate without its other half is
    replaced. -/
def decodeUtf16 : List UInt16 → Text
  | [] => []
  | u :: us =>
    if u.toNat < 0xD800 ∨ 0xDFFF < u.toNat then Char.ofNat u.toNat :: decodeUtf16 us
    else if 0xDC00 ≤ u.toNat then replacementCharacter :: decodeUtf16 us
    else match us with
      | [] => [replacementCharacter]
      | l :: rest =>
        if 0xDC00 ≤ l.toNat ∧ l.toNat ≤ 0xDFFF then
          Char.ofNat (0x10000 + 0x400 * (u.toNat - 0xD800) + (l.toNat - 0xDC00)) :: decodeUtf16 rest
        else replacementCharacter :: decodeUtf16 (l :: rest)

/-- The loop of `decodePwshEscapes`, with the units of the run of escapes read
    so far. Every turn consumes a character, so one more turn than there are
    characters is enough (`decodeLoop_fuel`). -/
def decodeLoop : Nat → List UInt16 → Text → Text
  | 0, _, _ => []
  | fuel + 1, units, rest =>
    match splitPwshEscape rest with
    | some (unit, tail) => decodeLoop fuel (units ++ [unit]) tail
    | none =>
      -- Not an escape: the run ends here. Then the text up to the next
      -- underscore is copied, the first character whatever it is.
      decodeUtf16 units ++ match rest with
        | [] => []
        | first :: after =>
          first :: after.takeWhile (· ≠ '_') ++ decodeLoop fuel [] (after.dropWhile (· ≠ '_'))

/-- Decode the `_xHHHH_` escapes of a text. -/
def decodePwshEscapes (s : Text) : Text := decodeLoop (s.length + 1) [] s

end Psrp

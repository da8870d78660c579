import Psrp.Lib.Text

/-!
# UUIDs

Sixteen bytes, and the forms they travel in.

The hyphenated form is lowercase hexadecimal in groups of four, two, two, two
and six bytes. The mixed-endian form that Microsoft protocols use for a GUID
reverses the bytes of the first three groups; reversing them again restores
the order, so the form is its own inverse.

`readHyphenated` reads the hyphenated form back. It is only one of the
spellings a full UUID parser accepts.

## Main definitions

* `Uuid`: A UUID.
* `Uuid.nil`: The UUID of zero bytes.
* `Uuid.hyphenated`: Its hyphenated text.
* `swapGuid`: The bytes of the mixed-endian form.
* `Uuid.toBytesLe`, `Uuid.fromBytesLe`: To and from that form.
* `Uuid.readHyphenated`: The hyphenated form read back.

## Theorems

* `Uuid.fromBytesLe_toBytesLe`, `Uuid.toBytesLe_fromBytesLe`: The mixed-endian
  form loses nothing.
* `Uuid.readHyphenated_hyphenated`: The hyphenated form is read back.
* `Uuid.hyphenated_chars`: It holds hexadecimal digits and hyphens only.
-/

namespace Psrp

/-- A UUID, its bytes in the order they are printed. -/
structure Uuid where
  bytes : Vector UInt8 16
  deriving DecidableEq

/-- Reverse the bytes of the first three groups of a GUID. -/
def swapGuid (b : Vector UInt8 16) : Vector UInt8 16 :=
  #v[b[3], b[2], b[1], b[0], b[5], b[4], b[7], b[6],
    b[8], b[9], b[10], b[11], b[12], b[13], b[14], b[15]]

theorem swapGuid_swapGuid (b : Vector UInt8 16) : swapGuid (swapGuid b) = b := by
  apply Vector.ext
  intro i hi
  rcases i with _ | _ | _ | _ | _ | _ | _ | _ | _ | _ | _ | _ | _ | _ | _ | _ | i
  all_goals first | rfl | omega

/-- A hexadecimal digit, in lowercase. -/
def hexDigit (n : Nat) : Char := Nat.digitChar n

/-- The two hexadecimal digits of a byte. -/
def hexByte (b : UInt8) : Text := [hexDigit (b.toNat / 16), hexDigit (b.toNat % 16)]

/-- The value of a lowercase hexadecimal digit. -/
def hexValue (c : Char) : Option Nat := (List.range 16).find? fun n => hexDigit n = c

theorem hexValue_hexDigit (n : Nat) (h : n < 16) : hexValue (hexDigit n) = some n := by
  have hall : ∀ m < 16, hexValue (hexDigit m) = some m := by decide
  exact hall n h

theorem hexDigit_isAlphanum (n : Nat) (h : n < 16) : (hexDigit n).isAlphanum = true := by
  have hall : ∀ m < 16, (hexDigit m).isAlphanum = true := by decide
  exact hall n h

namespace Uuid

/-- The UUID of zero bytes. -/
def nil : Uuid := { bytes := Vector.replicate 16 0 }

/-- The mixed-endian bytes of a UUID. -/
def toBytesLe (u : Uuid) : Vector UInt8 16 := swapGuid u.bytes

/-- The UUID of mixed-endian bytes. -/
def fromBytesLe (b : Vector UInt8 16) : Uuid := { bytes := swapGuid b }

theorem fromBytesLe_toBytesLe (u : Uuid) : fromBytesLe u.toBytesLe = u := by
  rw [fromBytesLe, toBytesLe, swapGuid_swapGuid]

theorem toBytesLe_fromBytesLe (b : Vector UInt8 16) : (fromBytesLe b).toBytesLe = b := by
  rw [fromBytesLe, toBytesLe, swapGuid_swapGuid]

/-- Bytes in hexadecimal, with a hyphen before each position listed. -/
def hexGroups (hyphens : List Nat) : Nat → List UInt8 → Text
  | _, [] => []
  | i, b :: bs =>
    (if i ∈ hyphens then ['-'] else []) ++ hexByte b ++ hexGroups hyphens (i + 1) bs

/-- The hyphenated text of a UUID. -/
def hyphenated (u : Uuid) : Text := hexGroups [4, 6, 8, 10] 0 u.bytes.toList

theorem hexGroups_chars (hyphens : List Nat) (i : Nat) (bs : List UInt8) :
    ∀ c ∈ hexGroups hyphens i bs, c.isAlphanum = true ∨ c = '-' := by
  induction bs generalizing i with
  | nil => intro c hc; exact absurd hc List.not_mem_nil
  | cons b bs ih =>
      intro c hc
      rw [hexGroups, List.mem_append, List.mem_append] at hc
      rcases hc with (hc | hc) | hc
      · split_ifs at hc
        · exact Or.inr (List.mem_singleton.mp hc)
        · exact absurd hc List.not_mem_nil
      · have hb := b.toNat_lt
        rcases List.mem_cons.mp hc with rfl | hc
        · exact Or.inl (hexDigit_isAlphanum _ (by omega))
        · rw [List.mem_singleton.mp hc]
          exact Or.inl (hexDigit_isAlphanum _ (by omega))
      · exact ih _ c hc

theorem hyphenated_chars (u : Uuid) : ∀ c ∈ u.hyphenated, c.isAlphanum = true ∨ c = '-' :=
  hexGroups_chars _ _ _

/-- Pairs of hexadecimal digits as bytes. -/
def readHex : Text → Option (List UInt8)
  | [] => some []
  | [_] => none
  | c :: d :: rest => do
    let hi ← hexValue c
    let lo ← hexValue d
    let bs ← readHex rest
    return UInt8.ofNat (16 * hi + lo) :: bs

/-- Read a hyphenated UUID: exactly the text that `hyphenated` writes. -/
def readHyphenated (s : Text) : Option Uuid := do
  let bs ← readHex (s.filter (· ≠ '-'))
  if h : bs.length = 16 then
    let u : Uuid := { bytes := ⟨bs.toArray, by simpa only [List.size_toArray] using h⟩ }
    if u.hyphenated = s then return u else none
  else none

theorem readHex_hexGroups (hyphens : List Nat) (i : Nat) (bs : List UInt8) :
    readHex ((hexGroups hyphens i bs).filter (· ≠ '-')) = some bs := by
  induction bs generalizing i with
  | nil => rfl
  | cons b bs ih =>
      have hb := b.toNat_lt
      have hfirst : (if i ∈ hyphens then ['-'] else []).filter (· ≠ '-') = [] := by
        split_ifs <;> rfl
      have hbyte : (hexByte b).filter (· ≠ '-') = hexByte b := by
        have hne : ∀ n < 16, decide (hexDigit n ≠ '-') = true := by decide
        refine List.filter_eq_self.mpr (fun c hc => ?_)
        rcases List.mem_cons.mp hc with rfl | hc
        · exact hne _ (by omega)
        · rw [List.mem_singleton.mp hc]
          exact hne _ (by omega)
      rw [hexGroups, List.filter_append, List.filter_append, hfirst, List.nil_append, hbyte,
        hexByte]
      simp only [List.cons_append, List.nil_append, readHex,
        hexValue_hexDigit _ (show b.toNat / 16 < 16 by omega),
        hexValue_hexDigit _ (show b.toNat % 16 < 16 by omega), ih]
      have hval : 16 * (b.toNat / 16) + b.toNat % 16 = b.toNat := by omega
      simp only [Option.bind_eq_bind, Option.bind_some, Option.pure_def, hval, UInt8.ofNat_toNat]

theorem readHyphenated_hyphenated (u : Uuid) : readHyphenated u.hyphenated = some u := by
  have hlen : u.bytes.toList.length = 16 := Vector.length_toList
  have hu : (⟨⟨u.bytes.toList.toArray, by rw [List.size_toArray, hlen]⟩⟩ : Uuid) = u := by
    rcases u with ⟨bytes, hbytes⟩
    rfl
  rw [readHyphenated, hyphenated, readHex_hexGroups]
  simp only [Option.bind_eq_bind, Option.bind_some, hlen, dif_pos, hu]
  rw [hyphenated, if_pos rfl]
  rfl

end Uuid

end Psrp

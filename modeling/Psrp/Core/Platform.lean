import Psrp.Core.Value
import Psrp.Lib.Decimal
import Psrp.Lib.XmlScanner

/-!
# What the Codec Runs On

The libraries under the codec, as parameters with the documented facts that
are used about them.

The XML reader and the UUID parser are other crates. Floating-point text and
the two conversions between the widths belong to the language, and only
three things matter about them: the shortest text of a finite number is read
back as that number, it is made of digits, a sign and a point, and narrowing
undoes widening.

`Platform.basic` is a concrete platform: a scanner for plain XML, the
hyphenated form of UUIDs, and numbers written as the index of their bit
pattern instead of in decimal notation. It satisfies the assumptions, so no
result about lawful platforms is vacuous.

## Main definitions

* `Platform`: The libraries.
* `Platform.Lawful`: The assumptions on them.
* `Platform.basic`: A concrete platform.

## Theorems

* `Platform.basic_lawful`: The concrete platform is lawful.
-/

namespace Psrp

/-- The libraries under the codec. -/
structure Platform where
  /-- The pull reader for XML. -/
  read : Xml.Reader
  /-- `Uuid::parse_str`. -/
  parseUuid : Text → Except String Uuid
  /-- The `Display` text of a finite number. -/
  formatFinite : Bool → Fin 2047 → Fin (2 ^ 52) → Text
  /-- `str::parse::<f64>`. -/
  parseF64 : Text → Except String F64
  /-- `f64::from` an `f32`. -/
  widen : F32 → F64
  /-- The nearest `f32`. -/
  narrow : F64 → F32

namespace Platform

/-- What is relied on of the libraries. -/
structure Lawful (p : Platform) : Prop where
  read : p.read.Lawful
  parseUuid_hyphenated : ∀ u : Uuid, p.parseUuid u.hyphenated = .ok u
  parseF64_formatFinite : ∀ s e m, p.parseF64 (p.formatFinite s e m) = .ok (.finite s e m)
  formatFinite_chars : ∀ s e m, ∀ c ∈ p.formatFinite s e m, c.isDigit = true ∨ c = '-' ∨ c = '.'
  narrow_widen : ∀ v, p.narrow (p.widen v) = v

/-- The index of the bit pattern of a finite number. -/
def bitIndex (s : Bool) (e : Fin 2047) (m : Fin (2 ^ 52)) : Nat :=
  (e.val * 2 ^ 52 + m.val) * 2 + s.toNat

/-- The finite number with a bit pattern of the given index. -/
def ofBitIndex (n : Nat) : F64 :=
  .finite (n % 2 = 1) ⟨n / 2 / 2 ^ 52 % 2047, Nat.mod_lt _ (by decide)⟩
    ⟨n / 2 % 2 ^ 52, Nat.mod_lt _ (by decide)⟩

/-- Read the index of a bit pattern. -/
def parseBitIndex (s : Text) : Except String F64 :=
  match parseInt 0 (2 ^ 64) s with
  | .ok n => .ok (ofBitIndex n.toNat)
  | .error _ => .error "invalid float literal"

/-- A concrete platform. -/
def basic : Platform where
  read := Xml.scan
  parseUuid s := match Uuid.readHyphenated s with
    | some u => .ok u
    | none => .error "invalid character"
  formatFinite s e m := intText (bitIndex s e m)
  parseF64 := parseBitIndex
  widen
    | .nan => .nan
    | .infinity negative => .infinity negative
    | .finite s e m => .finite s (e.castLE (by decide)) (m.castLE (by decide))
  narrow
    | .nan => .nan
    | .infinity negative => .infinity negative
    | .finite s e m =>
      if h : e.val < 255 ∧ m.val < 2 ^ 23 then .finite s ⟨e.val, h.1⟩ ⟨m.val, h.2⟩
      else .infinity s

theorem ofBitIndex_bitIndex (s : Bool) (e : Fin 2047) (m : Fin (2 ^ 52)) :
    ofBitIndex (bitIndex s e m) = .finite s e m := by
  have he := e.isLt
  have hm := m.isLt
  have hs : s.toNat < 2 := Bool.toNat_lt s
  have hn : bitIndex s e m / 2 = e.val * 2 ^ 52 + m.val := by
    rw [bitIndex]
    omega
  have hsign : decide (bitIndex s e m % 2 = 1) = s := by
    have hmod : bitIndex s e m % 2 = s.toNat := by
      rw [bitIndex]
      omega
    rw [hmod]
    cases s <;> rfl
  rw [ofBitIndex, hsign]
  congr
  · rw [hn]
    omega
  · rw [hn]
    omega

theorem parseBitIndex_bitIndex (s : Bool) (e : Fin 2047) (m : Fin (2 ^ 52)) :
    parseBitIndex (intText (bitIndex s e m)) = .ok (.finite s e m) := by
  have hlt : bitIndex s e m ≤ 2 ^ 64 := by
    have he := e.isLt
    have hm := m.isLt
    have hs : s.toNat < 2 := Bool.toNat_lt s
    rw [bitIndex]
    omega
  have hparse := parseInt_intText 0 (2 ^ 64) (bitIndex s e m) (Int.le_refl 0) (by omega)
    (by omega) (by omega)
  rw [parseBitIndex, hparse, ← ofBitIndex_bitIndex s e m]
  exact congrArg (fun n => Except.ok (ofBitIndex n)) (Int.toNat_natCast _)

theorem narrow_widen_basic (v : F32) : basic.narrow (basic.widen v) = v := by
  cases v with
  | nan => rfl
  | infinity negative => rfl
  | finite s e m =>
      have he := e.isLt
      have hm := m.isLt
      simp only [basic, Fin.val_castLE, he, hm, and_self, dif_pos, Fin.eta]

theorem basic_lawful : basic.Lawful where
  read := Xml.scan_lawful
  parseUuid_hyphenated u := by
    simp only [basic, Uuid.readHyphenated_hyphenated]
  parseF64_formatFinite := parseBitIndex_bitIndex
  formatFinite_chars s e m c hc := by
    rcases intText_chars (bitIndex s e m) c hc with h | h
    · exact Or.inl h
    · exact Or.inr (Or.inl h)
  narrow_widen := narrow_widen_basic
end Platform

end Psrp

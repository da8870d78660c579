import Psrp.Core.Decode
import Psrp.Theory.Encode
import Psrp.Theory.Normalise

/-!
# A Leaf Is Read Back

For every leaf, its tag selects a parser, and the parser applied to its
content gives its normal form.

Numbers, identifiers and bytes are written in characters that neither the
escape decoder nor trimming touches, so that each parser meets the text its
formatter wrote. Texts go through the escape decoder, which inverts the
escaping.

## Theorems

* `leaf_parses`: The parser of a leaf inverts its formatter, up to
  normalisation.
-/

namespace Psrp

theorem decodePwshEscapes_of_isToken (t : Text) (h : ∀ c ∈ t, Text.isToken c = true) :
    decodePwshEscapes t = t := by
  refine decodePwshEscapes_of_no_underscore t fun c hc heq => ?_
  have hn := Text.isToken_toNat c (h c hc)
  rw [heq] at hn
  exact hn.2.2.2.2 rfl

/-- The decimal form of a number in range is read back. -/
theorem parseIntLeaf_intText (lo hi n : Int) (tag : String) (wrap : Int → PsValue) (hlo : lo ≤ 0)
    (hhi : 0 ≤ hi) (h1 : lo ≤ n) (h2 : n ≤ hi) :
    parseIntLeaf lo hi tag wrap (decodePwshEscapes (intText n)) = .ok (wrap n) := by
  rw [decodePwshEscapes_of_isToken _ (intText_isToken n), parseIntLeaf, parseIntText,
    Text.trim_of_isToken _ (intText_isToken n), parseInt_intText lo hi n hlo hhi h1 h2]
  rfl

theorem isAlpha_of_isDigit (c : Char) (h : c.isDigit = true) : c.isAlpha = false := by
  simp only [Char.isDigit, Bool.and_eq_true, decide_eq_true_eq, ge_iff_le,
    UInt32.le_iff_toNat_le, Char.reduceVal, UInt32.reduceToNat] at h
  delta Char.isAlpha Char.isUpper Char.isLower
  simp only [Bool.or_eq_false_iff, Bool.and_eq_false_iff, decide_eq_false_iff_not, ge_iff_le,
    UInt32.le_iff_toNat_le, Char.reduceVal, UInt32.reduceToNat]
  omega

/-- The text of a finite number holds no letter. -/
theorem formatFinite_ne {p : Platform} (hp : p.Lawful) (s : Bool) (e : Fin 2047)
    (m : Fin (2 ^ 52)) (t : Text) (ht : ∃ c ∈ t, c.isAlpha = true) : p.formatFinite s e m ≠ t := by
  rcases ht with ⟨c, hc, halpha⟩
  intro heq
  rw [← heq] at hc
  rcases hp.formatFinite_chars s e m c hc with h | h | h
  · rw [isAlpha_of_isDigit c h] at halpha
    cases halpha
  · rw [h] at halpha
    cases halpha
  · rw [h] at halpha
    cases halpha

theorem parseFloat_nan (p : Platform) : parseFloat p "NaN".toList = .ok .nan := if_pos rfl

theorem parseFloat_infinity (p : Platform) (negative : Bool) :
    parseFloat p (formatFloat p (.infinity negative)) = .ok (.infinity negative) := by
  have hpos : "Infinity".toList ≠ "NaN".toList := by decide
  have hneg : "-Infinity".toList ≠ "NaN".toList := by decide
  have hsign : "-Infinity".toList ≠ "Infinity".toList := by decide
  cases negative with
  | false => exact (if_neg hpos).trans (if_pos rfl)
  | true => exact (if_neg hneg).trans ((if_neg hsign).trans (if_pos rfl))

theorem parseFloat_finite {p : Platform} (hp : p.Lawful) (s : Bool) (e : Fin 2047)
    (m : Fin (2 ^ 52)) : parseFloat p (p.formatFinite s e m) = .ok (.finite s e m) := by
  have hne := formatFinite_ne hp s e m
  rw [parseFloat, if_neg (hne "NaN".toList ⟨'N', by decide, rfl⟩),
    if_neg (hne "Infinity".toList ⟨'I', by decide, rfl⟩),
    if_neg (hne "-Infinity".toList ⟨'I', by decide, rfl⟩), hp.parseF64_formatFinite]

/-- A number is read back from its text. -/
theorem parseFloat_formatFloat {p : Platform} (hp : p.Lawful) (v : F64) :
    parseFloat p (Text.trim (decodePwshEscapes (formatFloat p v))) = .ok v := by
  have htokens := formatFloat_isToken hp v
  rw [decodePwshEscapes_of_isToken _ htokens, Text.trim_of_isToken _ htokens]
  cases v with
  | nan => exact parseFloat_nan p
  | infinity negative => exact parseFloat_infinity p negative
  | finite s e m => exact parseFloat_finite hp s e m

/-- A character is read back from its code unit. -/
theorem charOfCode_charUnit (c : Char) :
    charOfCode (charUnit c) = if c.toNat < 2 ^ 16 then c else replacementCharacter := by
  rw [charUnit]
  split_ifs
  · have hvalid : c.toNat.isValidChar := c.valid
    rw [charOfCode, if_pos hvalid, Char.ofNat_toNat]
  · rfl

/-- The parser of a leaf inverts its formatter, up to normalisation. -/
theorem leaf_parses {p : Platform} (hp : p.Lawful) (v : PsValue) (tag : String) (body : Text)
    (h : simpleElement p v = some (tag, body, false)) :
    ∃ parse, leafParser p tag = some parse
      ∧ parse (decodePwshEscapes (leafContent p v)) = .ok (PsValue.norm v) := by
  have htext : ∀ s, decodePwshEscapes (pwshEscape false s) = s :=
    decodePwshEscapes_pwshEscape false
  cases v with
  | null | list | dict | object => cases h
  | bool b =>
      cases h
      refine ⟨_, rfl, ?_⟩
      cases b <;> rfl
  -- Numbers are written in full, so they are in range when they are read.
  | i8 v =>
      cases h
      have hlo := v.le_toInt
      have hhi := v.toInt_lt
      refine ⟨_, rfl, (parseIntLeaf_intText _ _ _ _ _ ?_ ?_ ?_ ?_).trans ?_⟩
      · omega
      · omega
      · omega
      · omega
      · rw [Int8.ofInt_toInt]
        rfl
  | i16 v =>
      cases h
      have hlo := v.le_toInt
      have hhi := v.toInt_lt
      refine ⟨_, rfl, (parseIntLeaf_intText _ _ _ _ _ ?_ ?_ ?_ ?_).trans ?_⟩
      · omega
      · omega
      · omega
      · omega
      · rw [Int16.ofInt_toInt]
        rfl
  | i32 v =>
      cases h
      have hlo := v.le_toInt
      have hhi := v.toInt_lt
      refine ⟨_, rfl, (parseIntLeaf_intText _ _ _ _ _ ?_ ?_ ?_ ?_).trans ?_⟩
      · omega
      · omega
      · omega
      · omega
      · rw [Int32.ofInt_toInt]
        rfl
  | i64 v =>
      cases h
      have hlo := v.le_toInt
      have hhi := v.toInt_lt
      refine ⟨_, rfl, (parseIntLeaf_intText _ _ _ _ _ ?_ ?_ ?_ ?_).trans ?_⟩
      · omega
      · omega
      · omega
      · omega
      · rw [Int64.ofInt_toInt]
        rfl
  | u8 v =>
      cases h
      have hhi := v.toNat_lt
      refine ⟨_, rfl, (parseIntLeaf_intText _ _ _ _ _ ?_ ?_ ?_ ?_).trans ?_⟩
      · omega
      · omega
      · omega
      · omega
      · rw [Int.toNat_natCast, UInt8.ofNat_toNat]
        rfl
  | u16 v =>
      cases h
      have hhi := v.toNat_lt
      refine ⟨_, rfl, (parseIntLeaf_intText _ _ _ _ _ ?_ ?_ ?_ ?_).trans ?_⟩
      · omega
      · omega
      · omega
      · omega
      · rw [Int.toNat_natCast, UInt16.ofNat_toNat]
        rfl
  | u32 v =>
      cases h
      have hhi := v.toNat_lt
      refine ⟨_, rfl, (parseIntLeaf_intText _ _ _ _ _ ?_ ?_ ?_ ?_).trans ?_⟩
      · omega
      · omega
      · omega
      · omega
      · rw [Int.toNat_natCast, UInt32.ofNat_toNat]
        rfl
  | u64 v =>
      cases h
      have hhi := v.toNat_lt
      refine ⟨_, rfl, (parseIntLeaf_intText _ _ _ _ _ ?_ ?_ ?_ ?_).trans ?_⟩
      · omega
      · omega
      · omega
      · omega
      · rw [Int.toNat_natCast, UInt64.ofNat_toNat]
        rfl
  | char c =>
      cases h
      have hhi : charUnit c < 2 ^ 16 := by
        rw [charUnit]
        split_ifs <;> omega
      refine ⟨_, rfl, (parseIntLeaf_intText _ _ _ _ _ ?_ ?_ ?_ ?_).trans ?_⟩
      · omega
      · omega
      · omega
      · omega
      · rw [Int.toNat_natCast, charOfCode_charUnit]
        rfl
  -- A float is read back to its bits.
  | double v =>
      cases h
      refine ⟨_, rfl, ?_⟩
      have hparse := parseFloat_formatFloat hp v
      simp only [leafContent, simpleElement, hparse]
      rfl
  | f32 v =>
      cases h
      refine ⟨_, rfl, ?_⟩
      have hparse := parseFloat_formatFloat hp (p.widen v)
      simp only [leafContent, simpleElement, hparse, hp.narrow_widen]
      rfl
  | bytes b =>
      cases h
      -- What needs no escaping is left alone.
      have htokens : ∀ c ∈ base64Encode b, Text.isToken c = true :=
        fun c hc => (base64Encode_chars b c hc).2
      refine ⟨_, rfl, ?_⟩
      simp only [leafContent, simpleElement, decodePwshEscapes_of_isToken _ htokens,
        Text.trim_of_isToken _ htokens, base64Decode_encode]
      rfl
  | guid g =>
      cases h
      have htokens := hyphenated_isToken g
      refine ⟨_, rfl, ?_⟩
      simp only [leafContent, simpleElement, decodePwshEscapes_of_isToken _ htokens,
        Text.trim_of_isToken _ htokens, hp.parseUuid_hyphenated]
      rfl
  | decimal s | string s | dateTime s | duration s | version s | uri s | xml s | scriptBlock s
  | secureString s =>
      cases h
      refine ⟨_, rfl, ?_⟩
      simp only [leafContent, htext]
      rfl

end Psrp

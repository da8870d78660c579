import Mathlib.Algebra.Ring.Nat
import Mathlib.Algebra.Ring.Int.Defs
import Mathlib.Data.List.DropRight
import Mathlib.Tactic.IntervalCases

/-!
# Texts

Texts as lists of Unicode scalar values, and the little of string handling
that the rest needs.

A Rust `String` is a sequence of scalar values stored as UTF-8, and Lean's
`Char` is exactly a scalar value, so a list of characters carries the same
data. What the bytes are good for is measuring: `utf8Len` is the length a
Rust `str` reports, and every bound on memory is stated in it.

`trim` strips Unicode white space on both sides. Trimming twice is trimming
once, and a text without white space is left alone; those are the two facts a
round trip through a trimming parser rests on.

## Main definitions

* `Text`: A text as a list of characters.
* `Text.utf8Len`: The number of bytes of the UTF-8 form of a text.
* `Text.isWhitespace`: The Unicode `White_Space` property.
* `Text.trimStart`: A text without its leading white space.
* `Text.trim`: A text without white space at its ends.
* `Text.isToken`: Characters that nothing here touches.

## Theorems

* `Text.trim_trim`: Trimming is idempotent.
* `Text.trim_of_forall`: A text without white space is its own trim.
* `Text.utf8Len_trim_le`: Trimming never lengthens a text.
* `Text.toLower_eq_iff`: Lower case leaves what is no letter alone.
* `Text.splitOn_map`: Splitting a text with its characters replaced.
-/

namespace Psrp

/-- A text: a sequence of Unicode scalar values. -/
abbrev Text := List Char

namespace Text

/-- Length of the UTF-8 form of a text, in bytes. -/
def utf8Len (s : Text) : Nat := (s.map Char.utf8Size).sum

@[simp] theorem utf8Len_nil : utf8Len [] = 0 := rfl

@[simp] theorem utf8Len_cons (c : Char) (s : Text) :
    utf8Len (c :: s) = c.utf8Size + utf8Len s := by
  simp only [utf8Len, List.map_cons, List.sum_cons]

@[simp] theorem utf8Len_append (s t : Text) : utf8Len (s ++ t) = utf8Len s + utf8Len t := by
  simp only [utf8Len, List.map_append, List.sum_append]

theorem length_le_utf8Len (s : Text) : s.length ≤ utf8Len s := by
  induction s with
  | nil => exact Nat.le_refl 0
  | cons c s ih =>
      have hpos := c.utf8Size_pos
      rw [List.length_cons, utf8Len_cons]
      omega

theorem utf8Len_le_of_sublist {s t : Text} (h : s.Sublist t) : utf8Len s ≤ utf8Len t := by
  induction h with
  | slnil => exact Nat.le_refl _
  | cons c _ ih =>
      rw [utf8Len_cons]
      omega
  | cons_cons c _ ih =>
      rw [utf8Len_cons, utf8Len_cons]
      omega

/-- The Unicode `White_Space` property. -/
def isWhitespace (c : Char) : Bool :=
  let n := c.toNat
  (9 ≤ n && n ≤ 13) || n == 0x20 || n == 0x85 || n == 0xA0 || n == 0x1680
    || (0x2000 ≤ n && n ≤ 0x200A) || n == 0x2028 || n == 0x2029 || n == 0x202F
    || n == 0x205F || n == 0x3000

/-- A text without its leading white space. -/
def trimStart (s : Text) : Text := s.dropWhile isWhitespace

/-- A text without white space at either end. -/
def trim (s : Text) : Text := (trimStart s).rdropWhile isWhitespace

/-- The first character left by `dropWhile`, if any, fails the predicate. -/
theorem head_dropWhile (p : Char → Bool) (s : Text) (c : Char) (rest : Text)
    (h : s.dropWhile p = c :: rest) : p c = false := by
  have hne : s.dropWhile p ≠ [] := by rw [h]; exact List.cons_ne_nil _ _
  have hhead := List.head_dropWhile_not p hne
  simpa only [h, List.head_cons, Bool.not_eq_true] using hhead

theorem trim_trim (s : Text) : trim (trim s) = trim s := by
  unfold trim trimStart
  cases hs : s.dropWhile isWhitespace with
  | nil => simp only [List.rdropWhile_nil, List.dropWhile_nil]
  | cons c rest =>
      -- What is left starts with a character that is no white space, so
      -- only the end can still be trimmed, and that was done already.
      have hc : isWhitespace c = false := head_dropWhile isWhitespace s c rest hs
      have hpre : List.dropWhile isWhitespace (List.rdropWhile isWhitespace (c :: rest))
          = List.rdropWhile isWhitespace (c :: rest) := by
        rcases List.rdropWhile_prefix isWhitespace (c :: rest) with ⟨tail, htail⟩
        cases hr : List.rdropWhile isWhitespace (c :: rest) with
        | nil => rfl
        | cons d ds =>
            rw [hr, List.cons_append] at htail
            have hd : d = c := (List.cons.inj htail).1
            rw [hd, List.dropWhile_cons, hc]
            simp only [Bool.false_eq_true, if_false]
      rw [hpre, List.rdropWhile_idempotent]

theorem trim_of_forall (s : Text) (h : ∀ c ∈ s, isWhitespace c = false) : trim s = s := by
  have hstart : trimStart s = s := by
    cases s with
    | nil => rfl
    | cons c rest =>
        rw [trimStart, List.dropWhile_cons, h c (List.mem_cons_self ..)]
        simp only [Bool.false_eq_true, if_false]
  rw [trim, hstart, List.rdropWhile_eq_self_iff]
  intro hne
  rw [h _ (List.getLast_mem hne)]
  exact Bool.false_ne_true

theorem utf8Len_trim_le (s : Text) : utf8Len (trim s) ≤ utf8Len s := by
  refine utf8Len_le_of_sublist (List.Sublist.trans ?_ (List.dropWhile_sublist isWhitespace))
  exact (List.rdropWhile_prefix isWhitespace _).sublist

/-- Letters, digits and the marks of numbers and base64: characters that
    neither trimming nor any escaping touches. -/
def isToken (c : Char) : Bool := c.isAlphanum || c ∈ ['-', '.', '+', '/', '=']

theorem isToken_toNat (c : Char) (h : isToken c = true) :
    43 ≤ c.toNat ∧ c.toNat ≤ 122 ∧ c.toNat ≠ 60 ∧ c.toNat ≠ 62 ∧ c.toNat ≠ 95 := by
  rw [isToken, Bool.or_eq_true, decide_eq_true_eq] at h
  rcases h with h | h
  · delta Char.isAlphanum Char.isAlpha Char.isUpper Char.isLower Char.isDigit at h
    simp only [Bool.or_eq_true, Bool.and_eq_true, decide_eq_true_eq, ge_iff_le,
      UInt32.le_iff_toNat_le, Char.reduceVal, UInt32.reduceToNat] at h
    have hval : c.toNat = c.val.toNat := rfl
    omega
  · simp only [List.mem_cons, List.not_mem_nil, or_false] at h
    rcases h with rfl | rfl | rfl | rfl | rfl <;> decide

theorem isToken_of_isDigit (c : Char) (h : c.isDigit = true) : isToken c = true := by
  rw [isToken, Char.isAlphanum, h, Bool.or_true, Bool.true_or]

theorem space_le_of_isToken (c : Char) (h : isToken c = true) : ' ' ≤ c := by
  have hn := (isToken_toNat c h).1
  have hval : c.val.toNat = c.toNat := rfl
  simp only [Char.le_def, UInt32.le_iff_toNat_le, Char.reduceVal, UInt32.reduceToNat]
  omega

theorem isWhitespace_of_isToken (c : Char) (h : isToken c = true) : isWhitespace c = false := by
  have hn := isToken_toNat c h
  simp only [isWhitespace, Bool.or_eq_false_iff, Bool.and_eq_false_iff, decide_eq_false_iff_not,
    beq_eq_false_iff_ne, ne_eq, Nat.not_le]
  omega

theorem trim_of_isToken (s : Text) (h : ∀ c ∈ s, isToken c = true) : trim s = s :=
  trim_of_forall s fun c hc => isWhitespace_of_isToken c (h c hc)

/-- Lower case is for twenty-six letters, and keeps every other character. -/
theorem toLower_induction {P : Char → Prop} (h : ∀ n, 65 ≤ n → n ≤ 90 → P (Char.ofNat n))
    (c : Char) : P c ∨ c.toLower = c := by
  by_cases hupper : 'A'.val ≤ c.val ∧ c.val ≤ 'Z'.val
  · have hc := h c.toNat hupper.1 hupper.2
    rw [Char.ofNat_toNat] at hc
    exact .inl hc
  · exact .inr (dif_neg hupper)

/-- Lower case is for the ASCII letters, and comes out as such. -/
theorem toLower_cases (c : Char) :
    c.toLower = c ∨ c.isAlpha = true ∧ c.toLower.isLower = true ∧ c.toLower.toLower = c.toLower := by
  have hletters : ∀ n, 65 ≤ n → n ≤ 90 → (Char.ofNat n).isAlpha = true ∧
      (Char.ofNat n).toLower.isLower = true ∧
      (Char.ofNat n).toLower.toLower = (Char.ofNat n).toLower := by
    intro n hlo hhi
    interval_cases n <;> exact ⟨rfl, rfl, rfl⟩
  exact (toLower_induction (P := fun c => c.isAlpha = true ∧ c.toLower.isLower = true ∧
    c.toLower.toLower = c.toLower) hletters c).symm

theorem toLower_toLower (c : Char) : c.toLower.toLower = c.toLower := by
  rcases toLower_cases c with h | ⟨-, -, h⟩
  · rw [h, h]
  · exact h

/-- Only the character itself has a lower case that is no letter. -/
theorem toLower_eq_iff {c s : Char} (hs : s.isAlpha = false) : c.toLower = s ↔ c = s := by
  rcases toLower_cases c with h | ⟨halpha, hlower, -⟩
  · rw [h]
  · constructor
    · rintro rfl
      have halpha : c.toLower.isAlpha = true := by
        delta Char.isAlpha
        rw [hlower, Bool.or_true]
      cases hs.symm.trans halpha
    · rintro rfl
      cases halpha.symm.trans hs

/-- A text is split at the same places when its characters are replaced by
    others that are separators where they were. -/
theorem splitOn_map {α : Type} [BEq α] [LawfulBEq α] {f : α → α} {sep : α}
    (h : ∀ a, f a = sep ↔ a = sep) (xs : List α) :
    (xs.map f).splitOn sep = (xs.splitOn sep).map (List.map f) := by
  induction xs with
  | nil => rfl
  | cons x xs ih =>
      rw [List.map_cons, List.splitOn_cons_eq_if_modifyHead, List.splitOn_cons_eq_if_modifyHead, ih]
      by_cases hx : x = sep
      · rw [if_pos (beq_iff_eq.mpr hx), if_pos (beq_iff_eq.mpr ((h x).mpr hx))]
        rfl
      · rw [if_neg (fun hb => hx (eq_of_beq hb)), if_neg (fun hb => hx ((h x).mp (eq_of_beq hb)))]
        rcases xs.splitOn sep with _ | ⟨head, rest⟩
        · rfl
        · rfl

end Text

/-- What is in joined texts is in one of them or in the separator. -/
theorem mem_intercalate {α : Type} {sep : List α} {ls : List (List α)} {a : α}
    (h : a ∈ List.intercalate sep ls) : (∃ l ∈ ls, a ∈ l) ∨ a ∈ sep := by
  induction ls with
  | nil => exact absurd h List.not_mem_nil
  | cons l ls ih =>
      by_cases hls : ls = []
      · rw [hls, List.intercalate_singleton] at h
        exact Or.inl ⟨l, List.mem_cons_self .., h⟩
      · rw [List.intercalate_cons_of_ne_nil hls] at h
        rcases List.mem_append.mp h with h | h
        · rcases List.mem_append.mp h with h | h
          · exact Or.inl ⟨l, List.mem_cons_self .., h⟩
          · exact Or.inr h
        · rcases ih h with ⟨later, hlater, hmem⟩ | hsep
          · exact Or.inl ⟨later, List.mem_cons_of_mem _ hlater, hmem⟩
          · exact Or.inr hsep

end Psrp

import Psrp.Core.Escape
import Psrp.Lib.Decimal
import Psrp.Lib.XmlScanner

/-!
# Escaping Loses Nothing

The decoder reads back every text the encoder escapes, and never lengthens
one.

`escapeInner` does two jobs in one pass. `pwshEscape` is the PowerShell layer
alone, and `escapeInner_eq` says that entity-escaping its result gives the
same text, so each layer can be inverted by itself.

The inversion of the PowerShell layer is an induction on the text in which
the decoder stands at a token boundary with a run of units collected. Two
things could break it. An underscore that is copied must not open an escape;
it does not, because it is only copied before a character other than `x`, and
escaping never turns another character into an `x`. And units must not pair
up as surrogates; they do not, because only an underscore and control
characters are ever escaped.

## Main definitions

* `pwshEscape`: The PowerShell layer of escaping.
* `decodeUnits`: The decoder's loop with as many turns as it needs.

## Theorems

* `escapeInner_eq`: Escaping is the two layers one after the other.
* `decodeUnits_escape`, `decodeUnits_char`: The decoder's loop, one token.
* `decodePwshEscapes_pwshEscape`: The decoder inverts the PowerShell layer.
* `utf8Len_decodePwshEscapes_le`: The decoder never lengthens a text.
* `decodePwshEscapes_of_no_underscore`: Text without underscores is copied.
* `escape_exact`: What is escaped is read back, and is safe from markup and
  from normalisation.
-/

namespace Psrp

/-- Whether the PowerShell layer escapes a character before the given text. -/
def needsPwshEscape (inAttr : Bool) (c : Char) (next : Text) : Bool :=
  (c = '_' && (next.head? = some 'x' || next.head? = some 'X'))
    || ((c = '\t' || c = '\n') && inAttr)
    || (c.toNat < 0x20 && c ≠ '\t' && c ≠ '\n')

/-- The PowerShell layer of escaping. -/
def pwshEscape (inAttr : Bool) : Text → Text
  | [] => []
  | c :: cs => (if needsPwshEscape inAttr c cs then pwshEscapeOf c else [c])
    ++ pwshEscape inAttr cs

/-- The characters of an escape are no entities. -/
theorem escapeText_pwshEscapeOf (c : Char) :
    Xml.escapeText (pwshEscapeOf c) = pwshEscapeOf c := by
  have hdigit : ∀ n < 16, Xml.escapeChar (upperHexDigit n) = [upperHexDigit n] := by decide
  have h0 := hdigit (c.toNat / 4096 % 16) (Nat.mod_lt _ (by decide))
  have h1 := hdigit (c.toNat / 256 % 16) (Nat.mod_lt _ (by decide))
  have h2 := hdigit (c.toNat / 16 % 16) (Nat.mod_lt _ (by decide))
  have h3 := hdigit (c.toNat % 16) (Nat.mod_lt _ (by decide))
  have hu : Xml.escapeChar '_' = ['_'] := by decide
  have hx : Xml.escapeChar 'x' = ['x'] := by decide
  simp only [pwshEscapeOf, hex4, List.cons_append, List.nil_append, Xml.escapeText_cons,
    Xml.escapeText_nil, hu, hx, h0, h1, h2, h3]

theorem escapeInner_eq (inAttr : Bool) (s : Text) :
    escapeInner inAttr s = Xml.escapeText (pwshEscape inAttr s) := by
  induction s with
  | nil => rfl
  | cons c cs ih =>
      rw [escapeInner, pwshEscape, Xml.escapeText_append, ih]
      congr 1
      by_cases hent : c = '<' ∨ c = '>' ∨ c = '&' ∨ c = '"' ∨ c = '\''
      · -- A metacharacter is no control character and no underscore.
        have hneed : needsPwshEscape inAttr c cs = false := by
          rcases hent with rfl | rfl | rfl | rfl | rfl <;>
            simp only [needsPwshEscape, Char.reduceEq, decide_false, Bool.false_and,
              Char.reduceToNat, Nat.reduceLT, Bool.or_self]
        rw [hneed]
        rcases hent with rfl | rfl | rfl | rfl | rfl <;> rfl
      · simp only [not_or] at hent
        rcases hent with ⟨h1, h2, h3, h4, h5⟩
        rw [if_neg h1, if_neg h2, if_neg h3, if_neg h4, if_neg h5]
        have hplain : Xml.escapeText [c] = [c] := by
          simp only [Xml.escapeText_cons, Xml.escapeText_nil, Xml.escapeChar, Xml.entityOf,
            if_neg h1, if_neg h2, if_neg h3, if_neg h4, if_neg h5, List.append_nil]
        -- An underscore that would start an escape.
        by_cases hus : c = '_' ∧ (cs.head? = some 'x' ∨ cs.head? = some 'X')
        · have hneed : needsPwshEscape inAttr c cs = true := by
            simp only [needsPwshEscape, hus.1, decide_true, Bool.true_and, Bool.or_eq_true,
              decide_eq_true_eq, hus.2, true_or]
          rw [if_pos hus, hneed, if_pos rfl, escapeText_pwshEscapeOf, hus.1]
          decide
        · rw [if_neg hus]
          -- White space of an attribute.
          by_cases htab : (c = '\t' ∨ c = '\n') ∧ inAttr = true
          · have hneed : needsPwshEscape inAttr c cs = true := by
              simp only [needsPwshEscape, Bool.or_eq_true, Bool.and_eq_true, decide_eq_true_eq,
                htab, and_self, or_true, true_or]
            rw [if_pos htab, hneed, if_pos rfl, escapeText_pwshEscapeOf]
          · rw [if_neg htab]
            -- A control character; everything else is as it is.
            by_cases hctl : c.toNat < 0x20 ∧ c ≠ '\t' ∧ c ≠ '\n'
            · have hneed : needsPwshEscape inAttr c cs = true := by
                simp only [needsPwshEscape, Bool.or_eq_true, Bool.and_eq_true, decide_eq_true_eq,
                  hctl, ne_eq, not_false_eq_true, and_self, or_true]
              rw [if_pos hctl, hneed, if_pos rfl, escapeText_pwshEscapeOf]
            · have hneed : needsPwshEscape inAttr c cs = false := by
                rw [Bool.eq_false_iff]
                intro h
                simp only [needsPwshEscape, Bool.or_eq_true, Bool.and_eq_true,
                  decide_eq_true_eq] at h
                rcases h with (h | h) | h
                · exact hus h
                · exact htab h
                · exact hctl ⟨h.1.1, h.1.2, h.2⟩
              rw [if_neg hctl, hneed, if_neg Bool.false_ne_true, hplain]

/-- The characters of an escape are printable. -/
theorem pwshEscapeOf_printable (c d : Char) (h : d ∈ pwshEscapeOf c) : ' ' ≤ d := by
  have hdigit : ∀ n < 16, ' ' ≤ upperHexDigit n := by decide
  have hmod : ∀ n : Nat, ' ' ≤ upperHexDigit (n % 16) :=
    fun n => hdigit _ (Nat.mod_lt _ (by decide))
  simp only [pwshEscapeOf, hex4, List.cons_append, List.nil_append, List.mem_cons,
    List.not_mem_nil, or_false] at h
  rcases h with rfl | rfl | rfl | rfl | rfl | rfl | rfl
  · decide
  · decide
  · exact hmod _
  · exact hmod _
  · exact hmod _
  · exact hmod _
  · decide

/-- An escaped text holds no control character but tabs and line feeds, and
    none at all in an attribute. -/
theorem pwshEscape_chars (inAttr : Bool) (s : Text) (d : Char) (h : d ∈ pwshEscape inAttr s) :
    ' ' ≤ d ∨ (inAttr = false ∧ (d = '\t' ∨ d = '\n')) := by
  induction s with
  | nil => exact absurd h List.not_mem_nil
  | cons c cs ih =>
      rw [pwshEscape, List.mem_append] at h
      rcases h with h | h
      · split_ifs at h with hneed
        · exact Or.inl (pwshEscapeOf_printable c d h)
        · rw [List.mem_singleton] at h
          subst h
          by_cases hspace : ' ' ≤ d
          · exact Or.inl hspace
          · have hlow : d.toNat < 0x20 := by
              have hval : d.val.toNat = d.toNat := rfl
              simp only [Char.le_def, UInt32.le_iff_toNat_le, Char.reduceVal,
                UInt32.reduceToNat] at hspace
              omega
            simp only [needsPwshEscape, hlow, Bool.or_eq_true, Bool.and_eq_true,
              decide_eq_true_eq, ne_eq, decide_true, Bool.true_and, not_or, not_and,
              Bool.not_eq_true] at hneed
            right
            by_cases htab : d = '\t' ∨ d = '\n'
            · exact ⟨hneed.1.2 htab, htab⟩
            · rw [not_or] at htab
              exact absurd htab.2 (hneed.2 htab.1)
      · exact ih h

/-- An escape starts a text of seven characters more than what follows it. -/
theorem splitPwshEscape_eq_some (s tail : Text) (u : UInt16)
    (h : splitPwshEscape s = some (u, tail)) : ∃ pre : Text, s = pre ++ tail ∧ pre.length = 7 := by
  unfold splitPwshEscape at h
  split at h
  · rename_i a b c d tail'
    rw [Option.map_eq_some_iff] at h
    rcases h with ⟨v, _, hv⟩
    cases hv
    exact ⟨['_', 'x', a, b, c, d, '_'], rfl, rfl⟩
  · cases h

/-- One turn of the decoder's loop. -/
theorem decodeLoop_succ (n : Nat) (units : List UInt16) (s : Text) :
    decodeLoop (n + 1) units s =
      match splitPwshEscape s with
      | some (unit, tail) => decodeLoop n (units ++ [unit]) tail
      | none => decodeUtf16 units ++ match s with
        | [] => []
        | c :: cs => c :: cs.takeWhile (· ≠ '_') ++ decodeLoop n [] (cs.dropWhile (· ≠ '_')) :=
  rfl

/-- The number of turns does not matter once there are enough. -/
theorem decodeLoop_fuel : ∀ (n m : Nat) (units : List UInt16) (s : Text),
    s.length < n → s.length < m → decodeLoop n units s = decodeLoop m units s := by
  intro n
  induction n with
  | zero => intro m units s hn; omega
  | succ n ih =>
      intro m units s hn hm
      cases m with
      | zero => omega
      | succ m =>
          rw [decodeLoop_succ, decodeLoop_succ]
          cases hsplit : splitPwshEscape s with
          | some p =>
              rcases p with ⟨u, tail⟩
              rcases splitPwshEscape_eq_some s tail u hsplit with ⟨pre, hpre, hlen⟩
              rw [hpre, List.length_append] at hn hm
              exact ih m _ tail (by omega) (by omega)
          | none =>
              cases s with
              | nil => rfl
              | cons c cs =>
                  have hdrop : (cs.dropWhile (· ≠ '_')).length ≤ cs.length :=
                    (List.dropWhile_sublist _).length_le
                  rw [List.length_cons] at hn hm
                  simp only []
                  rw [ih m [] _ (by omega) (by omega)]

/-- The decoder's loop with as many turns as it needs. -/
def decodeUnits (units : List UInt16) (s : Text) : Text := decodeLoop (s.length + 1) units s

@[simp] theorem decodeUnits_nil (units : List UInt16) : decodeUnits units [] = decodeUtf16 units :=
  List.append_nil _

theorem decodeUnits_escape (units : List UInt16) (s tail : Text) (u : UInt16)
    (h : splitPwshEscape s = some (u, tail)) :
    decodeUnits units s = decodeUnits (units ++ [u]) tail := by
  rcases splitPwshEscape_eq_some s tail u h with ⟨pre, hpre, hlen⟩
  have hs : s.length = 7 + tail.length := by rw [hpre, List.length_append, hlen]
  rw [decodeUnits, decodeLoop_succ, h]
  exact decodeLoop_fuel _ _ _ _ (by omega) (by omega)

/-- Copying up to the next underscore is copying one character at a time. -/
theorem decodeUnits_span (s : Text) :
    s.takeWhile (· ≠ '_') ++ decodeUnits [] (s.dropWhile (· ≠ '_')) = decodeUnits [] s := by
  cases s with
  | nil => rfl
  | cons c cs =>
      by_cases hc : c = '_'
      · subst hc
        rfl
      · have hsplit : splitPwshEscape (c :: cs) = none := by
          unfold splitPwshEscape
          split
          · rename_i heq
            exact absurd (List.cons.inj heq).1 hc
          · rfl
        have hdrop : (cs.dropWhile (· ≠ '_')).length ≤ cs.length :=
          (List.dropWhile_sublist _).length_le
        have hdec : decide (c ≠ '_') = true := decide_eq_true hc
        rw [List.takeWhile_cons, List.dropWhile_cons, hdec, if_pos rfl, if_pos rfl]
        conv_rhs => rw [decodeUnits, decodeLoop_succ, hsplit]
        rw [List.cons_append, decodeUnits]
        simp only [decodeUtf16, List.nil_append, List.length_cons, List.cons_append]
        rw [decodeLoop_fuel _ (cs.length + 1) _ _ (Nat.lt_succ_self _) (by omega)]

theorem decodeUnits_char (units : List UInt16) (c : Char) (s : Text)
    (h : splitPwshEscape (c :: s) = none) :
    decodeUnits units (c :: s) = decodeUtf16 units ++ c :: decodeUnits [] s := by
  have hdrop : (s.dropWhile (· ≠ '_')).length ≤ s.length := (List.dropWhile_sublist _).length_le
  rw [← decodeUnits_span s, decodeUnits, decodeLoop_succ, h, decodeUnits]
  simp only [List.length_cons, List.cons_append]
  rw [decodeLoop_fuel _ (s.length + 1) _ _ (Nat.lt_succ_self _) (by omega)]

theorem decodeUtf16_cons (u : UInt16) (us : List UInt16) (h : u.toNat < 0xD800) :
    decodeUtf16 (u :: us) = Char.ofNat u.toNat :: decodeUtf16 us := by
  rw [decodeUtf16.eq_def]
  exact if_pos (Or.inl h)

/-- Units that are no surrogates are their own characters, whatever follows. -/
theorem decodeUtf16_append (us vs : List UInt16)
    (h : ∀ u ∈ us, u.toNat < 0xD800) :
    decodeUtf16 (us ++ vs) = us.map (fun u => Char.ofNat u.toNat) ++ decodeUtf16 vs := by
  induction us with
  | nil => rfl
  | cons u us ih =>
      rw [List.cons_append, decodeUtf16_cons u _ (h u (List.mem_cons_self ..)),
        ih (fun v hv => h v (List.mem_cons_of_mem _ hv))]
      rfl

/-- The escape of a character below U+0080 is read back as its code unit. -/
theorem splitPwshEscape_pwshEscapeOf (c : Char) (h : c.toNat < 128) (tail : Text) :
    splitPwshEscape (pwshEscapeOf c ++ tail) = some (UInt16.ofNat c.toNat, tail) := by
  have hall : ∀ n < 128, u16FromHex (hex4 n) = some (UInt16.ofNat n) := by decide
  have hc := hall c.toNat h
  simp only [hex4] at hc
  simp only [pwshEscapeOf, hex4, List.cons_append, List.nil_append, splitPwshEscape, hc,
    Option.map_some]

/-- Escaping never turns the head of a text into an `x`. -/
theorem pwshEscape_head (inAttr : Bool) (s : Text) (h : s.head? ≠ some 'x') :
    (pwshEscape inAttr s).head? ≠ some 'x' := by
  cases s with
  | nil => exact h
  | cons c cs =>
      rw [pwshEscape]
      split_ifs
      · simp only [pwshEscapeOf, List.cons_append, List.head?_cons, ne_eq, Option.some.injEq,
          Char.reduceEq, not_false_eq_true]
      · rw [List.head?_cons] at h
        rwa [List.cons_append, List.head?_cons]

/-- A text whose second character is no `x` starts with no escape. -/
theorem splitPwshEscape_none (c : Char) (s : Text) (h : c ≠ '_' ∨ s.head? ≠ some 'x') :
    splitPwshEscape (c :: s) = none := by
  unfold splitPwshEscape
  split
  · rename_i heq
    have h1 := (List.cons.inj heq).1
    have h2 := (List.cons.inj heq).2
    rcases h with h | h
    · exact absurd h1 h
    · exact absurd (by rw [h2]; rfl) h
  · rfl

/-- The decoder at a token boundary of an escaped text, with a run of units
    collected, none of them a surrogate. -/
theorem decodeUnits_pwshEscape (inAttr : Bool) (s : Text) :
    ∀ units : List UInt16, (∀ u ∈ units, u.toNat < 0xD800) →
      decodeUnits units (pwshEscape inAttr s)
        = units.map (fun u => Char.ofNat u.toNat) ++ s := by
  induction s with
  | nil =>
      intro units hu
      have h := decodeUtf16_append units [] hu
      rw [List.append_nil] at h
      rw [pwshEscape, decodeUnits_nil, h]
      rfl
  | cons c cs ih =>
      intro units hu
      -- The units before are characters of their own, with no surrogates among them.
      have hflush : decodeUtf16 units = units.map (fun u => Char.ofNat u.toNat) := by
        have h := decodeUtf16_append units [] hu
        rwa [List.append_nil, decodeUtf16, List.append_nil] at h
      rw [pwshEscape]
      by_cases hneed : needsPwshEscape inAttr c cs = true
      · -- Only an underscore and control characters are escaped.
        have hc : c.toNat < 128 := by
          simp only [needsPwshEscape, Bool.or_eq_true, Bool.and_eq_true, decide_eq_true_eq] at hneed
          rcases hneed with (⟨rfl, _⟩ | ⟨rfl | rfl, _⟩) | h
          · decide
          · decide
          · decide
          · omega
        have hunit : (UInt16.ofNat c.toNat).toNat = c.toNat := by
          rw [UInt16.toNat_ofNat', Nat.mod_eq_of_lt (by omega)]
        rw [if_pos hneed, decodeUnits_escape units _ _ _ (splitPwshEscape_pwshEscapeOf c hc _),
          ih]
        · rw [List.map_append, List.append_assoc, List.map_cons, List.map_nil, hunit,
            Char.ofNat_toNat]
          rfl
        · intro u hmem
          rcases List.mem_append.mp hmem with hmem | hmem
          · exact hu u hmem
          · rw [List.mem_singleton.mp hmem, hunit]
            omega
      · -- What is not escaped does not look like an escape.
        have hsplit : splitPwshEscape (c :: pwshEscape inAttr cs) = none := by
          refine splitPwshEscape_none c _ ?_
          by_cases hc : c = '_'
          · right
            refine pwshEscape_head inAttr cs (fun hx => hneed ?_)
            simp only [needsPwshEscape, hc, decide_true, hx, Bool.true_or, Bool.true_and]
          · exact Or.inl hc
        rw [if_neg hneed, List.cons_append, List.nil_append, decodeUnits_char units c _ hsplit,
          ih [] (fun _ h => absurd h List.not_mem_nil), hflush]
        rfl

theorem decodePwshEscapes_pwshEscape (inAttr : Bool) (s : Text) :
    decodePwshEscapes (pwshEscape inAttr s) = s :=
  decodeUnits_pwshEscape inAttr s [] (fun _ h => absurd h List.not_mem_nil)

/-- A character of the basic plane takes at most three bytes as UTF-8. -/
theorem utf8Size_ofNat_le (n : Nat) (hn : n < 65536) : (Char.ofNat n).utf8Size ≤ 3 := by
  have hle := Char.utf8Size_le_four (Char.ofNat n)
  have hne : (Char.ofNat n).utf8Size ≠ 4 := by
    intro h
    have hval := Char.utf8Size_eq_four_iff.mp h
    rw [UInt32.lt_iff_toNat_lt] at hval
    by_cases hvalid : n.isValidChar
    · have hn : (Char.ofNatAux n hvalid).val.toNat = n := rfl
      rw [Char.ofNat, dif_pos hvalid, hn] at hval
      exact absurd hval (by change ¬ 65535 < n; omega)
    · rw [Char.ofNat, dif_neg hvalid] at hval
      exact absurd hval (by decide)
  omega

/-- UTF-16 units take at most three bytes each as UTF-8: a surrogate pair
    takes four. -/
theorem utf8Len_decodeUtf16_le (us : List UInt16) :
    Text.utf8Len (decodeUtf16 us) ≤ 3 * us.length := by
  have hunit : ∀ u : UInt16, (Char.ofNat u.toNat).utf8Size ≤ 3 :=
    fun u => utf8Size_ofNat_le _ u.toNat_lt
  have hrepl : replacementCharacter.utf8Size ≤ 3 := by decide
  fun_induction decodeUtf16 us with
  | case1 => exact Nat.le_refl 0
  | case2 u us _ ih =>
      have h := hunit u
      simp only [Text.utf8Len_cons, List.length_cons]
      omega
  | case3 u us _ _ ih =>
      simp only [Text.utf8Len_cons, List.length_cons]
      omega
  | case4 u =>
      simp only [Text.utf8Len_cons, Text.utf8Len_nil, List.length_cons, List.length_nil]
      omega
  | case5 u _ _ l rest _ ih =>
      have h := Char.utf8Size_le_four
        (Char.ofNat (0x10000 + 0x400 * (u.toNat - 0xD800) + (l.toNat - 0xDC00)))
      simp only [Text.utf8Len_cons, List.length_cons]
      omega
  | case6 u _ _ l rest _ ih =>
      simp only [Text.utf8Len_cons, List.length_cons] at ih ⊢
      omega

/-- The decoder's loop never lengthens a text, the collected units counted at
    three bytes each. -/
theorem utf8Len_decodeUnits_le (n : Nat) : ∀ (s : Text) (units : List UInt16), s.length ≤ n →
    Text.utf8Len (decodeUnits units s) ≤ Text.utf8Len s + 3 * units.length := by
  induction n with
  | zero =>
      intro s units hs
      rw [List.length_eq_zero_iff.mp (Nat.le_zero.mp hs), decodeUnits_nil]
      exact Nat.le_trans (utf8Len_decodeUtf16_le units) (Nat.le_add_left _ _)
  | succ n ih =>
      intro s units hs
      cases s with
      | nil =>
          rw [decodeUnits_nil]
          exact Nat.le_trans (utf8Len_decodeUtf16_le units) (Nat.le_add_left _ _)
      | cons c cs =>
          cases hsplit : splitPwshEscape (c :: cs) with
          | some p =>
              rcases p with ⟨u, tail⟩
              rcases splitPwshEscape_eq_some _ tail u hsplit with ⟨pre, hpre, hlen⟩
              have hbytes : pre.length ≤ Text.utf8Len pre := Text.length_le_utf8Len pre
              have hpos : (c :: cs).length = pre.length + tail.length := by
                rw [hpre, List.length_append]
              rw [decodeUnits_escape units _ tail u hsplit]
              have h := ih tail (units ++ [u]) (by omega)
              rw [hpre, Text.utf8Len_append]
              rw [List.length_append, List.length_singleton] at h
              omega
          | none =>
              rw [decodeUnits_char units c cs hsplit, Text.utf8Len_append, Text.utf8Len_cons,
                Text.utf8Len_cons]
              have h := ih cs [] (by rw [List.length_cons] at hs; omega)
              have hu := utf8Len_decodeUtf16_le units
              rw [List.length_nil] at h
              omega

theorem utf8Len_decodePwshEscapes_le (s : Text) :
    Text.utf8Len (decodePwshEscapes s) ≤ Text.utf8Len s :=
  utf8Len_decodeUnits_le s.length s [] (Nat.le_refl _)

/-- Text without underscores holds no escape. -/
theorem decodePwshEscapes_of_no_underscore (s : Text) (h : ∀ c ∈ s, c ≠ '_') :
    decodePwshEscapes s = s := by
  suffices hunits : decodeUnits [] s = s from hunits
  induction s with
  | nil => rfl
  | cons c cs ih =>
      have hc := splitPwshEscape_none c cs (Or.inl (h c (List.mem_cons_self ..)))
      rw [decodeUnits_char [] c cs hc, ih (fun d hd => h d (List.mem_cons_of_mem _ hd))]
      rfl

/-- Unescaping and decoding undo the two layers. -/
theorem decode_unescape_escapeInner (inAttr : Bool) (s : Text) :
    (Xml.unescape none (escapeInner inAttr s)).map decodePwshEscapes = some s := by
  rw [escapeInner_eq, Xml.unescape_escapeText, Option.map_some, decodePwshEscapes_pwshEscape]

/-- Entities are printable, so escaping them adds no control character. -/
theorem escapeInner_chars (inAttr : Bool) (s : Text) (d : Char) (h : d ∈ escapeInner inAttr s) :
    0x20 ≤ d.toNat ∨ (inAttr = false ∧ (d = '\t' ∨ d = '\n')) := by
  have hprintable : ∀ c : Char, ' ' ≤ c → 0x20 ≤ c.toNat := by
    intro c hc
    rwa [Char.le_def, UInt32.le_iff_toNat_le] at hc
  rw [escapeInner_eq, Xml.escapeText, List.mem_flatMap] at h
  obtain ⟨c, hc, hd⟩ := h
  rw [Xml.escapeChar] at hd
  cases he : Xml.entityOf c with
  | none =>
      rw [he, List.mem_singleton] at hd
      rw [hd]
      rcases pwshEscape_chars inAttr s c hc with hle | hspace
      · exact Or.inl (hprintable c hle)
      · exact Or.inr hspace
  | some name =>
      have hall : ('&' :: name.toList ++ [';']).all (fun e => decide (' ' ≤ e)) = true := by
        unfold Xml.entityOf at he
        split_ifs at he <;> cases he <;> decide
      have hentity : ∀ e ∈ '&' :: name.toList ++ [';'], ' ' ≤ e :=
        fun e hmem => of_decide_eq_true (List.all_eq_true.mp hall e hmem)
      rw [he] at hd
      exact Or.inl (hprintable d (hentity d hd))

/-- Escaping is exact: what is escaped is read back; no markup is left in it,
    and no white space that a conforming reader would normalise where it is
    written. -/
theorem escape_exact (s : Text) :
    (Xml.unescape none (escape s)).map decodePwshEscapes = some s
    ∧ (Xml.unescape none (escapeAttr s)).map decodePwshEscapes = some s
    ∧ (∀ c ∈ escape s, c ∉ ['<', '>', '"', '\''] ∧ (c.toNat < 0x20 → c = '\t' ∨ c = '\n'))
    ∧ (∀ pre rest, escape s = pre ++ '&' :: rest →
      ∃ entity ∈ ["lt", "gt", "amp", "quot", "apos"], entity.toList ++ [';'] <+: rest)
    ∧ (∀ c ∈ escapeAttr s, 0x20 ≤ c.toNat)
    ∧ Xml.normaliseLines (escape s) = escape s
    ∧ Xml.normaliseAttrValue (Xml.normaliseLines (escapeAttr s)) = escapeAttr s := by
  -- Of the control characters only white space is left, and in an attribute none.
  have htext : ∀ c ∈ escape s, c.toNat < 0x20 → c = '\t' ∨ c = '\n' := by
    intro c hc hlow
    rcases escapeInner_chars false s c hc with hle | hspace
    · omega
    · exact hspace.2
  have hattr : ∀ c ∈ escapeAttr s, 0x20 ≤ c.toNat := by
    intro c hc
    rcases escapeInner_chars true s c hc with hle | hspace
    · exact hle
    · exact absurd hspace.1 (by decide)
  refine ⟨decode_unescape_escapeInner false s, decode_unescape_escapeInner true s, ?_, ?_, hattr,
    ?_, ?_⟩
  · intro c hc
    refine ⟨?_, htext c hc⟩
    rw [escape, escapeInner_eq] at hc
    have hchars := Xml.escapeText_chars _ c hc
    simp only [List.mem_cons, List.not_mem_nil, or_false, not_or]
    exact ⟨hchars.2.2.1, hchars.2.1, hchars.1, hchars.2.2.2⟩
  · intro pre rest h
    rw [escape, escapeInner_eq] at h
    -- An ampersand is that of an entity.
    obtain ⟨c, name, hname, hprefix⟩ := Xml.escapeText_ampersand _ pre rest h
    refine ⟨name, ?_, hprefix⟩
    unfold Xml.entityOf at hname
    split_ifs at hname <;> cases hname <;> decide
  · -- A carriage return is a control character that is no white space of text.
    refine Xml.normaliseLines_of_no_cr _ (fun c hc hcr => ?_)
    subst hcr
    exact absurd (htext _ hc (by decide)) (by decide)
  · rw [Xml.normaliseLines_of_no_cr _ (fun c hc hcr => ?_),
      Xml.normaliseAttrValue_of_printable _ hattr]
    subst hcr
    exact absurd (hattr _ hc) (by decide)

end Psrp

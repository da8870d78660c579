import Psrp.Core.Base64
import Psrp.Lib.Bits

/-!
# Base64 Is Exact

Which texts decode, to what, and that decoding what was encoded gives the
bytes back.

The accumulator of the decoder carries bits of earlier groups above the ones
it still needs, so the induction over groups holds for every accumulator: four
symbols read with no bits pending give their three bytes and leave no bits
pending.

## Theorems

* `base64Symbols_encode`: The symbol loop over an encoded text.
* `base64Decode_encode`: The round trip.
* `base64Encode_chars`: What an encoded text is made of.
* `base64Symbols_length`: Decoding never makes more bytes than symbols.
* `base64Symbols_digits`: The symbol loop reads digits.
* `base64_exact`: What decodes, and to what.
-/

namespace Psrp

theorem base64Value_char (n : Nat) (h : n < 64) : base64Value (base64Char n) = some n := by
  have hall : ∀ n < 64, base64Value (base64Char n) = some n := by decide +kernel
  exact hall n h

theorem base64Char_mod (n : Nat) : base64Char n = base64Char (n % 64) := by
  rw [base64Char, base64Char, Nat.mod_mod]

/-- A symbol of the alphabet is no padding, and is not skipped. -/
theorem base64Char_ne (n : Nat) :
    base64Char n ≠ '=' ∧ base64Skips (base64Char n) = false
      ∧ Text.isToken (base64Char n) = true := by
  have hall : ∀ n < 64, base64Char n ≠ '=' ∧ base64Skips (base64Char n) = false
      ∧ Text.isToken (base64Char n) = true := by
    decide +kernel
  rw [base64Char_mod]
  exact hall _ (Nat.mod_lt _ (by decide))

/-- The symbols of an encoded text, without its padding. -/
def base64Body : List UInt8 → Text
  | [] => []
  | [b0] => [base64Char (b0.toNat / 4), base64Char (b0.toNat % 4 * 16)]
  | [b0, b1] =>
    [base64Char (b0.toNat / 4), base64Char (b0.toNat % 4 * 16 + b1.toNat / 16),
      base64Char (b1.toNat % 16 * 4)]
  | b0 :: b1 :: b2 :: rest =>
    base64Char (b0.toNat / 4) :: base64Char (b0.toNat % 4 * 16 + b1.toNat / 16)
      :: base64Char (b1.toNat % 16 * 4 + b2.toNat / 64) :: base64Char b2.toNat
      :: base64Body rest

theorem base64Body_char (bs : List UInt8) : ∀ c ∈ base64Body bs, ∃ n, c = base64Char n := by
  intro c hc
  fun_induction base64Body bs with
  | case1 => exact absurd hc List.not_mem_nil
  | case2 b0 =>
      simp only [List.mem_cons, List.not_mem_nil, or_false] at hc
      rcases hc with rfl | rfl <;> exact ⟨_, rfl⟩
  | case3 b0 b1 =>
      simp only [List.mem_cons, List.not_mem_nil, or_false] at hc
      rcases hc with rfl | rfl | rfl <;> exact ⟨_, rfl⟩
  | case4 b0 b1 b2 rest ih =>
      simp only [List.mem_cons] at hc
      rcases hc with rfl | rfl | rfl | rfl | hc
      · exact ⟨_, rfl⟩
      · exact ⟨_, rfl⟩
      · exact ⟨_, rfl⟩
      · exact ⟨_, rfl⟩
      · exact ih hc

/-- An encoded text is its symbols and then at most two paddings, a multiple
    of four characters in all. -/
theorem base64Encode_eq (bs : List UInt8) :
    ∃ k ≤ 2, base64Encode bs = base64Body bs ++ List.replicate k '='
      ∧ (base64Encode bs).length % 4 = 0 := by
  fun_induction base64Encode bs with
  | case1 => exact ⟨0, by omega, rfl, rfl⟩
  | case2 b0 =>
      refine ⟨2, Nat.le_refl 2, rfl, ?_⟩
      simp only [List.length_cons, List.length_nil, Nat.reduceAdd, Nat.reduceMod]
  | case3 b0 b1 =>
      refine ⟨1, by omega, rfl, ?_⟩
      simp only [List.length_cons, List.length_nil, Nat.reduceAdd, Nat.reduceMod]
  | case4 b0 b1 b2 rest ih =>
      rcases ih with ⟨k, hk, heq, hlen⟩
      refine ⟨k, hk, by rw [heq]; rfl, ?_⟩
      simp only [List.length_cons]
      omega

/-- The decoder's symbol loop over the symbols of an encoded text. -/
theorem base64Symbols_encode (bs : List UInt8) :
    ∀ buf : Nat, base64Symbols buf 0 (base64Body bs) = some bs := by
  have hbyte : ∀ (b : UInt8) (n : Nat), n = b.toNat → UInt8.ofNat n = b := by
    intro b n hn
    rw [hn, UInt8.ofNat_toNat]
  fun_induction base64Body bs with
  | case1 => exact fun _ => rfl
  | case2 b0 =>
      intro buf
      have h0 := b0.toNat_lt
      simp only [base64Symbols, base64Value_char _ (show b0.toNat / 4 < 64 by omega),
        base64Value_char _ (show b0.toNat % 4 * 16 < 64 by omega), Option.bind_eq_bind,
        Option.bind_some, Option.pure_def, Nat.zero_add, Nat.reduceAdd, Nat.reduceLeDiff,
        Nat.reduceSub, if_true, if_false, Nat.reducePow]
      rw [hbyte b0 _ (by omega)]
  | case3 b0 b1 =>
      intro buf
      have h0 := b0.toNat_lt
      have h1 := b1.toNat_lt
      simp only [base64Symbols, base64Value_char _ (show b0.toNat / 4 < 64 by omega),
        base64Value_char _ (show b0.toNat % 4 * 16 + b1.toNat / 16 < 64 by omega),
        base64Value_char _ (show b1.toNat % 16 * 4 < 64 by omega), Option.bind_eq_bind,
        Option.bind_some, Option.pure_def, Nat.zero_add, Nat.reduceAdd, Nat.reduceLeDiff,
        Nat.reduceSub, if_true, if_false, Nat.reducePow]
      rw [hbyte b0 _ (by omega), hbyte b1 _ (by omega)]
  | case4 b0 b1 b2 rest ih =>
      intro buf
      have h0 := b0.toNat_lt
      have h1 := b1.toNat_lt
      have h2 := b2.toNat_lt
      rw [base64Char_mod b2.toNat]
      simp only [base64Symbols, base64Value_char _ (show b0.toNat / 4 < 64 by omega),
        base64Value_char _ (show b0.toNat % 4 * 16 + b1.toNat / 16 < 64 by omega),
        base64Value_char _ (show b1.toNat % 16 * 4 + b2.toNat / 64 < 64 by omega),
        base64Value_char _ (show b2.toNat % 64 < 64 by omega), ih, Option.bind_eq_bind,
        Option.bind_some, Option.pure_def, Nat.zero_add, Nat.reduceAdd, Nat.reduceLeDiff,
        Nat.reduceSub, if_true, if_false, Nat.reducePow]
      rw [hbyte b0 _ (by omega), hbyte b1 _ (by omega), hbyte b2 _ (by omega)]

/-- What an encoded text is made of: nothing that trimming, escaping or
    skipping would touch. -/
theorem base64Encode_chars (bs : List UInt8) : ∀ c ∈ base64Encode bs,
    base64Skips c = false ∧ Text.isToken c = true := by
  rcases base64Encode_eq bs with ⟨k, _, heq, _⟩
  intro c hc
  rw [heq, List.mem_append] at hc
  rcases hc with hc | hc
  · rcases base64Body_char bs c hc with ⟨n, rfl⟩
    exact (base64Char_ne n).2
  · rw [List.eq_of_mem_replicate hc]
    decide

/-- The padding of symbols that end in it. -/
theorem padding_length {body : Text} (k : Nat) (h : ∀ c ∈ body, c ≠ '=') :
    ((body ++ List.replicate k '=').reverse.takeWhile (· = '=')).length = k := by
  have hbody : body.reverse.takeWhile (fun c => decide (c = '=')) = [] := by
    rw [List.takeWhile_eq_nil_iff]
    intro hpos
    rw [List.get_eq_getElem, decide_eq_true_eq]
    exact h _ (List.mem_reverse.mp (List.getElem_mem hpos))
  rw [List.reverse_append, List.reverse_replicate,
    List.takeWhile_append_of_pos (by
      intro c hc
      rw [List.eq_of_mem_replicate hc]
      rfl), hbody, List.append_nil, List.length_replicate]

theorem base64Decode_encode (bs : List UInt8) : base64Decode (base64Encode bs) = some bs := by
  rcases base64Encode_eq bs with ⟨k, hk, heq, hlen⟩
  have hfilter : (base64Encode bs).filter (fun c => !base64Skips c) = base64Encode bs := by
    rw [List.filter_eq_self]
    intro c hc
    rw [(base64Encode_chars bs c hc).1]
    rfl
  have hpad : ((base64Encode bs).reverse.takeWhile (· = '=')).length = k := by
    rw [heq]
    refine padding_length k (fun c hc => ?_)
    rcases base64Body_char bs c hc with ⟨n, rfl⟩
    exact (base64Char_ne n).1
  simp only [base64Decode, hfilter, hlen, hpad, ne_eq, not_true_eq_false, if_false,
    if_neg (show ¬ 2 < k by omega)]
  rw [heq, List.length_append, List.length_replicate, Nat.add_sub_cancel, List.take_left]
  exact base64Symbols_encode bs 0

theorem base64Symbols_length (buf bits : Nat) (s : Text) (out : List UInt8)
    (h : base64Symbols buf bits s = some out) : out.length ≤ s.length := by
  induction s generalizing buf bits out with
  | nil =>
      cases h
      exact Nat.le_refl 0
  | cons c cs ih =>
      rw [base64Symbols] at h
      simp only [Option.bind_eq_bind, Option.bind_eq_some_iff] at h
      rcases h with ⟨v, _, h⟩
      rw [List.length_cons]
      split_ifs at h with hbits
      · simp only [Option.bind_eq_some_iff, Option.pure_def, Option.some.injEq] at h
        rcases h with ⟨tail, htail, rfl⟩
        have hle := ih _ _ _ htail
        rw [List.length_cons]
        omega
      · have hle := ih _ _ _ h
        omega

/-- Decoding never makes more bytes than the text has. -/
theorem base64Decode_length (s : Text) (out : List UInt8) (h : base64Decode s = some out) :
    out.length ≤ Text.utf8Len s := by
  have hlen := Text.length_le_utf8Len s
  have hfilter := List.length_filter_le (fun c => !base64Skips c) s
  simp only [base64Decode] at h
  split_ifs at h
  have hout := base64Symbols_length _ _ _ _ h
  rw [List.length_take] at hout
  omega

/-- The value of a symbol is its place in the alphabet, and nothing else has
    one. -/
theorem base64Value_eq (c : Char) : base64Value c =
    if c ∈ base64Alphabet then some (base64Alphabet.idxOf c) else none := by
  have hascii : ∀ n < 128, base64Value (Char.ofNat n) =
      if Char.ofNat n ∈ base64Alphabet then some (base64Alphabet.idxOf (Char.ofNat n))
      else none := by
    decide +kernel
  by_cases h : c.toNat < 128
  · have hc := hascii c.toNat h
    rwa [Char.ofNat_toNat] at hc
  · -- Neither the ranges nor the table reach beyond ASCII.
    have hall : ∀ d ∈ base64Alphabet, d.toNat < 128 := by
      have hascii : base64Alphabet.all (fun d => decide (d.toNat < 128)) = true := by decide
      exact fun d hd => of_decide_eq_true (List.all_eq_true.mp hascii d hd)
    rw [if_neg (fun hmem => h (hall c hmem))]
    have hval : c.val.toNat = c.toNat := rfl
    have hle : ∀ d : Char, d.toNat < 128 → ¬ c ≤ d := by
      intro d hd hcd
      have hdval : d.val.toNat = d.toNat := rfl
      rw [Char.le_def, UInt32.le_iff_toNat_le] at hcd
      omega
    have hne : ∀ d : Char, d.toNat < 128 → c ≠ d := by
      intro d hd hcd
      rw [hcd] at h
      exact h hd
    rw [base64Value, if_neg (fun hc => hle 'Z' (by decide) hc.2),
      if_neg (fun hc => hle 'z' (by decide) hc.2), if_neg (fun hc => hle '9' (by decide) hc.2),
      if_neg (hne '+' (by decide)), if_neg (hne '/' (by decide))]

/-- The digits of symbols. -/
def base64Digits (symbols : Text) : List Bool :=
  symbols.flatMap fun c => bitsOf 6 (base64Alphabet.idxOf c)

/-- The symbol loop reads the pending digits and those of its symbols. -/
theorem base64Symbols_digits (symbols : Text) (h : ∀ c ∈ symbols, c ∈ base64Alphabet)
    (buf bits : Nat) (hbits : bits < 8) :
    base64Symbols buf bits symbols
      = some (wholeBytes (bitsOf bits buf ++ base64Digits symbols)) := by
  induction symbols generalizing buf bits with
  | nil =>
      rw [base64Symbols, base64Digits, List.flatMap_nil, List.append_nil,
        wholeBytes_of_lt (by rw [length_bitsOf]; exact hbits)]
  | cons c symbols ih =>
      have hc := h c List.mem_cons_self
      have hrest : ∀ d ∈ symbols, d ∈ base64Alphabet := fun d hd => h d (List.mem_cons_of_mem c hd)
      -- The symbol's digits stand behind those that were pending.
      have hidx : base64Alphabet.idxOf c < 64 := List.idxOf_lt_length_of_mem hc
      have hfield : bitsOf (bits + 6) ((buf * 64 + base64Alphabet.idxOf c) % 2 ^ 32)
          = bitsOf bits buf ++ bitsOf 6 (base64Alphabet.idxOf c) := by
        have hdiv : (buf * 64 + base64Alphabet.idxOf c) / 2 ^ 6 = buf := by omega
        have hmod : bitsOf 6 (buf * 64 + base64Alphabet.idxOf c)
            = bitsOf 6 (base64Alphabet.idxOf c) := by
          rw [← bitsOf_mod (buf * 64 + base64Alphabet.idxOf c) (Nat.le_refl 6)]
          congr 1
          omega
        rw [bitsOf_mod _ (by omega), bitsOf_add, hdiv, hmod]
      have hdigits : base64Digits (c :: symbols)
          = bitsOf 6 (base64Alphabet.idxOf c) ++ base64Digits symbols := rfl
      rw [base64Symbols, base64Value_eq, if_pos hc, hdigits, ← List.append_assoc, ← hfield]
      simp only [Option.bind_eq_bind, Option.bind_some, Option.pure_def]
      generalize (buf * 64 + base64Alphabet.idxOf c) % 2 ^ 32 = word
      by_cases hbyte : 8 ≤ bits + 6
      · -- A byte is whole: its digits are the first eight.
        have hsplit : bits + 6 = 8 + (bits + 6 - 8) := by omega
        have hword : bitsOf (bits + 6) word
            = bitsOf 8 (word / 2 ^ (bits + 6 - 8)) ++ bitsOf (bits + 6 - 8) word := by
          conv_lhs => rw [hsplit, bitsOf_add]
        have hmod : word / 2 ^ (bits + 6 - 8) % 256 = word / 2 ^ (bits + 6 - 8) % 2 ^ 8 := by omega
        rw [if_pos hbyte, ih hrest word (bits + 6 - 8) (by omega), Option.bind_some, hword,
          List.append_assoc, wholeBytes_append _ (length_bitsOf 8 _), ofBits_bitsOf, hmod]
      · rw [if_neg hbyte, ih hrest word (bits + 6) (by omega)]

/-- A symbol outside the alphabet is refused. -/
theorem base64Symbols_none (symbols : Text) (h : ∃ c ∈ symbols, c ∉ base64Alphabet)
    (buf bits : Nat) : base64Symbols buf bits symbols = none := by
  induction symbols generalizing buf bits with
  | nil =>
      obtain ⟨c, hc, _⟩ := h
      exact absurd hc List.not_mem_nil
  | cons d symbols ih =>
      rw [base64Symbols, base64Value_eq]
      by_cases hd : d ∈ base64Alphabet
      · have hrest : ∃ c ∈ symbols, c ∉ base64Alphabet := by
          obtain ⟨c, hc, hout⟩ := h
          rcases List.mem_cons.mp hc with rfl | hc
          · exact absurd hd hout
          · exact ⟨c, hc, hout⟩
        rw [if_pos hd]
        simp only [Option.bind_eq_bind, Option.bind_some, ih hrest, Option.bind_none, ite_self]
      · rw [if_neg hd]
        rfl

/-- The symbols of a text: what is left once white space is deleted. -/
def base64SymbolsOf (s : Text) : Text := s.filter fun c => c ∉ [' ', '\t', '\r', '\n']

/-- The accepted texts: groups of four symbols of the alphabet, of which the
    last two may be padding. -/
def IsBase64 (s : Text) : Prop :=
  (base64SymbolsOf s).length % 4 = 0
    ∧ ∃ body : Text, ∃ k ≤ 2, base64SymbolsOf s = body ++ List.replicate k '='
      ∧ ∀ c ∈ body, c ∈ base64Alphabet

/-- The bytes of a text: six digits for each symbol that is no padding, and
    the whole bytes of these. -/
def base64Reference (s : Text) : Bytes :=
  wholeBytes (base64Digits ((base64SymbolsOf s).filter (· ≠ '=')))

/-- Symbols end in their padding. -/
theorem take_append_padding (symbols : Text) :
    symbols.take (symbols.length - (symbols.reverse.takeWhile (· = '=')).length)
      ++ List.replicate (symbols.reverse.takeWhile (· = '=')).length '=' = symbols := by
  have hsplit := List.takeWhile_append_dropWhile (p := fun c => decide (c = '=')) (l := symbols.reverse)
  have hpad : symbols.reverse.takeWhile (· = '=')
      = List.replicate (symbols.reverse.takeWhile (· = '=')).length '=' := by
    rw [List.eq_replicate_iff]
    refine ⟨rfl, fun c hc => ?_⟩
    have hpad := List.mem_takeWhile_imp hc
    exact of_decide_eq_true hpad
  generalize symbols.reverse.takeWhile (· = '=') = padding at *
  have hback := congrArg List.reverse hsplit
  rw [List.reverse_reverse, List.reverse_append, hpad, List.reverse_replicate] at hback
  rw [← hback, List.length_append, List.length_replicate, Nat.add_sub_cancel, List.take_left]

theorem not_mem_pad {c : Char} (h : c ∈ base64Alphabet) : c ≠ '=' := by
  rintro rfl
  exact absurd h (by decide)

theorem base64Skips_eq (s : Text) : s.filter (fun c => !base64Skips c) = base64SymbolsOf s := by
  refine List.filter_congr (fun c _ => ?_)
  simp only [base64Skips, List.mem_cons, List.not_mem_nil, or_false, not_or, Bool.decide_and,
    decide_not, Bool.not_or, Bool.and_assoc]

/-- The digits of a text are those of its symbols without their padding. -/
theorem base64Reference_eq {s body : Text} {k : Nat}
    (hsymbols : base64SymbolsOf s = body ++ List.replicate k '=')
    (hbody : ∀ c ∈ body, c ∈ base64Alphabet) :
    base64Reference s = wholeBytes (base64Digits body) := by
  have hkeep : body.filter (· ≠ '=') = body :=
    List.filter_eq_self.mpr fun c hc => decide_eq_true (not_mem_pad (hbody c hc))
  have hdrop : (List.replicate k '=').filter (· ≠ '=') = [] := by
    rw [List.filter_eq_nil_iff]
    intro c hc
    rw [List.eq_of_mem_replicate hc]
    decide
  rw [base64Reference, hsymbols, List.filter_append, hkeep, hdrop, List.append_nil]

/-- The decoder accepts exactly the texts of base64 and reads their digits, and
    reads back what the encoder writes. -/
theorem base64_exact :
    (∀ (s : Text) (bs : Bytes),
      base64Decode s = some bs ↔ IsBase64 s ∧ bs = base64Reference s)
    ∧ ∀ bs : Bytes, base64Decode (base64Encode bs) = some bs := by
  refine ⟨fun s bs => ?_, base64Decode_encode⟩
  unfold base64Decode
  simp only [base64Skips_eq]
  constructor
  · intro h
    split_ifs at h with hlen hpad
    have hsplit := take_append_padding (base64SymbolsOf s)
    generalize ((base64SymbolsOf s).reverse.takeWhile (· = '=')).length = k at *
    generalize (base64SymbolsOf s).take ((base64SymbolsOf s).length - k) = body at *
    have hbody : ∀ c ∈ body, c ∈ base64Alphabet := by
      by_contra hout
      push Not at hout
      rw [base64Symbols_none body hout] at h
      cases h
    refine ⟨⟨by omega, body, k, by omega, hsplit.symm, hbody⟩, ?_⟩
    rw [base64Symbols_digits body hbody 0 0 (by omega)] at h
    cases h
    rw [base64Reference_eq hsplit.symm hbody, bitsOf, List.nil_append]
  · intro h
    obtain ⟨⟨hlen, body, k, hk, hsymbols, hbody⟩, rfl⟩ := h
    have hpad : ((base64SymbolsOf s).reverse.takeWhile (· = '=')).length = k := by
      rw [hsymbols]
      exact padding_length k fun c hc => not_mem_pad (hbody c hc)
    have htake : (base64SymbolsOf s).take ((base64SymbolsOf s).length - k) = body := by
      rw [hsymbols, List.length_append, List.length_replicate, Nat.add_sub_cancel, List.take_left]
    rw [if_neg (by omega), hpad, if_neg (by omega), htake,
      base64Symbols_digits body hbody 0 0 (by omega), base64Reference_eq hsymbols hbody, bitsOf,
      List.nil_append]

end Psrp

import Psrp.Core.HostName

/-!
# Numeric Host Names

What `parse_inet_aton` reads is said once, without a loop, a radix test or a
shift: `InetAton`. A number of a host name is one of three forms (`IsNumber`),
and a host name is one to four of them between dots, the last filling what the
others leave.

The reader agrees with that because its digit loop gives up on nothing that
would fit, and because the numbers it moves into place do not overlap, so that
combining their bits is adding them (`highBits_or`).

## Main definitions

* `IsNumber`: What one number of a host name stands for.
* `InetAton`: What a host name stands for.

## Theorems

* `inetPart_iff`: The reader of one number.
* `parseInetAton_iff`: The reader of a host name.
-/

namespace Psrp

open Radix

/-- A number of a host name: hexadecimal after `0x` or `0X`, octal after a
    leading zero that is not all of it, otherwise decimal. -/
def IsNumber (t : Text) (n : Nat) : Prop :=
  (∃ hex, (t = '0' :: 'x' :: hex ∨ t = '0' :: 'X' :: hex) ∧ hex ≠ [] ∧ Reads 16 hex n) ∨
  (∃ octal, t = '0' :: octal ∧ octal ≠ [] ∧ Reads 8 octal n) ∨
  (t ≠ [] ∧ (t.head? = some '0' → t = ['0']) ∧ Reads 10 t n)

/-- The address that a host name stands for, of one to four numbers between
    dots: each but the last is a byte, the last has the bytes that are left. -/
def InetAton (s : Text) (a : Nat) : Prop :=
  ∃ (texts : List Text) (leading : List Nat) (last : Nat),
    s = List.intercalate ['.'] texts ∧ List.Forall₂ IsNumber texts (leading ++ [last]) ∧
    leading.length ≤ 3 ∧ (∀ n ∈ leading, n ≤ 255) ∧ last < 256 ^ (4 - leading.length) ∧
    a = (leading.zipWith (fun n k => n * 256 ^ k) [3, 2, 1]).sum + last

variable {radix n : Nat} {t : Text}

/-- A text that stands for a number holds digits only. -/
theorem digits_of_reads (h : Reads radix t n) : ∀ c ∈ t, (digit radix c).isSome := by
  rcases h with ⟨ds, hds, -⟩
  intro c hc
  rcases List.forall₂_iff_get.mp hds with ⟨hlen, hget⟩
  rcases List.getElem_of_mem hc with ⟨i, hi, rfl⟩
  have hdigit := hget i hi (hlen ▸ hi)
  rw [List.get_eq_getElem] at hdigit
  rw [hdigit]
  rfl

theorem not_reads_cons {c : Char} (h : digit radix c = none) : ¬ Reads radix (c :: t) n := by
  intro hreads
  have hc := digits_of_reads hreads c List.mem_cons_self
  rw [h] at hc
  cases hc

theorem not_reads_letter {x : Char} (hx : x = 'x' ∨ x = 'X') (h : radix ≤ 16) :
    ¬ Reads radix (x :: t) n := by
  refine not_reads_cons ?_
  have hrank : rank x = some 33 := by
    rcases hx with rfl | rfl
    · rfl
    · rfl
  rw [digit, hrank, Option.filter_some, decide_eq_false (by omega)]
  rfl

/-- After `0x`, only the hexadecimal form is left. -/
theorem isNumber_hex {x : Char} (hx : x = 'x' ∨ x = 'X') :
    IsNumber ('0' :: x :: t) n ↔ t ≠ [] ∧ Reads 16 t n := by
  constructor
  · rintro (⟨hex, heq | heq, hne, hreads⟩ | ⟨octal, heq, -, hreads⟩ | ⟨-, hzero, -⟩)
    · cases heq
      exact ⟨hne, hreads⟩
    · cases heq
      exact ⟨hne, hreads⟩
    · cases heq
      exact absurd hreads (not_reads_letter hx (by decide))
    · cases hzero rfl
  · rintro ⟨hne, hreads⟩
    refine .inl ⟨t, ?_, hne, hreads⟩
    rcases hx with rfl | rfl
    · exact .inl rfl
    · exact .inr rfl

/-- The digits of a number, and its radix. -/
theorem isNumber_iff_splitRadix :
    IsNumber t n ↔ (splitRadix t).1 ≠ [] ∧ Reads (splitRadix t).2 (splitRadix t).1 n := by
  unfold splitRadix
  split
  · exact isNumber_hex (.inl rfl)
  · exact isNumber_hex (.inr rfl)
  · rename_i octal hx hX
    -- No hexadecimal number: with a leading zero it is octal, unless it is the zero alone.
    have hhex : ¬ ∃ hex, ('0' :: octal = '0' :: 'x' :: hex ∨ '0' :: octal = '0' :: 'X' :: hex) ∧
        hex ≠ [] ∧ Reads 16 hex n := by
      rintro ⟨hex, heq | heq, -⟩
      · exact hx hex (List.cons.inj heq).2
      · exact hX hex (List.cons.inj heq).2
    rw [IsNumber, or_iff_right hhex]
    by_cases hnil : octal = []
    · subst hnil
      constructor
      · rintro (⟨octal, heq, hne, -⟩ | ⟨hne, -, hreads⟩)
        · cases heq
          exact absurd rfl hne
        · exact ⟨hne, hreads⟩
      · rintro ⟨hne, hreads⟩
        exact .inr ⟨hne, fun _ => rfl, hreads⟩
    · have hlen : 1 < Text.utf8Len ('0' :: octal) := by
        rw [Text.utf8Len_cons]
        have hpos := List.length_pos_iff.mpr hnil
        have hle := Text.length_le_utf8Len octal
        have hzero := Char.utf8Size_pos '0'
        omega
      simp only [if_pos hlen]
      constructor
      · rintro (⟨octal, heq, hne, hreads⟩ | ⟨-, hzero, -⟩)
        · cases heq
          exact ⟨hne, hreads⟩
        · exact absurd (List.cons.inj (hzero rfl)).2 hnil
      · rintro ⟨hne, hreads⟩
        exact .inl ⟨octal, rfl, hne, hreads⟩
  · -- No leading zero: it is decimal.
    rename_i hx hX hzero
    constructor
    · rintro (⟨hex, heq | heq, -⟩ | ⟨octal, heq, -⟩ | ⟨hne, -, hreads⟩)
      · exact absurd heq (hx hex)
      · exact absurd heq (hX hex)
      · exact absurd heq (hzero octal)
      · exact ⟨hne, hreads⟩
    · rintro ⟨hne, hreads⟩
      refine .inr (.inr ⟨hne, fun hhead => ?_, hreads⟩)
      rcases t with _ | ⟨c, t⟩
      · exact absurd rfl hne
      · cases hhead
        exact absurd rfl (hzero t)

/-- Digits are read without a sign. -/
theorem u32FromStrRadix_iff (hne : t ≠ []) (hdigits : ∀ c ∈ t, (digit radix c).isSome)
    (a : UInt32) : u32FromStrRadix t radix = some a ↔ Reads radix t a.toNat := by
  have hplus : ∀ rest, t ≠ '+' :: rest := by
    rintro rest rfl
    exact absurd (hdigits '+' List.mem_cons_self) Bool.false_ne_true
  have heq : u32FromStrRadix t radix =
      (Radix.accumulate radix (2 ^ 32) 0 t).map UInt32.ofNat := by
    unfold u32FromStrRadix
    split
    · exact absurd rfl hne
    · exact absurd rfl (hplus [])
    · exact absurd rfl (hplus _)
    · rfl
  rw [heq, Option.map_eq_some_iff]
  constructor
  · rintro ⟨m, hm, rfl⟩
    rcases (accumulate_iff (by decide)).mp hm with ⟨hlt, hreads⟩
    rwa [UInt32.toNat_ofNat_of_lt' hlt]
  · intro hreads
    exact ⟨a.toNat, (accumulate_iff (by decide)).mpr ⟨a.toNat_lt, hreads⟩, UInt32.ofNat_toNat⟩

/-- The reader of one number. -/
theorem inetPart_iff (t : Text) (a : UInt32) : inetPart t = some a ↔ IsNumber t a.toNat := by
  rw [isNumber_iff_splitRadix, inetPart]
  rcases splitRadix t with ⟨digits, radix⟩
  by_cases hnil : digits = []
  · subst hnil
    exact iff_of_false (fun h => by cases h) fun h => h.1 rfl
  · by_cases hdigits : ∀ c ∈ digits, (digit radix c).isSome
    · have hcheck : (digits.isEmpty || !digits.all (fun c => (digit radix c).isSome)) = false := by
        rw [List.isEmpty_eq_false_iff.mpr hnil, List.all_eq_true.mpr hdigits]
        rfl
      simp only [hcheck, Bool.false_eq_true, if_false, u32FromStrRadix_iff hnil hdigits]
      exact (and_iff_right hnil).symm
    · have hcheck : (digits.isEmpty || !digits.all (fun c => (digit radix c).isSome)) = true := by
        rw [Bool.or_eq_true, Bool.not_eq_true', ← Bool.not_eq_true, List.all_eq_true]
        exact .inr hdigits
      simp only [hcheck, if_true]
      exact iff_of_false (fun h => by cases h) fun h => hdigits (digits_of_reads h.2)

/-- The loop over the numbers. -/
theorem inetParts_iff (texts : List Text) (parts result : List UInt32) (h : parts.length ≤ 4) :
    inetParts texts parts = some result ↔
      ∃ ns, List.Forall₂ (fun t a => inetPart t = some a) texts ns ∧ result = parts ++ ns ∧
        result.length ≤ 4 := by
  induction texts generalizing parts with
  | nil =>
      constructor
      · intro heq
        cases heq
        exact ⟨[], .nil, (List.append_nil _).symm, h⟩
      · rintro ⟨ns, hns, rfl, -⟩
        cases hns
        rw [inetParts, List.append_nil]
  | cons t texts ih =>
      unfold inetParts
      rcases ha : inetPart t with _ | a
      · refine iff_of_false (fun heq => by cases heq) ?_
        rintro ⟨ns, hns, -⟩
        cases hns with
        | cons ha' _ => cases ha.symm.trans ha'
      · -- The parts are counted as they come, and a fifth one ends it.
        by_cases hlen : 4 < (parts ++ [a]).length
        · simp only [if_pos hlen]
          refine iff_of_false (fun heq => by cases heq) ?_
          rintro ⟨ns, hns, rfl, hresult⟩
          cases hns with
          | cons ha' _ =>
              rw [List.length_append, List.length_cons] at hresult
              rw [List.length_append, List.length_singleton] at hlen
              omega
        · simp only [if_neg hlen, ih _ (Nat.le_of_not_lt hlen)]
          constructor
          · rintro ⟨ns, hns, rfl, hresult⟩
            refine ⟨a :: ns, .cons ha hns, ?_, hresult⟩
            rw [List.append_assoc]
            rfl
          · rintro ⟨ns, hns, rfl, hresult⟩
            cases hns with
            | cons ha' hns =>
                cases ha.symm.trans ha'
                refine ⟨_, hns, ?_, hresult⟩
                rw [List.append_assoc]
                rfl

/-- The last number fits where the leading ones leave room. -/
def Fitting (leading : List UInt32) (last : UInt32) : Prop :=
  leading.length ≤ 3 ∧ (∀ n ∈ leading, n.toNat ≤ 255) ∧ last.toNat < 256 ^ (4 - leading.length)

theorem shiftRight_eq_zero_iff (last : UInt32) (k : Nat) (hk : k < 32) :
    last >>> UInt32.ofNat k = 0 ↔ last.toNat < 2 ^ k := by
  have hmod : (UInt32.ofNat k).toNat % 32 = k := by
    rw [UInt32.toNat_ofNat_of_lt' (Nat.lt_trans hk (by decide))]
    exact Nat.mod_eq_of_lt hk
  rw [← UInt32.toNat_inj, UInt32.toNat_shiftRight, hmod, Nat.shiftRight_eq_div_pow,
    UInt32.toNat_zero, Nat.div_eq_zero_iff]
  have hpos : 0 < 2 ^ k := Nat.two_pow_pos k
  omega

theorem freeBits_eq {leading : List UInt32} (h : leading.length ≤ 3) :
    freeBits leading = some (UInt32.ofNat (8 * (4 - leading.length))) := by
  unfold freeBits
  generalize leading.length = k at h
  interval_cases k <;> rfl

theorem freeBits_eq_none {leading : List UInt32} (h : ¬ leading.length ≤ 3) :
    freeBits leading = none := by
  unfold freeBits
  split <;> first | omega | rfl

/-- The checks on the numbers read. -/
theorem parseInetAton_eq {s : Text} {leading : List UInt32} {last : UInt32}
    (h : inetParts (List.splitOn '.' s) [] = some (leading ++ [last])) (a : UInt32) :
    parseInetAton s = some a ↔ Fitting leading last ∧ a = highBits leading ||| last := by
  have hlast : (leading ++ [last]).getLast? = some last := List.getLast?_concat
  have hleading : (leading ++ [last]).dropLast = leading := List.dropLast_concat
  unfold parseInetAton
  simp only [h, Option.bind_eq_bind, Option.bind_some, hlast, hleading]
  by_cases hany : leading.any (0xff < ·) = true
  · -- A leading number is no byte.
    rw [if_pos hany]
    refine iff_of_false (fun heq => by cases heq) fun hfits => ?_
    rcases List.any_eq_true.mp hany with ⟨n, hn, hlt⟩
    have hbyte := hfits.1.2.1 n hn
    have hgt : (0xff : UInt32).toNat < n.toNat := UInt32.lt_iff_toNat_lt.mp (of_decide_eq_true hlt)
    exact absurd hgt (Nat.not_lt.mpr hbyte)
  · have hbytes : ∀ n ∈ leading, n.toNat ≤ 255 := by
      intro n hn
      by_contra hgt
      refine hany (List.any_eq_true.mpr ⟨n, hn, decide_eq_true ?_⟩)
      exact UInt32.lt_iff_toNat_lt.mpr (Nat.lt_of_not_le hgt)
    rw [if_neg hany]
    by_cases hlen : leading.length ≤ 3
    · -- What the leading bytes leave is for the last number.
      have hfits : Fitting leading last ↔ last.toNat < 2 ^ (8 * (4 - leading.length)) := by
        rw [Nat.pow_mul]
        exact ⟨fun hfits => hfits.2.2, fun hlt => ⟨hlen, hbytes, hlt⟩⟩
      rw [freeBits_eq hlen, Option.bind_some, hfits]
      by_cases hnil : leading.length = 0
      · -- A number alone has all of the address.
        rw [hnil, if_neg (by decide)]
        exact ⟨fun heq => ⟨last.toNat_lt, (Option.some.inj heq).symm⟩,
          fun hand => congrArg some hand.2.symm⟩
      · -- It fits exactly if nothing is left above the bits it has.
        have hk : 8 * (4 - leading.length) < 32 := by omega
        have hlt : UInt32.ofNat (8 * (4 - leading.length)) < 32 := by
          rw [UInt32.lt_iff_toNat_lt, UInt32.toNat_ofNat_of_lt' (Nat.lt_trans hk (by decide))]
          exact hk
        rw [if_pos hlt, checkedShr, if_pos hlt, Option.bind_some, ← shiftRight_eq_zero_iff last _ hk]
        by_cases hzero : last >>> UInt32.ofNat (8 * (4 - leading.length)) = 0
        · rw [if_neg (not_not.mpr hzero)]
          exact ⟨fun heq => ⟨hzero, (Option.some.inj heq).symm⟩, fun hand => congrArg some hand.2.symm⟩
        · rw [if_pos hzero]
          exact iff_of_false (fun heq => by cases heq) fun hand => hzero hand.1
    · rw [freeBits_eq_none hlen]
      exact iff_of_false (fun heq => by cases heq) fun hand => hlen hand.1.1

/-- A byte moved to its place loses no bit. -/
theorem toNat_shiftLeft_byte {n : UInt32} (hn : n.toNat ≤ 255) {k : Nat} (hk : k ≤ 24) :
    (n <<< UInt32.ofNat k).toNat = n.toNat * 2 ^ k := by
  have hmod : (UInt32.ofNat k).toNat % 32 = k := by
    rw [UInt32.toNat_ofNat_of_lt' (Nat.lt_of_le_of_lt hk (by decide))]
    exact Nat.mod_eq_of_lt (by omega)
  rw [UInt32.toNat_shiftLeft, hmod, Nat.shiftLeft_eq]
  refine Nat.mod_eq_of_lt ?_
  have hpow : 2 ^ k ≤ 2 ^ 24 := Nat.pow_le_pow_right (by decide) hk
  calc n.toNat * 2 ^ k ≤ 255 * 2 ^ 24 := Nat.mul_le_mul hn hpow
    _ < 2 ^ 32 := by decide

/-- Numbers whose bits do not overlap are added by combining them. -/
theorem mul_or_eq_add {n m k : Nat} (h : m < 2 ^ k) : n * 2 ^ k ||| m = n * 2 ^ k + m := by
  rw [Nat.mul_comm]
  exact (Nat.two_pow_add_eq_or_of_lt h n).symm

/-- A byte in front of what fits below it. -/
theorem byte_mul_add_lt {n m k : Nat} (hn : n ≤ 255) (hm : m < 2 ^ k) :
    n * 2 ^ k + m < 2 ^ (k + 8) := by
  have hle : n * 2 ^ k ≤ 255 * 2 ^ k := Nat.mul_le_mul_right _ hn
  rw [Nat.pow_add]
  omega

/-- The numbers at their places make up the sum. -/
theorem highBits_or {leading : List UInt32} {last : UInt32} (h : Fitting leading last) :
    (highBits leading ||| last).toNat
      = ((leading.map UInt32.toNat).zipWith (fun n k => n * 256 ^ k) [3, 2, 1]).sum
        + last.toNat := by
  rcases h with ⟨hlen, hbytes, hlast⟩
  rcases leading with _ | ⟨p, _ | ⟨q, _ | ⟨r, _ | ⟨x, rest⟩⟩⟩⟩
  · simp [highBits]
  · have hp := hbytes p (by simp)
    replace hlast : last.toNat < 2 ^ 24 := hlast
    change (0 ||| p <<< UInt32.ofNat 24 ||| last).toNat = p.toNat * 2 ^ 24 + 0 + last.toNat
    rw [UInt32.toNat_or, UInt32.toNat_or, UInt32.toNat_zero, Nat.zero_or,
      toNat_shiftLeft_byte hp (by decide), mul_or_eq_add hlast, Nat.add_zero]
  · have hp := hbytes p (by simp)
    have hq := hbytes q (by simp)
    replace hlast : last.toNat < 2 ^ 16 := hlast
    have hlow := byte_mul_add_lt hq hlast
    change (0 ||| p <<< UInt32.ofNat 24 ||| q <<< UInt32.ofNat 16 ||| last).toNat
      = p.toNat * 2 ^ 24 + (q.toNat * 2 ^ 16 + 0) + last.toNat
    rw [UInt32.toNat_or, UInt32.toNat_or, UInt32.toNat_or, UInt32.toNat_zero, Nat.zero_or,
      toNat_shiftLeft_byte hp (by decide), toNat_shiftLeft_byte hq (by decide), Nat.or_assoc,
      mul_or_eq_add hlast, mul_or_eq_add hlow]
    omega
  · have hp := hbytes p (by simp)
    have hq := hbytes q (by simp)
    have hr := hbytes r (by simp)
    replace hlast : last.toNat < 2 ^ 8 := hlast
    have hlow := byte_mul_add_lt hr hlast
    have hmiddle := byte_mul_add_lt hq hlow
    have hhigh : highBits [p, q, r]
        = 0 ||| p <<< UInt32.ofNat 24 ||| q <<< UInt32.ofNat 16 ||| r <<< UInt32.ofNat 8 := rfl
    have hsum : ([p, q, r].map UInt32.toNat).zipWith (fun n k => n * 256 ^ k) [3, 2, 1]
        = [p.toNat * 256 ^ 3, q.toNat * 256 ^ 2, r.toNat * 256 ^ 1] := rfl
    rw [hsum, List.sum_cons, List.sum_cons, List.sum_singleton, hhigh, UInt32.toNat_or,
      UInt32.toNat_or, UInt32.toNat_or, UInt32.toNat_or, UInt32.toNat_zero, Nat.zero_or,
      toNat_shiftLeft_byte hp (by decide), toNat_shiftLeft_byte hq (by decide),
      toNat_shiftLeft_byte hr (by decide), Nat.or_assoc, Nat.or_assoc, mul_or_eq_add hlast,
      mul_or_eq_add hlow, mul_or_eq_add hmiddle]
    omega
  · simp only [List.length_cons] at hlen
    omega

/-- A number of a host name holds no dot. -/
theorem not_mem_of_isNumber (h : IsNumber t n) (s : Char)
    (hs : digit 16 s = none ∧ s ≠ 'x' ∧ s ≠ 'X') : s ∉ t := by
  have hnot : ∀ radix ds, radix ≤ 16 → Reads radix ds n → s ∉ ds := by
    intro radix ds hradix hreads hmem
    have hsome := digits_of_reads hreads s hmem
    have hnone : digit radix s = none := by
      rcases hrank : rank s with _ | d
      · rw [digit, hrank]
        rfl
      · have h16 := hs.1
        rw [digit, hrank, Option.filter_some] at h16 ⊢
        split at h16
        · cases h16
        · rename_i hge
          rw [if_neg]
          intro hlt
          exact hge (decide_eq_true (Nat.lt_of_lt_of_le (of_decide_eq_true hlt) hradix))
    rw [hnone] at hsome
    cases hsome
  have hzero : s ≠ '0' := by
    rintro rfl
    cases hs.1
  rcases h with ⟨hex, heq | heq, -, hreads⟩ | ⟨octal, heq, -, hreads⟩ | ⟨-, -, hreads⟩
  · rw [heq, List.mem_cons, List.mem_cons]
    rintro (h | h | h)
    · exact hzero h
    · exact hs.2.1 h
    · exact hnot 16 hex (by decide) hreads h
  · rw [heq, List.mem_cons, List.mem_cons]
    rintro (h | h | h)
    · exact hzero h
    · exact hs.2.2 h
    · exact hnot 16 hex (by decide) hreads h
  · rw [heq, List.mem_cons]
    rintro (h | h)
    · exact hzero h
    · exact hnot 8 octal (by decide) hreads h
  · exact hnot 10 t (by decide) hreads

/-- The numbers of a host name, read one by one. -/
theorem inetParts_splitOn {texts : List Text} {ns : List UInt32} (hne : ns ≠ [])
    (h : List.Forall₂ IsNumber texts (ns.map UInt32.toNat)) (hlen : ns.length ≤ 4) :
    inetParts (List.splitOn '.' (List.intercalate ['.'] texts)) [] = some ns := by
  rw [List.forall₂_map_right_iff] at h
  have htexts : texts ≠ [] := by
    rintro rfl
    cases h
    exact hne rfl
  have hdots : ∀ t ∈ texts, '.' ∉ t := by
    intro t ht
    rcases List.forall₂_iff_get.mp h with ⟨hlength, hget⟩
    rcases List.getElem_of_mem ht with ⟨i, hi, rfl⟩
    exact not_mem_of_isNumber (hget i hi (hlength ▸ hi)) '.' (by decide)
  rw [List.splitOn_intercalate '.' hdots htexts]
  refine (inetParts_iff _ _ _ (by decide)).mpr ⟨ns, ?_, rfl, hlen⟩
  exact h.imp fun t a ha => (inetPart_iff t a).mpr ha

/-- What the reader of host names reads. -/
theorem parseInetAton_iff (s : Text) (a : Nat) :
    (parseInetAton s).map UInt32.toNat = some a ↔ InetAton s a := by
  rw [Option.map_eq_some_iff]
  constructor
  · rintro ⟨b, hb, rfl⟩
    rcases hparts : inetParts (List.splitOn '.' s) [] with _ | ns
    · unfold parseInetAton at hb
      rw [hparts] at hb
      cases hb
    · rcases (inetParts_iff _ _ _ (by decide)).mp hparts with ⟨_, hns, rfl, -⟩
      -- Splitting gives one text at least, so there is a last number.
      rcases List.eq_nil_or_concat' ns with rfl | ⟨leading, last, rfl⟩
      · cases hsplit : List.splitOn '.' s with
        | nil => exact absurd hsplit (List.splitOn_ne_nil '.' s)
        | cons t texts =>
            rw [hsplit] at hns
            cases hns
      · rcases (parseInetAton_eq hparts b).mp hb with ⟨hfits, rfl⟩
        refine ⟨List.splitOn '.' s, leading.map UInt32.toNat, last.toNat,
          (List.intercalate_splitOn '.').symm, ?_, ?_, ?_, ?_, highBits_or hfits⟩
        · have hnumbers := hns.imp fun t a ha => (inetPart_iff t a).mp ha
          rw [← List.forall₂_map_right_iff, List.map_append] at hnumbers
          exact hnumbers
        · rw [List.length_map]
          exact hfits.1
        · intro n hn
          rcases List.mem_map.mp hn with ⟨m, hm, rfl⟩
          exact hfits.2.1 m hm
        · rw [List.length_map]
          exact hfits.2.2
  · rintro ⟨texts, leading, last, rfl, hnumbers, hlen, hbytes, hlast, rfl⟩
    -- Every number has its `u32`.
    have hleading : (leading.map UInt32.ofNat).map UInt32.toNat = leading := by
      rw [List.map_map]
      refine (List.map_congr_left fun n hn => ?_).trans (List.map_id leading)
      exact UInt32.toNat_ofNat_of_lt' (Nat.lt_of_le_of_lt (hbytes n hn) (by decide))
    have hlast' : (UInt32.ofNat last).toNat = last := by
      refine UInt32.toNat_ofNat_of_lt' (Nat.lt_of_lt_of_le hlast ?_)
      exact Nat.pow_le_pow_right (by decide) (Nat.sub_le 4 leading.length)
    have hfits : Fitting (leading.map UInt32.ofNat) (UInt32.ofNat last) := by
      refine ⟨?_, ?_, ?_⟩
      · rw [List.length_map]
        exact hlen
      · intro n hn
        have hmem := List.mem_map_of_mem (f := UInt32.toNat) hn
        rw [hleading] at hmem
        exact hbytes _ hmem
      · rw [List.length_map, hlast']
        exact hlast
    have hparts := @inetParts_splitOn texts (leading.map UInt32.ofNat ++ [UInt32.ofNat last])
      (List.append_ne_nil_of_right_ne_nil _ (List.cons_ne_nil _ _))
      (by rw [List.map_append, hleading, List.map_singleton, hlast']; exact hnumbers)
      (by rw [List.length_append, List.length_map, List.length_singleton]; omega)
    refine ⟨_, (parseInetAton_eq hparts _).mpr ⟨hfits, rfl⟩, ?_⟩
    rw [highBits_or hfits, hleading, hlast']

/-- The shifts of the reader lose no bit of a byte. -/
theorem inetAton_shifts {leading : List UInt32} {p shift : UInt32}
    (h : (p, shift) ∈ leading.zip [24, 16, 8]) (hp : p.toNat ≤ 255) :
    (p <<< shift).toNat = p.toNat * 2 ^ shift.toNat := by
  have hshift := (List.of_mem_zip h).2
  simp only [List.mem_cons, List.not_mem_nil, or_false] at hshift
  rcases hshift with rfl | rfl | rfl
  · exact toNat_shiftLeft_byte (k := 24) hp (by decide)
  · exact toNat_shiftLeft_byte (k := 16) hp (by decide)
  · exact toNat_shiftLeft_byte (k := 8) hp (by decide)

/-- A number of a dotted address is a number of a host name. -/
theorem octet_iff {t : Text} {n : Nat} : octet t = some n ↔
    t ≠ [] ∧ t.length ≤ 3 ∧ (t.head? = some '0' → t.length ≤ 1) ∧ n < 256 ∧ Reads 10 t n := by
  unfold octet
  by_cases hcheck : t = [] ∨ 3 < t.length ∨ t.head? = some '0' ∧ 1 < t.length
  · rw [if_pos hcheck]
    refine iff_of_false (fun h => by cases h) ?_
    rintro ⟨hne, hlen, hzero, -⟩
    rcases hcheck with h | h | ⟨hhead, h⟩
    · exact hne h
    · omega
    · exact absurd (hzero hhead) (Nat.not_le_of_lt h)
  · rw [if_neg hcheck, accumulate_iff (by decide)]
    rw [not_or, not_or, not_and] at hcheck
    refine ⟨fun h => ⟨hcheck.1, Nat.le_of_not_lt hcheck.2.1, ?_, h⟩, fun h => h.2.2.2⟩
    exact fun hhead => Nat.le_of_not_lt (hcheck.2.2 hhead)

theorem isNumber_of_octet {t : Text} {n : Nat} (h : octet t = some n) : IsNumber t n := by
  rcases octet_iff.mp h with ⟨hne, -, hzero, -, hreads⟩
  refine .inr (.inr ⟨hne, fun hhead => ?_, hreads⟩)
  rcases t with _ | ⟨c, _ | ⟨d, t⟩⟩
  · exact absurd rfl hne
  · cases hhead
    rfl
  · have hlen := hzero hhead
    simp only [List.length_cons] at hlen
    omega

/-- A byte is read back from its decimal form. -/
theorem octet_toDigits {n : Nat} (h : n < 256) : octet (Nat.toDigits 10 n) = some n := by
  refine octet_iff.mpr ⟨Nat.toDigits_ne_nil, ?_, ?_, h, reads_toDigits (by decide) (by decide) n⟩
  · exact (Nat.length_toDigits_le_iff (by decide) (by decide)).mpr (Nat.lt_trans h (by decide))
  · intro hhead
    have hzero := head_toDigits (by decide) (by decide) hhead
    rw [hzero]
    decide

/-- The bytes of an address make it up. -/
theorem ofNat_octets (ip : Ipv4Addr) :
    UInt32.ofNat (((ip.toNat / 2 ^ 24 % 256 * 256 + ip.toNat / 2 ^ 16 % 256) * 256
      + ip.toNat / 2 ^ 8 % 256) * 256 + ip.toNat % 256) = ip := by
  have hlt := ip.toNat_lt
  have hsum : ((ip.toNat / 2 ^ 24 % 256 * 256 + ip.toNat / 2 ^ 16 % 256) * 256
      + ip.toNat / 2 ^ 8 % 256) * 256 + ip.toNat % 256 = ip.toNat := by omega
  rw [hsum, UInt32.ofNat_toNat]

/-- Reading every element of a list. -/
theorem mapM_eq_some_iff {α β : Type} {f : α → Option β} {xs : List α} {ys : List β} :
    xs.mapM f = some ys ↔ List.Forall₂ (fun x y => f x = some y) xs ys := by
  induction xs generalizing ys with
  | nil =>
      rw [List.mapM_nil, List.forall₂_nil_left_iff]
      exact ⟨fun h => (Option.some.inj h).symm, fun h => congrArg some h.symm⟩
  | cons x xs ih =>
      rw [List.mapM_cons, Option.bind_eq_bind, Option.bind_eq_some_iff]
      constructor
      · rintro ⟨y, hy, h⟩
        rcases Option.bind_eq_some_iff.mp h with ⟨ys, hys, heq⟩
        cases heq
        exact .cons hy (ih.mp hys)
      · intro h
        cases h with
        | cons hy hys => exact ⟨_, hy, Option.bind_eq_some_iff.mpr ⟨_, ih.mpr hys, rfl⟩⟩

/-- An address is read back from its dotted form. -/
theorem parseIpv4_toText (ip : Ipv4Addr) : parseIpv4 ip.toText = some ip := by
  have hoctets : ∀ n ∈ ip.octets, n < 256 := by
    intro n hn
    simp only [Ipv4Addr.octets, List.mem_cons, List.not_mem_nil, or_false] at hn
    rcases hn with rfl | rfl | rfl | rfl <;> exact Nat.mod_lt _ (by decide)
  have hdots : ∀ t ∈ ip.octets.map (Nat.toDigits 10), '.' ∉ t := by
    intro t ht
    rcases List.mem_map.mp ht with ⟨n, hn, rfl⟩
    exact not_mem_of_isNumber (isNumber_of_octet (octet_toDigits (hoctets n hn))) '.' (by decide)
  have hread : (ip.octets.map (Nat.toDigits 10)).mapM octet = some ip.octets := by
    rw [mapM_eq_some_iff, List.forall₂_map_left_iff]
    exact List.forall₂_same.mpr fun n hn => octet_toDigits (hoctets n hn)
  rw [parseIpv4, Ipv4Addr.toText, List.splitOn_intercalate '.' hdots (by simp [Ipv4Addr.octets]),
    hread]
  exact congrArg some (ofNat_octets ip)

/-- The strict dotted form is one of the forms of `inet_aton(3)`, for the same
    address. -/
theorem parseInetAton_of_parseIpv4 {s : Text} {ip : Ipv4Addr} (h : parseIpv4 s = some ip) :
    parseInetAton s = some ip := by
  unfold parseIpv4 at h
  split at h
  · rename_i a b c d hread
    cases h
    rw [mapM_eq_some_iff] at hread
    have hbyte : ∀ n ∈ [a, b, c, d], n < 256 := by
      intro n hn
      rcases List.forall₂_iff_get.mp hread with ⟨hlength, hget⟩
      rcases List.getElem_of_mem hn with ⟨i, hi, rfl⟩
      exact (octet_iff.mp (hget i (hlength ▸ hi) hi)).2.2.2.1
    have ha := hbyte a (by simp)
    have hb := hbyte b (by simp)
    have hc := hbyte c (by simp)
    have hd := hbyte d (by simp)
    have hinet : InetAton s (((a * 256 + b) * 256 + c) * 256 + d) := by
      refine ⟨List.splitOn '.' s, [a, b, c], d, (List.intercalate_splitOn '.').symm,
        hread.imp fun t n hn => isNumber_of_octet hn, Nat.le_refl 3, ?_, hd, ?_⟩
      · intro n hn
        have hn' := hbyte n (List.mem_append_left [d] hn)
        omega
      · have hsum : [a, b, c].zipWith (fun n k => n * 256 ^ k) [3, 2, 1]
            = [a * 256 ^ 3, b * 256 ^ 2, c * 256 ^ 1] := rfl
        rw [hsum, List.sum_cons, List.sum_cons, List.sum_singleton]
        ring
    rcases Option.map_eq_some_iff.mp ((parseInetAton_iff _ _).mpr hinet) with ⟨ip, hip, heq⟩
    rw [hip, ← heq, UInt32.ofNat_toNat]
  · cases h

/-- A numeric host name holds no colon and no bracket. -/
theorem not_mem_of_inetAton {s : Text} {ip : Ipv4Addr} (h : parseInetAton s = some ip) :
    ':' ∉ s ∧ '[' ∉ s := by
  have hmap : (parseInetAton s).map UInt32.toNat = some ip.toNat := by
    rw [h]
    rfl
  rcases (parseInetAton_iff s ip.toNat).mp hmap with ⟨texts, leading, last, rfl, hnumbers, -⟩
  have hnot : ∀ c, digit 16 c = none ∧ c ≠ 'x' ∧ c ≠ 'X' → c ≠ '.' →
      c ∉ List.intercalate ['.'] texts := by
    intro c hc hdot hmem
    rcases mem_intercalate hmem with ⟨t, ht, hct⟩ | hmem
    · rcases List.forall₂_iff_get.mp hnumbers with ⟨hlength, hget⟩
      rcases List.getElem_of_mem ht with ⟨i, hi, rfl⟩
      exact not_mem_of_isNumber (hget i hi (hlength ▸ hi)) c hc hct
    · exact hdot (List.mem_singleton.mp hmem)
  exact ⟨hnot ':' (by decide) (by decide), hnot '[' (by decide) (by decide)⟩

end Psrp

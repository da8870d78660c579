import Psrp.Core.Crypto

/-!
# Secure Strings

Encrypting a text and decrypting it are inverses, in both directions.

Each of the three layers is an exact codec. A block is mixed with the
ciphertext before it and enciphered, and both steps can be undone; the filling
says how long it is, and only one filling fits a length; and a text is its
UTF-16 code units, among which a surrogate never stands alone. So whatever is
decrypted without an error was encrypted, and the checks on the way are exactly
the conditions under which there was something to encrypt.

The block cipher is not looked into. All that is used of it is that its two
directions are inverse to each other for every key (`CipherPair`).

## Main definitions

* `CipherPair`: A block cipher in both directions.

## Theorems

* `cbcDecrypt_cbcEncrypt`, `cbcEncrypt_cbcDecrypt`: The chain of blocks.
* `stripPadding_iff`: The filling.
* `fromUtf16_iff`: The code units.
* `secure_string_inverse`: All of it.
-/

namespace Psrp

/-- A block cipher: what one direction does with a key the other undoes. -/
structure CipherPair where
  encipher : BlockCipher
  decipher : BlockCipher
  decipher_encipher : ∀ k b, decipher k (encipher k b) = b
  encipher_decipher : ∀ k b, encipher k (decipher k b) = b

instance : Inhabited CipherPair := ⟨fun _ b => b, fun _ b => b, fun _ _ => rfl, fun _ _ => rfl⟩

/-- One block. -/
abbrev Block := Vector UInt8 16

section Blocks

/-- The first block of a byte string. -/
def firstBlock (bs : Bytes) : Block := Vector.ofFn fun i => bs.getD i 0

/-- A block mixed with another. -/
def mix (a b : Block) : Block := Vector.ofFn fun i => a.get i ^^^ b.get i

theorem getElem_mix (a b : Block) {i : Nat} (hi : i < 16) : (mix a b)[i] = a[i] ^^^ b[i] := by
  unfold mix
  rw [Vector.getElem_ofFn]
  rfl

theorem mix_mix (a b : Block) : mix (mix a b) b = a := by
  refine Vector.ext fun i hi => ?_
  rw [getElem_mix _ _ hi, getElem_mix _ _ hi, UInt8.xor_assoc, UInt8.xor_self, UInt8.xor_zero]

theorem firstBlock_append (b : Block) (bs : Bytes) : firstBlock (b.toList ++ bs) = b := by
  refine Vector.ext fun i hi => ?_
  have hlength : i < b.toList.length := by
    rw [Vector.length_toList]
    exact hi
  simp only [firstBlock, Vector.getElem_ofFn, List.getD_eq_getElem?_getD,
    List.getElem?_append_left hlength, List.getElem?_eq_getElem hlength, Option.getD_some,
    Vector.getElem_toList]

theorem firstBlock_drop {bs : Bytes} (h : 16 ≤ bs.length) :
    (firstBlock bs).toList ++ bs.drop 16 = bs := by
  have htake : (firstBlock bs).toList = bs.take 16 := by
    refine List.ext_getElem ?_ fun i hi hi' => ?_
    · rw [Vector.length_toList, List.length_take]
      omega
    · rw [Vector.length_toList] at hi
      have hlength : i < bs.length := by omega
      simp only [Vector.getElem_toList, firstBlock, Vector.getElem_ofFn, List.getElem_take,
        List.getD_eq_getElem?_getD, List.getElem?_eq_getElem hlength, Option.getD_some]
  rw [htake, List.take_append_drop]

theorem drop_block (b : Block) (bs : Bytes) : (b.toList ++ bs).drop 16 = bs :=
  List.drop_left' (Vector.length_toList)

theorem cbcEncrypt_succ (cipher : Block → Block) (blocks : Nat) (prev : Block) (bs : Bytes) :
    SessionKey.cbcEncrypt cipher (blocks + 1) prev bs
      = (cipher (mix (firstBlock bs) prev)).toList
        ++ SessionKey.cbcEncrypt cipher blocks (cipher (mix (firstBlock bs) prev)) (bs.drop 16) := by
  have hmix : (Vector.ofFn fun i : Fin 16 => bs.getD i 0 ^^^ prev[i]) = mix (firstBlock bs) prev := by
    refine Vector.ext fun i hi => ?_
    rw [getElem_mix _ _ hi]
    simp only [firstBlock, Vector.getElem_ofFn, Fin.getElem_fin]
  rw [SessionKey.cbcEncrypt, hmix]

theorem cbcDecrypt_succ (decipher : Block → Block) (blocks : Nat) (prev : Block) (bs : Bytes) :
    SessionKey.cbcDecrypt decipher (blocks + 1) prev bs
      = (mix (decipher (firstBlock bs)) prev).toList
        ++ SessionKey.cbcDecrypt decipher blocks (firstBlock bs) (bs.drop 16) := rfl

theorem length_cbcEncrypt (cipher : Block → Block) (blocks : Nat) (prev : Block) (bs : Bytes) :
    (SessionKey.cbcEncrypt cipher blocks prev bs).length = 16 * blocks := by
  induction blocks generalizing prev bs with
  | zero => rfl
  | succ blocks ih =>
      rw [cbcEncrypt_succ, List.length_append, Vector.length_toList, ih]
      omega

theorem length_cbcDecrypt (decipher : Block → Block) (blocks : Nat) (prev : Block) (bs : Bytes) :
    (SessionKey.cbcDecrypt decipher blocks prev bs).length = 16 * blocks := by
  induction blocks generalizing prev bs with
  | zero => rfl
  | succ blocks ih =>
      rw [cbcDecrypt_succ, List.length_append, Vector.length_toList, ih]
      omega

/-- Whole blocks come back from their ciphertext. -/
theorem cbcDecrypt_cbcEncrypt {encipher decipher : Block → Block}
    (h : ∀ b, decipher (encipher b) = b) (blocks : Nat) (prev : Block) {bs : Bytes}
    (hlength : bs.length = 16 * blocks) :
    SessionKey.cbcDecrypt decipher blocks prev (SessionKey.cbcEncrypt encipher blocks prev bs)
      = bs := by
  induction blocks generalizing prev bs with
  | zero => exact (List.eq_nil_of_length_eq_zero hlength).symm
  | succ blocks ih =>
      have hdrop : (bs.drop 16).length = 16 * blocks := by
        rw [List.length_drop]
        omega
      rw [cbcEncrypt_succ, cbcDecrypt_succ, firstBlock_append, drop_block, h, mix_mix, ih _ hdrop]
      exact firstBlock_drop (by omega)

/-- Whole blocks are the ciphertext of what they decrypt to. -/
theorem cbcEncrypt_cbcDecrypt {encipher decipher : Block → Block}
    (h : ∀ b, encipher (decipher b) = b) (blocks : Nat) (prev : Block) {bs : Bytes}
    (hlength : bs.length = 16 * blocks) :
    SessionKey.cbcEncrypt encipher blocks prev (SessionKey.cbcDecrypt decipher blocks prev bs)
      = bs := by
  induction blocks generalizing prev bs with
  | zero => exact (List.eq_nil_of_length_eq_zero hlength).symm
  | succ blocks ih =>
      have hdrop : (bs.drop 16).length = 16 * blocks := by
        rw [List.length_drop]
        omega
      rw [cbcDecrypt_succ, cbcEncrypt_succ, firstBlock_append, drop_block, mix_mix, h, ih _ hdrop]
      exact firstBlock_drop (by omega)

end Blocks

section Padding

theorem length_pkcs7Pad (body : Bytes) :
    (pkcs7Pad body).length = 16 * (body.length / 16 + 1) := by
  rw [pkcs7Pad, List.length_append, List.length_replicate]
  omega

/-- Whole blocks have a filling that can be taken off exactly if they were
    filled up. -/
theorem stripPadding_iff {pt body : Bytes} (hlength : pt.length % 16 = 0) :
    SessionKey.stripPadding pt = .ok body ↔ pkcs7Pad body = pt := by
  constructor
  · intro h
    unfold SessionKey.stripPadding at h
    cases hlast : pt.getLast? with
    | none =>
        rw [hlast] at h
        cases h
    | some padByte =>
        simp only [hlast] at h
        -- The last byte says how many there are, and it is in range.
        split_ifs at h with hrange hshort hfill
        cases h
        rw [not_or, Nat.not_lt] at hrange
        have hpos : 0 < padByte.toNat :=
          Nat.pos_of_ne_zero fun hzero => hrange.1 (UInt8.toNat_inj.mp hzero)
        -- What is taken off is as many bytes as each of them says.
        have hdrop : pt.drop (pt.length - padByte.toNat)
            = List.replicate padByte.toNat padByte := by
          refine List.eq_replicate_iff.mpr ⟨?_, fun b hb => ?_⟩
          · rw [List.length_drop]
            omega
          · by_contra hne
            exact hfill (List.any_eq_true.mpr ⟨b, hb, bne_iff_ne.mpr hne⟩)
        have hbody : (pt.take (pt.length - padByte.toNat)).length = pt.length - padByte.toNat := by
          rw [List.length_take]
          omega
        have hpad : 16 - (pt.length - padByte.toNat) % 16 = padByte.toNat := by omega
        rw [pkcs7Pad, hbody, hpad, UInt8.ofNat_toNat, ← hdrop, List.take_append_drop]
  · -- What was padded passes each of the checks.
    rintro rfl
    have hpad : 16 - body.length % 16 < 256 := by omega
    have hpos : 16 - body.length % 16 ≠ 0 := by omega
    have htoNat : (UInt8.ofNat (16 - body.length % 16)).toNat = 16 - body.length % 16 := by
      rw [UInt8.toNat_ofNat', Nat.mod_eq_of_lt hpad]
    have hne : UInt8.ofNat (16 - body.length % 16) ≠ 0 := by
      intro hzero
      rw [hzero] at htoNat
      exact hpos htoNat.symm
    have hlast : (pkcs7Pad body).getLast? = some (UInt8.ofNat (16 - body.length % 16)) := by
      rw [pkcs7Pad, List.getLast?_append, List.getLast?_replicate, if_neg hpos, Option.some_or]
    have hbodyLen : (pkcs7Pad body).length - (16 - body.length % 16) = body.length := by
      rw [length_pkcs7Pad]
      omega
    have hrange : ¬ (UInt8.ofNat (16 - body.length % 16) = 0 ∨ 16 < 16 - body.length % 16) := by
      rintro (hzero | hlt)
      · exact hne hzero
      · omega
    have hlong : ¬ (pkcs7Pad body).length < 16 - body.length % 16 := by
      rw [length_pkcs7Pad]
      omega
    have hfill : ((pkcs7Pad body).drop body.length).any
        (fun b => b != UInt8.ofNat (16 - body.length % 16)) = false := by
      rw [pkcs7Pad, List.drop_left, List.any_eq_false]
      intro b hb
      rw [List.eq_of_mem_replicate hb, bne_self_eq_false]
      exact Bool.false_ne_true
    unfold SessionKey.stripPadding
    simp only [hlast, htoNat, hbodyLen, if_neg hrange, if_neg hlong, hfill, Bool.false_eq_true,
      if_false]
    rw [pkcs7Pad, List.take_left]

end Padding

section Units

/-- The code points that are characters. -/
theorem char_range (c : Char) :
    c.toNat < 0xD800 ∨ 0xDFFF < c.toNat ∧ c.toNat < 0x110000 := c.valid

theorem toNat_charOfNat {n : Nat} (h : n < 0xD800 ∨ 0xDFFF < n ∧ n < 0x110000) :
    (Char.ofNat n).toNat = n := by
  have hvalid : n.isValidChar := h
  unfold Char.ofNat
  rw [dif_pos hvalid]
  rfl

/-- The units of a character are read back, whatever follows them. -/
theorem fromUtf16_append (c : Char) (us : List Nat) :
    fromUtf16 (utf16Units c ++ us) = (fromUtf16 us).map (c :: ·) := by
  have hrange := char_range c
  unfold utf16Units
  by_cases hsmall : c.toNat < 0x10000
  · have hplain : c.toNat < 0xD800 ∨ 0xDFFF < c.toNat := by omega
    rw [if_pos hsmall, List.singleton_append, fromUtf16.eq_def]
    simp only [if_pos hplain, Char.ofNat_toNat]
  · have hhigh : ¬ (0xD800 + (c.toNat - 0x10000) / 0x400 < 0xD800
        ∨ 0xDFFF < 0xD800 + (c.toNat - 0x10000) / 0x400) := by omega
    have hfirst : ¬ 0xDC00 ≤ 0xD800 + (c.toNat - 0x10000) / 0x400 := by omega
    have hlow : 0xDC00 ≤ 0xDC00 + (c.toNat - 0x10000) % 0x400
        ∧ 0xDC00 + (c.toNat - 0x10000) % 0x400 ≤ 0xDFFF := by omega
    have hpair : 0x10000 + 0x400 * (0xD800 + (c.toNat - 0x10000) / 0x400 - 0xD800)
        + (0xDC00 + (c.toNat - 0x10000) % 0x400 - 0xDC00) = c.toNat := by omega
    rw [if_neg hsmall, List.cons_append, List.singleton_append, fromUtf16.eq_def]
    simp only [if_neg hhigh, if_neg hfirst, if_pos hlow, hpair, Char.ofNat_toNat]

/-- Units are read as a text exactly if they are its units. -/
theorem fromUtf16_iff {us : List Nat} {s : Text} (h : ∀ u ∈ us, u < 0x10000) :
    fromUtf16 us = some s ↔ s.flatMap utf16Units = us := by
  constructor
  · intro hread
    fun_induction fromUtf16 us generalizing s with
    | case1 =>
        cases hread
        rfl
    | case2 u us hplain ih =>
        rcases Option.map_eq_some_iff.mp hread with ⟨t, ht, rfl⟩
        have hu := h u (List.mem_cons_self ..)
        have hvalue := toNat_charOfNat (n := u) (by omega)
        rw [List.flatMap_cons, ih (fun v hv => h v (List.mem_cons_of_mem _ hv)) ht, utf16Units,
          hvalue, if_pos hu, List.singleton_append]
    | case3 u us hsurrogate hlow => cases hread
    | case4 u hsurrogate hhigh => cases hread
    | case5 u hsurrogate hhigh l rest hl ih =>
        rcases Option.map_eq_some_iff.mp hread with ⟨t, ht, rfl⟩
        have hvalue := toNat_charOfNat (n := 0x10000 + 0x400 * (u - 0xD800) + (l - 0xDC00)) (by omega)
        have hrest := ih (fun v hv => h v (List.mem_cons_of_mem _ (List.mem_cons_of_mem _ hv))) ht
        have hlarge : ¬ 0x10000 + 0x400 * (u - 0xD800) + (l - 0xDC00) < 0x10000 := by omega
        have hfirst : 0xD800 + (0x10000 + 0x400 * (u - 0xD800) + (l - 0xDC00) - 0x10000) / 0x400
            = u := by omega
        have hsecond : 0xDC00 + (0x10000 + 0x400 * (u - 0xD800) + (l - 0xDC00) - 0x10000) % 0x400
            = l := by omega
        rw [List.flatMap_cons, hrest, utf16Units, hvalue, if_neg hlarge, hfirst, hsecond]
        rfl
    | case6 u hsurrogate hhigh l rest hl => cases hread
  · rintro rfl
    clear h
    induction s with
    | nil => rfl
    | cons c s ih => rw [List.flatMap_cons, fromUtf16_append, ih, Option.map_some]

/-- Two bytes hold a unit. -/
theorem ofLe_pair_lt (low high : UInt8) : ofLe [low, high] < 0x10000 := by
  have hlow := low.toNat_lt
  have hhigh := high.toNat_lt
  simp only [ofLe]
  omega

theorem leUnits_lt (bs : Bytes) : ∀ u ∈ leUnits bs, u < 0x10000 := by
  fun_induction leUnits bs with
  | case1 low high bs ih =>
      intro u hu
      rcases List.mem_cons.mp hu with rfl | hu
      · exact ofLe_pair_lt low high
      · exact ih u hu
  | case2 => exact fun _ h => absurd h List.not_mem_nil

/-- Bytes in pairs are those of their units. -/
theorem flatMap_leUnits {bs : Bytes} (h : bs.length % 2 = 0) :
    (leUnits bs).flatMap (leBytes 2) = bs := by
  fun_induction leUnits bs with
  | case1 low high bs ih =>
      have hrest : bs.length % 2 = 0 := by
        rw [List.length_cons, List.length_cons] at h
        omega
      have hpair : leBytes 2 (ofLe [low, high]) = [low, high] := by
        have hlow := low.toNat_lt
        have hhigh := high.toNat_lt
        have hmod : ofLe [low, high] % 256 = low.toNat := by
          simp only [ofLe]
          omega
        have hdiv : ofLe [low, high] / 256 % 256 = high.toNat := by
          simp only [ofLe]
          omega
        rw [leBytes, leBytes, leBytes, hmod, hdiv, UInt8.ofNat_toNat, UInt8.ofNat_toNat]
      rw [List.flatMap_cons, ih hrest, hpair]
      rfl
  | case2 bs hshort =>
      rcases bs with _ | ⟨b, _ | ⟨c, bs⟩⟩
      · rfl
      · cases h
      · exact absurd rfl (hshort b c bs)

theorem leUnits_flatMap {us : List Nat} (h : ∀ u ∈ us, u < 0x10000) :
    leUnits (us.flatMap (leBytes 2)) = us := by
  induction us with
  | nil => rfl
  | cons u us ih =>
      have hu := ofLe_leBytes 2 u (h u (List.mem_cons_self ..))
      have hbytes : leBytes 2 u = [UInt8.ofNat (u % 256), UInt8.ofNat (u / 256 % 256)] := by
        rw [leBytes, leBytes, leBytes]
      rw [hbytes] at hu
      rw [List.flatMap_cons, hbytes, List.cons_append, List.singleton_append, leUnits, hu,
        ih fun v hv => h v (List.mem_cons_of_mem _ hv)]

/-- How many code units a text has. -/
def utf16Length (s : Text) : Nat := (s.flatMap utf16Units).length

theorem toUtf16Le_eq (s : Text) : toUtf16Le s = (s.flatMap utf16Units).flatMap (leBytes 2) := by
  rw [toUtf16Le, List.flatMap_assoc]

theorem length_toUtf16Le (s : Text) : (toUtf16Le s).length = 2 * utf16Length s := by
  rw [toUtf16Le_eq, utf16Length]
  induction s.flatMap utf16Units with
  | nil => rfl
  | cons u us ih =>
      rw [List.flatMap_cons, List.length_append, length_leBytes, ih, List.length_cons]
      omega

theorem utf16Units_lt (s : Text) : ∀ u ∈ s.flatMap utf16Units, u < 0x10000 := by
  intro u hu
  rcases List.mem_flatMap.mp hu with ⟨c, _, hc⟩
  have hrange := char_range c
  unfold utf16Units at hc
  split at hc
  · rw [List.mem_singleton.mp hc]
    assumption
  · -- Either half of a pair is above the plain units and still two bytes long.
    rcases List.mem_pair.mp hc with hu | hu
    · rw [hu]
      omega
    · rw [hu]
      omega

/-- Bytes in pairs are read as a text exactly if they are its bytes. -/
theorem fromUtf16_leUnits_iff {body : Bytes} {s : Text} (h : body.length % 2 = 0) :
    fromUtf16 (leUnits body) = some s ↔ toUtf16Le s = body := by
  rw [fromUtf16_iff (leUnits_lt body), toUtf16Le_eq]
  constructor
  · intro hs
    rw [hs, flatMap_leUnits h]
  · intro hs
    rw [← hs, leUnits_flatMap (utf16Units_lt s)]

end Units

/-- Decrypting is the inverse of encrypting, whatever the key and the block
    cipher: a ciphertext decrypts to a text exactly if it is the ciphertext of
    that text. And how long a ciphertext is says how many blocks the code units
    of the text take, with the filling. -/
theorem secure_string_inverse (cipher : CipherPair) (key : SessionKey) (s : Text) :
    (∀ ct, key.decryptSecureString cipher.decipher ct = .ok s
      ↔ key.encryptSecureString cipher.encipher s = ct)
    ∧ (key.encryptSecureString cipher.encipher s).length = 16 * (2 * utf16Length s / 16 + 1) := by
  have hblocks : (pkcs7Pad (toUtf16Le s)).length / 16 = 2 * utf16Length s / 16 + 1 := by
    rw [length_pkcs7Pad, length_toUtf16Le]
    omega
  have hlength : (key.encryptSecureString cipher.encipher s).length
      = 16 * (2 * utf16Length s / 16 + 1) := by
    rw [SessionKey.encryptSecureString, length_cbcEncrypt, hblocks]
  refine ⟨fun ct => ⟨fun h => ?_, fun h => ?_⟩, hlength⟩
  · -- Each check that was passed is what the next layer needs to be undone.
    unfold SessionKey.decryptSecureString at h
    simp only [bind, Except.bind, pure, Except.pure, throw, throwThe, MonadExceptOf.throw] at h
    split_ifs at h with hwhole
    cases hstrip : SessionKey.stripPadding (SessionKey.cbcDecrypt (cipher.decipher key)
        (ct.length / 16) (Vector.replicate 16 0) ct) with
    | error e =>
        rw [hstrip] at h
        cases h
    | ok body =>
        simp only [hstrip] at h
        split_ifs at h with hodd
        cases hread : fromUtf16 (leUnits body) with
        | none =>
            rw [hread] at h
            cases h
        | some t =>
            rw [hread] at h
            cases h
            have hct : ct.length = 16 * (ct.length / 16) := by omega
            -- From the inside out: the text, its padding, the blocks.
            have hbytes := (fromUtf16_leUnits_iff (by omega)).mp hread
            have hpad := (stripPadding_iff (by rw [length_cbcDecrypt]; omega)).mp hstrip
            have hcount : (pkcs7Pad body).length / 16 = ct.length / 16 := by
              rw [hpad, length_cbcDecrypt]
              omega
            rw [SessionKey.encryptSecureString, hbytes, hcount, hpad]
            exact cbcEncrypt_cbcDecrypt (cipher.encipher_decipher key) _ _ hct
  · subst h
    have hpadded : (pkcs7Pad (toUtf16Le s)).length = 16 * (2 * utf16Length s / 16 + 1) := by
      rw [length_pkcs7Pad, length_toUtf16Le]
    have hwhole : ¬ ((key.encryptSecureString cipher.encipher s).length < 16
        ∨ (key.encryptSecureString cipher.encipher s).length % 16 ≠ 0) := by
      rw [hlength]
      omega
    -- Decrypting undoes the blocks, then the padding, then the text.
    have hchain : SessionKey.cbcDecrypt (cipher.decipher key)
        ((key.encryptSecureString cipher.encipher s).length / 16) (Vector.replicate 16 0)
        (key.encryptSecureString cipher.encipher s) = pkcs7Pad (toUtf16Le s) := by
      have hcount : 16 * (2 * utf16Length s / 16 + 1) / 16 = 2 * utf16Length s / 16 + 1 := by omega
      rw [hlength, hcount, SessionKey.encryptSecureString, hblocks]
      exact cbcDecrypt_cbcEncrypt (cipher.decipher_encipher key) _ _ hpadded
    have hstrip : SessionKey.stripPadding (pkcs7Pad (toUtf16Le s)) = .ok (toUtf16Le s) :=
      (stripPadding_iff (by rw [hpadded]; omega)).mpr rfl
    have heven : (toUtf16Le s).length % 2 = 0 := by
      rw [length_toUtf16Le]
      omega
    have hread := (fromUtf16_leUnits_iff heven).mpr (rfl : toUtf16Le s = toUtf16Le s)
    have hodd : ¬ (toUtf16Le s).length % 2 ≠ 0 := fun hne => hne heven
    unfold SessionKey.decryptSecureString
    simp only [if_neg hwhole, hchain, hstrip, if_neg hodd, hread, bind, Except.bind, pure,
      Except.pure]

end Psrp

import Psrp.Core.Pool
import Psrp.Theory.Base64
import Psrp.Theory.Normalise
import Psrp.Theory.SecureString

/-!
# The Texts of Secure Strings

Values with other texts in the place of their `SecureString`s.

Sealing replaces these texts, and so does opening on the other side. Neither
can be told from the outside: the value is as well formed, its document nests
as deep, and a round trip makes of it what it makes of the value that was
sealed (`norm_relabel`). So a round trip may come between the two, and opening
still undoes sealing.

## Main definitions

* `PsValue.relabel`: Another text for every `SecureString`.
* `opened`: What a sealed text says to who holds the key.

## Theorems

* `norm_relabel`, `nest_relabel`, `valid_relabel`: Nothing else depends on the
  texts.
* `opened_norm`: What was sealed, encoded and decoded opens to the normal form.
-/

namespace Psrp

namespace PsValue

mutual

/-- A value with another text for every `SecureString`. -/
def relabel (f : Text → Text) : PsValue → PsValue
  | .secureString s => .secureString (f s)
  | .list items => .list (relabelItems f items)
  | .dict entries => .dict (relabelEntries f entries)
  | .object ⟨properties, typeNames, toString⟩ =>
    .object ⟨relabelProperties f properties, typeNames, toString⟩
  | v => v

def relabelItems (f : Text → Text) : List PsValue → List PsValue
  | [] => []
  | v :: items => relabel f v :: relabelItems f items

def relabelEntries (f : Text → Text) : List (PsValue × PsValue) → List (PsValue × PsValue)
  | [] => []
  | (k, v) :: entries => (relabel f k, relabel f v) :: relabelEntries f entries

def relabelProperties (f : Text → Text) : List (Text × PsValue) → List (Text × PsValue)
  | [] => []
  | (k, v) :: properties => (k, relabel f v) :: relabelProperties f properties

end

variable {f g : Text → Text}

section Maps

theorem relabelItems_eq_map (items : List PsValue) : relabelItems f items = items.map (relabel f) := by
  induction items with
  | nil => rfl
  | cons v items ih => rw [relabelItems, ih, List.map_cons]

theorem relabelEntries_eq_map (entries : List (PsValue × PsValue)) :
    relabelEntries f entries = entries.map fun e => (relabel f e.1, relabel f e.2) := by
  induction entries with
  | nil => rfl
  | cons e entries ih => rw [relabelEntries, ih, List.map_cons]

theorem relabelProperties_eq_map (properties : List (Text × PsValue)) :
    relabelProperties f properties = properties.map fun q => (q.1, relabel f q.2) := by
  induction properties with
  | nil => rfl
  | cons q properties ih => rw [relabelProperties, ih, List.map_cons]

/-- Sealing is putting the sealed texts in the place of the plain ones. -/
theorem encryptSecureStrings_eq (cipher : BlockCipher) (key : SessionKey) (v : PsValue) :
    encryptSecureStrings cipher key v
      = relabel (fun plain => base64Encode (key.encryptSecureString cipher plain)) v := by
  induction v using PsValue.induction with
  | leaf v hv =>
      cases v with
      | list | dict | object => cases hv
      | _ => rfl
  | list items ih =>
      rw [encryptSecureStrings, relabel, PsValue.list.injEq]
      induction items with
      | nil => rfl
      | cons v items ihi =>
          rw [encryptItems, relabelItems, ih v List.mem_cons_self,
            ihi fun w hw => ih w (List.mem_cons_of_mem v hw)]
  | dict entries ih =>
      rw [encryptSecureStrings, relabel, PsValue.dict.injEq]
      induction entries with
      | nil => rfl
      | cons e entries ihe =>
          rw [encryptEntries, relabelEntries, (ih e List.mem_cons_self).1,
            (ih e List.mem_cons_self).2, ihe fun w hw => ih w (List.mem_cons_of_mem e hw)]
  | object o ih =>
      rcases o with ⟨properties, typeNames, toString⟩
      rw [encryptSecureStrings, relabel, PsValue.object.injEq, PsObjectOf.mk.injEq]
      refine ⟨?_, rfl, rfl⟩
      induction properties with
      | nil => rfl
      | cons q properties ihq =>
          rw [encryptProperties, relabelProperties, ih q List.mem_cons_self,
            ihq fun w hw => ih w (List.mem_cons_of_mem q hw)]

/-- One text after another. -/
theorem relabel_relabel (f g : Text → Text) (v : PsValue) :
    relabel g (relabel f v) = relabel (g ∘ f) v := by
  induction v using PsValue.induction with
  | leaf v hv =>
      cases v with
      | list | dict | object => cases hv
      | _ => rfl
  | list items ih =>
      simp only [relabel, relabelItems_eq_map, List.map_map]
      exact congrArg _ (List.map_congr_left fun v hv => ih v hv)
  | dict entries ih =>
      simp only [relabel, relabelEntries_eq_map, List.map_map]
      refine congrArg _ (List.map_congr_left fun e he => ?_)
      exact Prod.ext (ih e he).1 (ih e he).2
  | object o ih =>
      rcases o with ⟨properties, typeNames, toString⟩
      simp only [relabel, relabelProperties_eq_map, List.map_map, PsValue.object.injEq,
        PsObjectOf.mk.injEq, and_true]
      exact List.map_congr_left fun q hq => Prod.ext rfl (ih q hq)

/-- The same texts. -/
theorem relabel_id (v : PsValue) : relabel id v = v := by
  induction v using PsValue.induction with
  | leaf v hv =>
      cases v with
      | list | dict | object => cases hv
      | _ => rfl
  | list items ih =>
      have hitems : items.map (relabel id) = items.map id := List.map_congr_left ih
      rw [relabel, relabelItems_eq_map, hitems, List.map_id]
  | dict entries ih =>
      have hentries : entries.map (fun e => (relabel id e.1, relabel id e.2)) = entries.map id :=
        List.map_congr_left fun e he => Prod.ext (ih e he).1 (ih e he).2
      rw [relabel, relabelEntries_eq_map, hentries, List.map_id]
  | object o ih =>
      rcases o with ⟨properties, typeNames, toString⟩
      have hproperties : properties.map (fun q => (q.1, relabel id q.2)) = properties.map id :=
        List.map_congr_left fun q hq => Prod.ext rfl (ih q hq)
      rw [relabel, relabelProperties_eq_map, hproperties, List.map_id]

/-- A value without `SecureString`s has no texts to change. -/
theorem relabel_plain (v : PsValue) (h : containsSecureString v = false) :
    relabel f v = v := by
  -- Without a secret there is no leaf to relabel.
  induction v using PsValue.induction with
  | leaf v hv =>
      cases v with
      | list | dict | object => cases hv
      | secureString s => cases h
      | _ => rfl
  | list items ih =>
      rw [relabel, PsValue.list.injEq]
      rw [containsSecureString] at h
      induction items with
      | nil => rfl
      | cons v items ihi =>
          rw [anySecureItem, Bool.or_eq_false_iff] at h
          rw [relabelItems, ih v List.mem_cons_self h.1,
            ihi (fun w hw => ih w (List.mem_cons_of_mem v hw)) h.2]
  | dict entries ih =>
      rw [relabel, PsValue.dict.injEq]
      rw [containsSecureString] at h
      induction entries with
      | nil => rfl
      | cons e entries ihe =>
          rcases e with ⟨k, v⟩
          rw [anySecureEntry, Bool.or_eq_false_iff, Bool.or_eq_false_iff] at h
          have hkv := ih (k, v) List.mem_cons_self
          rw [relabelEntries, hkv.1 h.1.1, hkv.2 h.1.2,
            ihe (fun w hw => ih w (List.mem_cons_of_mem _ hw)) h.2]
  | object o ih =>
      rcases o with ⟨properties, typeNames, toString⟩
      rw [relabel, PsValue.object.injEq, PsObjectOf.mk.injEq]
      refine ⟨?_, rfl, rfl⟩
      rw [containsSecureString] at h
      induction properties with
      | nil => rfl
      | cons q properties ihq =>
          rcases q with ⟨k, v⟩
          rw [anySecureProperty, Bool.or_eq_false_iff] at h
          rw [relabelProperties, ih (k, v) List.mem_cons_self h.1,
            ihq (fun w hw => ih w (List.mem_cons_of_mem _ hw)) h.2]

end Maps

section Shape

/-- Whether a value is well formed does not depend on the texts. -/
theorem valid_relabel (v : PsValue) : (relabel f v).Valid ↔ v.Valid := by
  induction v using PsValue.induction with
  | leaf v hv =>
      cases v with
      | list | dict | object => cases hv
      | _ => exact Iff.rfl
  | list items ih =>
      rw [relabel, valid_list, valid_list, relabelItems_eq_map, List.forall_mem_map]
      exact forall₂_congr fun v hv => ih v hv
  | dict entries ih =>
      rw [relabel, valid_dict, valid_dict, relabelEntries_eq_map, List.forall_mem_map]
      exact forall₂_congr fun e he => and_congr (ih e he).1 (ih e he).2
  | object o ih =>
      rcases o with ⟨properties, typeNames, toString⟩
      rw [relabel, valid_object, valid_object, relabelProperties_eq_map, List.forall_mem_map]
      refine and_congr ?_ (forall₂_congr fun q hq => ih q hq)
      rw [IndexMap.Keyed, IndexMap.Keyed, List.map_map]
      exact Iff.rfl

theorem onlyValue_relabel (properties : List (Text × PsValue)) :
    onlyValue (relabelProperties f properties) = onlyValue properties := by
  rw [onlyValue, onlyValue, relabelProperties_eq_map, List.all_map]
  rfl

/-- A round trip treats a text like any other. -/
theorem norm_relabel (v : PsValue) : norm (relabel f v) = relabel f (norm v) := by
  -- What stands bare in an object is a list or a dictionary, not yet wrapped.
  suffices hboth : norm (relabel f v) = relabel f (norm v)
      ∧ (∀ items, v = .list items → ∀ w ∈ items, norm (relabel f w) = relabel f (norm w))
      ∧ (∀ entries, v = .dict entries → ∀ e ∈ entries, norm (relabel f e.1) = relabel f (norm e.1)
        ∧ norm (relabel f e.2) = relabel f (norm e.2)) from hboth.1
  have hitems : ∀ items : List PsValue, (∀ w ∈ items, norm (relabel f w) = relabel f (norm w)) →
      normItems (relabelItems f items) = relabelItems f (normItems items) := by
    intro items h
    simp only [normItems_eq_map, relabelItems_eq_map, List.map_map]
    exact List.map_congr_left h
  have hentries : ∀ entries : List (PsValue × PsValue), (∀ e ∈ entries,
        norm (relabel f e.1) = relabel f (norm e.1) ∧ norm (relabel f e.2) = relabel f (norm e.2)) →
      normEntries (relabelEntries f entries) = relabelEntries f (normEntries entries) := by
    intro entries h
    simp only [normEntries_eq_map, relabelEntries_eq_map, List.map_map]
    exact List.map_congr_left fun e he => Prod.ext (h e he).1 (h e he).2
  induction v using PsValue.induction with
  | leaf v hv =>
      cases v with
      | list | dict | object => cases hv
      | _ => exact ⟨rfl, fun _ heq => (by cases heq), fun _ heq => (by cases heq)⟩
  | list items ih =>
      have h : ∀ w ∈ items, norm (relabel f w) = relabel f (norm w) := fun w hw => (ih w hw).1
      refine ⟨?_, fun items' heq => ?_, fun _ heq => (by cases heq)⟩
      · rw [relabel, norm, norm, hitems items h, wrap, wrap]
        rfl
      · cases heq
        exact h
  | dict entries ih =>
      have h := fun e he => And.intro (ih e he).1.1 (ih e he).2.1
      refine ⟨?_, fun _ heq => (by cases heq), fun entries' heq => ?_⟩
      · rw [relabel, norm, norm, hentries entries h, wrap, wrap]
        rfl
      · cases heq
        exact h
  | object o ih =>
      refine ⟨?_, fun _ heq => (by cases heq), fun _ heq => (by cases heq)⟩
      rcases o with ⟨properties, typeNames, toString⟩
      -- What stands bare is that of the first synthetic property.
      have hbare : normValue (relabelProperties f properties)
          = (normValue properties).map (relabel f) := by
        induction properties with
        | nil => rfl
        | cons q properties ihq =>
            rcases q with ⟨k, v⟩
            have hv := ih (k, v) List.mem_cons_self
            have hrest := ihq fun w hw => ih w (List.mem_cons_of_mem _ hw)
            rw [relabelProperties]
            by_cases hk : k = valueKey
            · cases v with
              | list items =>
                  simp only [relabel, normValue, if_pos hk, hitems items (hv.2.1 items rfl),
                    Option.map_some]
              | dict entries =>
                  simp only [relabel, normValue, if_pos hk, hentries entries (hv.2.2 entries rfl),
                    Option.map_some]
              | object o =>
                  rcases o with ⟨ps, tn, ts⟩
                  have hnorm := hv.1
                  rw [relabel] at hnorm
                  simp only [relabel, normValue, if_pos hk, hnorm, Option.map_some]
              | _ =>
                  simp only [relabel, normValue, norm, if_pos hk, Option.map_some, Option.map_none]
            · cases v <;> simp only [relabel, normValue, if_neg hk] <;>
                simpa only [normValue, if_neg hk] using hrest
      have hmembers : normMembers (relabelProperties f properties)
          = relabelProperties f (normMembers properties) := by
        simp only [normMembers_eq_map, relabelProperties_eq_map, List.filter_map, List.map_map]
        exact List.map_congr_left fun q hq => Prod.ext rfl (ih q (List.mem_of_mem_filter hq)).1
      rw [relabel, norm, norm, onlyValue_relabel, hbare, hmembers, relabel]
      by_cases honly : onlyValue properties = true
      · rw [if_pos honly, if_pos honly]
        cases normValue properties with
        | none => rfl
        | some v => rfl
      · rw [if_neg honly, if_neg honly]

/-- A document nests as deep whatever the texts. -/
theorem nest_relabel (v : PsValue) : nest (relabel f v) = nest v := by
  suffices hboth : nest (relabel f v) = nest v
      ∧ (∀ items, v = .list items → nestItems (relabelItems f items) = nestItems items)
      ∧ (∀ entries, v = .dict entries → nestEntries (relabelEntries f entries) = nestEntries entries)
    from hboth.1
  -- Only the text of a leaf changes, and leaves nest alike.
  induction v using PsValue.induction with
  | leaf v hv =>
      cases v with
      | list | dict | object => cases hv
      | _ => exact ⟨rfl, fun _ heq => (by cases heq), fun _ heq => (by cases heq)⟩
  | list items ih =>
      have hitems : nestItems (relabelItems f items) = nestItems items := by
        induction items with
        | nil => rfl
        | cons v items ihi =>
            rw [relabelItems, nestItems, nestItems, (ih v List.mem_cons_self).1,
              ihi fun w hw => ih w (List.mem_cons_of_mem v hw)]
      refine ⟨?_, fun items' heq => ?_, fun _ heq => (by cases heq)⟩
      · rw [relabel, nest, nest, hitems]
      · cases heq
        exact hitems
  | dict entries ih =>
      have hentries : nestEntries (relabelEntries f entries) = nestEntries entries := by
        induction entries with
        | nil => rfl
        | cons e entries ihe =>
            rcases e with ⟨k, v⟩
            have hkv := ih (k, v) List.mem_cons_self
            rw [relabelEntries, nestEntries, nestEntries, hkv.1.1, hkv.2.1,
              ihe fun w hw => ih w (List.mem_cons_of_mem _ hw)]
      refine ⟨?_, fun _ heq => (by cases heq), fun entries' heq => ?_⟩
      · rw [relabel, nest, nest, hentries]
      · cases heq
        exact hentries
  | object o ih =>
      refine ⟨?_, fun _ heq => (by cases heq), fun _ heq => (by cases heq)⟩
      rcases o with ⟨properties, typeNames, toString⟩
      -- A bare container is written into the body, so its items are looked at one level down.
      have hbare : nestValue (relabelProperties f properties) = nestValue properties := by
        induction properties with
        | nil => rfl
        | cons q properties ihq =>
            rcases q with ⟨k, v⟩
            have hv := ih (k, v) List.mem_cons_self
            have hrest := ihq fun w hw => ih w (List.mem_cons_of_mem _ hw)
            rw [relabelProperties]
            by_cases hk : k = valueKey
            · cases v with
              | list items =>
                  have hnest : nestItems (relabelItems f items) = nestItems items :=
                    hv.2.1 items rfl
                  simp only [relabel, nestValue, if_pos hk, hnest]
              | dict entries =>
                  have hnest : nestEntries (relabelEntries f entries) = nestEntries entries :=
                    hv.2.2 entries rfl
                  simp only [relabel, nestValue, if_pos hk, hnest]
              | object o =>
                  rcases o with ⟨ps, tn, ts⟩
                  have hnest := hv.1
                  rw [relabel] at hnest
                  simp only [relabel, nestValue, if_pos hk, hnest]
              | _ => simp only [relabel, nestValue, nest, if_pos hk]
            · cases v <;> simp only [relabel, nestValue, if_neg hk] <;>
                simpa only [nestValue, if_neg hk] using hrest
      have hmembers : nestMembers (relabelProperties f properties) = nestMembers properties := by
        clear hbare
        induction properties with
        | nil => rfl
        | cons q properties ihq =>
            rcases q with ⟨k, v⟩
            have hrest := ihq fun w hw => ih w (List.mem_cons_of_mem _ hw)
            rw [relabelProperties, nestMembers, nestMembers, hrest,
              (ih (k, v) List.mem_cons_self).1]
      rw [relabel, nest, nest, hbare, hmembers]

end Shape

end PsValue

/-- What a sealed text says to who holds the key; nothing if it was not sealed
    under it. -/
def opened (decipher : BlockCipher) (key : SessionKey) (sealed : Text) : Text :=
  match base64Decode sealed with
  | none => []
  | some ct => match key.decryptSecureString decipher ct with
    | .error _ => []
    | .ok plain => plain

/-- What was encrypted under a key is decrypted with it. -/
theorem decrypt_encrypt (cipher : CipherPair) (key : SessionKey) (plain : Text) :
    key.decryptSecureString cipher.decipher (key.encryptSecureString cipher.encipher plain)
      = .ok plain := by
  have hpadded : (pkcs7Pad (toUtf16Le plain)).length
      = 16 * ((pkcs7Pad (toUtf16Le plain)).length / 16) := by
    rw [length_pkcs7Pad]
    omega
  have hlength : (key.encryptSecureString cipher.encipher plain).length
      = 16 * ((pkcs7Pad (toUtf16Le plain)).length / 16) := by
    rw [SessionKey.encryptSecureString, length_cbcEncrypt]
  have hwhole : ¬ ((key.encryptSecureString cipher.encipher plain).length < 16
      ∨ (key.encryptSecureString cipher.encipher plain).length % 16 ≠ 0) := by
    rw [hlength, length_pkcs7Pad]
    omega
  -- The blocks, the padding and the code units, each undone in its turn.
  have hchain : SessionKey.cbcDecrypt (cipher.decipher key)
      ((key.encryptSecureString cipher.encipher plain).length / 16) (Vector.replicate 16 0)
      (key.encryptSecureString cipher.encipher plain) = pkcs7Pad (toUtf16Le plain) := by
    rw [hlength, Nat.mul_div_cancel_left _ (by omega), SessionKey.encryptSecureString]
    exact cbcDecrypt_cbcEncrypt (cipher.decipher_encipher key) _ _ hpadded
  have hstrip : SessionKey.stripPadding (pkcs7Pad (toUtf16Le plain)) = .ok (toUtf16Le plain) :=
    (stripPadding_iff (by omega)).mpr rfl
  have heven : (toUtf16Le plain).length % 2 = 0 := by
    rw [length_toUtf16Le]
    omega
  have hread := (fromUtf16_leUnits_iff heven).mpr (rfl : toUtf16Le plain = toUtf16Le plain)
  unfold SessionKey.decryptSecureString
  simp only [if_neg hwhole, hchain, hstrip, if_neg (not_not.mpr heven), hread, bind, Except.bind,
    pure, Except.pure]

/-- Opening undoes sealing. -/
theorem opened_sealed (cipher : CipherPair) (key : SessionKey) (plain : Text) :
    opened cipher.decipher key (base64Encode (key.encryptSecureString cipher.encipher plain))
      = plain := by
  unfold opened
  rw [base64Decode_encode]
  simp only [decrypt_encrypt cipher key plain]

/-- What was sealed, encoded and decoded opens to the normal form. -/
theorem opened_norm (cipher : CipherPair) (key : SessionKey) (v : PsValue) :
    (encryptSecureStrings cipher.encipher key v).norm.relabel (opened cipher.decipher key)
      = v.norm := by
  have hid : (opened cipher.decipher key)
      ∘ (fun plain => base64Encode (key.encryptSecureString cipher.encipher plain)) = id :=
    funext fun plain => opened_sealed cipher key plain
  rw [PsValue.encryptSecureStrings_eq, PsValue.norm_relabel, PsValue.relabel_relabel, hid,
    PsValue.relabel_id]

end Psrp

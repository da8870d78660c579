import Psrp.Theory.Pool.HostCalls

/-!
# Secrets Are Sealed

A `SecureString` that a host answers with crosses the wire encrypted or not at
all, whatever is dropped, refused or injected.

What becomes of a value is said without the recursion that does it. A value is
the texts of its `SecureString`s, in order, and what is left when those are
blotted out; sealing a value maps the first and keeps the second (`Conceals`),
and no other value has both (`conceals_iff`).

What a message to the server carries is read off what was noted right before it
(`Origin`). The ledger gives the cause; the key is the one that the pool holds
then. Without a key, only an answer without `SecureString`s is carried, and what
is sent for a refused answer does not look at its value.

## Main definitions

* `secureLeaves`, `blot`: The parts of a value.
* `Conceals`: A value with its `SecureString`s sealed under a key, if there is
  one.
* `Origin`: What a message to the server carries.

## Theorems

* `conceals_iff`: Sealing is what the pool computes.
* `Trace.parks`: What is parked is what the host answered.
* `secrets_sealed`: It holds in every run.
-/

namespace Psrp

namespace PsValue

mutual

/-- The texts of the `SecureString`s of a value, in order. -/
def secureLeaves : PsValue → List Text
  | .secureString s => [s]
  | .list items => secureItems items
  | .dict entries => secureEntries entries
  | .object ⟨properties, _, _⟩ => secureProperties properties
  | _ => []

def secureItems : List PsValue → List Text
  | [] => []
  | v :: items => secureLeaves v ++ secureItems items

def secureEntries : List (PsValue × PsValue) → List Text
  | [] => []
  | (k, v) :: entries => (secureLeaves k ++ secureLeaves v) ++ secureEntries entries

def secureProperties : List (Text × PsValue) → List Text
  | [] => []
  | (_, v) :: properties => secureLeaves v ++ secureProperties properties

end

mutual

/-- A value with its `SecureString`s blotted out. -/
def blot : PsValue → PsValue
  | .secureString _ => .secureString []
  | .list items => .list (blotItems items)
  | .dict entries => .dict (blotEntries entries)
  | .object ⟨properties, typeNames, toString⟩ =>
    .object ⟨blotProperties properties, typeNames, toString⟩
  | other => other

def blotItems : List PsValue → List PsValue
  | [] => []
  | v :: items => blot v :: blotItems items

def blotEntries : List (PsValue × PsValue) → List (PsValue × PsValue)
  | [] => []
  | (k, v) :: entries => (blot k, blot v) :: blotEntries entries

def blotProperties : List (Text × PsValue) → List (Text × PsValue)
  | [] => []
  | (k, v) :: properties => (k, blot v) :: blotProperties properties

end

section Parts

/-- Whether a value holds a `SecureString` is whether it has such a text. -/
theorem containsSecureString_iff (v : PsValue) :
    containsSecureString v = true ↔ secureLeaves v ≠ [] := by
  induction v using PsValue.induction with
  | leaf v hv =>
      cases v with
      | list | dict | object => cases hv
      | secureString s => exact ⟨fun _ => List.cons_ne_nil s [], fun _ => rfl⟩
      | _ => exact ⟨nofun, fun h => absurd rfl h⟩
  | list items ih =>
      rw [containsSecureString, secureLeaves]
      induction items with
      | nil => exact ⟨nofun, fun h => absurd rfl h⟩
      | cons v items ihi =>
          rw [anySecureItem, secureItems, Bool.or_eq_true, ih v List.mem_cons_self,
            ihi fun w hw => ih w (List.mem_cons_of_mem v hw), Ne, Ne, Ne, List.append_eq_nil_iff,
            not_and_or]
  | dict entries ih =>
      rw [containsSecureString, secureLeaves]
      induction entries with
      | nil => exact ⟨nofun, fun h => absurd rfl h⟩
      | cons e entries ihe =>
          rcases e with ⟨k, v⟩
          rw [anySecureEntry, secureEntries, Bool.or_eq_true, Bool.or_eq_true,
            (ih (k, v) List.mem_cons_self).1, (ih (k, v) List.mem_cons_self).2,
            ihe fun w hw => ih w (List.mem_cons_of_mem (k, v) hw), Ne, Ne, Ne, Ne,
            List.append_eq_nil_iff, List.append_eq_nil_iff, not_and_or, not_and_or]
  | object o ih =>
      rcases o with ⟨properties, typeNames, toString⟩
      rw [containsSecureString, secureLeaves]
      induction properties with
      | nil => exact ⟨nofun, fun h => absurd rfl h⟩
      | cons p properties ihp =>
          rcases p with ⟨k, v⟩
          rw [anySecureProperty, secureProperties, Bool.or_eq_true, ih (k, v) List.mem_cons_self,
            ihp fun w hw => ih w (List.mem_cons_of_mem (k, v) hw), Ne, Ne, Ne,
            List.append_eq_nil_iff, not_and_or]

/-- What is left of a value says how many texts it had. -/
theorem length_secureLeaves_blot (v : PsValue) :
    (secureLeaves (blot v)).length = (secureLeaves v).length := by
  induction v using PsValue.induction with
  | leaf v hv =>
      cases v with
      | list | dict | object => cases hv
      | _ => rfl
  | list items ih =>
      rw [blot, secureLeaves, secureLeaves]
      induction items with
      | nil => rfl
      | cons v items ihi =>
          rw [blotItems, secureItems, secureItems, List.length_append, List.length_append,
            ih v List.mem_cons_self, ihi fun w hw => ih w (List.mem_cons_of_mem v hw)]
  | dict entries ih =>
      rw [blot, secureLeaves, secureLeaves]
      induction entries with
      | nil => rfl
      | cons e entries ihe =>
          rcases e with ⟨k, v⟩
          have hkv := ih (k, v) List.mem_cons_self
          have hrest := ihe fun w hw => ih w (List.mem_cons_of_mem (k, v) hw)
          simp only [blotEntries, secureEntries, List.length_append, hkv.1, hkv.2, hrest]
  | object o ih =>
      rcases o with ⟨properties, typeNames, toString⟩
      rw [blot, secureLeaves, secureLeaves]
      induction properties with
      | nil => rfl
      | cons p properties ihp =>
          rcases p with ⟨k, v⟩
          rw [blotProperties, secureProperties, secureProperties, List.length_append,
            List.length_append, ih (k, v) List.mem_cons_self,
            ihp fun w hw => ih w (List.mem_cons_of_mem (k, v) hw)]

/-- What is blotted to a leaf that is no `SecureString` is that leaf. -/
theorem eq_of_blot_leaf {v w : PsValue} (hv : v.isContainer = false) (hsecure : secureLeaves v = [])
    (h : blot v = blot w) : v = w := by
  have hkept : blot v = v := by
    cases v with
    | list | dict | object => cases hv
    | secureString s => cases hsecure
    | _ => rfl
  rw [hkept] at h
  subst h
  cases w with
  | list | dict => cases hv
  | object o =>
      rcases o with ⟨properties, typeNames, toString⟩
      cases hv
  | secureString s => cases hsecure
  | _ => rfl

theorem length_of_blot {v w : PsValue} (h : blot v = blot w) :
    (secureLeaves v).length = (secureLeaves w).length := by
  rw [← length_secureLeaves_blot v, h, length_secureLeaves_blot]

/-- A value is its texts and what is left. -/
theorem eq_of_blot (v w : PsValue) (h : blot v = blot w) (hleaves : secureLeaves v = secureLeaves w) :
    v = w := by
  induction v using PsValue.induction generalizing w with
  | leaf v hv =>
      -- A leaf without a secret is its own blot; a secret is found among the leaves.
      by_cases hsecure : secureLeaves v = []
      · exact eq_of_blot_leaf hv hsecure h
      · cases v with
        | list | dict | object => cases hv
        | secureString s =>
            cases w with
            | secureString t =>
                rw [secureLeaves, secureLeaves, List.singleton_inj] at hleaves
                rw [hleaves]
            | object o =>
                rcases o with ⟨properties, typeNames, toString⟩
                cases h
            | _ => cases h
        | _ => exact absurd rfl hsecure
  | list items ih =>
      cases w with
      | list items' =>
          rw [blot, blot, PsValue.list.injEq] at h
          rw [secureLeaves, secureLeaves] at hleaves
          rw [PsValue.list.injEq]
          induction items generalizing items' with
          | nil =>
              cases items' with
              | nil => rfl
              | cons v' items' => cases h
          | cons v items ihi =>
              cases items' with
              | nil => cases h
              | cons v' items' =>
                  rcases List.cons.inj h with ⟨hv, hitems⟩
                  -- Equal blots have as many secrets, so the leaves divide at the same place.
                  rcases List.append_inj hleaves (length_of_blot hv) with ⟨hfirst, hrest⟩
                  rw [ih v List.mem_cons_self v' hv hfirst,
                    ihi (fun w hw => ih w (List.mem_cons_of_mem v hw)) items' hitems hrest]
      | object o =>
          rcases o with ⟨properties, typeNames, toString⟩
          cases h
      | _ => cases h
  | dict entries ih =>
      cases w with
      | dict entries' =>
          rw [blot, blot, PsValue.dict.injEq] at h
          rw [secureLeaves, secureLeaves] at hleaves
          rw [PsValue.dict.injEq]
          induction entries generalizing entries' with
          | nil =>
              cases entries' with
              | nil => rfl
              | cons e' entries' =>
                  rcases e' with ⟨k', v'⟩
                  cases h
          | cons e entries ihe =>
              rcases e with ⟨k, v⟩
              cases entries' with
              | nil => cases h
              | cons e' entries' =>
                  rcases e' with ⟨k', v'⟩
                  rcases List.cons.inj h with ⟨hkv, hentries⟩
                  rcases Prod.mk.inj hkv with ⟨hk, hv⟩
                  -- A key and its value divide theirs, too.
                  have hlen : (secureLeaves k ++ secureLeaves v).length
                      = (secureLeaves k' ++ secureLeaves v').length := by
                    rw [List.length_append, List.length_append, length_of_blot hk,
                      length_of_blot hv]
                  rcases List.append_inj hleaves hlen with ⟨hfirst, hrest⟩
                  rcases List.append_inj hfirst (length_of_blot hk) with ⟨hkey, hvalue⟩
                  have hkv := ih (k, v) List.mem_cons_self
                  have hkeys : k = k' := hkv.1 k' hk hkey
                  have hvalues : v = v' := hkv.2 v' hv hvalue
                  rw [hkeys, hvalues, ihe (fun w hw => ih w (List.mem_cons_of_mem (k, v) hw)) entries'
                    hentries hrest]
      | object o =>
          rcases o with ⟨properties, typeNames, toString⟩
          cases h
      | _ => cases h
  | object o ih =>
      rcases o with ⟨properties, typeNames, toString⟩
      cases w with
      | object o' =>
          rcases o' with ⟨properties', typeNames', toString'⟩
          rw [blot, blot, PsValue.object.injEq, PsObjectOf.mk.injEq] at h
          rw [secureLeaves, secureLeaves] at hleaves
          rw [PsValue.object.injEq, PsObjectOf.mk.injEq]
          refine ⟨?_, h.2⟩
          -- The properties of an object, by their values.
          replace h := h.1
          induction properties generalizing properties' with
          | nil =>
              cases properties' with
              | nil => rfl
              | cons p' properties' =>
                  rcases p' with ⟨k', v'⟩
                  cases h
          | cons p properties ihp =>
              rcases p with ⟨k, v⟩
              cases properties' with
              | nil => cases h
              | cons p' properties' =>
                  rcases p' with ⟨k', v'⟩
                  rcases List.cons.inj h with ⟨hkv, hproperties⟩
                  rcases Prod.mk.inj hkv with ⟨hk, hv⟩
                  rcases List.append_inj hleaves (length_of_blot hv) with ⟨hfirst, hrest⟩
                  have hvalues : v = v' := ih (k, v) List.mem_cons_self v' hv hfirst
                  rw [hk, hvalues, ihp (fun w hw => ih w (List.mem_cons_of_mem (k, v) hw)) properties'
                    hrest hproperties]
      | _ => cases h

end Parts

end PsValue

open PsValue (secureLeaves blot)

/-- What goes in the place of a text. -/
def sealText (cipher : BlockCipher) (key : SessionKey) (plain : Text) : Text :=
  base64Encode (key.encryptSecureString cipher plain)

/-- A value with its `SecureString`s sealed under a key and nothing else
    changed. Without a key it must not have any. -/
def Conceals (cipher : BlockCipher) (key : Option SessionKey) (v v' : PsValue) : Prop :=
  blot v' = blot v ∧ match key with
    | some key => secureLeaves v' = (secureLeaves v).map (sealText cipher key)
    | none => secureLeaves v = [] ∧ secureLeaves v' = []

theorem encryptSecureStrings_parts (cipher : BlockCipher) (key : SessionKey) (v : PsValue) :
    blot (encryptSecureStrings cipher key v) = blot v
      ∧ secureLeaves (encryptSecureStrings cipher key v)
        = (secureLeaves v).map (sealText cipher key) := by
  -- Encrypting changes the leaves that are secrets, one for one and in order.
  induction v using PsValue.induction with
  | leaf v hv =>
      cases v with
      | list | dict | object => cases hv
      | _ => exact ⟨rfl, rfl⟩
  | list items ih =>
      rw [encryptSecureStrings, blot, blot, secureLeaves, secureLeaves, PsValue.list.injEq]
      induction items with
      | nil => exact ⟨rfl, rfl⟩
      | cons v items ihi =>
          have hv := ih v List.mem_cons_self
          have hrest := ihi fun w hw => ih w (List.mem_cons_of_mem v hw)
          simp only [encryptItems, PsValue.blotItems, PsValue.secureItems, hv.1, hv.2, hrest.1,
            hrest.2, List.map_append, and_self]
  | dict entries ih =>
      rw [encryptSecureStrings, blot, blot, secureLeaves, secureLeaves, PsValue.dict.injEq]
      induction entries with
      | nil => exact ⟨rfl, rfl⟩
      | cons e entries ihe =>
          rcases e with ⟨k, v⟩
          have hkv := ih (k, v) List.mem_cons_self
          have hrest := ihe fun w hw => ih w (List.mem_cons_of_mem (k, v) hw)
          simp only [encryptEntries, PsValue.blotEntries, PsValue.secureEntries, hkv.1.1, hkv.1.2,
            hkv.2.1, hkv.2.2, hrest.1, hrest.2, List.map_append, and_self]
  | object o ih =>
      rcases o with ⟨properties, typeNames, toString⟩
      rw [encryptSecureStrings, blot, blot, secureLeaves, secureLeaves, PsValue.object.injEq,
        PsObjectOf.mk.injEq]
      induction properties with
      | nil => exact ⟨⟨rfl, rfl, rfl⟩, rfl⟩
      | cons p properties ihp =>
          rcases p with ⟨k, v⟩
          have hv := ih (k, v) List.mem_cons_self
          have hrest := ihp fun w hw => ih w (List.mem_cons_of_mem (k, v) hw)
          simp only [encryptProperties, PsValue.blotProperties, PsValue.secureProperties, hv.1, hv.2,
            hrest.1.1, hrest.2, List.map_append, and_self]

/-- Sealing under a key is what the pool computes. -/
theorem conceals_iff (cipher : BlockCipher) (key : SessionKey) (v v' : PsValue) :
    Conceals cipher (some key) v v' ↔ v' = encryptSecureStrings cipher key v := by
  have hparts := encryptSecureStrings_parts cipher key v
  constructor
  · rintro ⟨hblot, hleaves⟩
    exact PsValue.eq_of_blot _ _ (hblot.trans hparts.1.symm) (hleaves.trans hparts.2.symm)
  · rintro rfl
    exact hparts

/-- A value without `SecureString`s is sealed as it is, with a key or
    without. -/
theorem conceals_self {cipher : BlockCipher} {v : PsValue} (key : Option SessionKey)
    (hv : containsSecureString v = false) : Conceals cipher key v v := by
  have hnone : secureLeaves v = [] := by
    by_contra hne
    rw [(PsValue.containsSecureString_iff v).mpr hne] at hv
    cases hv
  refine ⟨rfl, ?_⟩
  cases key with
  | none => exact ⟨hnone, hnone⟩
  | some key =>
      change secureLeaves v = (secureLeaves v).map _
      rw [hnone]
      rfl

namespace RunspacePool

open Async (Call play)

variable {τ : Type} {d : Driver τ} {key0 : Option SessionKey} {s : RunspacePool τ}
  {h : List PoolEvent}

section Parking

/-- What is parked is what the host has just answered. -/
def FromHost (before : List PoolEvent) (e : PoolEvent) (_ : List PoolEvent) : Prop :=
  ∀ p, e = .parked p → ∃ earlier msg call v es, p = parkedFor msg call v ∧ IsPublication es
    ∧ before = earlier ++ .answered msg call (.ok (some v)) :: es

theorem PublishTrace.isPublication {es : List PoolEvent} (hpub : PublishTrace d .through es) :
    IsPublication es := by
  cases hpub with
  | started key f hmt hdata => exact Or.inr ⟨f, key, hmt, rfl⟩
  | stopped f o es ho hmt hsend => exact absurd rfl ho

/-- A trace that parks an answer is that of a call that was taken and answered. -/
theorem Trace.parks {o : Fate} {es : List PoolEvent} {p : DeferredHostResponse}
    (htrace : Trace d s o es) (hp : .parked p ∈ es) : ∃ msg call v mid, p = parkedFor msg call v
      ∧ IsPublication mid
      ∧ es = (.took msg :: .answered msg call (.ok (some v)) :: mid) ++ [.parked p] := by
  -- Nothing that goes out is a parking.
  have houtgoing : ∀ {es : List PoolEvent}, (∀ e ∈ es, isOutgoing e = true) → .parked p ∉ es := by
    intro es hes hp
    have hout := hes _ hp
    cases hout
  cases htrace with
  | unread o ho => exact absurd hp List.not_mem_nil
  | chunk o chunk ho | unheard msg o hmt ho hwhy => cases List.mem_singleton.mp hp
  | silent msg call hmt hdecode hwrites | accepted msg key hmt hpending =>
      simp only [List.mem_cons, reduceCtorEq, List.not_mem_nil, or_self] at hp
  | flushed p' ps key f o es hparked hkey hsend hmt hpid hdata =>
      simp only [List.cons_append, List.mem_cons, reduceCtorEq, false_or, List.mem_append] at hp
      rcases hp with hp | hp
      · exact absurd hp (houtgoing hsend.outgoing)
      · split at hp
        · cases List.mem_singleton.mp hp
        · exact absurd hp List.not_mem_nil
  | replied msg call answer body f o es hmt hdecode hreply htype hpid hdata hsend =>
      simp only [List.mem_cons, reduceCtorEq, false_or] at hp
      exact absurd hp (houtgoing hsend.outgoing)
  | refused msg e o es hmt hpending hwhy =>
      simp only [List.mem_cons, reduceCtorEq, false_or] at hp
      exact absurd hp (houtgoing (hwhy.elim (fun h => h.2.outgoing) fun h => h.2.outgoing))
  | requested msg o es hmt hpending hpub =>
      simp only [List.mem_cons, reduceCtorEq, false_or] at hp
      exact absurd hp (houtgoing hpub.outgoing)
  | parked msg call v hmt hdecode hsecure hkey hpending =>
      simp only [List.mem_cons, reduceCtorEq, false_or, List.not_mem_nil, or_false,
        PoolEvent.parked.injEq] at hp
      exact ⟨msg, call, v, [], hp, Or.inl rfl, by rw [hp]; rfl⟩
  | parkedFirst msg call v o es hmt hdecode hsecure hkey hpending hpub =>
      simp only [List.cons_append, List.mem_cons, reduceCtorEq, false_or, List.mem_append] at hp
      rcases hp with hp | hp
      · exact absurd hp (houtgoing hpub.outgoing)
      · -- The answer is parked only once the key was asked for.
        by_cases hthrough : o = .through
        · subst hthrough
          rw [if_pos rfl] at hp ⊢
          cases List.mem_singleton.mp hp
          exact ⟨msg, call, v, es, rfl, hpub.isPublication, rfl⟩
        · rw [if_neg hthrough] at hp
          exact absurd hp List.not_mem_nil

theorem not_parked_mem {p : DeferredHostResponse} {msg : PsrpMessage} {call : HostCall} {v : PsValue}
    {mid : List PoolEvent} (hmid : IsPublication mid) :
    .parked p ∉ .took msg :: .answered msg call (.ok (some v)) :: mid := by
  intro hp
  simp only [List.mem_cons, reduceCtorEq, false_or] at hp
  rcases hmid with rfl | ⟨f, key, _, rfl⟩
  · exact absurd hp List.not_mem_nil
  · simp only [List.mem_cons, reduceCtorEq, List.not_mem_nil, or_self] at hp

theorem Trace.fromHost {o : Fate} {es : List PoolEvent} (htrace : Trace d s o es) :
    Throughout (fun before => FromHost (s.history ++ before)) es := by
  rintro before e after heq p rfl
  have hp : .parked p ∈ es := heq ▸ List.mem_append_right _ List.mem_cons_self
  rcases htrace.parks hp with ⟨msg, call, v, mid, hparked, hmid, hes⟩
  refine ⟨s.history ++ [.took msg], msg, call, v, mid, hparked, hmid, ?_⟩
  rw [hes] at heq
  rcases split_of_snoc heq with ⟨_, _, hbefore⟩ | ⟨rest, _, hbefore⟩
  · rw [← hbefore, List.append_assoc]
    rfl
  · have hnot : .parked p ∉ .took msg :: .answered msg call (.ok (some v)) :: mid :=
      not_parked_mem hmid
    refine absurd ?_ hnot
    rw [hbefore]
    exact List.mem_append_right _ List.mem_cons_self

theorem MoveTrace.fromHost {es : List PoolEvent} (htrace : MoveTrace d s es) :
    Throughout (fun before => FromHost (s.history ++ before)) es := by
  have hnone : (∀ p, .parked p ∉ es) →
      Throughout (fun before => FromHost (s.history ++ before)) es := by
    rintro hnone before e after rfl p rfl
    exact absurd (List.mem_append_right _ List.mem_cons_self) (hnone p)
  have houtgoing : (∀ e ∈ es, isOutgoing e = true) → ∀ p, .parked p ∉ es := by
    intro hes p hp
    have hout := hes _ hp
    cases hout
  cases htrace with
  | deed o es ho htrace => exact htrace.fromHost
  | interrupted es htrace =>
      refine htrace.fromHost.append (fun _ _ _ _ hh => hh) ?_
      rintro before e after heq p rfl
      have hp : PoolEvent.parked p ∈ [PoolEvent.fired, PoolEvent.dropped] :=
        heq ▸ List.mem_append_right _ List.mem_cons_self
      simp only [List.mem_cons, reduceCtorEq, List.not_mem_nil, or_self] at hp
  | sent f o es hmt hsend => exact hnone (houtgoing hsend.outgoing)
  | published o es hpub => exact hnone (houtgoing hpub.outgoing)
  | unnoted => exact hnone fun p => List.not_mem_nil
  | remarked e he =>
      refine hnone fun p hp => ?_
      rw [← List.mem_singleton.mp hp] at he
      cases he
  | _ =>
      refine hnone fun p hp => ?_
      simp only [List.mem_cons, reduceCtorEq, List.not_mem_nil, or_self] at hp

end Parking

section Origins

/-- What a message to the server carries, by what was noted right before it was
    given to the transport. -/
inductive Origin (d : Driver τ) (key0 : Option SessionKey) (before : List PoolEvent) (f : Frame) :
    Prop
  /-- The host failed: its error is sent. -/
  | failed (earlier msg call e) : before = earlier ++ [.answered msg call (.error e)] →
      f.msg.data = buildHostResponseErrorBody d.platform.toPlatform call.ci call.mi e.message →
      Origin d key0 before f
  /-- The host answered: its answer is sent, sealed under the key that is held,
      or without `SecureString`s. -/
  | carried (earlier msg call v v') : before = earlier ++ [.answered msg call (.ok (some v))] →
      Conceals d.platform.cipher (keyAfter key0 before) v v' →
      f.msg.data = buildHostResponseBody d.platform.toPlatform call.ci call.mi v' →
      Origin d key0 before f
  /-- A parked answer is sent, sealed under the key that is held by now. -/
  | flushed (earlier p key v') : before = earlier ++ [.flushing p] →
      keyAfter key0 before = some key → Conceals d.platform.cipher (some key) p.value v' →
      f.msg.data = buildHostResponseBody d.platform.toPlatform p.ci p.mi v' →
      Origin d key0 before f
  /-- A parked answer is refused: what is sent says why the reply was, and
      nothing of the value. -/
  | refused (earlier p e) : before = earlier ++ [.failing p] → .refused e ∈ earlier →
      f.msg.data = buildHostResponseErrorBody d.platform.toPlatform p.ci p.mi (refusal e) →
      Origin d key0 before f
  /-- No response at all. -/
  | published (key) : f.msg.messageType = .publicKey →
      f.msg.data = publicKeyXml d.platform.toPlatform key → Origin d key0 before f
  | unrelated : isReserved f.msg.messageType = false → Origin d key0 before f

/-- What is being refused was refused for a reply. -/
theorem refused_of_reason {e : PsrpError} (hreason : (booksOf key0 h).reason = some e) :
    .refused e ∈ h := by
  induction h using List.reverseRecOn with
  | nil => cases hreason
  | append_singleton h e' ih =>
      rw [booksOf_snoc] at hreason
      by_cases hnew : e' = .refused e
      · rw [hnew]
        exact List.mem_append_right _ (List.mem_singleton.mpr rfl)
      · refine List.mem_append_left _ (ih ?_)
        cases e' with
        | refused e'' =>
            cases hreason
            exact absurd rfl hnew
        | _ => exact hreason

/-- Every message to the server has an origin. -/
theorem Caused.origin {f : Frame} {before after : List PoolEvent}
    (hh : Caused d key0 (before ++ .sending f :: after)) : Origin d key0 before f := by
  have hsplit : ∀ e, before.getLast? = some e → before = before.dropLast ++ [e] := fun e he =>
    (List.dropLast_append_getLast? e he).symm
  cases hh before (.sending f) after rfl with
  | published rpid key hidle hmsg => exact .published key (hmsg ▸ rfl) (hmsg ▸ rfl)
  | other hreserved => exact .unrelated hreserved
  | flushed rpid p key hlast hheld hmsg =>
      refine .flushed before.dropLast p key _ (hsplit _ hlast) ?_ ((conceals_iff _ key p.value _).mpr rfl)
        (hmsg ▸ rfl)
      rw [keyAfter_eq, hheld]
  | failed rpid p e hlast hreason hmsg =>
      refine .refused before.dropLast p e (hsplit _ hlast) ?_ (hmsg ▸ rfl)
      have hmem := refused_of_reason hreason
      rw [hsplit _ hlast] at hmem
      rcases List.mem_append.mp hmem with hmem | hmem
      · exact hmem
      · cases List.mem_singleton.mp hmem
  | replied rpid msg call answer body hlast hreply hmsg =>
      -- The three bodies that answer a call.
      cases hreply with
      | error e => exact .failed before.dropLast msg call e (hsplit _ hlast) (hmsg ▸ rfl)
      | plain v hv =>
          exact .carried before.dropLast msg call v v (hsplit _ hlast) (conceals_self _ hv)
            (hmsg ▸ rfl)
      | sealed v key hv hheld =>
          refine .carried before.dropLast msg call v (encryptSecureStrings d.platform.cipher key v)
            (hsplit _ hlast) ?_ (hmsg ▸ rfl)
          rw [keyAfter_eq, hheld]
          exact (conceals_iff _ key v _).mpr rfl

/-- In every run, whatever is dropped in it, no message to the server carries a
    `SecureString` that is not sealed under the key held, and what is parked is
    what the host answered. -/
theorem secrets_sealed (d : Driver τ) (transport : τ) (machine : RunspacePoolStateMachine)
    (n : UInt64) (key : Option SessionKey) (calls : List (Call Answer PoolOperation)) :
    (∀ before f after, (play (perform d) calls (attached transport machine n key)).2.history
      = before ++ .sending f :: after → Origin d key before f)
    ∧ ∀ before p after, (play (perform d) calls (attached transport machine n key)).2.history
      = before ++ .parked p :: after → ∃ earlier msg call v es, p = parkedFor msg call v
        ∧ IsPublication es ∧ before = earlier ++ .answered msg call (.ok (some v)) :: es := by
  constructor
  · intro before f after heq
    have hcaused := (ledger_play d transport machine n key calls).caused
    rw [heq] at hcaused
    exact hcaused.origin
  · intro before p after heq
    exact play_throughout (fun _ _ _ _ hh => hh) transport machine n key
      (fun _ _ _ htrace => htrace.fromHost) (fun _ _ _ htrace => htrace.fromHost) calls
      before _ after heq p rfl

end Origins

end RunspacePool

end Psrp

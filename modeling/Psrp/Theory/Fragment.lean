import Psrp.Core.Fragment
import Psrp.Core.Message
import Psrp.Lib.Pull

/-!
# Reassembly

What was split comes together again, however the bytes are cut and however
the fragments of different objects are mixed.

Two facts carry the argument. A complete fragment at the head of a buffer
stays what it is when bytes are appended, so that feeding a byte string in
pieces is feeding it whole (`feedAll_flatten`); and of every object, what is
still to come and what is in flight make up its payload (`Stage`), which one
accepted fragment preserves.

## Main definitions

* `feedAll`: Feed chunks one after the other.
* `Reassembler.acceptAll`: Take fragments in one after the other.
* `Interleaves`: A mix of the fragments of several messages.
* `completed`: The messages in the order of their last fragments.
* `Stage`: How far an object is.

## Theorems

* `Reassembler.decodeOne_encode`: A fragment is read back.
* `feedAll_flatten`: The outputs do not depend on the cuts.
* `acceptAll_interleaves`: Interleaved objects come together.
* `fragmentation_round_trip`: The three layers together.
-/

namespace Psrp

open Reassembler

section Reading

/-- A fragment is read back from in front of other bytes. -/
theorem decodeOne_encode (f : Fragment) (rest : Bytes) (h : f.blob.length < 2 ^ 32) :
    decodeOne (f.encode ++ rest) = some (f, f.encode.length) := by
  have hmin : min f.blob.length (2 ^ 32 - 1) = f.blob.length := by omega
  have hlen : f.encode.length = FRAGMENT_HEADER_LEN + f.blob.length := by
    simp only [Fragment.encode, List.length_append, length_beBytes, List.length_singleton]
    rfl
  have hobject : UInt64.ofNat (ofBe (beBytes 8 f.objectId.toNat)) = f.objectId := by
    rw [ofBe_beBytes 8 _ f.objectId.toNat_lt, UInt64.ofNat_toNat]
  have hfragment : UInt64.ofNat (ofBe (beBytes 8 f.fragmentId.toNat)) = f.fragmentId := by
    rw [ofBe_beBytes 8 _ f.fragmentId.toNat_lt, UInt64.ofNat_toNat]
  have hflags : (f.flags &&& FLAG_START != 0) = f.start ∧ (f.flags &&& FLAG_END != 0) = f.isEnd := by
    rw [Fragment.flags]
    cases f.start <;> cases f.isEnd <;> exact ⟨rfl, rfl⟩
  rw [hlen, decodeOne, Fragment.encode, hmin]
  simp only [List.append_assoc, splitFirst_append 8 _ _ (length_beBytes 8 _),
    splitFirst_append 1 [f.flags] _ rfl, splitFirst_append 4 _ _ (length_beBytes 4 _),
    ofBe_beBytes 4 _ (show f.blob.length < 256 ^ 4 from h), splitFirst_append _ f.blob rest rfl,
    Option.bind_eq_bind, Option.bind_some, Option.pure_def, hobject, hfragment, List.headD_cons,
    hflags.1, hflags.2]

theorem splitFirst_extend {n : Nat} {bs a b : Bytes} (ext : Bytes)
    (h : splitFirst n bs = some (a, b)) : splitFirst n (bs ++ ext) = some (a, b ++ ext) := by
  rcases splitFirst_eq_some h with ⟨rfl, ha⟩
  rw [List.append_assoc, splitFirst_append n a _ ha]

/-- What a read fragment consists of. -/
theorem decodeOne_eq_some {buf : Bytes} {f : Fragment} {n : Nat} (h : decodeOne buf = some (f, n)) :
    FRAGMENT_HEADER_LEN ≤ n ∧ n ≤ buf.length
      ∧ ∀ ext, decodeOne (buf ++ ext) = some (f, n) := by
  rw [decodeOne] at h
  simp only [Option.bind_eq_bind, Option.bind_eq_some_iff, Option.pure_def, Option.some.injEq,
    Prod.exists, Prod.mk.injEq] at h
  rcases h with ⟨o, r1, h1, g, r2, h2, fl, r3, h3, bl, r4, h4, blob, r5, h5, hf, hn⟩
  rcases splitFirst_eq_some h1 with ⟨rfl, ho⟩
  rcases splitFirst_eq_some h2 with ⟨rfl, hg⟩
  rcases splitFirst_eq_some h3 with ⟨rfl, hfl⟩
  rcases splitFirst_eq_some h4 with ⟨rfl, hbl⟩
  rcases splitFirst_eq_some h5 with ⟨rfl, hblob⟩
  have hlen : FRAGMENT_HEADER_LEN = 21 := rfl
  refine ⟨by omega, ?_, fun ext => ?_⟩
  · simp only [List.length_append]
    omega
  · rw [decodeOne]
    simp only [Option.bind_eq_bind, splitFirst_extend ext h1, splitFirst_extend ext h2,
      splitFirst_extend ext h3, splitFirst_extend ext h4, splitFirst_extend ext h5,
      Option.bind_some, Option.pure_def, hf, hn]

end Reading

section Chunks

/-- Accepting a fragment leaves the buffer alone. -/
theorem accept_buffer (r : Reassembler) (f : Fragment) (b : Bytes) :
    accept { r with buffer := b } f
      = ((accept r f).1, { (accept r f).2 with buffer := b }) := by
  rw [accept, accept]
  cases ((IndexMap.get f.objectId r.inFlight).getD InFlight.default).add f with
  | error e => rfl
  | ok entry =>
      simp only []
      split_ifs <;> rfl

@[simp] theorem buffer_accept (r : Reassembler) (f : Fragment) :
    (accept r f).2.buffer = r.buffer := by
  have h := accept_buffer r f r.buffer
  exact congrArg (fun x => x.2.buffer) h

/-- Beyond the length of the buffer, fuel makes no difference. -/
theorem drain_fuel (m n : Nat) (r : Reassembler) (hm : r.buffer.length < m)
    (hn : r.buffer.length < n) : drain m r = drain n r := by
  induction m generalizing n r with
  | zero => exact absurd hm (Nat.not_lt_zero _)
  | succ m ih =>
      cases n with
      | zero => exact absurd hn (Nat.not_lt_zero _)
      | succ n =>
          rw [drain, drain]
          cases hdecode : decodeOne r.buffer with
          | none => rfl
          | some x =>
              rcases x with ⟨f, consumed⟩
              have hsome := decodeOne_eq_some hdecode
              have hbuffer := buffer_accept { r with buffer := r.buffer.drop consumed } f
              have hheader : FRAGMENT_HEADER_LEN = 21 := rfl
              simp only []
              rcases haccept : accept { r with buffer := r.buffer.drop consumed } f with ⟨x, r'⟩
              rw [haccept] at hbuffer
              have hlen : r'.buffer.length = r.buffer.length - consumed := by
                rw [hbuffer, List.length_drop]
              cases x with
              | error e => rfl
              | ok done => simp only [ih n r' (by omega) (by omega)]

/-- Take all whole fragments off the buffer. -/
def drained (r : Reassembler) : Except PsrpError (List Bytes) × Reassembler :=
  drain (r.buffer.length + 1) r

theorem feed_eq_drained (r : Reassembler) (bytes : Bytes) :
    feed r bytes = drained { r with buffer := r.buffer ++ bytes } := rfl

theorem drained_none (r : Reassembler) (h : decodeOne r.buffer = none) :
    drained r = (.ok [], r) := by
  rw [drained, drain, h]

theorem drained_some (r : Reassembler) (f : Fragment) (n : Nat)
    (h : decodeOne r.buffer = some (f, n)) :
    drained r = match accept { r with buffer := r.buffer.drop n } f with
      | (.error e, r') => (.error e, r')
      | (.ok done, r') => ((drained r').1.map (done.toList ++ ·), (drained r').2) := by
  have hsome := decodeOne_eq_some h
  have hbuffer := buffer_accept { r with buffer := r.buffer.drop n } f
  have hheader : FRAGMENT_HEADER_LEN = 21 := rfl
  rw [drained, drain, h]
  simp only []
  rcases haccept : accept { r with buffer := r.buffer.drop n } f with ⟨x, r'⟩
  rw [haccept] at hbuffer
  have hlen : r'.buffer.length = r.buffer.length - n := by
    rw [hbuffer, List.length_drop]
  cases x with
  | error e => rfl
  | ok done =>
      simp only [drained, drain_fuel r.buffer.length (r'.buffer.length + 1) r' (by omega)
        (by omega)]

/-- Appending bytes to the buffer is draining it and then what is left with
    the bytes, unless the first fails. -/
theorem drained_append (r : Reassembler) (ext : Bytes) :
    match drained r with
    | (.error e, _) => (drained { r with buffer := r.buffer ++ ext }).1 = .error e
    | (.ok out, s) => decodeOne s.buffer = none
        ∧ drained { r with buffer := r.buffer ++ ext }
          = ((drained { s with buffer := s.buffer ++ ext }).1.map (out ++ ·),
            (drained { s with buffer := s.buffer ++ ext }).2) := by
  -- Every fragment taken off makes the buffer shorter.
  induction hn : r.buffer.length using Nat.strong_induction_on generalizing r with
  | _ n ih =>
      cases hdecode : decodeOne r.buffer with
      | none =>
          rw [drained_none r hdecode]
          refine ⟨hdecode, ?_⟩
          rcases drained { r with buffer := r.buffer ++ ext } with ⟨x, s⟩
          cases x <;> rfl
      | some x =>
          rcases x with ⟨f, consumed⟩
          have hsome := decodeOne_eq_some hdecode
          have hheader : FRAGMENT_HEADER_LEN = 21 := rfl
          have hdrop : (r.buffer ++ ext).drop consumed = r.buffer.drop consumed ++ ext :=
            List.drop_append_of_le_length hsome.2.1
          -- The longer buffer has the same fragment at its front.
          have hlong := drained_some { r with buffer := r.buffer ++ ext } f consumed
            (hsome.2.2 ext)
          have hshort := accept_buffer r f (r.buffer.drop consumed)
          have hext := accept_buffer r f (r.buffer.drop consumed ++ ext)
          simp only [hdrop, hext] at hlong
          rw [drained_some r f consumed hdecode, hshort, hlong]
          rcases haccept : accept r f with ⟨x, r'⟩
          cases x with
          | error e => rfl
          | ok done =>
              simp only []
              -- The rest of the buffer is drained from the state that the fragment left.
              have hrec := ih (r.buffer.drop consumed).length
                (by rw [List.length_drop]; omega) { r' with buffer := r.buffer.drop consumed } rfl
              rcases hdrained : drained { r' with buffer := r.buffer.drop consumed } with ⟨y, s⟩
              rw [hdrained] at hrec
              cases y with
              | error e =>
                  simp only [Except.map] at hrec ⊢
                  rw [hrec]
              | ok out =>
                  simp only [Except.map] at hrec ⊢
                  refine ⟨hrec.1, ?_⟩
                  rw [hrec.2]
                  rcases drained { s with buffer := s.buffer ++ ext } with ⟨z, s'⟩
                  cases z with
                  | error e => rfl
                  | ok more => simp only [List.append_assoc]

/-- Feed chunks one after the other: all outputs together. -/
def feedAll (r : Reassembler) : List Bytes → Except PsrpError (List Bytes) × Reassembler
  | [] => (.ok [], r)
  | c :: cs =>
    match feed r c with
    | (.error e, r') => (.error e, r')
    | (.ok out, r') => ((feedAll r' cs).1.map (out ++ ·), (feedAll r' cs).2)

/-- Feeding chunks is feeding their concatenation: the outputs or the error
    are the same, and so is the reassembler unless there is an error. -/
theorem feedAll_flatten (r : Reassembler) (chunks : List Bytes) (hr : decodeOne r.buffer = none) :
    (feedAll r chunks).1 = (feed r chunks.flatten).1
      ∧ ∀ out, (feedAll r chunks).1 = .ok out → feedAll r chunks = feed r chunks.flatten := by
  induction chunks generalizing r with
  | nil =>
      have hfeed : feed r [] = (.ok [], r) := by
        rw [feed_eq_drained, List.append_nil]
        exact drained_none r hr
      rw [feedAll, List.flatten_nil, hfeed]
      exact ⟨rfl, fun _ _ => rfl⟩
  | cons c cs ih =>
      have happend := drained_append { r with buffer := r.buffer ++ c } cs.flatten
      rw [← feed_eq_drained] at happend
      rw [feedAll, List.flatten_cons, feed_eq_drained r (c ++ cs.flatten), ← List.append_assoc]
      rcases hfeed : feed r c with ⟨x, r'⟩
      rw [hfeed] at happend
      cases x with
      | error e => exact ⟨happend.symm, fun out hout => by cases hout⟩
      | ok out =>
          simp only [] at happend ⊢
          rw [happend.2, ← feed_eq_drained]
          have hrest := ih r' happend.1
          refine ⟨by rw [hrest.1], fun all hall => ?_⟩
          rcases except_map_eq_ok.mp hall with ⟨more, hmore, _⟩
          rw [hrest.2 more hmore]

end Chunks

section Interleaving

/-- Take fragments in one after the other: all payloads they complete. -/
def acceptAll (r : Reassembler) : List Fragment → Except PsrpError (List Bytes) × Reassembler
  | [] => (.ok [], r)
  | f :: fs =>
    match accept r f with
    | (.error e, r') => (.error e, r')
    | (.ok done, r') => ((acceptAll r' fs).1.map (done.toList ++ ·), (acceptAll r' fs).2)

/-- Feeding the bytes of fragments is taking the fragments in. -/
theorem feed_fragments (r : Reassembler) (fs : List Fragment) (hr : r.buffer = [])
    (hfs : ∀ f ∈ fs, f.blob.length < 2 ^ 32) (out : List Bytes) (s : Reassembler)
    (h : acceptAll r fs = (.ok out, s)) : feed r (fs.flatMap Fragment.encode) = (.ok out, s) := by
  rw [feed_eq_drained, hr, List.nil_append]
  induction fs generalizing r out with
  | nil =>
      rw [acceptAll] at h
      rw [List.flatMap_nil, ← h, ← hr]
      exact drained_none r (by rw [hr]; rfl)
  | cons f fs ih =>
      have hdecode := decodeOne_encode f (fs.flatMap Fragment.encode) (hfs f (by simp))
      have hrest : (f.encode ++ fs.flatMap Fragment.encode).drop f.encode.length
          = fs.flatMap Fragment.encode := List.drop_left
      have hdrained := drained_some { r with buffer := f.encode ++ fs.flatMap Fragment.encode }
        f _ hdecode
      have hbuffer := buffer_accept r f
      rw [List.flatMap_cons, hdrained]
      simp only [hrest, accept_buffer r f (fs.flatMap Fragment.encode)]
      rw [acceptAll] at h
      rcases haccept : accept r f with ⟨x, r'⟩
      rw [haccept] at h hbuffer
      cases x with
      | error e => cases h
      | ok done =>
          rcases Prod.mk.inj h with ⟨hout, hs⟩
          rcases except_map_eq_ok.mp hout with ⟨more, hmore, rfl⟩
          have hall := ih r' (hbuffer.trans hr) (fun g hg => hfs g (by simp [hg])) more
            (Prod.ext hmore hs)
          simp only [hall]
          rfl

/-- The fragments of several objects, mixed so that each keeps its own order. -/
def Interleaves (sources : IndexMap UInt64 Bytes) (fs : List Fragment) : Prop :=
  (∀ s ∈ sources, fs.filter (fun f => f.objectId = s.1) = splitMessage s.1 s.2)
    ∧ ∀ f ∈ fs, ∃ s ∈ sources, s.1 = f.objectId

/-- What belongs to the objects, in the order of their last fragments. -/
def completed {α : Type} (sources : IndexMap UInt64 α) (fs : List Fragment) : List α :=
  fs.filterMap fun f => if f.isEnd then IndexMap.get f.objectId sources else none

/-- How far an object is: the fragments to come, and what is in flight. -/
inductive Stage (id : UInt64) (payload : Bytes) : List Fragment → Option InFlight → Prop where
  | before : Stage id payload (splitMessage id payload) none
  | during (k : Nat) (buf rest : Bytes) (hk : 0 < k) (hbuf : k ≤ buf.length)
      (hpayload : buf ++ rest = payload) :
      Stage id payload (splitFrom id k rest)
        (some { buf, nextFragmentId := UInt64.ofNat k, started := true })
  | after : Stage id payload [] none

/-- The next fragment of an object is accepted. -/
theorem add_next (entry : InFlight) (f : Fragment) (k : Nat)
    (hentry : entry = InFlight.default ∧ k = 0
      ∨ entry.started = true ∧ entry.nextFragmentId = UInt64.ofNat k ∧ 0 < k)
    (hid : f.fragmentId = UInt64.ofNat k) (hstart : f.start = (k == 0)) (hk : k + 1 < 2 ^ 64) :
    entry.add f = .ok { buf := entry.buf ++ f.blob, nextFragmentId := UInt64.ofNat (k + 1),
                        started := true } := by
  have hnat : (UInt64.ofNat k).toNat = k := by
    rw [UInt64.toNat_ofNat']
    omega
  have hnext : UInt64.ofNat k + 1 = UInt64.ofNat (k + 1) := by
    rw [UInt64.ofNat_add]
    rfl
  unfold InFlight.add
  rcases hentry with ⟨rfl, rfl⟩ | ⟨hstarted, hexpected, hpos⟩
  · rw [hstart, hid]
    rfl
  · have hzero : (k == 0) = false := beq_false_of_ne (by omega)
    simp only [hstart, hzero, hid, hstarted, hnat, hnext, hk, Bool.not_true,
      Bool.false_eq_true, if_false, if_true, ne_eq, pure_bind, hexpected, not_true_eq_false]
    rfl

/-- Accepting the next fragment of an object either ends it or brings it one
    stage further. -/
theorem stage_add (id : UInt64) (payload : Bytes) (hlen : payload.length < 2 ^ 63)
    (f : Fragment) (rest : List Fragment) (entry : Option InFlight)
    (h : Stage id payload (f :: rest) entry) :
    ∃ next, (entry.getD InFlight.default).add f = .ok next
      ∧ (f.isEnd = true ∧ rest = [] ∧ next.buf = payload
        ∨ f.isEnd = false ∧ Stage id payload rest (some next)) := by
  -- A stage with something to come is a position in the payload.
  have hpos : ∃ k buf tail, f :: rest = splitFrom id k tail ∧ buf ++ tail = payload
      ∧ k ≤ buf.length ∧ (entry.getD InFlight.default).buf = buf
      ∧ (entry.getD InFlight.default = InFlight.default ∧ k = 0
        ∨ (entry.getD InFlight.default).started = true
          ∧ (entry.getD InFlight.default).nextFragmentId = UInt64.ofNat k ∧ 0 < k) := by
    generalize hfs : f :: rest = fs at h
    cases h with
    | before => exact ⟨0, [], payload, rfl, rfl, Nat.le_refl 0, rfl, Or.inl ⟨rfl, rfl⟩⟩
    | during k buf tail hk hbuf hpayload =>
        exact ⟨k, buf, tail, rfl, hpayload, hbuf, rfl, Or.inr ⟨rfl, rfl, hk⟩⟩
    | after => cases hfs
  rcases hpos with ⟨k, buf, tail, hfs, hpayload, hk, hbuf, hentry⟩
  have hbound : k + 1 < 2 ^ 64 := by
    have := congrArg List.length hpayload
    rw [List.length_append] at this
    omega
  rw [splitFrom] at hfs
  split_ifs at hfs with hlast
  · -- The payload ends here.
    rcases List.cons.inj hfs with ⟨rfl, rfl⟩
    refine ⟨_, add_next _ _ k hentry rfl rfl hbound, Or.inl ⟨rfl, rfl, ?_⟩⟩
    rw [hbuf, hpayload]
  · rcases List.cons.inj hfs with ⟨rfl, rfl⟩
    have hmax : 0 < MAX_FRAGMENT_PAYLOAD := by decide
    refine ⟨_, add_next _ _ k hentry rfl rfl hbound, Or.inr ⟨rfl, ?_⟩⟩
    refine Stage.during (k + 1) _ _ (Nat.succ_pos k) ?_ ?_
    · rw [hbuf, List.length_append, List.length_take]
      omega
    · rw [hbuf, List.append_assoc, List.take_append_drop, hpayload]

theorem get_filter_ne {α : Type} (m : IndexMap UInt64 α) (k k' : UInt64) :
    IndexMap.get k (m.filter fun e => e.1 ≠ k') = if k = k' then none else IndexMap.get k m := by
  induction m with
  | nil => split_ifs <;> rfl
  | cons e rest ih =>
      rcases e with ⟨l, v⟩
      by_cases hl : l = k'
      · rw [List.filter_cons_of_neg (by simp [hl]), ih, IndexMap.get]
        by_cases hk : k = k'
        · rw [if_pos hk, if_pos hk]
        · rw [if_neg hk, if_neg hk, if_neg (fun h => hk (h.symm.trans hl))]
      · rw [List.filter_cons_of_pos (by simp [hl]), IndexMap.get, IndexMap.get, ih]
        by_cases hk : l = k
        · rw [if_pos hk, if_pos hk, if_neg (fun h => hl (hk.trans h))]
        · rw [if_neg hk, if_neg hk]

/-- Interleaved objects come together, in the order of their last fragments,
    and nothing stays in flight. -/
theorem acceptAll_stages (sources : IndexMap UInt64 Bytes) (hids : IndexMap.Keyed sources)
    (hlen : ∀ s ∈ sources, s.2.length < 2 ^ 63) (fs : List Fragment) (r : Reassembler)
    (hstage : ∀ s ∈ sources, Stage s.1 s.2 (fs.filter fun f => f.objectId = s.1)
      (IndexMap.get s.1 r.inFlight))
    (howned : ∀ f ∈ fs, ∃ s ∈ sources, s.1 = f.objectId)
    (hother : ∀ id, (∀ s ∈ sources, s.1 ≠ id) → IndexMap.get id r.inFlight = none) :
    ∃ r', acceptAll r fs = (.ok (completed sources fs), r') ∧ r'.inFlight = []
      ∧ r'.buffer = r.buffer := by
  induction fs generalizing r with
  | nil =>
      refine ⟨r, rfl, ?_, rfl⟩
      -- Whatever were in flight would belong to a source or to none.
      have hnone : ∀ id, IndexMap.get id r.inFlight = none := by
        intro id
        by_cases hid : ∃ s ∈ sources, s.1 = id
        · rcases hid with ⟨s, hs, rfl⟩
          have hs := hstage s hs
          rw [List.filter_nil] at hs
          generalize hfs : ([] : List Fragment) = fs at hs
          generalize IndexMap.get s.1 r.inFlight = entry at hs ⊢
          cases hs with
          | before | after => rfl
          | during k buf rest =>
              rw [splitFrom] at hfs
              split_ifs at hfs
        · exact hother id fun s hs heq => hid ⟨s, hs, heq⟩
      cases hm : r.inFlight with
      | nil => rfl
      | cons e rest =>
          have := hnone e.1
          rw [hm, IndexMap.get, if_pos rfl] at this
          cases this
  | cons f fs ih =>
      rcases howned f (List.mem_cons_self ..) with ⟨s, hs, hid⟩
      have hmine := hstage s hs
      rw [List.filter_cons_of_pos (by simp [hid])] at hmine
      -- The fragment moves its own message on by a stage, and no other.
      rcases stage_add s.1 s.2 (hlen s hs) f _ _ hmine with ⟨next, hadd, hnext⟩
      have hget : IndexMap.get f.objectId sources = some s.2 :=
        (IndexMap.get_eq_some_iff _ _ _ hids).mpr (by rw [← hid]; exact hs)
      rw [hid] at hadd
      have hfilter : ∀ t ∈ sources, t.1 ≠ s.1 →
          (f :: fs).filter (fun g => g.objectId = t.1) = fs.filter fun g => g.objectId = t.1 := by
        intro t _ ht
        exact List.filter_cons_of_neg (by simp [← hid, Ne.symm ht])
      have hsame : ∀ t ∈ sources, t.1 = s.1 → t = s := by
        intro t ht heq
        have h1 := (IndexMap.get_eq_some_iff _ _ _ hids).mpr ht
        have h2 := (IndexMap.get_eq_some_iff _ _ _ hids).mpr hs
        rw [heq, h2] at h1
        exact Prod.ext heq (Option.some.inj h1).symm
      rw [acceptAll, accept, hadd]
      -- It completes its message, or leaves it under way.
      rcases hnext with ⟨hend, hrest, hbuf⟩ | ⟨hend, hrest⟩
      · rcases ih { r with inFlight := r.inFlight.filter fun e => e.1 ≠ f.objectId,
                           completedOrder := r.completedOrder ++ [f.objectId] }
          (fun t ht => by
            rw [get_filter_ne]
            by_cases heq : t.1 = s.1
            · rw [hsame t ht heq, hrest, if_pos hid]
              exact Stage.after
            · rw [if_neg (by rw [← hid]; exact heq), ← hfilter t ht heq]
              exact hstage t ht)
          (fun g hg => howned g (List.mem_cons_of_mem _ hg))
          (fun id hno => by
            rw [get_filter_ne, hother id hno, ite_self]) with ⟨r', hall, hidle, hbuffer⟩
        refine ⟨r', ?_, hidle, hbuffer⟩
        simp only [hend, if_true, hall, completed, List.filterMap_cons, hget, hbuf, Except.map]
        rfl
      · rcases ih { r with inFlight := IndexMap.insert f.objectId next r.inFlight }
          (fun t ht => by
            rw [IndexMap.get_insert]
            by_cases heq : t.1 = s.1
            · rw [hsame t ht heq, if_pos hid.symm]
              exact hrest
            · rw [if_neg (by rw [← hid]; exact Ne.symm heq), ← hfilter t ht heq]
              exact hstage t ht)
          (fun g hg => howned g (List.mem_cons_of_mem _ hg))
          (fun id hno => by
            rw [IndexMap.get_insert, if_neg (by rw [← hid]; exact hno s hs)]
            exact hother id hno) with ⟨r', hall, hidle, hbuffer⟩
        refine ⟨r', ?_, hidle, hbuffer⟩
        simp only [hend, Bool.false_eq_true, if_false, hall, completed, List.filterMap_cons,
          Except.map]
        rfl

/-- Every object has exactly one last fragment. -/
theorem splitFrom_ends (id : UInt64) (k : Nat) (payload : Bytes) :
    ((splitFrom id k payload).filter fun f => f.isEnd).length = 1
      ∧ ∀ f ∈ splitFrom id k payload, f.blob.length ≤ MAX_FRAGMENT_PAYLOAD := by
  induction hn : payload.length using Nat.strong_induction_on generalizing k payload with
  | _ n ih =>
      rw [splitFrom]
      split_ifs with hlast
      · refine ⟨rfl, fun f hf => ?_⟩
        rw [List.mem_singleton.mp hf]
        exact hlast
      · have hmax : 0 < MAX_FRAGMENT_PAYLOAD := by decide
        have hrest := ih _ (by rw [List.length_drop]; omega) (k + 1)
          (payload.drop MAX_FRAGMENT_PAYLOAD) rfl
        refine ⟨by rw [List.filter_cons_of_neg (by simp)]; exact hrest.1, fun f hf => ?_⟩
        rcases List.mem_cons.mp hf with rfl | hf
        · exact List.length_take_le ..
        · exact hrest.2 f hf

/-- What is completed is what was sent, in another order. -/
theorem completed_perm {α : Type} (sources : IndexMap UInt64 α) (payload : α → Bytes)
    (hids : IndexMap.Keyed sources) (fs : List Fragment)
    (h : Interleaves (sources.map fun s => (s.1, payload s.2)) fs) :
    (completed sources fs).Perm (sources.map Prod.snd) := by
  -- The ids of the last fragments are the ids of the objects.
  have hends : ((fs.filter fun f => f.isEnd).map Fragment.objectId).Perm (sources.map Prod.fst) := by
    rw [List.perm_iff_count]
    intro id
    have hcount : List.count id ((fs.filter fun f => f.isEnd).map Fragment.objectId)
        = ((fs.filter fun f => f.objectId = id).filter fun f => f.isEnd).length := by
      rw [List.count, List.countP_map, List.countP_filter, List.filter_filter,
        List.countP_eq_length_filter]
      refine congrArg List.length (List.filter_congr fun f _ => ?_)
      simp only [Function.comp, Bool.and_comm, beq_eq_decide]
    rw [hcount]
    by_cases hid : id ∈ sources.map Prod.fst
    · rcases List.mem_map.mp hid with ⟨s, hs, rfl⟩
      rw [h.1 (s.1, payload s.2) (List.mem_map.mpr ⟨s, hs, rfl⟩),
        List.count_eq_one_of_mem hids hid]
      exact (splitFrom_ends s.1 0 _).1
    · rw [List.count_eq_zero.mpr hid, List.length_eq_zero_iff, List.filter_eq_nil_iff]
      intro f hf
      rw [List.mem_filter, decide_eq_true_eq] at hf
      rcases h.2 f hf.1 with ⟨t, ht, hobject⟩
      rcases List.mem_map.mp ht with ⟨s, hs, rfl⟩
      exact absurd (List.mem_map.mpr ⟨s, hs, hobject.trans hf.2⟩) hid
  have hlookup := hends.filterMap fun id => IndexMap.get id sources
  have hleft : ((fs.filter fun f => f.isEnd).map Fragment.objectId).filterMap
      (fun id => IndexMap.get id sources) = completed sources fs := by
    rw [completed, List.filterMap_map, List.filterMap_filter]
    exact List.filterMap_congr fun f _ => rfl
  have hright : (sources.map Prod.fst).filterMap (fun id => IndexMap.get id sources)
      = sources.map Prod.snd := by
    rw [List.filterMap_map, ← List.filterMap_eq_map]
    refine List.filterMap_congr fun s hs => ?_
    exact (IndexMap.get_eq_some_iff _ _ _ hids).mpr hs
  rwa [hleft, hright] at hlookup

theorem completed_map {α β : Type} (sources : IndexMap UInt64 α) (g : α → β)
    (fs : List Fragment) :
    completed (sources.map fun s => (s.1, g s.2)) fs = (completed sources fs).map g := by
  have hget : ∀ id, IndexMap.get id (sources.map fun s => (s.1, g s.2))
      = (IndexMap.get id sources).map g := by
    intro id
    induction sources with
    | nil => rfl
    | cons s rest ih =>
        rw [List.map_cons, IndexMap.get, IndexMap.get, ih]
        split_ifs <;> rfl
  rw [completed, completed, List.map_filterMap]
  refine List.filterMap_congr fun f _ => ?_
  rw [hget]
  split_ifs <;> rfl

end Interleaving

/-- Fragmentation round-trips: interleave the fragments of messages, cut the
    bytes anywhere, and the messages come together in the order of their last
    fragments, with nothing left over; and each reads back. However a byte
    string is cut, the outputs are the same. -/
theorem fragmentation_round_trip :
    (∀ (messages : IndexMap UInt64 PsrpMessage) (fs : List Fragment) (chunks : List Bytes),
      IndexMap.Keyed messages →
      -- No vector is longer than the address space.
      (∀ s ∈ messages, s.2.encode.length < 2 ^ 63) →
      Interleaves (messages.map fun s => (s.1, s.2.encode)) fs →
      chunks.flatten = fs.flatMap Fragment.encode →
      (completed messages fs).Perm (messages.map Prod.snd)
        ∧ ∃ r, feedAll Reassembler.new chunks
            = (.ok ((completed messages fs).map PsrpMessage.encode), r)
          ∧ r.isIdle = true)
    ∧ (∀ m : PsrpMessage, m.data.head? ≠ some '\uFEFF' →
      (∀ c, m.messageType = .unknown c → MessageType.fromU32 c = .unknown c) →
      PsrpMessage.decode m.encode = .ok m)
    ∧ ∀ chunks chunks' : List Bytes, chunks.flatten = chunks'.flatten →
      ∀ out r, feedAll Reassembler.new chunks = (.ok out, r) →
        feedAll Reassembler.new chunks' = (.ok out, r) := by
  have hfresh : decodeOne Reassembler.new.buffer = none := rfl
  -- The result depends on the bytes alone, not on how they are cut.
  have hcuts : ∀ chunks chunks' : List Bytes, chunks.flatten = chunks'.flatten →
      ∀ out r, feedAll Reassembler.new chunks = (.ok out, r) →
        feedAll Reassembler.new chunks' = (.ok out, r) := by
    intro chunks chunks' hflat out r hfeed
    have h := feedAll_flatten Reassembler.new chunks hfresh
    have h' := feedAll_flatten Reassembler.new chunks' hfresh
    have hok : (feedAll Reassembler.new chunks).1 = .ok out := congrArg Prod.fst hfeed
    rw [h'.2 out (by rw [h'.1, ← hflat, ← h.1, hok]), ← hflat, ← h.2 out hok, hfeed]
  refine ⟨?_, PsrpMessage.decode_encode, hcuts⟩
  intro messages fs chunks hids hlen hmix hcut
  refine ⟨completed_perm messages PsrpMessage.encode hids fs hmix, ?_⟩
  have hkeyed : IndexMap.Keyed (messages.map fun s => (s.1, s.2.encode)) := by
    rw [IndexMap.Keyed, List.map_map]
    exact hids
  -- Every message is at its first stage.
  have hstages := acceptAll_stages (messages.map fun s => (s.1, s.2.encode)) hkeyed
    (fun s hs => by
      rcases List.mem_map.mp hs with ⟨m, hm, rfl⟩
      exact hlen m hm) fs Reassembler.new
    (fun s hs => by
      rw [hmix.1 s hs]
      exact Stage.before)
    hmix.2 (fun id _ => rfl)
  rcases hstages with ⟨r, hall, hidle, hbuffer⟩
  -- A fragment made by splitting is short enough for its header.
  have hblobs : ∀ f ∈ fs, f.blob.length < 2 ^ 32 := by
    intro f hf
    rcases hmix.2 f hf with ⟨s, hs, hid⟩
    have hmem : f ∈ splitMessage s.1 s.2 := by
      rw [← hmix.1 s hs, List.mem_filter]
      exact ⟨hf, decide_eq_true hid.symm⟩
    have hmax : MAX_FRAGMENT_PAYLOAD = 32768 := rfl
    have := (splitFrom_ends s.1 0 s.2).2 f hmem
    omega
  have hfeed := feed_fragments Reassembler.new fs rfl hblobs _ r hall
  -- Fed in one chunk, and so in any.
  refine ⟨r, ?_, ?_⟩
  · refine hcuts [fs.flatMap Fragment.encode] chunks ?_ _ r ?_
    · rw [hcut, List.flatten_singleton]
    · rw [feedAll, hfeed]
      simp only [feedAll, Except.map, List.append_nil, completed_map]
  · rw [isIdle, hbuffer, hidle]
    rfl

theorem splitMessage_short (id : UInt64) (payload : Bytes)
    (h : payload.length ≤ MAX_FRAGMENT_PAYLOAD) : splitMessage id payload
      = [{ objectId := id, fragmentId := 0, start := true, isEnd := true, blob := payload }] := by
  rw [splitMessage, splitFrom, dif_pos h]
  rfl

/-- A payload that takes two fragments. -/
theorem splitMessage_twice (id : UInt64) (payload : Bytes)
    (hlong : MAX_FRAGMENT_PAYLOAD < payload.length)
    (hshort : payload.length ≤ 2 * MAX_FRAGMENT_PAYLOAD) : splitMessage id payload
      = [{ objectId := id, fragmentId := 0, start := true, isEnd := false,
           blob := payload.take MAX_FRAGMENT_PAYLOAD },
         { objectId := id, fragmentId := 1, start := false, isEnd := true,
           blob := payload.drop MAX_FRAGMENT_PAYLOAD }] := by
  have hrest : (payload.drop MAX_FRAGMENT_PAYLOAD).length ≤ MAX_FRAGMENT_PAYLOAD := by
    rw [List.length_drop]
    omega
  rw [splitMessage, splitFrom, dif_neg (Nat.not_le.mpr hlong), splitFrom, dif_pos hrest]
  rfl

/-- A message that is split and one whose fragment arrives in between, cut in the
    middle of a header. -/
theorem fragmentation_round_trip_swapped :
    let first := PsrpMessage.toServer .pipelineInput Uuid.nil Uuid.nil (List.replicate 40000 'x')
    let second := PsrpMessage.toServer .endOfPipelineInput Uuid.nil Uuid.nil []
    let parts := splitMessage 7 first.encode
    let bytes := (parts.take 1 ++ splitMessage 9 second.encode ++ parts.drop 1).flatMap
      Fragment.encode
    parts.length = 2 ∧ ∃ r, feedAll Reassembler.new [bytes.take 5, [], bytes.drop 5]
        = (.ok [second.encode, first.encode], r) ∧ r.isIdle = true := by
  intro first second parts bytes
  have hlength : first.encode.length = 40040 := by
    have hdata : (Text.toUtf8 (List.replicate 40000 'x')).length = 40000 := by
      rw [Text.toUtf8, List.length_flatMap, List.map_replicate, List.sum_replicate_nat]
      rfl
    have hfirst : first.data = List.replicate 40000 'x' := rfl
    simp only [PsrpMessage.encode, List.length_append, hfirst, hdata, length_leBytes,
      Vector.length_toList]
  -- The first message takes two fragments; the second, between them, takes one.
  have h1 : parts = [⟨7, 0, true, false, first.encode.take MAX_FRAGMENT_PAYLOAD⟩,
      ⟨7, 1, false, true, first.encode.drop MAX_FRAGMENT_PAYLOAD⟩] := by
    refine splitMessage_twice 7 first.encode ?_ ?_
    all_goals
      rw [hlength]
      decide
  have h2 : splitMessage 9 second.encode = [⟨9, 0, true, true, second.encode⟩] :=
    splitMessage_short _ _ (by decide)
  have hcut : ∀ bs : Bytes, [bs.take 5, [], bs.drop 5].flatten = bs := by
    intro bs
    simp only [List.flatten_cons, List.flatten_nil, List.append_nil, List.nil_append,
      List.take_append_drop]
  refine ⟨by rw [h1]; rfl, ?_⟩
  have hround := (fragmentation_round_trip.1 [(7, first), (9, second)]
    (parts.take 1 ++ splitMessage 9 second.encode ++ parts.drop 1)
    [bytes.take 5, [], bytes.drop 5] (by decide) ?_ ⟨?_, ?_⟩ ?_).2
  · rw [h1, h2] at hround
    exact hround
  · intro s hs
    simp only [List.mem_cons, List.not_mem_nil, or_false] at hs
    rcases hs with rfl | rfl
    · rw [hlength]
      decide
    · decide
  · intro s hs
    simp only [List.map_cons, List.map_nil, List.mem_cons, List.not_mem_nil, or_false] at hs
    rcases hs with rfl | rfl
    · rw [h2, ← show parts = splitMessage 7 first.encode from rfl, h1]
      rfl
    · rw [h1, h2]
      rfl
  · intro f hf
    rw [h1, h2] at hf
    simp only [List.take_succ_cons, List.take_zero, List.drop_succ_cons, List.drop_zero,
      List.cons_append, List.nil_append, List.mem_cons, List.not_mem_nil, or_false] at hf
    rcases hf with rfl | rfl | rfl
    · exact ⟨(7, first.encode), by simp, rfl⟩
    · exact ⟨(9, second.encode), by simp, rfl⟩
    · exact ⟨(7, first.encode), by simp, rfl⟩
  · exact hcut bytes

end Psrp

import Psrp.Theory.Fragment

/-!
# Cut Streams

What comes of the bytes of some fragments when they stop anywhere.

A stream that stops in the middle of a fragment holds the fragments before it
and a part of that one. The part is kept and makes no difference: a part of a
fragment does not read as one. So the objects whose last fragments are whole
are put together, and nothing else is.

Objects that follow one another are the plain case. When the last of them is
cut, all the others are put together.

## Theorems

* `cut_fragments`: A prefix of the bytes is some fragments and a part of the
  next.
* `cut_reassembled`: What is put together of a stream that was cut.
* `sequence_whole`: Objects that follow one another come together in order.
* `sequence_cut`: So do they when one more is cut behind them.
-/

namespace Psrp

open Reassembler

section Cutting

/-- A part of a fragment does not read as one. -/
theorem decodeOne_part {f : Fragment} {part ext : Bytes} (hf : f.blob.length < 2 ^ 32)
    (h : part ++ ext = f.encode) (hext : ext ≠ []) : decodeOne part = none := by
  cases hpart : decodeOne part with
  | none => rfl
  | some x =>
      rcases x with ⟨g, n⟩
      -- It would be read from the whole fragment as well, and end too early.
      rcases decodeOne_eq_some hpart with ⟨_, hle, hread⟩
      have hwhole := decodeOne_encode f [] hf
      rw [List.append_nil, ← h, hread ext] at hwhole
      have hn : n = (part ++ ext).length := congrArg Prod.snd (Option.some.inj hwhole)
      have hpos : 0 < ext.length := List.length_pos_of_ne_nil hext
      rw [List.length_append] at hn
      omega

/-- A prefix of the bytes of some fragments is the bytes of the first of them
    and a part of the next. -/
theorem cut_fragments {fs : List Fragment} (hfs : ∀ f ∈ fs, f.blob.length < 2 ^ 32) {b : Bytes}
    (hb : b <+: fs.flatMap Fragment.encode) :
    ∃ done rest part, fs = done ++ rest ∧ b = done.flatMap Fragment.encode ++ part
      ∧ decodeOne part = none ∧ (rest = [] → part = []) := by
  induction fs generalizing b with
  | nil => exact ⟨[], [], [], rfl, List.prefix_nil.mp hb, rfl, fun _ => rfl⟩
  | cons f fs ih =>
      rw [List.flatMap_cons] at hb
      by_cases hwhole : f.encode.length ≤ b.length
      · -- The first fragment is whole, and the rest is cut.
        have hfirst : f.encode <+: b :=
          List.prefix_of_prefix_length_le (List.prefix_append _ _) hb hwhole
        rcases hfirst with ⟨b', rfl⟩
        have hb' : b' <+: fs.flatMap Fragment.encode := (List.prefix_append_right_inj _).mp hb
        rcases ih (fun g hg => hfs g (List.mem_cons_of_mem f hg)) hb' with
          ⟨done, rest, part, hsplit, hbytes, hpart, hend⟩
        refine ⟨f :: done, rest, part, by rw [hsplit, List.cons_append], ?_, hpart, hend⟩
        rw [hbytes, List.flatMap_cons, List.append_assoc]
      · -- The cut is in the first fragment.
        have hshort : b <+: f.encode :=
          List.prefix_of_prefix_length_le hb (List.prefix_append _ _) (by omega)
        rcases hshort with ⟨ext, hext⟩
        have hne : ext ≠ [] := by
          intro heq
          rw [heq, List.append_nil] at hext
          rw [hext] at hwhole
          exact hwhole (Nat.le_refl _)
        exact ⟨[], f :: fs, b, rfl, rfl, decodeOne_part (hfs f List.mem_cons_self) hext hne,
          fun h => absurd h (List.cons_ne_nil f fs)⟩

end Cutting

section Accepting

/-- Fragments that are taken in are taken in one part after the other. -/
theorem acceptAll_append {r s : Reassembler} {done rest : List Fragment} {out : List Bytes}
    (h : acceptAll r (done ++ rest) = (.ok out, s)) :
    ∃ first second r', acceptAll r done = (.ok first, r') ∧ acceptAll r' rest = (.ok second, s)
      ∧ out = first ++ second := by
  induction done generalizing r out with
  | nil => exact ⟨[], out, r, rfl, h, rfl⟩
  | cons f done ih =>
      rw [List.cons_append, acceptAll] at h
      rcases haccept : accept r f with ⟨x, r'⟩
      rw [haccept] at h
      cases x with
      | error e => cases h
      | ok payload =>
          rcases Prod.mk.inj h with ⟨hout, hs⟩
          rcases except_map_eq_ok.mp hout with ⟨more, hmore, rfl⟩
          rcases ih (Prod.ext hmore hs) with ⟨first, second, r'', hfirst, hsecond, rfl⟩
          refine ⟨payload.toList ++ first, second, r'', ?_, hsecond, ?_⟩
          · rw [acceptAll, haccept]
            simp only [hfirst, Except.map]
          · rw [List.append_assoc]

/-- A last fragment completes an object, and no other does. -/
theorem accept_ends {r s : Reassembler} {f : Fragment} {payload : Option Bytes}
    (h : accept r f = (.ok payload, s)) : payload.isSome = f.isEnd := by
  unfold accept at h
  cases hadd : ((IndexMap.get f.objectId r.inFlight).getD InFlight.default).add f with
  | error e =>
      simp only [hadd, Prod.mk.injEq, reduceCtorEq, false_and] at h
  | ok entry =>
      simp only [hadd] at h
      cases hend : f.isEnd with
      | true =>
          simp only [hend, if_true, Prod.mk.injEq, Except.ok.injEq] at h
          rw [← h.1]
          rfl
      | false =>
          simp only [hend, Bool.false_eq_true, if_false, Prod.mk.injEq, Except.ok.injEq] at h
          rw [← h.1]
          rfl

/-- Taking fragments in leaves the buffer alone. -/
theorem acceptAll_buffer {r s : Reassembler} {fs : List Fragment} {out : List Bytes}
    (h : acceptAll r fs = (.ok out, s)) : s.buffer = r.buffer := by
  induction fs generalizing r out with
  | nil =>
      cases h
      rfl
  | cons f fs ih =>
      have hkeep := buffer_accept r f
      rw [acceptAll] at h
      rcases haccept : accept r f with ⟨x, r'⟩
      rw [haccept] at h hkeep
      cases x with
      | error e => cases h
      | ok payload =>
          rcases Prod.mk.inj h with ⟨hout, hs⟩
          rcases except_map_eq_ok.mp hout with ⟨more, hmore, _⟩
          exact (ih (Prod.ext hmore hs)).trans hkeep

/-- There are as many payloads as last fragments. -/
theorem acceptAll_length {r s : Reassembler} {fs : List Fragment} {out : List Bytes}
    (h : acceptAll r fs = (.ok out, s)) : out.length = (fs.filter Fragment.isEnd).length := by
  induction fs generalizing r out with
  | nil =>
      cases h
      rfl
  | cons f fs ih =>
      rw [acceptAll] at h
      rcases haccept : accept r f with ⟨x, r'⟩
      rw [haccept] at h
      cases x with
      | error e => cases h
      | ok payload =>
          rcases Prod.mk.inj h with ⟨hout, hs⟩
          rcases except_map_eq_ok.mp hout with ⟨more, hmore, rfl⟩
          have hends := accept_ends haccept
          rw [List.length_append, ih (Prod.ext hmore hs)]
          cases payload with
          | none =>
              rw [List.filter_cons_of_neg (by rw [← hends]; exact Bool.false_ne_true)]
              exact Nat.zero_add _
          | some bytes =>
              rw [List.filter_cons_of_pos hends.symm, List.length_cons]
              exact Nat.add_comm _ _

/-- An object that is known is looked up at its last fragment. -/
theorem completed_length {sources : IndexMap UInt64 Bytes} (hids : IndexMap.Keyed sources)
    {fs : List Fragment} (hfs : ∀ f ∈ fs, ∃ s ∈ sources, s.1 = f.objectId) :
    (completed sources fs).length = (fs.filter Fragment.isEnd).length := by
  induction fs with
  | nil => rfl
  | cons f fs ih =>
      have ih := ih fun g hg => hfs g (List.mem_cons_of_mem f hg)
      rcases hfs f List.mem_cons_self with ⟨s, hs, hid⟩
      have hget : IndexMap.get f.objectId sources = some s.2 :=
        (IndexMap.get_eq_some_iff _ _ _ hids).mpr (by rw [← hid]; exact hs)
      rw [completed] at ih ⊢
      rw [List.filterMap_cons]
      cases hend : f.isEnd with
      | true =>
          rw [List.filter_cons_of_pos hend]
          simp only [if_true, hget, List.length_cons, ih]
      | false =>
          rw [List.filter_cons_of_neg (by rw [hend]; exact Bool.false_ne_true)]
          simp only [Bool.false_eq_true, if_false]
          exact ih

/-- Bytes behind which there is no whole fragment are kept. -/
theorem feed_part {r s : Reassembler} {fs : List Fragment} {part : Bytes} {out : List Bytes}
    (hr : r.buffer = []) (hfs : ∀ f ∈ fs, f.blob.length < 2 ^ 32)
    (h : acceptAll r fs = (.ok out, s)) (hpart : decodeOne part = none) :
    feed r (fs.flatMap Fragment.encode ++ part)
      = (.ok out, { s with buffer := s.buffer ++ part }) := by
  have hfeed := feed_fragments r fs hr hfs out s h
  have hbuffer : s.buffer = [] := (acceptAll_buffer h).trans hr
  have happend := drained_append { r with buffer := r.buffer ++ fs.flatMap Fragment.encode } part
  rw [← feed_eq_drained, hfeed] at happend
  simp only [List.append_assoc] at happend
  rw [feed_eq_drained, happend.2, drained_none _ (by rw [hbuffer]; exact hpart)]
  simp only [Except.map, List.append_nil]

end Accepting

section Cut

variable {sources : IndexMap UInt64 Bytes} {done rest : List Fragment} {part : Bytes}

/-- The fragments of an object are numbered by it, and only the last one ends
    it. -/
theorem splitFrom_fragments (id : UInt64) (k : Nat) (payload : Bytes) :
    (∀ f ∈ splitFrom id k payload, f.objectId = id)
      ∧ ∃ front last, splitFrom id k payload = front ++ [last]
        ∧ (∀ f ∈ front, f.isEnd = false) ∧ last.isEnd = true := by
  induction hn : payload.length using Nat.strong_induction_on generalizing k payload with
  | _ n ih =>
      rw [splitFrom]
      split_ifs with hlast
      · refine ⟨fun f hf => ?_, [], _, rfl, fun f hf => absurd hf List.not_mem_nil, rfl⟩
        rw [List.mem_singleton.mp hf]
      · have hmax : 0 < MAX_FRAGMENT_PAYLOAD := by decide
        rcases ih _ (by rw [List.length_drop]; omega) (k + 1)
          (payload.drop MAX_FRAGMENT_PAYLOAD) rfl with ⟨howned, front, last, hsplit, hfront, hend⟩
        refine ⟨fun f hf => ?_, _ :: front, last, by rw [hsplit, List.cons_append], ?_, hend⟩
        · rcases List.mem_cons.mp hf with rfl | hf
          · rfl
          · exact howned f hf
        · intro f hf
          rcases List.mem_cons.mp hf with rfl | hf
          · rfl
          · exact hfront f hf

/-- No fragment of an object is too long to be read back. -/
theorem splitMessage_blobs (id : UInt64) (payload : Bytes) :
    ∀ f ∈ splitMessage id payload, f.blob.length < 2 ^ 32 := by
  intro f hf
  have hmax : MAX_FRAGMENT_PAYLOAD = 32768 := rfl
  have hle := (splitFrom_ends id 0 payload).2 f hf
  omega

theorem Interleaves.blobs {fs : List Fragment} (h : Interleaves sources fs) :
    ∀ f ∈ fs, f.blob.length < 2 ^ 32 := by
  intro f hf
  rcases h.2 f hf with ⟨s, hs, hid⟩
  refine splitMessage_blobs s.1 s.2 f ?_
  rw [← h.1 s hs, List.mem_filter]
  exact ⟨hf, decide_eq_true hid.symm⟩

theorem completed_append {α : Type} (sources : IndexMap UInt64 α) (fs gs : List Fragment) :
    completed sources (fs ++ gs) = completed sources fs ++ completed sources gs :=
  List.filterMap_append ..

/-- Of interleaved objects whose bytes stop anywhere, those are put together
    whose last fragments are whole. -/
theorem cut_reassembled (hids : IndexMap.Keyed sources)
    (hlen : ∀ s ∈ sources, s.2.length < 2 ^ 63) (hmix : Interleaves sources (done ++ rest))
    (hpart : decodeOne part = none) :
    ∃ r, feed Reassembler.new (done.flatMap Fragment.encode ++ part)
        = (.ok (completed sources done), r)
      ∧ (rest = [] → part = [] → r.isIdle = true) := by
  have hstages := acceptAll_stages sources hids hlen (done ++ rest) Reassembler.new
    (fun s hs => by rw [hmix.1 s hs]; exact Stage.before) hmix.2 fun id _ => rfl
  rcases hstages with ⟨last, hall, hidle, _⟩
  rcases acceptAll_append hall with ⟨first, second, r, hfirst, hsecond, hout⟩
  have hmem : ∀ f ∈ done, f ∈ done ++ rest := fun f hf => List.mem_append_left rest hf
  -- As many objects are complete as there are last fragments, so the outputs
  -- divide where the fragments do.
  have hcount : (completed sources done).length = first.length := by
    rw [acceptAll_length hfirst, completed_length hids fun f hf => hmix.2 f (hmem f hf)]
  rw [completed_append] at hout
  have hdone : completed sources done = first := (List.append_inj hout hcount).1
  rw [← hdone] at hfirst
  refine ⟨_, feed_part rfl (fun f hf => hmix.blobs f (hmem f hf)) hfirst hpart, ?_⟩
  intro hrest hnone
  rw [hrest, acceptAll] at hsecond
  have hr : r = last := congrArg Prod.snd hsecond
  rw [isIdle, hnone, acceptAll_buffer hfirst, hr, hidle]
  rfl

end Cut

section Sequences

variable {α : Type}

/-- The fragments of an object complete it once. -/
theorem completed_split (sources : IndexMap UInt64 α) (id : UInt64) (payload : Bytes) :
    completed sources (splitMessage id payload) = (IndexMap.get id sources).toList := by
  rcases splitFrom_fragments id 0 payload with ⟨howned, front, last, hsplit, hfront, hend⟩
  have hlast : last.objectId = id := by
    refine howned last ?_
    rw [hsplit]
    exact List.mem_append_right front List.mem_cons_self
  have hnone : completed sources front = [] := by
    rw [completed, List.filterMap_eq_nil_iff]
    intro f hf
    rw [hfront f hf]
    exact if_neg Bool.false_ne_true
  rw [splitMessage, hsplit, completed_append, hnone, List.nil_append, completed,
    List.filterMap_cons, List.filterMap_nil, hend, if_pos rfl, hlast]
  cases IndexMap.get id sources <;> rfl

/-- Objects that follow one another are completed in order. -/
theorem completed_sequence {sources objects : IndexMap UInt64 α} (payload : α → Bytes)
    (hids : IndexMap.Keyed sources) (hobjects : ∀ s ∈ objects, s ∈ sources) :
    completed sources (objects.flatMap fun s => splitMessage s.1 (payload s.2))
      = objects.map Prod.snd := by
  induction objects with
  | nil => rfl
  | cons s objects ih =>
      have hget : IndexMap.get s.1 sources = some s.2 :=
        (IndexMap.get_eq_some_iff _ _ _ hids).mpr (hobjects s List.mem_cons_self)
      rw [List.flatMap_cons, completed_append, completed_split, hget,
        ih fun t ht => hobjects t (List.mem_cons_of_mem s ht)]
      rfl

/-- Objects that follow one another are interleaved. -/
theorem interleaves_sequence {sources : IndexMap UInt64 Bytes} (hids : IndexMap.Keyed sources) :
    Interleaves sources (sources.flatMap fun s => splitMessage s.1 s.2) := by
  have howned : ∀ (s : UInt64 × Bytes), ∀ f ∈ splitMessage s.1 s.2, f.objectId = s.1 :=
    fun s => (splitFrom_fragments s.1 0 s.2).1
  constructor
  · induction sources with
    | nil => exact fun s hs => absurd hs List.not_mem_nil
    | cons t sources ih =>
        intro s hs
        rw [IndexMap.Keyed, List.map_cons, List.nodup_cons] at hids
        rw [List.flatMap_cons, List.filter_append]
        -- The id is that of the first object, or of one of the others.
        rcases List.mem_cons.mp hs with rfl | hs
        · have hmine : (splitMessage s.1 s.2).filter (fun f => f.objectId = s.1)
              = splitMessage s.1 s.2 :=
            List.filter_eq_self.mpr fun f hf => decide_eq_true (howned s f hf)
          have hothers : (sources.flatMap fun u => splitMessage u.1 u.2).filter
              (fun f => f.objectId = s.1) = [] := by
            rw [List.filter_eq_nil_iff]
            intro f hf
            rcases List.mem_flatMap.mp hf with ⟨u, hu, hf⟩
            rw [howned u f hf, decide_eq_true_eq]
            exact fun heq => hids.1 (List.mem_map.mpr ⟨u, hu, heq⟩)
          rw [hmine, hothers, List.append_nil]
        · have hfirst : (splitMessage t.1 t.2).filter (fun f => f.objectId = s.1) = [] := by
            rw [List.filter_eq_nil_iff]
            intro f hf
            rw [howned t f hf, decide_eq_true_eq]
            exact fun heq => hids.1 (List.mem_map.mpr ⟨s, hs, heq.symm⟩)
          rw [hfirst, List.nil_append]
          exact ih hids.2 s hs
  · intro f hf
    rcases List.mem_flatMap.mp hf with ⟨s, hs, hf⟩
    exact ⟨s, hs, (howned s f hf).symm⟩

theorem flatMap_encodeMessage (objects : IndexMap UInt64 Bytes) :
    (objects.flatMap fun s => splitMessage s.1 s.2).flatMap Fragment.encode
      = objects.flatMap fun s => encodeMessage s.1 s.2 := List.flatMap_assoc

/-- Objects that follow one another come together in order, and nothing stays
    behind. -/
theorem sequence_whole {objects : IndexMap UInt64 Bytes} (hids : IndexMap.Keyed objects)
    (hlen : ∀ s ∈ objects, s.2.length < 2 ^ 63) :
    ∃ r, feed Reassembler.new (objects.flatMap fun s => encodeMessage s.1 s.2)
        = (.ok (objects.map Prod.snd), r) ∧ r.isIdle = true := by
  have hmix := interleaves_sequence hids
  rw [← List.append_nil (objects.flatMap fun s => splitMessage s.1 s.2)] at hmix
  have hnothing : decodeOne [] = none := rfl
  rcases cut_reassembled hids hlen hmix hnothing with ⟨r, hfeed, hidle⟩
  rw [List.append_nil, flatMap_encodeMessage,
    completed_sequence (fun b => b) hids fun s hs => hs] at hfeed
  exact ⟨r, hfeed, hidle rfl rfl⟩

/-- So do they when one more is cut behind them. -/
theorem sequence_cut {objects : IndexMap UInt64 Bytes} {last : UInt64 × Bytes}
    (hids : IndexMap.Keyed (objects ++ [last]))
    (hlen : ∀ s ∈ objects ++ [last], s.2.length < 2 ^ 63) {head tail : Bytes}
    (hcut : encodeMessage last.1 last.2 = head ++ tail) (htail : tail ≠ []) :
    ∃ r, feed Reassembler.new ((objects.flatMap fun s => encodeMessage s.1 s.2) ++ head)
      = (.ok (objects.map Prod.snd), r) := by
  have hmix := interleaves_sequence hids
  rw [List.flatMap_append, List.flatMap_singleton] at hmix
  rcases cut_fragments (splitMessage_blobs last.1 last.2) ⟨tail, hcut.symm⟩ with
    ⟨done, rest, part, hsplit, hhead, hpart, hend⟩
  -- The last fragment of the object that is cut is not among those in front.
  have hopen : completed (objects ++ [last]) done = [] := by
    rcases splitFrom_fragments last.1 0 last.2 with ⟨_, front, final, hfrom, hfront, _⟩
    rw [splitMessage, hfrom] at hsplit
    have hrest : rest ≠ [] := by
      intro hnil
      rw [hnil, List.append_nil] at hsplit
      rw [encodeMessage, splitMessage, hfrom, hsplit, hhead, hend hnil, List.append_nil] at hcut
      exact htail (List.self_eq_append_right.mp hcut)
    have hinitial : done <+: front := by
      refine List.prefix_of_prefix_length_le ⟨rest, hsplit.symm⟩ (List.prefix_append _ _) ?_
      have hlength := congrArg List.length hsplit
      have hpos := List.length_pos_of_ne_nil hrest
      rw [List.length_append, List.length_append, List.length_singleton] at hlength
      omega
    rw [completed, List.filterMap_eq_nil_iff]
    intro f hf
    rw [hfront f (hinitial.subset hf)]
    exact if_neg Bool.false_ne_true
  rw [hsplit, ← List.append_assoc] at hmix
  rcases cut_reassembled hids hlen hmix hpart with ⟨r, hfeed, _⟩
  refine ⟨r, ?_⟩
  rw [completed_append, hopen, List.append_nil,
    completed_sequence (fun b => b) hids fun s hs => List.mem_append_left _ hs] at hfeed
  rw [hhead, ← flatMap_encodeMessage, ← List.append_assoc, ← List.flatMap_append]
  exact hfeed

/-- Chunks come together as their bytes do. -/
theorem feedAll_of_feed {chunks : List Bytes} {out : List Bytes} {r : Reassembler}
    (h : feed Reassembler.new chunks.flatten = (.ok out, r)) :
    feedAll Reassembler.new chunks = (.ok out, r) := by
  have hcuts := feedAll_flatten Reassembler.new chunks rfl
  rw [h] at hcuts
  exact hcuts.2 out hcuts.1

end Sequences

end Psrp

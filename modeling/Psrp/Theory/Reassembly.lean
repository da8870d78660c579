import Psrp.Theory.Fragment
import Mathlib.Data.List.DropRight

/-!
# Reassembly of Arbitrary Bytes

What the reassembler makes of bytes that nobody promised to be well formed.

The reassembler keeps a map of the objects in flight. That map is a function
of the fragments taken in so far: an object is in flight with the fragments
since the last one that ended an object of its id (`underway`). Everything is
said in terms of that history, and one step lemma (`accept_step`) says what a
fragment does to it: a fragment that does not fit is refused, and one that
fits goes behind the fragments under way or completes them.

## Main definitions

* `Layout`, `CutInto`: The bytes of a fragment, and of one behind the other.
* `wholeFragments`: The complete fragments of a byte string.
* `underway`: The fragments of an object in flight.
* `Refused`: A fragment that does not fit what came before it.
* `Whole`: The fragments of one object, from start to end.
* `Assembled`: How a history is cut into objects.

## Theorems

* `accept_step`: One fragment.
* `cutInto_iff`: What is read off a buffer is what is laid out in it.
* `drained_assembled`: All whole fragments of a buffer.
* `reassembly_exact`: What comes out, and when it fails.
-/

namespace Psrp

open Reassembler

/-- The complete fragments of a byte string, `fuel` of them at most. -/
def fragmentsFrom : Nat → Bytes → List Fragment
  | 0, _ => []
  | fuel + 1, bs =>
    match decodeOne bs with
    | none => []
    | some (f, n) => f :: fragmentsFrom fuel (bs.drop n)

/-- The complete fragments of a byte string. -/
def wholeFragments (bs : Bytes) : List Fragment := fragmentsFrom (bs.length + 1) bs

/-- The bytes of a fragment: both ids, a byte of flags, of which the lowest two
    count, and the length of the blob, all big endian, and then the blob. -/
structure Layout (f : Fragment) (bs : Bytes) : Prop where
  short : f.blob.length < 2 ^ 32
  written : ∃ flags : UInt8,
    bs = beBytes 8 f.objectId.toNat ++ beBytes 8 f.fragmentId.toNat ++ [flags]
        ++ beBytes 4 f.blob.length ++ f.blob
      ∧ (f.start = true ↔ flags.toNat % 2 = 1) ∧ (f.isEnd = true ↔ flags.toNat / 2 % 2 = 1)

/-- The fragments that a byte string begins with, one behind the other, up to
    where no other is complete. -/
inductive CutInto : Bytes → List Fragment → Prop where
  | rest {bs : Bytes} : (∀ f piece, Layout f piece → ¬ piece <+: bs) → CutInto bs []
  | next {f : Fragment} {piece bs : Bytes} {fs : List Fragment} : Layout f piece →
    CutInto bs fs → CutInto (piece ++ bs) (f :: fs)

/-- The fragments of an object since the last one that ended an object of its
    id: those of the object in flight, if there is one. -/
def underway (id : UInt64) (fs : List Fragment) : List Fragment :=
  (fs.filter fun f => f.objectId = id).rtakeWhile fun f => !f.isEnd

/-- A fragment that does not fit what came before it: it starts an object that
    is in flight, or with another id than zero, or continues one that is not;
    or its id is not the next, or has no next. -/
def Refused (fs : List Fragment) (f : Fragment) : Prop :=
  (f.start = true ∧ underway f.objectId fs ≠ [])
  ∨ (f.start = true ∧ f.fragmentId ≠ 0)
  ∨ (f.start = false ∧ underway f.objectId fs = [])
  ∨ f.fragmentId.toNat ≠ (underway f.objectId fs).length
  ∨ f.fragmentId.toNat = 2 ^ 64 - 1

/-- The fragments of one object: numbered from zero, the first and only the
    first with the start flag, the last and only the last with the end flag. -/
structure Whole (id : UInt64) (g : List Fragment) : Prop where
  nonempty : g ≠ []
  each : ∀ (i : Nat) (h : i < g.length), g[i].objectId = id ∧ g[i].fragmentId.toNat = i
    ∧ (g[i].start = true ↔ i = 0) ∧ (g[i].isEnd = true ↔ i + 1 = g.length)

/-- The payload of an object. -/
def payloadOf (g : List Fragment) : Bytes := g.flatMap Fragment.blob

/-- How a history is cut into objects, each with its id: those completed, in
    the order of their ends, and those in flight. -/
structure Assembled (fs : List Fragment) (groups : List (UInt64 × List Fragment))
    (inFlight : IndexMap UInt64 InFlight) : Prop where
  whole : ∀ g ∈ groups, Whole g.1 g.2
  ends : groups.map (fun g => g.2.getLast?) = (fs.filter fun f => f.isEnd).map some
  partition : ∀ id, fs.filter (fun f => f.objectId = id)
    = (groups.filter fun g => g.1 = id).flatMap Prod.snd ++ underway id fs
  held : ∀ id, IndexMap.get id inFlight = if underway id fs = [] then none else
    some { buf := payloadOf (underway id fs),
           nextFragmentId := UInt64.ofNat (underway id fs).length, started := true }
  numbered : ∀ id, (underway id fs).length < 2 ^ 64
    ∧ ∀ (i : Nat) (h : i < (underway id fs).length),
      ((underway id fs)[i].fragmentId.toNat = i) ∧ ((underway id fs)[i].start = true ↔ i = 0)

section Underway

theorem underway_other {id : UInt64} {f : Fragment} (fs : List Fragment) (h : f.objectId ≠ id) :
    underway id (fs ++ [f]) = underway id fs := by
  rw [underway, List.filter_append, List.filter_cons_of_neg (by simpa using h), List.filter_nil,
    List.append_nil, underway]

theorem underway_end {f : Fragment} (fs : List Fragment) (h : f.isEnd = true) :
    underway f.objectId (fs ++ [f]) = [] := by
  rw [underway, List.filter_append, List.filter_cons_of_pos (by simp), List.filter_nil,
    List.rtakeWhile_concat_neg _ _ _ (by simp [h])]

theorem underway_more {f : Fragment} (fs : List Fragment) (h : f.isEnd = false) :
    underway f.objectId (fs ++ [f]) = underway f.objectId fs ++ [f] := by
  rw [underway, List.filter_append, List.filter_cons_of_pos (by simp), List.filter_nil,
    List.rtakeWhile_concat_pos _ _ _ (by simp [h]), underway]

/-- What is under way belongs to the object and does not end it. -/
theorem mem_underway {id : UInt64} {fs : List Fragment} {f : Fragment} (h : f ∈ underway id fs) :
    f.objectId = id ∧ f.isEnd = false := by
  have hend := List.mem_rtakeWhile_imp h
  have hid := (List.rtakeWhile_suffix _ _).subset h
  rw [List.mem_filter] at hid
  exact ⟨of_decide_eq_true hid.2, by simpa using hend⟩

end Underway

/-- Nothing taken in is nothing in flight. -/
theorem assembled_new : Assembled [] [] Reassembler.new.inFlight where
  whole := fun _ hg => absurd hg List.not_mem_nil
  ends := rfl
  partition := fun _ => rfl
  held := fun _ => rfl
  numbered := fun _ => ⟨Nat.two_pow_pos 64, fun i h => absurd h (Nat.not_lt_zero i)⟩

section Step

/-- What is kept of the fragments of an object in flight. -/
def entryOf (u : List Fragment) : InFlight :=
  { buf := payloadOf u, nextFragmentId := UInt64.ofNat u.length, started := !u.isEmpty }

theorem Assembled.entry {fs : List Fragment} {groups : List (UInt64 × List Fragment)}
    {inFlight : IndexMap UInt64 InFlight} (h : Assembled fs groups inFlight) (id : UInt64) :
    (IndexMap.get id inFlight).getD InFlight.default = entryOf (underway id fs) := by
  rw [h.held id]
  by_cases hu : underway id fs = []
  · rw [if_pos hu, hu]
    rfl
  · have hempty : (underway id fs).isEmpty = false := List.isEmpty_eq_false_iff.mpr hu
    rw [if_neg hu, entryOf, hempty]
    rfl

/-- What an accepted fragment has checked. -/
theorem add_eq_ok {entry next : InFlight} {f : Fragment} (h : entry.add f = .ok next) :
    (f.start = true ∧ entry.started = false ∧ f.fragmentId = 0
      ∨ f.start = false ∧ entry.started = true ∧ f.fragmentId = entry.nextFragmentId)
    ∧ f.fragmentId.toNat + 1 < 2 ^ 64 := by
  unfold InFlight.add at h
  by_cases hstart : f.start = true
  · by_cases hstarted : entry.started = true
    · rw [if_pos hstart, if_pos hstarted] at h
      cases h
    · by_cases hzero : f.fragmentId ≠ 0
      · rw [if_pos hstart, if_neg hstarted, if_pos hzero] at h
        cases h
      · rw [if_pos hstart, if_neg hstarted, if_neg hzero, pure_bind] at h
        simp only [if_neg hzero] at h
        split_ifs at h with hlast
        exact ⟨Or.inl ⟨hstart, eq_false_of_ne_true hstarted, not_not.mp hzero⟩, hlast⟩
  · have hno := eq_false_of_ne_true hstart
    by_cases hstarted : entry.started = true
    · have hnot : ¬ (!entry.started) = true := by rw [hstarted]; decide
      rw [if_neg hstart, if_neg hnot, pure_bind] at h
      simp only at h
      split_ifs at h with hnext hlast
      exact ⟨Or.inr ⟨hno, hstarted, not_not.mp hnext⟩, hlast⟩
    · have hnot : (!entry.started) = true := by
        rw [eq_false_of_ne_true hstarted]
        rfl
      rw [if_neg hstart, if_pos hnot] at h
      cases h

/-- A fragment is accepted if and only if it fits, and then it goes behind the
    others. -/
theorem add_entryOf {fs : List Fragment} {f : Fragment}
    (hlen : (underway f.objectId fs).length < 2 ^ 64) :
    (Refused fs f → ∃ e, (entryOf (underway f.objectId fs)).add f = .error e)
    ∧ (¬ Refused fs f → (entryOf (underway f.objectId fs)).add f
      = .ok { buf := payloadOf (underway f.objectId fs ++ [f]),
              nextFragmentId := UInt64.ofNat ((underway f.objectId fs).length + 1),
              started := true }) := by
  unfold Refused
  generalize underway f.objectId fs = u at hlen
  have hnext : (UInt64.ofNat u.length).toNat = u.length := UInt64.toNat_ofNat_of_lt' hlen
  have hid : f.fragmentId = UInt64.ofNat u.length ↔ f.fragmentId.toNat = u.length := by
    rw [← UInt64.toNat_inj, hnext]
  have hstarted : (entryOf u).started = true ↔ u ≠ [] := by
    rw [entryOf, Bool.not_eq_true', List.isEmpty_eq_false_iff]
  constructor
  · intro hrefused
    cases hadd : (entryOf u).add f with
    | error e => exact ⟨e, rfl⟩
    | ok next =>
        -- What was checked contradicts every reason to refuse.
        obtain ⟨hcases, hlast⟩ := add_eq_ok hadd
        rcases hcases with ⟨hstart, hfresh, hzero⟩ | ⟨hstart, hheld, hexpected⟩
        · have hu : u = [] := by
            by_contra hu
            rw [hstarted.mpr hu] at hfresh
            cases hfresh
          rw [hu, hstart, hzero] at hrefused
          simp only [ne_eq, not_true_eq_false, and_false, List.length_nil, UInt64.toNat_zero,
            Bool.true_eq_false, false_and, false_or] at hrefused
          omega
        · have hu := hstarted.mp hheld
          have hnat := hid.mp hexpected
          rw [hstart] at hrefused
          simp only [Bool.false_eq_true, false_and, hu, and_false, hnat, ne_eq,
            not_true_eq_false, false_or] at hrefused
          omega
  · intro hfits
    simp only [not_or, not_and, ne_eq, not_not] at hfits
    obtain ⟨hfresh, hzero, hheld, hnumber, hlast⟩ := hfits
    have hbound := f.fragmentId.toNat_lt
    -- What is not refused passes every check of `add`.
    have hstart : f.start = (u.length == 0) := by
      by_cases hu : u = []
      · have : f.start = true := by
          by_contra hno
          exact hheld (eq_false_of_ne_true hno) hu
        rw [this, hu]
        rfl
      · have hno : f.start = false := by
          by_contra hyes
          exact hu (hfresh (eq_true_of_ne_false hyes))
        have hpos := List.length_pos_of_ne_nil hu
        rw [hno, beq_false_of_ne (by omega)]
    have hentry : entryOf u = InFlight.default ∧ u.length = 0
        ∨ (entryOf u).started = true ∧ (entryOf u).nextFragmentId = UInt64.ofNat u.length
          ∧ 0 < u.length := by
      by_cases hu : u = []
      · subst hu
        exact Or.inl ⟨rfl, rfl⟩
      · exact Or.inr ⟨hstarted.mpr hu, rfl, List.length_pos_of_ne_nil hu⟩
    rw [add_next (entryOf u) f u.length hentry (hid.mpr hnumber) hstart (by omega), payloadOf,
      List.flatMap_append, List.flatMap_singleton]
    rfl

/-- A fragment that fits goes behind those under way, or completes them. -/
theorem assembled_more {fs : List Fragment} {groups : List (UInt64 × List Fragment)}
    {inFlight : IndexMap UInt64 InFlight} {f : Fragment}
    (inFlight' : IndexMap UInt64 InFlight) (h : Assembled fs groups inFlight) (hfits : ¬ Refused fs f)
    (hheld : ∀ id, IndexMap.get id inFlight' =
      if f.objectId = id then
        if f.isEnd then none
        else some { buf := payloadOf (underway f.objectId fs ++ [f]),
                    nextFragmentId := UInt64.ofNat ((underway f.objectId fs).length + 1),
                    started := true }
      else IndexMap.get id inFlight) :
    Assembled (fs ++ [f])
      (groups ++ if f.isEnd then [(f.objectId, underway f.objectId fs ++ [f])] else [])
      inFlight' := by
  -- The fragments under way and this one are numbered from zero.
  have hbound : f.fragmentId.toNat < 2 ^ 64 := f.fragmentId.toNat_lt
  simp only [Refused, not_or, not_and, ne_eq, not_not] at hfits
  obtain ⟨hfresh, hzero, hcontinues, hnumber, hlast⟩ := hfits
  have hstart : f.start = true ↔ (underway f.objectId fs).length = 0 := by
    rw [List.length_eq_zero_iff]
    constructor
    · exact hfresh
    · intro hu
      by_contra hno
      exact hcontinues (eq_false_of_ne_true hno) hu
  have hnumbered : ∀ (i : Nat) (hi : i < (underway f.objectId fs ++ [f]).length),
      ((underway f.objectId fs ++ [f])[i].fragmentId.toNat = i)
        ∧ ((underway f.objectId fs ++ [f])[i].start = true ↔ i = 0) := by
    intro i hi
    by_cases hlt : i < (underway f.objectId fs).length
    · rw [List.getElem_append_left hlt]
      exact (h.numbered f.objectId).2 i hlt
    · rw [List.length_append, List.length_singleton] at hi
      have heq : i = (underway f.objectId fs).length := by omega
      subst heq
      rw [List.getElem_concat_length rfl]
      exact ⟨hnumber, hstart⟩
  have hlength : (underway f.objectId fs ++ [f]).length = (underway f.objectId fs).length + 1 := by
    rw [List.length_append, List.length_singleton]
  by_cases hend : f.isEnd = true
  · -- The fragment is the last of its object: what was under way becomes a group.
    simp only [if_pos hend] at hheld ⊢
    refine ⟨?_, ?_, ?_, ?_, ?_⟩
    · intro g hg
      rcases List.mem_append.mp hg with hg | hg
      · exact h.whole g hg
      · rw [List.mem_singleton.mp hg]
        refine ⟨List.append_ne_nil_of_right_ne_nil _ (List.cons_ne_nil f []), fun i hi => ?_⟩
        obtain ⟨hid, hfirst⟩ := hnumbered i hi
        by_cases hlt : i < (underway f.objectId fs).length
        · have hmem := mem_underway (List.getElem_mem hlt)
          rw [hlength]
          refine ⟨?_, hid, hfirst, ?_⟩
          · rw [List.getElem_append_left hlt]
            exact hmem.1
          · rw [List.getElem_append_left hlt, hmem.2]
            constructor
            · exact fun hno => absurd hno Bool.false_ne_true
            · omega
        · rw [hlength] at hi
          have heq : i = (underway f.objectId fs).length := by omega
          subst heq
          refine ⟨by rw [List.getElem_concat_length rfl], hid, hfirst, ?_⟩
          rw [List.getElem_concat_length rfl, hlength]
          exact ⟨fun _ => rfl, fun _ => hend⟩
    · rw [List.map_append, List.filter_append, List.map_append, h.ends,
        List.filter_cons_of_pos hend]
      simp only [List.map_cons, List.map_nil, List.getLast?_concat, List.filter_nil]
    · intro id
      -- The other objects keep what they have.
      rw [List.filter_append, List.filter_append, List.flatMap_append, h.partition id]
      by_cases hid : f.objectId = id
      · subst hid
        rw [underway_end fs hend]
        simp only [List.filter_cons_of_pos, decide_true, List.filter_nil, List.flatMap_cons,
          List.flatMap_nil, List.append_nil, List.append_assoc]
      · rw [underway_other fs hid, List.filter_cons_of_neg (by simpa using hid),
          List.filter_cons_of_neg (by simpa using hid)]
        simp only [List.filter_nil, List.flatMap_nil, List.append_nil]
    · intro id
      rw [hheld id]
      by_cases hid : f.objectId = id
      · subst hid
        rw [if_pos rfl, underway_end fs hend, if_pos rfl]
      · rw [if_neg hid, underway_other fs hid, h.held id]
    · intro id
      by_cases hid : f.objectId = id
      · subst hid
        rw [underway_end fs hend]
        exact ⟨Nat.two_pow_pos 64, fun i hi => absurd hi (Nat.not_lt_zero i)⟩
      · rw [underway_other fs hid]
        exact h.numbered id
  · -- More fragments of the object follow: it stays under way.
    have hmore := eq_false_of_ne_true hend
    simp only [if_neg hend, List.append_nil] at hheld ⊢
    refine ⟨h.whole, ?_, ?_, ?_, ?_⟩
    · rw [List.filter_append, List.filter_cons_of_neg hend, List.filter_nil, List.append_nil,
        h.ends]
    · intro id
      rw [List.filter_append, h.partition id]
      by_cases hid : f.objectId = id
      · subst hid
        rw [underway_more fs hmore, List.filter_cons_of_pos (by simp), List.filter_nil,
          List.append_assoc]
      · rw [underway_other fs hid, List.filter_cons_of_neg (by simpa using hid), List.filter_nil,
          List.append_nil]
    · intro id
      rw [hheld id]
      by_cases hid : f.objectId = id
      · subst hid
        rw [if_pos rfl, underway_more fs hmore,
          if_neg (List.append_ne_nil_of_right_ne_nil _ (List.cons_ne_nil f [])), hlength]
      · rw [if_neg hid, underway_other fs hid, h.held id]
    · intro id
      by_cases hid : f.objectId = id
      · subst hid
        rw [underway_more fs hmore]
        exact ⟨by rw [hlength]; omega, hnumbered⟩
      · rw [underway_other fs hid]
        exact h.numbered id

/-- One fragment: it is refused, or what it completes comes out. -/
theorem accept_step {r : Reassembler} {fs : List Fragment} {f : Fragment}
    {groups : List (UInt64 × List Fragment)} (h : Assembled fs groups r.inFlight) :
    (Refused fs f ∧ ∃ e, (accept r f).1 = .error e)
    ∨ (¬ Refused fs f ∧ ∃ (r' : Reassembler) (done : Option (UInt64 × List Fragment)),
      accept r f = (.ok (done.map fun g => payloadOf g.2), r')
      ∧ Assembled (fs ++ [f]) (groups ++ done.toList) r'.inFlight) := by
  obtain ⟨hrefuse, hfit⟩ := add_entryOf (h.numbered f.objectId).1
  rw [← h.entry f.objectId] at hrefuse hfit
  unfold accept
  by_cases hrefused : Refused fs f
  · obtain ⟨e, he⟩ := hrefuse hrefused
    exact Or.inl ⟨hrefused, e, by simp only [he]⟩
  · refine Or.inr ⟨hrefused, ?_⟩
    simp only [hfit hrefused]
    by_cases hend : f.isEnd = true
    · rw [if_pos hend]
      refine ⟨_, some (f.objectId, underway f.objectId fs ++ [f]), rfl, ?_⟩
      have hall := assembled_more (r.inFlight.filter fun e => e.1 ≠ f.objectId) h hrefused
        (fun id => by
          rw [get_filter_ne, if_pos hend]
          by_cases hid : f.objectId = id
          · rw [if_pos hid.symm, if_pos hid]
          · rw [if_neg (Ne.symm hid), if_neg hid])
      rwa [if_pos hend] at hall
    · rw [if_neg hend]
      refine ⟨_, none, rfl, ?_⟩
      have hall := assembled_more (IndexMap.insert f.objectId _ r.inFlight) h hrefused
        (fun id => by
          rw [IndexMap.get_insert, if_neg hend])
      rwa [if_neg hend] at hall

end Step

section Runs

theorem fragmentsFrom_fuel (m n : Nat) (bs : Bytes) (hm : bs.length < m) (hn : bs.length < n) :
    fragmentsFrom m bs = fragmentsFrom n bs := by
  induction m generalizing n bs with
  | zero => exact absurd hm (Nat.not_lt_zero _)
  | succ m ih =>
      cases n with
      | zero => exact absurd hn (Nat.not_lt_zero _)
      | succ n =>
          rw [fragmentsFrom, fragmentsFrom]
          cases hdecode : decodeOne bs with
          | none => rfl
          | some x =>
              obtain ⟨f, consumed⟩ := x
              have hsome := decodeOne_eq_some hdecode
              have hheader : FRAGMENT_HEADER_LEN = 21 := rfl
              have hlen : (bs.drop consumed).length = bs.length - consumed := List.length_drop
              simp only [ih n (bs.drop consumed) (by omega) (by omega)]

theorem wholeFragments_none {bs : Bytes} (h : decodeOne bs = none) : wholeFragments bs = [] := by
  rw [wholeFragments, fragmentsFrom, h]

theorem wholeFragments_some {bs : Bytes} {f : Fragment} {n : Nat} (h : decodeOne bs = some (f, n)) :
    wholeFragments bs = f :: wholeFragments (bs.drop n) := by
  have hsome := decodeOne_eq_some h
  have hheader : FRAGMENT_HEADER_LEN = 21 := rfl
  have hlen : (bs.drop n).length = bs.length - n := List.length_drop
  rw [wholeFragments, fragmentsFrom, h]
  simp only [wholeFragments,
    fragmentsFrom_fuel bs.length ((bs.drop n).length + 1) (bs.drop n) (by omega) (by omega)]

/-- The two flags are the two lowest bits. -/
theorem flag_bits (flags : UInt8) :
    ((flags &&& FLAG_START != 0) = true ↔ flags.toNat % 2 = 1)
      ∧ ((flags &&& FLAG_END != 0) = true ↔ flags.toNat / 2 % 2 = 1) := by
  have hall : ∀ n < 256, ((UInt8.ofNat n &&& FLAG_START != 0) = true ↔ n % 2 = 1)
      ∧ ((UInt8.ofNat n &&& FLAG_END != 0) = true ↔ n / 2 % 2 = 1) := by decide +kernel
  have h := hall flags.toNat flags.toNat_lt
  rwa [UInt8.ofNat_toNat] at h

/-- A fragment is read where its bytes stand. -/
theorem Layout.decodeOne {f : Fragment} {piece : Bytes} (h : Layout f piece) (rest : Bytes) :
    decodeOne (piece ++ rest) = some (f, piece.length) := by
  rcases h.written with ⟨flags, rfl, hstart, hend⟩
  have hobject : UInt64.ofNat (ofBe (beBytes 8 f.objectId.toNat)) = f.objectId := by
    rw [ofBe_beBytes 8 _ f.objectId.toNat_lt, UInt64.ofNat_toNat]
  have hfragment : UInt64.ofNat (ofBe (beBytes 8 f.fragmentId.toNat)) = f.fragmentId := by
    rw [ofBe_beBytes 8 _ f.fragmentId.toNat_lt, UInt64.ofNat_toNat]
  have hflags : (flags &&& FLAG_START != 0) = f.start ∧ (flags &&& FLAG_END != 0) = f.isEnd :=
    ⟨Bool.eq_iff_iff.mpr ((flag_bits flags).1.trans hstart.symm),
      Bool.eq_iff_iff.mpr ((flag_bits flags).2.trans hend.symm)⟩
  have hlength : FRAGMENT_HEADER_LEN + f.blob.length = 8 + (8 + (1 + (4 + f.blob.length))) := by
    have hheader : FRAGMENT_HEADER_LEN = 21 := rfl
    omega
  rw [Psrp.decodeOne]
  simp only [List.append_assoc, splitFirst_append 8 _ _ (length_beBytes 8 _),
    splitFirst_append 1 [flags] _ rfl, splitFirst_append 4 _ _ (length_beBytes 4 _),
    ofBe_beBytes 4 _ (show f.blob.length < 256 ^ 4 from h.short), splitFirst_append _ f.blob rest rfl,
    Option.bind_eq_bind, Option.bind_some, Option.pure_def, hobject, hfragment, List.headD_cons,
    hflags.1, hflags.2, List.length_append, length_beBytes, List.length_singleton, hlength]

/-- What is read stands at the front. -/
theorem layout_of_decodeOne {buf : Bytes} {f : Fragment} {n : Nat}
    (h : decodeOne buf = some (f, n)) :
    ∃ piece rest, buf = piece ++ rest ∧ Layout f piece ∧ piece.length = n := by
  rw [decodeOne] at h
  simp only [Option.bind_eq_bind, Option.bind_eq_some_iff, Option.pure_def, Option.some.injEq,
    Prod.exists, Prod.mk.injEq] at h
  rcases h with ⟨o, r1, h1, g, r2, h2, fl, r3, h3, bl, r4, h4, blob, r5, h5, rfl, rfl⟩
  rcases splitFirst_eq_some h1 with ⟨rfl, ho⟩
  rcases splitFirst_eq_some h2 with ⟨rfl, hg⟩
  rcases splitFirst_eq_some h3 with ⟨rfl, hfl⟩
  rcases splitFirst_eq_some h4 with ⟨rfl, hbl⟩
  rcases splitFirst_eq_some h5 with ⟨rfl, hblob⟩
  rcases List.length_eq_one_iff.mp hfl with ⟨flags, rfl⟩
  have hobject : (UInt64.ofNat (ofBe o)).toNat = ofBe o :=
    UInt64.toNat_ofNat_of_lt' (ofBe_lt ho)
  have hfragment : (UInt64.ofNat (ofBe g)).toNat = ofBe g :=
    UInt64.toNat_ofNat_of_lt' (ofBe_lt hg)
  have hshort : ofBe bl < 2 ^ 32 := ofBe_lt hbl
  refine ⟨o ++ g ++ [flags] ++ bl ++ blob, r5, by simp only [List.append_assoc],
    ⟨hblob ▸ hshort, flags, ?_, (flag_bits flags).1, (flag_bits flags).2⟩, ?_⟩
  · simp only [hobject, hfragment, hblob, beBytes_ofBe ho, beBytes_ofBe hg, beBytes_ofBe hbl]
  · have hheader : FRAGMENT_HEADER_LEN = 21 := rfl
    simp only [List.length_append, List.length_singleton]
    omega

/-- The complete fragments of a byte string are those it is cut into. -/
theorem cutInto_iff {bs : Bytes} {fs : List Fragment} : CutInto bs fs ↔ fs = wholeFragments bs := by
  constructor
  · intro h
    induction h with
    | rest hnone =>
        rename_i bs
        refine (wholeFragments_none ?_).symm
        cases hdecode : decodeOne bs with
        | none => rfl
        | some x =>
            rcases layout_of_decodeOne hdecode with ⟨piece, rest, rfl, hlayout, _⟩
            exact absurd (List.prefix_append piece rest) (hnone _ _ hlayout)
    | next hlayout _ ih =>
        rw [wholeFragments_some (hlayout.decodeOne _), List.drop_left, ← ih]
  · rintro rfl
    -- Every fragment taken off makes the string shorter.
    induction hn : bs.length using Nat.strong_induction_on generalizing bs with
    | _ n ih =>
        cases hdecode : decodeOne bs with
        | none =>
            rw [wholeFragments_none hdecode]
            refine .rest fun f piece hlayout hpre => ?_
            rcases hpre with ⟨rest, rfl⟩
            exact nomatch (hlayout.decodeOne rest).symm.trans hdecode
        | some x =>
            rcases x with ⟨f, consumed⟩
            have hsome := decodeOne_eq_some hdecode
            have hheader : FRAGMENT_HEADER_LEN = 21 := rfl
            rcases layout_of_decodeOne hdecode with ⟨piece, rest, rfl, hlayout, hlength⟩
            rw [wholeFragments_some hdecode, ← hlength, List.drop_left]
            rw [List.length_append] at hn
            exact .next hlayout (ih rest.length (by omega) rfl)

/-- The first fragment that does not fit fails; if all fit, the objects they
    complete come out. -/
theorem drained_assembled (r : Reassembler) (fs : List Fragment)
    (groups : List (UInt64 × List Fragment)) (h : Assembled fs groups r.inFlight) :
    (∃ pre f post e, wholeFragments r.buffer = pre ++ f :: post ∧ Refused (fs ++ pre) f
      ∧ (drained r).1 = .error e)
    ∨ ∃ done s, drained r = (.ok (done.map fun g => payloadOf g.2), s)
      ∧ Assembled (fs ++ wholeFragments r.buffer) (groups ++ done) s.inFlight
      ∧ ∀ pre f post, wholeFragments r.buffer = pre ++ f :: post → ¬ Refused (fs ++ pre) f := by
  -- Every fragment taken off makes the buffer shorter.
  induction hn : r.buffer.length using Nat.strong_induction_on generalizing r fs groups with
  | _ n ih =>
      cases hdecode : decodeOne r.buffer with
      | none =>
          right
          rw [wholeFragments_none hdecode, drained_none r hdecode]
          refine ⟨[], r, rfl, ?_, fun pre f post hsplit => ?_⟩
          · rwa [List.append_nil, List.append_nil]
          · exact absurd hsplit.symm (List.append_ne_nil_of_right_ne_nil _ (List.cons_ne_nil f post))
      | some x =>
          obtain ⟨f, consumed⟩ := x
          have hsome := decodeOne_eq_some hdecode
          have hheader : FRAGMENT_HEADER_LEN = 21 := rfl
          rw [wholeFragments_some hdecode, drained_some r f consumed hdecode]
          have hstep := @accept_step { r with buffer := r.buffer.drop consumed } fs f groups h
          have hbuffer := buffer_accept { r with buffer := r.buffer.drop consumed } f
          rcases hstep with ⟨hrefused, e, he⟩ | ⟨hfits, r', done, haccept, hnext⟩
          · -- The fragment is refused, and nothing after it is looked at.
            left
            refine ⟨[], f, wholeFragments (r.buffer.drop consumed), e, rfl, ?_, ?_⟩
            · rwa [List.append_nil]
            · rcases haccept : accept { r with buffer := r.buffer.drop consumed } f with ⟨x, r'⟩
              rw [haccept] at he
              simp only at he
              rw [he]
          · rw [haccept] at hbuffer ⊢
            simp only at hbuffer ⊢
            -- It fits: the rest is drained from there.
            have hshort : r'.buffer.length < n := by
              rw [hbuffer, List.length_drop]
              omega
            rcases ih r'.buffer.length hshort r' (fs ++ [f]) (groups ++ done.toList) hnext rfl with
              ⟨pre, g, post, e, hsplit, hrefused, he⟩ | ⟨more, s, hdrained, hall, hfit⟩
            · left
              refine ⟨f :: pre, g, post, e, ?_, ?_, ?_⟩
              · rw [← hbuffer, hsplit, List.cons_append]
              · rwa [List.append_assoc] at hrefused
              · rw [he]
                rfl
            · right
              refine ⟨done.toList ++ more, s, ?_, ?_, ?_⟩
              · rw [hdrained]
                cases done <;> rfl
              · rwa [hbuffer, List.append_assoc, List.append_assoc] at hall
              · intro pre g post hsplit
                cases pre with
                | nil =>
                    obtain ⟨rfl, _⟩ := List.cons.inj hsplit
                    rwa [List.append_nil]
                | cons f' pre =>
                    obtain ⟨rfl, hrest⟩ := List.cons.inj hsplit
                    rw [← hbuffer] at hrest
                    have hno := hfit pre g post hrest
                    rwa [List.append_assoc] at hno

/-- The reassembler is exact on arbitrary bytes. Any bytes are cut into
    complete fragments in one way. While the reassembler does not fail, those of
    the bytes fed are cut into whole objects: the blobs of each are a payload,
    in the order of their ends, and every other fragment belongs to an object in
    flight. It fails if and only if some complete fragment does not fit those
    before it. -/
theorem reassembly_exact :
    (∀ bs : Bytes, ∃! fs, CutInto bs fs)
    ∧ (∀ (chunks : List Bytes) (fs : List Fragment) (out : List Bytes) (r : Reassembler),
      CutInto chunks.flatten fs → feedAll Reassembler.new chunks = (.ok out, r) →
      ∃ groups : List (UInt64 × List Fragment),
        out = groups.map (fun g => g.2.flatMap Fragment.blob)
        ∧ (∀ g ∈ groups, Whole g.1 g.2)
        ∧ groups.map (fun g => g.2.getLast?) = (fs.filter fun f => f.isEnd).map some
        ∧ ∀ id, fs.filter (fun f => f.objectId = id)
            = (groups.filter fun g => g.1 = id).flatMap Prod.snd ++ underway id fs
          ∧ (IndexMap.get id r.inFlight).map InFlight.buf
            = if underway id fs = [] then none
              else some ((underway id fs).flatMap Fragment.blob))
    ∧ ∀ (chunks : List Bytes) (fs : List Fragment), CutInto chunks.flatten fs →
      ((∃ e, (feedAll Reassembler.new chunks).1 = .error e)
        ↔ ∃ pre f post, fs = pre ++ f :: post ∧ Refused pre f) := by
  -- However the bytes are cut, they are fed as a whole.
  have hwhole : ∀ chunks : List Bytes, feed Reassembler.new chunks.flatten
      = drained { Reassembler.new with buffer := chunks.flatten } := fun _ => rfl
  have hcuts := fun chunks => feedAll_flatten Reassembler.new chunks rfl
  have hrun := fun chunks : List Bytes =>
    drained_assembled { Reassembler.new with buffer := chunks.flatten } [] [] assembled_new
  simp only [← hwhole, List.nil_append] at hrun
  refine ⟨fun bs => ⟨wholeFragments bs, cutInto_iff.mpr rfl, fun fs => cutInto_iff.mp⟩, ?_, ?_⟩
  · intro chunks fs out r hfs hfeed
    -- There is one way to cut the stream, and the reassembler takes it.
    cases cutInto_iff.mp hfs
    have hok : (feedAll Reassembler.new chunks).1 = .ok out := congrArg Prod.fst hfeed
    have hfeed' := (hcuts chunks).2 out hok
    rw [hfeed] at hfeed'
    -- No fragment was refused, for the feed succeeded.
    rcases hrun chunks with ⟨_, _, _, e, _, _, he⟩ | ⟨groups, s, hdrained, hall, _⟩
    · rw [← hfeed'] at he
      cases he
    · rw [← hfeed'] at hdrained
      obtain ⟨hout, rfl⟩ := Prod.mk.inj hdrained
      refine ⟨groups, Except.ok.inj hout, hall.whole, hall.ends, fun id => ⟨hall.partition id, ?_⟩⟩
      rw [hall.held id]
      split_ifs with hempty <;> rfl
  · -- It fails exactly when it comes to a fragment that is refused.
    intro chunks fs hfs
    cases cutInto_iff.mp hfs
    rw [(hcuts chunks).1]
    rcases hrun chunks with ⟨pre, f, post, e, hsplit, hrefused, he⟩ | ⟨groups, s, hdrained, _, hfit⟩
    · exact ⟨fun _ => ⟨pre, f, post, hsplit, hrefused⟩, fun _ => ⟨e, he⟩⟩
    · rw [hdrained]
      constructor
      · intro h
        obtain ⟨e, h⟩ := h
        cases h
      · intro h
        obtain ⟨pre, f, post, hsplit, hrefused⟩ := h
        exact absurd hrefused (hfit pre f post hsplit)

/-- What is written is laid out so. -/
theorem layout_encode {f : Fragment} (h : f.blob.length < 2 ^ 32) : Layout f f.encode := by
  have hmin : min f.blob.length (2 ^ 32 - 1) = f.blob.length := by omega
  refine ⟨h, f.flags, by rw [Fragment.encode, hmin], ?_⟩
  rw [Fragment.flags]
  cases f.start <;> cases f.isEnd <;> decide

/-- Fragments written one behind the other are cut where they were joined. -/
theorem cutInto_encode {fs : List Fragment} (h : ∀ f ∈ fs, f.blob.length < 2 ^ 32) :
    CutInto (fs.flatMap Fragment.encode) fs := by
  induction fs with
  | nil =>
      refine .rest fun f piece hlayout hpre => ?_
      rcases hlayout.written with ⟨flags, rfl, _⟩
      exact nomatch List.append_eq_nil_iff.mp (List.prefix_nil.mp hpre)
  | cons f fs ih =>
      exact .next (layout_encode (h f List.mem_cons_self))
        (ih fun g hg => h g (List.mem_cons_of_mem f hg))

/-- Two objects whose fragments alternate. -/
def interleaved : List Fragment :=
  [{ objectId := 5, fragmentId := 0, start := true, isEnd := false, blob := [1, 2] },
    { objectId := 9, fragmentId := 0, start := true, isEnd := false, blob := [10] },
    { objectId := 5, fragmentId := 1, start := false, isEnd := false, blob := [] },
    { objectId := 9, fragmentId := 1, start := false, isEnd := true, blob := [11, 12] },
    { objectId := 5, fragmentId := 2, start := false, isEnd := true, blob := [3] }]

/-- The object of the second id, once more and without a start. -/
def strayFragment : Fragment :=
  { objectId := 9, fragmentId := 2, start := false, isEnd := true, blob := [13] }

/-- Two objects whose fragments alternate, cut in the header of the first one
    and in the middle of a blob. The second object is complete first. After
    that a fragment that continues it is refused. -/
theorem reassembly_exact_interleaved :
    let bytes := interleaved.flatMap Fragment.encode
    (∃ r, feedAll Reassembler.new [bytes.take 3, (bytes.take 22).drop 3, bytes.drop 22]
        = (.ok [[10, 11, 12], [1, 2, 3]], r)
      ∧ ∃ groups : List (UInt64 × List Fragment),
        [[10, 11, 12], [1, 2, 3]] = groups.map (fun g => g.2.flatMap Fragment.blob)
        ∧ (∀ g ∈ groups, Whole g.1 g.2)
        ∧ interleaved.filter (fun f => f.objectId = 9)
          = (groups.filter fun g => g.1 = 9).flatMap Prod.snd ++ underway 9 interleaved)
    ∧ ∃ e, (feedAll Reassembler.new [bytes, strayFragment.encode]).1 = .error e := by
  intro bytes
  have hcut : CutInto bytes interleaved := cutInto_encode (by decide)
  have hchunks : [bytes.take 3, (bytes.take 22).drop 3, bytes.drop 22].flatten = bytes := by
    decide +kernel
  have hfed : (feedAll Reassembler.new [bytes.take 3, (bytes.take 22).drop 3, bytes.drop 22]).1
      = .ok [[10, 11, 12], [1, 2, 3]] := by decide +kernel
  rcases hfeed : feedAll Reassembler.new [bytes.take 3, (bytes.take 22).drop 3, bytes.drop 22]
    with ⟨x, r⟩
  rw [hfeed] at hfed
  simp only at hfed
  subst hfed
  have hstray : CutInto [bytes, strayFragment.encode].flatten (interleaved ++ [strayFragment]) :=
    @cutInto_encode (interleaved ++ [strayFragment]) (by decide)
  obtain ⟨groups, hout, hwhole, _, hpartition⟩ :=
    reassembly_exact.2.1 _ interleaved _ r (hchunks ▸ hcut) hfeed
  refine ⟨⟨r, rfl, groups, hout, hwhole, (hpartition 9).1⟩,
    (reassembly_exact.2.2 _ _ hstray).mpr ⟨interleaved, strayFragment, [], rfl, ?_⟩⟩
  exact Or.inr (Or.inr (Or.inl ⟨rfl, by decide +kernel⟩))

end Runs

end Psrp

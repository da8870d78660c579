import Psrp.Core.OutOfProc.PacketReader
import Psrp.Core.OutOfProc.Transport
import Psrp.Theory.CutStreams
import Psrp.Theory.OutOfProc.Inbound
import Psrp.Theory.OutOfProc.Payload
import Psrp.Theory.Pool.Changes
import Psrp.Theory.Pool.Faults
import Psrp.Theory.Pool.HostCalls
import Psrp.Theory.Pool.Mock
import Psrp.Theory.Pool.ObjectIds

/-!
# A Pool over Its Session

What a pool does over an out-of-process session is a run of the session.

Whatever is done with the pool, its session is where some calls of the session
leave it (`Served`), and the calls are told by the history of the pool: a
message that was given to the transport is a `send` to the GUID it is for, one
that went through is a `send` that returned, and a chunk that came in is what a
`recv` returned. So what holds of every run of a session holds of the session
of every pool, and it speaks of the messages of the pool.

## Main definitions

* `Tells`: A history tells how the calls of a session ended.
* `Served`: The session of a pool is where such calls leave it.

## Theorems

* `played_served`: So it is in every run of a pool.
* `messages_arrive`: What a pool sends comes together on the other side.
-/

namespace Psrp

namespace OutOfProc

open Async (wp wp_mono Call play)
open OutOfProcSession
open RunspacePool (Ran Fate fateOf frame begun Sends Change Legible isTraffic carrier Aside
  PoolOperation Reserved attached sentFrames_snoc play_changes idsOf Numbered numbered_attached
  wp_perform_numbered)

variable {p : PacketPlatform} {d : Driver OutOfProcSession} {a q : Nat}
  {s t : RunspacePool OutOfProcSession} {ends : Ends} {h : List PoolEvent}

section Calls

/-- A value that a program returned, and what is made of it. -/
theorem Ran.returned {σ α β : Type} {c : Prog σ α} {v v' : σ} {r : α} (f : α → β)
    (h : Ran c (.ok r) v v') : Ran (c >>= fun r => pure (f r)) (.ok (f r)) v v' := by
  rcases h with ⟨script, turns, hx, hv⟩
  refine ⟨script, turns, ?_⟩
  rw [Async.bind_apply]
  rcases hc : c ⟨v, script, turns⟩ with ⟨x, w⟩
  rw [hc] at hx hv
  cases hx
  exact ⟨rfl, hv⟩

/-- What did not return a value does not return one. -/
theorem Ran.unreturned {σ α β : Type} {c : Prog σ α} {v v' : σ} {x : Exit PsrpError α} (f : α → β)
    (h : Ran c x v v') (hx : ∀ r, x ≠ .ok r) :
    ∃ y, (∀ r, y ≠ .ok r) ∧ Ran (c >>= fun r => pure (f r)) y v v' := by
  rcases h with ⟨script, turns, hrun, hv⟩
  have hends : ∀ y : Exit PsrpError β, (c >>= fun r => pure (f r)) ⟨v, script, turns⟩
        = (y, (c ⟨v, script, turns⟩).2) → Ran (c >>= fun r => pure (f r)) y v v' :=
    fun y hy => ⟨script, turns, congrArg Prod.fst hy, (congrArg (·.2.state) hy).trans hv⟩
  have hbind := Async.bind_apply c (fun r => (pure (f r) : Prog σ β)) ⟨v, script, turns⟩
  rcases hc : c ⟨v, script, turns⟩ with ⟨x', w⟩
  rw [hc] at hrun hends hbind
  cases hrun
  cases x' with
  | ok r => exact absurd rfl (hx r)
  | err e => exact ⟨.err e, (fun _ heq => by cases heq), hends _ hbind⟩
  | cut n => exact ⟨.cut n, (fun _ heq => by cases heq), hends _ hbind⟩
  | suspended => exact ⟨.suspended, (fun _ heq => by cases heq), hends _ hbind⟩

end Calls

section Served

/-- What a message is to a session: what is sent, and to whom. -/
def addressed (f : Frame) : Uuid × Bytes := (f.msg.pid, f.bytes)

/-- A history tells how the calls of a session ended. -/
structure Tells (h : List PoolEvent) (ends : Ends) : Prop where
  given : sends ends = (sentFrames h).map addressed
  through : accepted ends = (sentOf h).map addressed
  received : handedOut ends = chunksOf h

/-- The session of a pool is where some calls leave it that the history of the
    pool tells of. -/
def Served (p : PacketPlatform) (a q : Nat) (s : RunspacePool OutOfProcSession) : Prop :=
  ∃ calls, (play (perform p) calls (fresh a q)).2 = s.transport
    ∧ Tells s.history (play (perform p) calls (fresh a q)).1

/-- One more call. -/
theorem Served.call (hs : Served p a q s) {op : Operation} {x : Exit PsrpError (Option Bytes)}
    (hran : Ran (perform p op) x s.transport t.transport)
    (htells : ∀ ends, Tells s.history ends → Tells t.history (ends ++ [(op, x)])) :
    Served p a q t := by
  rcases hs with ⟨calls, hsession, hends⟩
  rcases hran with ⟨script, turns, hx, hv⟩
  have hlast : play (perform p) [⟨op, script, turns⟩] s.transport = ([(op, x)], t.transport) := by
    simp only [play, hx, hv]
  refine ⟨calls ++ [⟨op, script, turns⟩], ?_, ?_⟩
  · rw [Async.play_append, hsession, hlast]
  · rw [Async.play_append, hsession, hlast]
    exact htells _ hends

/-- A history that tells the same. -/
theorem Served.same (hs : Served p a q s) (htransport : t.transport = s.transport)
    (hgiven : sentFrames t.history = sentFrames s.history)
    (hthrough : sentOf t.history = sentOf s.history)
    (hreceived : chunksOf t.history = chunksOf s.history) : Served p a q t := by
  rcases hs with ⟨calls, hsession, hends⟩
  exact ⟨calls, hsession.trans htransport.symm, by rw [hgiven]; exact hends.given,
    by rw [hthrough]; exact hends.through, by rw [hreceived]; exact hends.received⟩

/-- What the transport has no part in tells nothing of it. -/
theorem inner_events {es : List PoolEvent} (hes : ∀ e ∈ es, isTraffic e = false) :
    sentFrames es = [] ∧ sentOf es = [] ∧ chunksOf es = [] := by
  have hnone : ∀ e ∈ es, (∀ f, e ≠ .sending f) ∧ (∀ f, e ≠ .sent f) ∧ ∀ c, e ≠ .chunk c := by
    intro e he
    have htraffic := hes e he
    refine ⟨fun f heq => ?_, fun f heq => ?_, fun c heq => ?_⟩ <;>
    · rw [heq] at htraffic
      cases htraffic
  refine ⟨List.filterMap_eq_nil_iff.mpr fun e he => ?_, List.filterMap_eq_nil_iff.mpr fun e he => ?_,
    List.filterMap_eq_nil_iff.mpr fun e he => ?_⟩
  · have hne := (hnone e he).1
    cases e <;> first | rfl | exact absurd rfl (hne _)
  · have hne := (hnone e he).2.1
    cases e <;> first | rfl | exact absurd rfl (hne _)
  · have hne := (hnone e he).2.2
    cases e <;> first | rfl | exact absurd rfl (hne _)

theorem sentOf_snoc (h : List PoolEvent) (e : PoolEvent) :
    sentOf (h ++ [e]) = sentOf h ++ sentOf [e] := List.filterMap_append ..

/-- Whatever carries a message, it is sent to the GUID it is for. -/
theorem carries_send (hd : d.transport = transport p) {c : Bytes → Prog OutOfProcSession Unit}
    {mt : MessageType} {pid : Uuid} (hcarries : RunspacePool.Carries d c mt pid) : c = send p pid := by
  rcases hcarries with rfl | ⟨rfl, rfl⟩
  · funext bytes
    unfold carrier
    rw [hd]
    split <;> rfl
  · rw [hd]
    rfl

/-- No message is empty. -/
theorem frame_bytes_ne (f : Frame) : f.bytes ≠ [] := by
  rcases splitFrom_fragments f.objectId 0 f.msg.encode with ⟨_, front, last, hsplit, _⟩
  intro heq
  have hlen := congrArg List.length heq
  rw [Frame.bytes, encodeMessage, splitMessage, hsplit, List.flatMap_append, List.length_append,
    List.flatMap_singleton, Fragment.encode] at hlen
  simp only [List.length_append, length_beBytes, List.length_nil] at hlen
  omega

/-- A message that is sent is a call of `send`. -/
theorem Served.sends (hs : Served p a q s) (hd : d.transport = transport p)
    {c : Bytes → Prog OutOfProcSession Unit} {mt : MessageType} {pid : Uuid} {body : Text} {o : Fate}
    (hcarries : RunspacePool.Carries d c mt pid) (hsend : Sends c mt pid body s o t) : Served p a q t := by
  have hc := carries_send hd hcarries
  subst hc
  cases hsend with
  | through v hroom hran =>
      -- A message that went through was a call that ended well.
      have hcall : Ran (perform p (.send pid (frame mt pid body s).bytes)) (.ok none)
          s.transport v := Ran.returned (fun _ => none) hran
      refine hs.call hcall fun ends hends => ⟨?_, ?_, ?_⟩
      · change _ = (sentFrames ((s.history ++ [.sending _]) ++ [.sent _])).map addressed
        rw [sends_snoc, hends.given, sentFrames_snoc, sentFrames_snoc, List.map_append,
          List.map_append]
        exact (List.append_nil _).symm
      · change _ = (sentOf ((s.history ++ [.sending _]) ++ [.sent _])).map addressed
        rw [accepted_snoc, hends.through, sentOf_snoc, sentOf_snoc, List.map_append,
          List.map_append]
        simp only [if_neg (frame_bytes_ne _), List.append_assoc]
        rfl
      · change _ = chunksOf ((s.history ++ [.sending _]) ++ [.sent _])
        rw [handedOut_snoc, hends.received, RunspacePool.chunksOf_snoc, RunspacePool.chunksOf_snoc,
          List.append_assoc]
        rfl
  | stopped o x v ho hfate hroom hran =>
      -- One that did not is a call that ended otherwise, and is given all the same.
      have hx : ∀ r, x ≠ .ok r := by
        intro r heq
        rw [heq] at hfate
        exact ho hfate.symm
      rcases Ran.unreturned (fun _ => (none : Option Bytes)) hran hx with ⟨y, hy, hcall⟩
      have hcall : Ran (perform p (.send pid (frame mt pid body s).bytes)) y s.transport v := hcall
      refine hs.call hcall fun ends hends => ⟨?_, ?_, ?_⟩
      · change _ = (sentFrames (s.history ++ [.sending _])).map addressed
        rw [sends_snoc, hends.given, sentFrames_snoc, List.map_append]
        rfl
      · change _ = (sentOf (s.history ++ [.sending _])).map addressed
        rw [accepted_other (fun _ _ r _ heq => absurd heq (hy r)), hends.through, sentOf_snoc]
        exact congrArg _ (List.append_nil _).symm
      · change _ = chunksOf (s.history ++ [.sending _])
        rw [handedOut_snoc, hends.received, RunspacePool.chunksOf_snoc]
        cases y with
        | ok r => exact absurd rfl (hy r)
        | err e => rfl
        | cut n => rfl
        | suspended => rfl
  | exhausted e hfull =>
      -- Without an id, nothing reaches the session.
      exact hs.same rfl ((sentFrames_snoc _ _).trans (List.append_nil _))
        ((sentOf_snoc _ _).trans (List.append_nil _))
        ((RunspacePool.chunksOf_snoc _ _).trans (List.append_nil _))

/-- A call that says nothing of messages. -/
theorem Served.silent (hs : Served p a q s) {op : Operation} {x : Exit PsrpError (Option Bytes)}
    (hran : Ran (perform p op) x s.transport t.transport) (hhistory : t.history = s.history)
    (hop : ∀ guid payload, op ≠ .send guid payload) (hx : ∀ bytes, x ≠ .ok (some bytes)) :
    Served p a q t := by
  refine hs.call hran fun ends hends => ?_
  rw [hhistory]
  refine ⟨?_, ?_, ?_⟩
  · rw [sends_snoc, ← hends.given]
    cases op with
    | send guid payload => exact absurd rfl (hop guid payload)
    | recv | signal | close => exact List.append_nil _
  · rw [accepted_other fun guid payload _ heq => absurd heq (hop guid payload), hends.through]
  · rw [handedOut_snoc, ← hends.received]
    cases x with
    | ok r =>
        cases r with
        | none => exact List.append_nil _
        | some bytes => exact absurd rfl (hx bytes)
    | err e => exact List.append_nil _
    | cut n => exact List.append_nil _
    | suspended => exact List.append_nil _

/-- The same of a program that returns nothing. -/
theorem Served.aside (hs : Served p a q s) {op : Operation} {c : Prog OutOfProcSession Unit}
    (hperform : perform p op = (c >>= fun _ => pure none)) {x : Exit PsrpError Unit}
    (hran : Ran c x s.transport t.transport) (hhistory : t.history = s.history)
    (hop : ∀ guid payload, op ≠ .send guid payload) : Served p a q t := by
  by_cases hx : ∃ r, x = .ok r
  · rcases hx with ⟨r, rfl⟩
    have hcall := Ran.returned (fun _ => (none : Option Bytes)) hran
    rw [← hperform] at hcall
    exact hs.silent hcall hhistory hop fun bytes heq => by cases heq
  · rcases Ran.unreturned (fun _ => (none : Option Bytes)) hran
      (fun r heq => hx ⟨r, heq⟩) with ⟨y, hy, hcall⟩
    rw [← hperform] at hcall
    exact hs.silent hcall hhistory hop fun bytes heq => hy _ heq

/-- Every change is a call of the session, or is nothing to it. -/
theorem Change.served (hd : d.transport = transport p) (hs : Served p a q s)
    (hchange : Change d s t) : Served p a q t := by
  cases hchange with
  | inner es hes hhistory htransport =>
      -- What happens in the pool says nothing of the transport.
      rcases inner_events hes with ⟨hgiven, hthrough, hreceived⟩
      refine hs.same htransport ?_ ?_ ?_
      · rw [hhistory, sentFrames, List.filterMap_append]
        exact (congrArg _ hgiven).trans (List.append_nil _)
      · rw [hhistory, sentOf, List.filterMap_append]
        exact (congrArg _ hthrough).trans (List.append_nil _)
      · rw [hhistory, chunksOf, List.filterMap_append]
        exact (congrArg _ hreceived).trans (List.append_nil _)
  | sends hcarries hlegible hsend => exact hs.sends hd hcarries hsend
  | read chunk hhistory hran =>
      rw [hd] at hran
      -- A chunk that was noted is one that `recv` handed out.
      have hcall : Ran (perform p .recv) (.ok (some chunk)) s.transport t.transport :=
        Ran.returned some hran
      refine hs.call hcall fun ends hends => ?_
      rw [hhistory]
      refine ⟨?_, ?_, ?_⟩
      · rw [sends_snoc, hends.given, sentFrames_snoc, List.map_append]
        rfl
      · rw [accepted_other (fun _ _ _ heq => by cases heq), hends.through, sentOf_snoc]
        exact congrArg _ (List.append_nil _).symm
      · rw [handedOut_snoc, hends.received, RunspacePool.chunksOf_snoc]
        rfl
  | unread x hx hhistory hran =>
      rw [hd] at hran
      -- A read that brought nothing.
      rcases Ran.unreturned some hran hx with ⟨y, hy, hcall⟩
      have hcall : Ran (perform p .recv) y s.transport t.transport := hcall
      exact hs.silent hcall hhistory (fun _ _ heq => by cases heq) fun bytes => hy _
  | aside hhistory haside =>
      cases haside with
      | stop x hran =>
          rw [hd] at hran
          have hperform : perform p .signal = (signal p >>= fun _ => pure none) := rfl
          exact hs.aside hperform hran hhistory fun _ _ heq => by cases heq
      | close x hran =>
          rw [hd] at hran
          have hperform : perform p .close = (close p >>= fun _ => pure none) := rfl
          exact hs.aside hperform hran hhistory fun _ _ heq => by cases heq
      | disconnect x hran =>
          -- A session is not disconnected: the default is an error.
          rw [hd] at hran
          rcases hran with ⟨script, turns, _, hv⟩
          have htransport : t.transport = s.transport := hv.symm
          exact hs.same htransport (by rw [hhistory]) (by rw [hhistory]) (by rw [hhistory])

/-- Whatever is done with a pool, its session is where some calls leave it that
    the history tells of. -/
theorem played_served (hd : d.transport = transport p) (a q : Nat)
    (machine : RunspacePoolStateMachine) (n : UInt64) (key : Option SessionKey)
    (ops : List (Call Answer PoolOperation)) :
    Served p a q (play (RunspacePool.perform d) ops (attached (fresh a q) machine n key)).2 := by
  have hstart : Served p a q (attached (fresh a q) machine n key) :=
    ⟨[], rfl, rfl, rfl, rfl⟩
  exact play_changes (fun _ _ hs hchange => Change.served hd hs hchange) ops
    (fun _ hp => absurd hp List.not_mem_nil) hstart

end Served

section Outbound

/-- What is on the wire after some calls is whole payloads in call order, but
    for the last, which may be cut. -/
theorem played_delivered (p : PacketPlatform) (a q : Nat) (calls : List (Call Answer Operation)) :
    Delivered (play (perform p) calls (fresh a q)).1 (play (perform p) calls (fresh a q)).2 :=
  Async.play_run Delivered (fun _ op _ ht => wp_perform_delivered ht op) calls
    ⟨[], List.Sublist.refl _, Or.inl ⟨List.Sublist.refl _, rfl⟩⟩

/-- What went through was given to the transport, and what was given to it can
    be read back. -/
structure Spoken (h : List PoolEvent) : Prop where
  through : (sentOf h).Sublist (sentFrames h)
  legible : ∀ f ∈ sentFrames h, PsrpMessage.decode f.msg.encode = .ok f.msg

/-- Events that are no messages to the server. -/
theorem Spoken.append {es : List PoolEvent} (hs : Spoken h) (hgiven : sentFrames es = [])
    (hthrough : sentOf es = []) : Spoken (h ++ es) := by
  have hgiven' : sentFrames (h ++ es) = sentFrames h := by
    rw [sentFrames, List.filterMap_append]
    exact (congrArg _ hgiven).trans (List.append_nil _)
  have hthrough' : sentOf (h ++ es) = sentOf h := by
    rw [sentOf, List.filterMap_append]
    exact (congrArg _ hthrough).trans (List.append_nil _)
  refine ⟨?_, ?_⟩
  · rw [hgiven', hthrough']
    exact hs.through
  · rw [hgiven']
    exact hs.legible

/-- A message that is given to the transport, and may have gone through. -/
theorem Spoken.sending {f : Frame} (hs : Spoken h)
    (hf : PsrpMessage.decode f.msg.encode = .ok f.msg) :
    Spoken (h ++ [.sending f]) ∧ Spoken ((h ++ [.sending f]) ++ [.sent f]) := by
  have hgiven : sentFrames (h ++ [.sending f]) = sentFrames h ++ [f] := sentFrames_snoc _ _
  have hthrough : sentOf (h ++ [.sending f]) = sentOf h :=
    (sentOf_snoc _ _).trans (List.append_nil _)
  have hmore : ∀ g ∈ sentFrames h ++ [f], PsrpMessage.decode g.msg.encode = .ok g.msg := by
    intro g hg
    rcases List.mem_append.mp hg with hg | hg
    · exact hs.legible g hg
    · rw [List.mem_singleton.mp hg]
      exact hf
  constructor
  · refine ⟨?_, by rw [hgiven]; exact hmore⟩
    rw [hgiven, hthrough]
    exact hs.through.trans (List.sublist_append_left _ _)
  · have hgiven' : sentFrames ((h ++ [.sending f]) ++ [.sent f]) = sentFrames h ++ [f] := by
      rw [sentFrames_snoc, hgiven]
      exact List.append_nil _
    refine ⟨?_, by rw [hgiven']; exact hmore⟩
    rw [hgiven', sentOf_snoc, hthrough]
    exact hs.through.append (List.Sublist.refl _)

theorem Change.spoken (hs : Spoken s.history) (hchange : Change d s t) : Spoken t.history := by
  cases hchange with
  | inner es hes hhistory htransport =>
      rcases inner_events hes with ⟨hgiven, hthrough, _⟩
      rw [hhistory]
      exact hs.append hgiven hthrough
  | sends hcarries hlegible hsend =>
      rename_i c mt pid body o
      have hf : PsrpMessage.decode (frame mt pid body s).msg.encode
          = .ok (frame mt pid body s).msg := hlegible.decode s.machine.rpid pid
      cases hsend with
      | through v hroom hran => exact (hs.sending hf).2
      | stopped o x v ho hfate hroom hran => exact (hs.sending hf).1
      | exhausted e hfull => exact hs.append rfl rfl
  | read chunk hhistory hran =>
      rw [hhistory]
      exact hs.append rfl rfl
  | unread x hx hhistory hran =>
      rw [hhistory]
      exact hs
  | aside hhistory haside =>
      rw [hhistory]
      exact hs

theorem played_spoken (d : Driver OutOfProcSession) (v : OutOfProcSession)
    (machine : RunspacePoolStateMachine) (n : UInt64) (key : Option SessionKey)
    (ops : List (Call Answer PoolOperation)) :
    Spoken (play (RunspacePool.perform d) ops (attached v machine n key)).2.history :=
  play_changes (I := fun t => Spoken t.history) (fun _ _ hs hchange => Change.spoken hs hchange)
    ops (fun _ hp => absurd hp List.not_mem_nil)
    ⟨List.Sublist.refl _, fun _ hf => absurd hf List.not_mem_nil⟩

/-- The messages there would have been before a counter came to where it is. -/
def earlier (rpid : Uuid) (n : UInt64) : List Frame :=
  (List.range' 1 (n.toNat - 1)).map fun i =>
    { objectId := UInt64.ofNat i, msg := .toServer .sessionCapability rpid Uuid.nil [] }

theorem idsOf_earlier (rpid : Uuid) (n : UInt64) :
    idsOf (earlier rpid n) = List.range' 1 (n.toNat - 1) := by
  have hback : ∀ i ∈ List.range' 1 (n.toNat - 1), (UInt64.ofNat i).toNat = i := by
    intro i hi
    have hlt := n.toNat_lt
    rw [List.mem_range'_1] at hi
    rw [UInt64.toNat_ofNat']
    omega
  rw [idsOf, earlier, List.map_map]
  exact (List.map_congr_left hback).trans (List.map_id _)

/-- No two messages of a pool have the same id. -/
theorem played_ids (d : Driver OutOfProcSession) (v : OutOfProcSession)
    (machine : RunspacePoolStateMachine) {n : UInt64} (hn : 1 ≤ n.toNat) (key : Option SessionKey)
    (ops : List (Call Answer PoolOperation)) :
    ((sentFrames (play (RunspacePool.perform d) ops (attached v machine n key)).2.history).map
      Frame.objectId).Nodup := by
  have howned : ∀ f ∈ earlier machine.rpid n, f.msg.rpid = machine.rpid := by
    intro f hf
    rcases List.mem_map.mp hf with ⟨i, _, rfl⟩
    rfl
  have hattached : Numbered machine.rpid (earlier machine.rpid n) [] (attached v machine n key) :=
    numbered_attached rfl hn (idsOf_earlier _ n) howned
  have hnumbered := Async.play_run (f := RunspacePool.perform d)
    (fun _ t => Numbered machine.rpid (earlier machine.rpid n) [] t)
    (fun _ op _ ht => wp_perform_numbered op ht) ops
    hattached
  have hnodup : (idsOf (earlier machine.rpid n ++ sentFrames
      (play (RunspacePool.perform d) ops (attached v machine n key)).2.history)).Nodup := by
    rw [hnumbered.ids]
    exact List.nodup_range'
  rw [idsOf, List.map_append] at hnodup
  refine List.Nodup.of_map UInt64.toNat ?_
  rw [List.map_map]
  exact hnodup.of_append_right

/-- The id of a message is in its bytes. -/
theorem objectId_of_bytes {f g : Frame} (heq : f.bytes = g.bytes) : f.objectId = g.objectId := by
  have hread : ∀ f : Frame, (decodeOne f.bytes).map (·.1.objectId) = some f.objectId := by
    intro f
    rcases splitFrom_fragments f.objectId 0 f.msg.encode with ⟨howned, front, last, hsplit, _⟩
    have hblobs := splitMessage_blobs f.objectId f.msg.encode
    rw [Frame.bytes, encodeMessage]
    cases hfs : splitMessage f.objectId f.msg.encode with
    | nil =>
        rw [splitMessage, hsplit] at hfs
        exact absurd hfs (List.append_ne_nil_of_right_ne_nil _ (List.cons_ne_nil _ _))
    | cons first rest =>
        rw [hfs] at hblobs
        rw [List.flatMap_cons, decodeOne_encode first _ (hblobs first List.mem_cons_self),
          Option.map_some]
        refine congrArg some (howned first ?_)
        rw [← splitMessage, hfs]
        exact List.mem_cons_self
  have hf := hread f
  rw [heq, hread g] at hf
  exact (Option.some.inj hf).symm

/-- Messages with ids of their own are known by what they are sent as. -/
theorem eq_of_addressed {fs gs : List Frame}
    (hinj : ∀ f ∈ fs, ∀ g ∈ gs, f.objectId = g.objectId → f = g)
    (heq : fs.map addressed = gs.map addressed) : fs = gs := by
  induction fs generalizing gs with
  | nil => exact (List.map_eq_nil_iff.mp heq.symm).symm
  | cons f fs ih =>
      cases gs with
      | nil => cases heq
      | cons g gs =>
          rcases List.cons.inj heq with ⟨hfirst, hrest⟩
          have hid : f.objectId = g.objectId := objectId_of_bytes (congrArg Prod.snd hfirst)
          rw [hinj f List.mem_cons_self g List.mem_cons_self hid, ih (fun f' hf g' hg =>
            hinj f' (List.mem_cons_of_mem _ hf) g' (List.mem_cons_of_mem _ hg)) hrest]

/-- So one knows which of them are among others. -/
theorem sublist_of_addressed {frames fs gs : List Frame}
    (hids : (frames.map Frame.objectId).Nodup) (hfs : fs.Sublist frames) (hgs : gs.Sublist frames)
    (hsub : (fs.map addressed).Sublist (gs.map addressed)) : fs.Sublist gs := by
  rcases List.sublist_map_iff.mp hsub with ⟨ks, hks, heq⟩
  have hfs' : fs = ks := by
    refine eq_of_addressed (fun f hf g hg hid => ?_) heq
    exact List.inj_on_of_nodup_map hids (hfs.subset hf) (hgs.subset (hks.subset hg)) hid
  rw [hfs']
  exact hks

/-- A message as an object to be put together. -/
def objectOf (f : Frame) : UInt64 × Bytes := (f.objectId, f.msg.encode)

/-- The messages for a GUID. -/
def messagesTo (guid : Uuid) (fs : List Frame) : List Frame := fs.filter fun f => f.msg.pid = guid

theorem payloadsTo_addressed (guid : Uuid) (fs : List Frame) :
    payloadsTo guid (fs.map addressed)
      = ((messagesTo guid fs).map objectOf).flatMap fun s => encodeMessage s.1 s.2 := by
  induction fs with
  | nil => rfl
  | cons f fs ih =>
      have hfirst : payloadsTo guid ((f :: fs).map addressed)
          = (if f.msg.pid = guid then f.bytes else []) ++ payloadsTo guid (fs.map addressed) := rfl
      rw [hfirst, ih]
      by_cases hguid : f.msg.pid = guid
      · have hfor : messagesTo guid (f :: fs) = f :: messagesTo guid fs :=
          List.filter_cons_of_pos (decide_eq_true hguid)
        rw [if_pos hguid, hfor]
        rfl
      · have hfor : messagesTo guid (f :: fs) = messagesTo guid fs :=
          List.filter_cons_of_neg (by rw [decide_eq_true_eq]; exact hguid)
        rw [if_neg hguid, hfor, List.nil_append]

theorem keyed_objects {frames fs : List Frame} (hids : (frames.map Frame.objectId).Nodup)
    (hfs : fs.Sublist frames) : IndexMap.Keyed (fs.map objectOf) := by
  rw [IndexMap.Keyed, List.map_map]
  exact hids.sublist (hfs.map Frame.objectId)

theorem encodes_objects (fs : List Frame) :
    (fs.map objectOf).map Prod.snd = fs.map fun f => f.msg.encode := List.map_map ..

/-- The pieces of a payload that are left are not empty. -/
theorem flatten_rest {payload : Bytes} {done rest : List Bytes}
    (hchunks : dataChunks payload = done ++ rest) (hrest : rest ≠ []) : rest.flatten ≠ [] := by
  intro hempty
  rcases List.exists_mem_of_ne_nil rest hrest with ⟨chunk, hchunk⟩
  have hlength := dataChunks_length payload chunk (hchunks ▸ List.mem_append_right _ hchunk)
  rw [List.flatten_eq_nil_iff.mp hempty chunk hchunk] at hlength
  exact absurd hlength.1 (by simp)

/-- In every run of a pool over an out-of-process session, whatever becomes of
    its operations: what the server reads for a GUID off the complete lines,
    cut into whatever chunks, comes together without an error and is the
    messages for that GUID, in the order of their sends, as they were sent.
    They are among those given to the transport, and all that went through are
    among them. Nothing is left over, unless nothing is written any more. -/
theorem messages_arrive (p : PacketPlatform) (d : Driver OutOfProcSession)
    (hd : d.transport = transport p) (a q : Nat) (machine : RunspacePoolStateMachine) (n : UInt64)
    (hn : 1 ≤ n.toNat) (key : Option SessionKey) (ops : List (Call Answer PoolOperation)) :
    let s := (play (RunspacePool.perform d) ops (attached (fresh a q) machine n key)).2
    -- No vector is longer than the address space.
    (∀ f ∈ sentFrames s.history, f.msg.encode.length < 2 ^ 63) →
    ∃ whole, (sentOf s.history).Sublist whole ∧ whole.Sublist (sentFrames s.history)
      ∧ (∀ f ∈ whole, PsrpMessage.decode f.msg.encode = .ok f.msg)
      ∧ ∀ guid chunks, chunks.flatten = dataWritten guid (writtenLines s.transport.history) →
        ∃ r, feedAll Reassembler.new chunks
            = (.ok ((messagesTo guid whole).map fun f => f.msg.encode), r)
          ∧ (r.isIdle = true ∨ ∀ more,
            bytesWritten (play (perform p) more s.transport).2.history
              = bytesWritten s.transport.history) := by
  intro s hlen
  -- The pool over the session, as calls on it; and what the session wrote for them.
  have hspoken : Spoken s.history := played_spoken d (fresh a q) machine n key ops
  have hids := played_ids d (fresh a q) machine hn key ops
  rcases played_served hd a q machine n key ops with ⟨calls, hsession, htells⟩
  have hdelivered := played_delivered p a q calls
  rw [hsession] at hdelivered
  have hlens : ∀ {fs : List Frame}, fs.Sublist (sentFrames s.history) →
      ∀ o ∈ fs.map objectOf, o.2.length < 2 ^ 63 := by
    intro fs hfs o ho
    rcases List.mem_map.mp ho with ⟨f, hf, rfl⟩
    exact hlen f (hfs.subset hf)
  -- Of some messages, those for one guid.
  have hfor : ∀ guid (fs : List Frame), (messagesTo guid fs).Sublist fs :=
    fun guid fs => List.filter_sublist
  -- Whole messages come together, whomever they are for.
  have hwholes : ∀ {whole : List Frame}, whole.Sublist (sentFrames s.history) → ∀ guid chunks,
      chunks.flatten = payloadsTo guid (whole.map addressed) →
      ∃ r, feedAll Reassembler.new chunks
          = (.ok ((messagesTo guid whole).map fun f => f.msg.encode), r) ∧ r.isIdle = true := by
    intro whole hwhole guid chunks hchunks
    have hmine := (hfor guid whole).trans hwhole
    rcases sequence_whole (keyed_objects hids hmine) (hlens hmine) with ⟨r, hfeed, hidle⟩
    rw [← payloadsTo_addressed, ← hchunks, encodes_objects] at hfeed
    exact ⟨r, feedAll_of_feed hfeed, hidle⟩
  rcases hdelivered with ⟨pairs, hacc, ⟨hsub, hdata⟩ | ⟨guid, payload, done, rest, torn, hsub,
    hchunks, hrest, htorn, hdata, hsilent⟩⟩
  · rw [htells.given] at hsub
    rw [htells.through] at hacc
    -- Every message on the wire is there to its end.
    rcases List.sublist_map_iff.mp hsub with ⟨whole, hwhole, rfl⟩
    refine ⟨whole, sublist_of_addressed hids hspoken.through hwhole hacc, hwhole,
      fun f hf => hspoken.legible f (hwhole.subset hf), fun guid chunks hread => ?_⟩
    rw [dataWritten_filter] at hread
    change _ = dataWritten guid (dataLines s.transport) at hread
    rw [hdata, dataWritten_payloads] at hread
    rcases hwholes hwhole guid chunks hread with ⟨r, hfeed, hidle⟩
    exact ⟨r, hfeed, Or.inl hidle⟩
  · -- The last message on the wire is cut.
    rw [htells.given] at hsub
    rw [htells.through] at hacc
    rcases List.sublist_map_iff.mp hsub with ⟨all, hall, heq⟩
    rcases List.map_eq_append_iff.mp heq.symm with ⟨whole, last, rfl, rfl, hlast⟩
    rcases List.map_eq_singleton_iff.mp hlast with ⟨f, rfl, hf⟩
    have hwhole : whole.Sublist (sentFrames s.history) :=
      (List.sublist_append_left whole [f]).trans hall
    have hguid : f.msg.pid = guid := congrArg Prod.fst hf
    have hpayload : f.bytes = done.flatten ++ rest.flatten := by
      rw [← List.flatten_append, ← hchunks, dataChunks_flatten]
      exact congrArg Prod.snd hf
    -- A line that is not complete carries nothing.
    have htear : ∀ g, dataWritten g torn = [] := by
      intro g
      rcases htorn with rfl | ⟨chunk, _, sent, rfl, hsent⟩
      · rfl
      · exact dataWritten_torn hsent
    refine ⟨whole, sublist_of_addressed hids hspoken.through hwhole hacc, hwhole,
      fun g hg => hspoken.legible g (hwhole.subset hg), fun g chunks hread => ?_⟩
    rw [dataWritten_filter] at hread
    change _ = dataWritten g (dataLines s.transport) at hread
    rw [hdata, dataWritten_append, dataWritten_append, dataWritten_payloads, dataWritten_chunks,
      htear, List.append_nil] at hread
    by_cases hg : guid = g
    · -- For the guid it was for, the cut message follows the whole ones; the reassembler holds
      -- its beginning, and the session is silent from now on.
      rw [if_pos hg, payloadsTo_addressed] at hread
      have hmine : (messagesTo g whole ++ [f]).Sublist (sentFrames s.history) :=
        ((hfor g whole).append (List.Sublist.refl [f])).trans hall
      have hkeyed := keyed_objects hids hmine
      have hlengths := hlens hmine
      rw [List.map_append] at hkeyed hlengths
      rcases sequence_cut hkeyed hlengths hpayload (flatten_rest hchunks hrest) with ⟨r, hfeed⟩
      rw [← hread, encodes_objects] at hfeed
      exact ⟨r, feedAll_of_feed hfeed, Or.inr (play_silenced hsilent)⟩
    · -- For any other guid, nothing is cut.
      rw [if_neg hg, List.append_nil] at hread
      rcases hwholes hwhole g chunks hread with ⟨r, hfeed, hidle⟩
      exact ⟨r, hfeed, Or.inl hidle⟩

/-- A pool over a session, with a host that answers nothing. -/
def pipeDriver : Driver OutOfProcSession where
  platform := .basic
  transport := transport .basic
  host := {}

/-- The end of the input of a pipeline is sent, and both requests that it takes
    are acknowledged. -/
def endSent (pid : Uuid) : List (Call Answer PoolOperation) :=
  [{ operation := .endInput { pid, rpid := Uuid.nil, inputClosed := false },
     script := [.answer .done, .answer (.chunk (Packet.commandAck pid).toLine.toUtf8),
       .answer .done, .answer (.chunk (Packet.dataAck pid).toLine.toUtf8)],
     turns := 5 }]

/-- It went through, and the server reads it. -/
theorem messages_arrive_ended :
    let s := (play (RunspacePool.perform pipeDriver) (endSent ⟨.replicate 16 1⟩)
      (attached (fresh 60 4096) RunspacePool.freshMachine 1 none)).2
    (sentOf s.history).length = 1
      ∧ ∃ whole, (sentOf s.history).Sublist whole ∧ whole.Sublist (sentFrames s.history)
        ∧ (∀ f ∈ whole, PsrpMessage.decode f.msg.encode = .ok f.msg)
        ∧ ∀ guid chunks, chunks.flatten = dataWritten guid (writtenLines s.transport.history) →
          ∃ r, feedAll Reassembler.new chunks
              = (.ok ((messagesTo guid whole).map fun f => f.msg.encode), r)
            ∧ (r.isIdle = true ∨ ∀ more,
              bytesWritten (play (perform .basic) more s.transport).2.history
                = bytesWritten s.transport.history) :=
  ⟨by decide +kernel, messages_arrive .basic pipeDriver rfl 60 4096 RunspacePool.freshMachine 1
    (by decide) none (endSent ⟨.replicate 16 1⟩) (by decide +kernel)⟩

end Outbound

end OutOfProc

end Psrp

import Psrp.Core.Ssh

/-!
# Closing a Session and Its Connection

A transport over SSH is the session it carries, closed once.

The connection under a session is torn down by whoever closes the session, and
by nobody else. Closing marks the transport before it waits for anything, so a
second caller finds it closed, also when the first was dropped half way: then
what is left of the connection is left to whoever drops the transport.

`once` is a session that is closed once, and knows nothing of a connection. The
transport does to its session what `once` does, call for call (`perform_once`);
all that a connection adds is that a caller may be dropped while it is torn
down.

## Main definitions

* `TransportOperation`: An operation of a transport.
* `once`: A session that is closed once.
* `Agrees`: How calls of the two end.
* `TornDown`: What was asked for to end the connection.

## Theorems

* `closed_once`: The transport is the session, and tears its connection down.
-/

namespace Psrp

namespace Ssh

open Async
open OutOfProc (PacketPlatform OutOfProcSession)

/-- An operation of a transport. -/
inductive TransportOperation where
  | sendFragment (bytes : Bytes)
  | sendPipelineFragment (bytes : Bytes) (pipelineId : Uuid)
  | recvChunk
  | signalStop
  | closeShell
  | executePipeline (bytes : Bytes) (pipelineId : Uuid)
  deriving DecidableEq

namespace TransportOperation

/-- Perform an operation. Only `recvChunk` returns anything. -/
def perform {τ : Type} (transport : PsrpTransport τ) : TransportOperation → Prog τ Bytes
  | .sendFragment bytes => do
    transport.sendFragment bytes
    return []
  | .sendPipelineFragment bytes pipelineId => do
    transport.sendPipelineFragment bytes pipelineId
    return []
  | .recvChunk => transport.recvChunk
  | .signalStop => do
    transport.signalStop
    return []
  | .closeShell => do
    transport.closeShell
    return []
  | .executePipeline bytes pipelineId => do
    transport.executePipeline bytes pipelineId
    return []

end TransportOperation

open TransportOperation (perform)

variable {p : PacketPlatform} {s : SshPsrpTransport} {a : OutOfProcSession × Bool}

/-- A session that is closed once: closing it again does nothing. -/
def once (p : PacketPlatform) (op : TransportOperation) :
    Prog (OutOfProcSession × Bool) Bytes := do
  if op = .closeShell ∧ (← Async.get).2 = true then return []
  else
    Async.modify fun s => (s.1, s.2 || decide (op = .closeShell))
    Async.zoom Prod.fst (fun inner s => (inner, s.2)) (perform (OutOfProc.transport p) op)

/-- A call that did not end. -/
def Dropped {α : Type} (x : Exit PsrpError α) : Prop := (∃ n, x = .cut n) ∨ x = .suspended

/-- A call ends as one of the session does, or is dropped while the connection
    is torn down. -/
def Agrees (call spec : TransportOperation × Exit PsrpError Bytes) : Prop :=
  call.1 = spec.1 ∧ (call.2 = spec.2 ∨ call.1 = .closeShell ∧ Dropped call.2)

/-- Everything that ends a connection. -/
def teardown : List Teardown := [.eof, .close, .disconnect]

/-- How a program ends that does nothing but return a result. -/
def exitOf : Except PsrpError Unit → Exit PsrpError Unit
  | .ok _ => .ok ()
  | .error e => .err e

/-- What follows the closing of the session. -/
def tearDown (result : Except PsrpError Unit) : Prog SshPsrpTransport Unit := do
  SshPsrpTransport.tear .eof
  SshPsrpTransport.tear .close
  SshPsrpTransport.tear .disconnect
  Async.lift result

section Steps

/-- What an operation ends with that returns no bytes. -/
def noBytes : Exit PsrpError Unit → Exit PsrpError Bytes
  | .ok _ => .ok []
  | .err e => .err e
  | .cut n => .cut n
  | .suspended => .suspended

theorem Dropped.noBytes {x : Exit PsrpError Unit} (h : Dropped x) : Dropped (noBytes x) := by
  rcases h with ⟨n, rfl⟩ | rfl
  · exact .inl ⟨n, rfl⟩
  · exact .inr rfl

theorem returns_apply {τ : Type} (q : Prog τ Unit) (w : World Answer τ) :
    (q >>= fun _ => pure []) w = (noBytes (q w).1, (q w).2) := by
  rw [bind_apply]
  rcases q w with ⟨x, w'⟩
  cases x <;> rfl

/-- What follows an operation of the session may as well be part of it. -/
theorem session_returns (q : Prog OutOfProcSession Unit) :
    (SshPsrpTransport.session q >>= fun _ => pure ([] : Bytes))
      = SshPsrpTransport.session (q >>= fun _ => pure []) := by
  funext w
  rw [returns_apply]
  simp only [SshPsrpTransport.session, Async.zoom, returns_apply]

/-- Every operation but closing is one of the session. -/
theorem perform_session {op : TransportOperation} (hop : op ≠ .closeShell) :
    perform (SshPsrpTransport.transport p) op
      = SshPsrpTransport.session (perform (OutOfProc.transport p) op) := by
  cases op with
  | sendFragment bytes => exact session_returns _
  | sendPipelineFragment bytes pipelineId => exact session_returns _
  | recvChunk => rfl
  | signalStop => exact session_returns _
  | closeShell => exact absurd rfl hop
  | executePipeline bytes pipelineId => exact session_returns _

/-- A request to the library is noted, and answered or dropped. -/
theorem wp_tear {step : Teardown} {Q : Exit PsrpError Unit → SshPsrpTransport → Prop}
    (hok : Q (.ok ()) { s with torn := s.torn ++ [step] })
    (hcut : ∀ n, Q (.cut n) { s with torn := s.torn ++ [step] })
    (hsuspended : Q .suspended { s with torn := s.torn ++ [step] }) :
    wp (SshPsrpTransport.tear step) Q s :=
  wp_modifyThen (wp_bind (wp_await (fun _ _ _ => wp_pure hok) hcut hsuspended))

/-- What tearing a connection down leaves behind. -/
structure Tears (s : SshPsrpTransport) (result : Except PsrpError Unit) (x : Exit PsrpError Unit)
    (t : SshPsrpTransport) : Prop where
  inner : t.inner = s.inner
  closed : t.closed = s.closed
  torn : ∃ steps, steps <+: teardown ∧ t.torn = s.torn ++ steps
  ended : Dropped x ∨ t.torn = s.torn ++ teardown ∧ x = exitOf result

/-- One more step of it, and what follows; or nothing follows. -/
theorem wp_tear_next {result : Except PsrpError Unit} {steps : List Teardown} {step : Teardown}
    {f : Unit → Prog SshPsrpTransport Unit} (hsteps : steps ++ [step] <+: teardown)
    (h : wp (f ()) (Tears s result) { s with torn := s.torn ++ (steps ++ [step]) }) :
    wp (SshPsrpTransport.tear step >>= f) (Tears s result) { s with torn := s.torn ++ steps } := by
  have hdropped : ∀ x : Exit PsrpError Unit, Dropped x →
      Tears s result x { s with torn := s.torn ++ (steps ++ [step]) } := fun x hx =>
    ⟨rfl, rfl, ⟨steps ++ [step], hsteps, rfl⟩, .inl hx⟩
  -- The step is noted before its answer is waited for, so a drop leaves it noted.
  rw [← List.append_assoc] at h hdropped
  exact wp_bind (wp_tear h (fun n => hdropped _ (.inl ⟨n, rfl⟩)) (hdropped _ (.inr rfl)))

theorem wp_tearDown (result : Except PsrpError Unit) : wp (tearDown result) (Tears s result) s := by
  have hend : wp (Async.lift result : Prog SshPsrpTransport Unit) (Tears s result)
      { s with torn := s.torn ++ teardown } := by
    have hdone : Tears s result (exitOf result) { s with torn := s.torn ++ teardown } :=
      ⟨rfl, rfl, ⟨teardown, List.prefix_rfl, rfl⟩, .inr ⟨rfl, rfl⟩⟩
    cases result with
    | ok _ => exact wp_pure hdone
    | error e => exact wp_throw hdone
  have hstart : wp (tearDown result) (Tears s result) { s with torn := s.torn ++ [] } :=
    wp_tear_next ⟨[.close, .disconnect], rfl⟩
      (wp_tear_next ⟨[.disconnect], rfl⟩ (wp_tear_next List.prefix_rfl hend))
  rw [List.append_nil] at hstart
  exact hstart

/-- Closing what is closed does nothing. -/
theorem closeShell_closed (hclosed : s.closed = true) (script : List (Wake Answer)) (turns : Nat) :
    SshPsrpTransport.closeShell p ⟨s, script, turns⟩ = (.ok (), ⟨s, script, turns⟩) := by
  unfold SshPsrpTransport.closeShell
  simp only [bind_apply, Async.get, if_pos hclosed]
  rfl

/-- What is open is marked as closed, the session is closed, and the connection
    is torn down whatever the session says. -/
theorem closeShell_open (hopen : s.closed = false) (script : List (Wake Answer)) (turns : Nat) :
    let closing := OutOfProcSession.close p ⟨s.inner, script, turns⟩
    let call := SshPsrpTransport.closeShell p ⟨s, script, turns⟩
    call.2.state.inner = closing.2.state ∧ call.2.state.closed = true
      ∧ (∃ steps, steps <+: teardown ∧ call.2.state.torn = s.torn ++ steps)
      ∧ (Dropped call.1 ∨ call.2.state.torn = s.torn ++ teardown)
      ∧ (call.1 = closing.1 ∨ Dropped call.1) := by
  intro closing call
  have hcall : call = (Async.attempt (SshPsrpTransport.session (OutOfProcSession.close p))
      >>= tearDown) ⟨{ s with closed := true }, script, turns⟩ := by
    simp only [call, SshPsrpTransport.closeShell, bind_apply, Async.get, hopen,
      if_neg Bool.false_ne_true]
    rfl
  have hsession : SshPsrpTransport.session (OutOfProcSession.close p)
      ⟨{ s with closed := true }, script, turns⟩ = (closing.1,
        ⟨{ s with inner := closing.2.state, closed := true }, closing.2.script, closing.2.turns⟩) :=
    rfl
  have hdown : ∀ result, Tears { s with inner := closing.2.state, closed := true } result
      (tearDown result ⟨{ s with inner := closing.2.state, closed := true }, closing.2.script,
        closing.2.turns⟩).1
      (tearDown result ⟨{ s with inner := closing.2.state, closed := true }, closing.2.script,
        closing.2.turns⟩).2.state := fun result => wp_tearDown result _ _
  rw [hcall]
  simp only [bind_apply, Async.attempt, hsession]
  -- The session ended, or its caller was dropped before anything was torn down.
  rcases hx : closing.1 with _ | e | n | _
  · have htears := hdown (.ok ())
    exact ⟨htears.inner, htears.closed, htears.torn, htears.ended.imp_right And.left,
      htears.ended.symm.imp_left And.right⟩
  · have htears := hdown (.error e)
    exact ⟨htears.inner, htears.closed, htears.torn, htears.ended.imp_right And.left,
      htears.ended.symm.imp_left And.right⟩
  · exact ⟨rfl, rfl, ⟨[], List.nil_prefix, (List.append_nil _).symm⟩, .inl (.inl ⟨n, rfl⟩), .inl rfl⟩
  · exact ⟨rfl, rfl, ⟨[], List.nil_prefix, (List.append_nil _).symm⟩, .inl (.inr rfl), .inl rfl⟩

end Steps

section Simulation

theorem once_closed (hclosed : a.2 = true) (script : List (Wake Answer)) (turns : Nat) :
    once p .closeShell ⟨a, script, turns⟩ = (.ok [], ⟨a, script, turns⟩) := by
  unfold once
  simp only [bind_apply, Async.get, hclosed, and_self, if_true]
  rfl

theorem once_session {op : TransportOperation} (hop : ¬ (op = .closeShell ∧ a.2 = true))
    (script : List (Wake Answer)) (turns : Nat) :
    let call := perform (OutOfProc.transport p) op ⟨a.1, script, turns⟩
    once p op ⟨a, script, turns⟩ = (call.1,
      ⟨(call.2.state, a.2 || decide (op = .closeShell)), call.2.script, call.2.turns⟩) := by
  intro call
  unfold once
  simp only [bind_apply, Async.get]
  rw [if_neg hop]
  rfl

/-- An operation does to the session what it does to one that is closed once. -/
theorem perform_once (hinner : s.inner = a.1) (hclosed : s.closed = a.2) (op : TransportOperation)
    (script : List (Wake Answer)) (turns : Nat) :
    let call := perform (SshPsrpTransport.transport p) op ⟨s, script, turns⟩
    let spec := once p op ⟨a, script, turns⟩
    call.2.state.inner = spec.2.state.1 ∧ call.2.state.closed = spec.2.state.2
      ∧ Agrees (op, call.1) (op, spec.1) := by
  intro call spec
  rcases a with ⟨inner, closed⟩
  subst hinner hclosed
  by_cases hop : op = .closeShell
  · subst hop
    have hcall : call = (noBytes (SshPsrpTransport.closeShell p ⟨s, script, turns⟩).1,
        (SshPsrpTransport.closeShell p ⟨s, script, turns⟩).2) := returns_apply _ _
    cases hclosed : s.closed with
    | true =>
        -- Closed before: nothing is done, by either.
        have hspec : spec = (.ok [], ⟨(s.inner, s.closed), script, turns⟩) :=
          once_closed hclosed script turns
        rw [hcall, hspec, closeShell_closed hclosed]
        exact ⟨rfl, rfl, rfl, .inl rfl⟩
    | false =>
        -- The first closing call closes the session, and may be dropped after that.
        have hunclosed : ¬ (TransportOperation.closeShell = .closeShell ∧ s.closed = true) :=
          fun h => by cases hclosed.symm.trans h.2
        have hspec := once_session (p := p) (a := (s.inner, s.closed)) hunclosed script turns
        rcases closeShell_open (p := p) hclosed script turns with ⟨hinner, hmarked, _, _, hend⟩
        rw [hcall, show spec = _ from hspec]
        simp only [perform, returns_apply]
        refine ⟨hinner, ?_, rfl, ?_⟩
        · rw [hmarked]
          simp only [decide_true, Bool.or_true]
        · rcases hend with hsame | hdropped
          · exact .inl (congrArg noBytes hsame)
          · exact .inr ⟨rfl, hdropped.noBytes⟩
  · -- Any other call is one on the session.
    have hunclosed : ¬ (op = .closeShell ∧ s.closed = true) := fun h => hop h.1
    have hspec := once_session (p := p) (a := (s.inner, s.closed)) hunclosed script turns
    have hcall : call = SshPsrpTransport.session (perform (OutOfProc.transport p) op)
        ⟨s, script, turns⟩ := congrFun (perform_session hop) _
    rw [hcall, show spec = _ from hspec]
    refine ⟨rfl, ?_, rfl, .inl rfl⟩
    simp only [hop, decide_false, Bool.or_false]
    rfl

/-- A run does to the session what it does to one that is closed once. -/
theorem play_once (calls : List (Call Answer TransportOperation)) (hinner : s.inner = a.1)
    (hclosed : s.closed = a.2) :
    let run := play (perform (SshPsrpTransport.transport p)) calls s
    let spec := play (once p) calls a
    run.2.inner = spec.2.1 ∧ List.Forall₂ Agrees run.1 spec.1 := by
  induction calls generalizing s a with
  | nil => exact ⟨hinner, .nil⟩
  | cons call calls ih =>
      rcases perform_once (p := p) hinner hclosed call.operation call.script call.turns
        with ⟨hinner', hclosed', hagrees⟩
      rcases ih hinner' hclosed' with ⟨hrest, hall⟩
      exact ⟨hrest, .cons hagrees hall⟩

end Simulation

section Connections

/-- What was asked for to end the connection, by the calls so far. -/
structure TornDown (past : List (TransportOperation × Exit PsrpError Bytes))
    (s : SshPsrpTransport) : Prop where
  /-- Every call marks the transport, also one that is dropped. -/
  marked : s.closed = true ↔ ∃ x, (.closeShell, x) ∈ past
  torn : s.torn <+: teardown
  opened : s.closed = false → s.torn = []
  whole : s.closed = true → s.torn = teardown ∨ ∃ x, (.closeShell, x) ∈ past ∧ Dropped x

theorem TornDown.snoc {past : List (TransportOperation × Exit PsrpError Bytes)}
    (h : TornDown past s) (op : TransportOperation) :
    wp (perform (SshPsrpTransport.transport p) op) (fun x t => TornDown (past ++ [(op, x)]) t) s := by
  intro script turns
  by_cases hop : op = .closeShell
  · subst hop
    have hcall : perform (SshPsrpTransport.transport p) .closeShell ⟨s, script, turns⟩
        = (noBytes (SshPsrpTransport.closeShell p ⟨s, script, turns⟩).1,
          (SshPsrpTransport.closeShell p ⟨s, script, turns⟩).2) := returns_apply _ _
    rw [hcall]
    have hlast : ∀ x : Exit PsrpError Bytes,
        (TransportOperation.closeShell, x) ∈ past ++ [(.closeShell, x)] := fun x =>
      List.mem_append_right _ (List.mem_singleton_self _)
    cases hclosed : s.closed with
    | true =>
        rw [closeShell_closed hclosed]
        refine ⟨iff_of_true hclosed ⟨_, hlast _⟩, h.torn, h.opened, fun _ => ?_⟩
        rcases h.whole hclosed with hall | ⟨x, hmem, hx⟩
        · exact .inl hall
        · exact .inr ⟨x, List.mem_append_left _ hmem, hx⟩
    | false =>
        rcases closeShell_open (p := p) hclosed script turns
          with ⟨_, hmarked, ⟨steps, hsteps, htorn⟩, hend, _⟩
        -- Nothing was torn down before the first call.
        rw [h.opened hclosed, List.nil_append] at htorn hend
        refine ⟨iff_of_true hmarked ⟨_, hlast _⟩, ?_, fun hopen => ?_, fun _ => ?_⟩
        · exact htorn ▸ hsteps
        · cases hmarked.symm.trans hopen
        · exact hend.symm.imp_right fun hx => ⟨_, hlast _, hx.noBytes⟩
  · rw [congrFun (perform_session hop) _]
    have hbefore : ∀ x y : Exit PsrpError Bytes, (TransportOperation.closeShell, x)
        ∈ past ++ [(op, y)] ↔ (.closeShell, x) ∈ past := by
      intro x y
      rw [List.mem_append, List.mem_singleton]
      exact or_iff_left fun heq => hop (congrArg Prod.fst heq).symm
    refine ⟨?_, h.torn, h.opened, fun hclosed => ?_⟩
    · simp only [hbefore]
      exact h.marked
    · simp only [hbefore]
      exact h.whole hclosed

/-- In every run of calls, whichever are dropped: the transport does to its
    session what a session does that is closed once, and its calls end the same
    way, but that closing may be dropped while the connection is torn down; the
    first call to close marks the transport, also when it is dropped; and the
    connection is torn down in order and at most once, not before, and wholly
    unless a call to close was dropped. -/
theorem closed_once (p : PacketPlatform) (ackTimeout : Nat)
    (calls : List (Call Answer TransportOperation)) :
    let run := play (perform (SshPsrpTransport.transport p)) calls (SshPsrpTransport.new ackTimeout)
    let spec := play (once p) calls (OutOfProcSession.new.withAckTimeout ackTimeout, false)
    (run.2.inner = spec.2.1 ∧ List.Forall₂ Agrees run.1 spec.1)
      ∧ (run.2.closed = true ↔ ∃ x, (.closeShell, x) ∈ run.1)
      ∧ run.2.torn <+: teardown
      ∧ (run.2.closed = false → run.2.torn = [])
      ∧ (run.2.closed = true →
        run.2.torn = teardown ∨ ∃ x, (.closeShell, x) ∈ run.1 ∧ Dropped x) := by
  intro run spec
  have hstart : TornDown [] (SshPsrpTransport.new ackTimeout) := by
    refine ⟨iff_of_false Bool.false_ne_true ?_, List.nil_prefix, fun _ => rfl, fun h => by cases h⟩
    rintro ⟨_, hmem⟩
    cases hmem
  have hrun : TornDown run.1 run.2 := play_run TornDown (fun _ op _ h => h.snoc op) calls hstart
  exact ⟨play_once calls rfl rfl, hrun.marked, hrun.torn, hrun.opened, hrun.whole⟩

/-- A fragment is sent and acknowledged, the transport is closed, and closed again. -/
def closingCalls : List (Call Answer TransportOperation) :=
  let line := fun packet : OutOfProc.Packet => packet.toLine.toUtf8
  [⟨.sendFragment [1], [.answer .done, .answer (.chunk (line (.dataAck Uuid.nil)))], 9⟩,
    ⟨.closeShell, [.answer .done, .answer (.chunk (line (.closeAck Uuid.nil))),
      .answer .done, .answer .done, .answer .done], 9⟩,
    ⟨.closeShell, [], 9⟩]

/-- The connection is torn down wholly, by the first call. -/
theorem closed_once_wholly :
    let run := play (perform (SshPsrpTransport.transport .basic)) closingCalls
      (SshPsrpTransport.new 60)
    run.1 = [(.sendFragment [1], .ok []), (.closeShell, .ok []), (.closeShell, .ok [])]
      ∧ run.2.closed = true ∧ run.2.torn = teardown := by
  intro run
  have hended : run.1
      = [(.sendFragment [1], .ok []), (.closeShell, .ok []), (.closeShell, .ok [])] := by
    decide +kernel
  rcases closed_once .basic 60 closingCalls with ⟨_, hmarked, _, _, hwhole⟩
  have hclosed : run.2.closed = true := by
    refine hmarked.mpr ⟨.ok [], ?_⟩
    rw [hended]
    exact List.mem_cons_of_mem _ List.mem_cons_self
  refine ⟨hended, hclosed, ?_⟩
  rcases hwhole hclosed with htorn | ⟨x, hmem, hdropped⟩
  · exact htorn
  · -- Neither call was dropped.
    have hok : x = .ok [] := by
      have hmem : (TransportOperation.closeShell, x) ∈ run.1 := hmem
      rw [hended] at hmem
      simpa using hmem
    subst hok
    rcases hdropped with ⟨n, h⟩ | h <;> cases h

end Connections

end Ssh

end Psrp

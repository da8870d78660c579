import Psrp.Theory.Pool.Receive
import Psrp.Theory.Pool.Deeds

/-!
# Runs of a Pool

What the operations of a pool do to it, in any order and however each of them
ends.

`Move` lists it: the deeds and handovers of a read, a message that is sent, a
key pair that is published, a key given from outside, a step of the state
machine, a program of the transport that sends nothing, and the notes of a
receive loop. An operation that is dropped leaves the pool where some moves
lead, and perhaps one deed that did not get through (`Lives`).

Everything that is proved of runs is proved by cases on moves.

## Main definitions

* `Move`, `Moves`: What operations do to a pool.
* `Lives`: Where an operation leaves a pool.
* `PoolOperation`, `perform`: The operations.

## Theorems

* `wp_perform`: Every operation moves the pool.
* `play_moves`: What moves keep holds of every run.
-/

namespace Psrp

namespace RunspacePool

open Async (wp wp_bind wp_mono Ends Turn Call play)
open Relation (ReflTransGen)

variable {τ α β γ : Type} {d : Driver τ} {s t u : RunspacePool τ}

section Moves

/-- The types of the messages that are sent with a deed of their own. -/
def isReserved : MessageType → Bool
  | .publicKey | .runspacePoolHostResponse | .pipelineHostResponse => true
  | _ => false

/-- The notes of a receive loop. -/
def isRemark : PoolEvent → Bool
  | .fired | .dropped | .signalling | .signalled | .raised _ => true
  | _ => false

/-- Programs of the transport that neither send a message nor receive one. -/
inductive Aside (d : Driver τ) (v v' : τ) : Prop
  | stop (x) : Ran d.transport.signalStop x v v' → Aside d v v'
  | close (x) : Ran d.transport.closeShell x v v' → Aside d v v'
  | disconnect (x) : Ran d.transport.disconnectShell x v v' → Aside d v v'

/-- One thing that happens to a pool. -/
inductive Move (d : Driver τ) (s : RunspacePool τ) : RunspacePool τ → Prop
  | deed {t : RunspacePool τ} {o : Fate} : o ≠ .dropped → Deed d o s t → Move d s t
  | handed {t : RunspacePool τ} {msg : PsrpMessage} : Handover d msg s t → Move d s t
  /-- A message of another kind is sent, to the pool or to a pipeline. -/
  | sent {t : RunspacePool τ} {q : Bytes → Prog τ Unit} {mt pid body} {o : Fate} :
      isReserved mt = false → q = d.transport.sendFragment ∨ q = carrier d mt pid →
      Sends q mt pid body s o t → Move d s t
  /-- A key pair is published because the caller wants a key. -/
  | published {t : RunspacePool τ} {o : Fate} : s.sessionKey = none → s.pendingClientKey = none →
      Publishes d s o t → Move d s t
  | injected (key) : Move d s (setSessionKey key s)
  | turned (machine : RunspacePoolStateMachine) (closed : Bool) :
      machine.rpid = s.machine.rpid → Move d s { s with machine, closed }
  | aside (v) : Aside d s.transport v → Move d s { s with transport := v }
  | remarked (e) : isRemark e = true → Move d s (s.note e)
  /-- A read was dropped because a token fired. -/
  | interrupted {t : RunspacePool τ} : Deed d .dropped s t →
      Move d s ((t.note .fired).note .dropped)

/-- Anything that happens to a pool. -/
abbrev Moves (d : Driver τ) : RunspacePool τ → RunspacePool τ → Prop := ReflTransGen (Move d)

/-- Where an operation leaves a pool that is dropped on the way. -/
def Abandoned (d : Driver τ) (s t : RunspacePool τ) : Prop :=
  ∃ u, Moves d s u ∧ (u = t ∨ Deed d .dropped u t)

/-- Where an operation leaves a pool. -/
def Lives (d : Driver τ) (s : RunspacePool τ) : Exit PsrpError α → RunspacePool τ → Prop :=
  Ends (Abandoned d s) (fun _ => Moves d s) fun _ => Moves d s

theorem Deeds.moves (h : Deeds d s t) : Moves d s t := by
  induction h with
  | refl => exact .refl
  | tail _ hdeed ih => exact ih.tail (.deed (o := .through) nofun hdeed)

theorem Abandoned.after (h : Moves d s t) (h' : Abandoned d t u) : Abandoned d s u := by
  rcases h' with ⟨v, hmoves, hlast⟩
  exact ⟨v, h.trans hmoves, hlast⟩

theorem Lives.after {x : Exit PsrpError α} (h : Moves d s t) (h' : Lives d t x u) :
    Lives d s x u :=
  Ends.mono h' (fun _ => Abandoned.after h) (fun _ _ => h.trans) fun _ _ => h.trans

theorem Busy.moves {o : Fate} (ho : o ≠ .dropped) (h : Busy d s o t) : Moves d s t := by
  cases h with
  | through hdeeds => exact hdeeds.moves
  | stopped hne hdeeds hdeed => exact hdeeds.moves.tail (.deed ho hdeed)
  | idle hdeeds => exact absurd rfl ho

theorem Busy.abandoned (h : Busy d s .dropped t) : Abandoned d s t := by
  cases h with
  | stopped hne hdeeds hdeed => exact ⟨_, hdeeds.moves, Or.inr hdeed⟩
  | idle hdeeds => exact ⟨_, hdeeds.moves, Or.inl rfl⟩

end Moves

section Programs

/-- A program that only moves the pool. -/
def Moving (d : Driver τ) (q : Prog (RunspacePool τ) α) : Prop := ∀ s, wp q (Lives d s) s

theorem moving_pure (a : α) : Moving d (pure a : Prog (RunspacePool τ) α) :=
  fun _ => Async.wp_pure .refl

theorem moving_throw (e : PsrpError) : Moving d (Async.throw e : Prog (RunspacePool τ) α) :=
  fun _ => Async.wp_throw .refl

theorem moving_lift (r : Except PsrpError α) : Moving d (Async.lift r : Prog (RunspacePool τ) α) :=
  fun _ => Async.wp_lift (fun _ _ => .refl) fun _ _ => .refl

theorem moving_get : Moving d (Async.get : Prog (RunspacePool τ) (RunspacePool τ)) :=
  fun _ => Async.wp_get .refl

theorem moving_bind {q : Prog (RunspacePool τ) α} {f : α → Prog (RunspacePool τ) β}
    (h : Moving d q) (hf : ∀ a, Moving d (f a)) : Moving d (q >>= f) :=
  fun s => Async.wp_seq (h s) (fun _ h => h) (fun _ _ h => h) fun a t ht =>
    wp_mono (hf a t) fun _ _ => Lives.after ht

/-- The same when what follows depends on where the first part leads. -/
theorem wp_lives {q : Prog (RunspacePool τ) α} {f : α → Prog (RunspacePool τ) β}
    (h : wp q (Lives d s) s) (hf : ∀ a t, Moves d s t → wp (f a) (Lives d t) t) :
    wp (q >>= f) (Lives d s) s :=
  Async.wp_seq h (fun _ h => h) (fun _ _ h => h) fun a t ht =>
    wp_mono (hf a t ht) fun _ _ => Lives.after ht

theorem moving_ite {b : Prop} [Decidable b] {q r : Prog (RunspacePool τ) α} (h : Moving d q)
    (h' : Moving d r) : Moving d (if b then q else r) := by
  by_cases hb : b
  · rw [if_pos hb]
    exact h
  · rw [if_neg hb]
    exact h'

theorem moving_modify {f : RunspacePool τ → RunspacePool τ} (h : ∀ s, Move d s (f s)) :
    Moving d (Async.modify f) := fun s => Async.wp_modify (.single (h s))

theorem moving_remark {e : PoolEvent} (he : isRemark e = true) :
    Moving d (record e : Prog (RunspacePool τ) Unit) := moving_modify fun _ => .remarked e he

/-- A change of the state machine. -/
theorem moving_turn {f : RunspacePool τ → Except PsrpError α × RunspacePool τ}
    (h : ∀ s, Move d s (f s).2) : Moving d (Async.update f) := by
  intro s
  have hs := h s
  refine Async.wp_update (fun a t ht => ?_) fun e t ht => ?_
  · rw [ht] at hs
    exact .single hs
  · rw [ht] at hs
    exact .single hs

theorem moving_attempt {q : Prog (RunspacePool τ) α} (h : Moving d q) :
    Moving d (Async.attempt q) := by
  intro s
  refine Async.wp_attempt (wp_mono (h s) fun x t hx => ?_)
  cases x <;> exact hx

theorem moving_loop {body : β → Prog (RunspacePool τ) (Turn β γ)} (h : ∀ b, Moving d (body b))
    (b : β) : Moving d (Async.loop body b) := by
  intro s
  refine Async.wp_loop (fun _ t => Moves d s t) .refl (fun _ t ht => ⟨t, ht, Or.inl rfl⟩)
    fun b t ht => ?_
  refine wp_mono (h b t) fun x u hx => ?_
  have hx := hx.after ht
  cases x with
  | ok turn => cases turn <;> exact hx
  | err e => exact hx
  | cut n => exact hx
  | suspended => exact hx

theorem moving_aside {q : Prog τ α} (h : ∀ x v v', Ran q x v v' → Aside d v v') :
    Moving d (onTransport q) := by
  intro s
  refine wp_onTransport q fun x v hran => ?_
  have hmove : Moves d s { s with transport := v } := .single (.aside v (h x _ _ hran))
  cases x with
  | ok a => exact hmove
  | err e => exact hmove
  | cut n => exact ⟨_, hmove, Or.inl rfl⟩
  | suspended => exact ⟨_, hmove, Or.inl rfl⟩

/-- What ends as a move does, whatever its fate. -/
theorem lives_of_ended {R : Fate → RunspacePool τ → Prop} {x : Exit PsrpError α}
    (hR : ∀ o t, R o t → Move d s t) (h : Ended R x t) : Lives d s x t := by
  cases x with
  | ok a => exact .single (hR _ t h)
  | err e => exact .single (hR _ t h)
  | cut n => exact ⟨t, .single (hR _ t h), Or.inl rfl⟩
  | suspended => exact ⟨t, .single (hR _ t h), Or.inl rfl⟩

theorem moving_sendPsrpMessage {mt : MessageType} (hmt : isReserved mt = false) (body : Text) :
    Moving d (sendPsrpMessage d mt body) := fun _ =>
  wp_mono (wp_sendPsrpMessage mt body) fun _ _ =>
    lives_of_ended fun _ _ hsend => .sent hmt (Or.inl rfl) hsend

theorem moving_sendPipelineMessage {mt : MessageType} (hmt : isReserved mt = false) (pid : Uuid)
    (body : Text) : Moving d (sendPipelineMessage d mt pid body) := fun _ =>
  wp_mono (wp_sendPipelineMessage mt pid body) fun _ _ =>
    lives_of_ended fun _ _ hsend => .sent hmt (Or.inr rfl) hsend

theorem moving_nextMessage : Moving d (nextMessage d) := by
  intro s
  refine Async.wp_ends wp_nextMessage (fun t h => h.abandoned)
    (fun e t h => h.moves (o := .failed e) nofun) fun msg t h => ?_
  rcases h with ⟨u, hdeeds, hhand⟩
  exact hdeeds.moves.tail (.handed hhand)

theorem moving_signalTransportStop : Moving d (signalTransportStop d) :=
  moving_bind (moving_remark rfl) fun _ => moving_bind (moving_aside fun _ _ _ h => .stop _ h)
    fun _ => moving_remark rfl

theorem moving_onMessage (msg : PsrpMessage) : Moving d (Async.update (onMessage d msg)) := by
  refine moving_turn fun s => ?_
  have hrpid : (s.machine.onMessage d.platform.toPlatform msg).2.rpid = s.machine.rpid := by
    unfold RunspacePoolStateMachine.onMessage
    split
    · split
      · rfl
      · split
        · rfl
        · simp only []
          split <;> rfl
    · rfl
  exact .turned _ s.closed hrpid

end Programs

section Loops

theorem moving_isCancelled (cancel : CancellationToken) :
    Moving d (isCancelled cancel : Prog (RunspacePool τ) Bool) := by
  cases cancel with
  | never => exact moving_pure false
  | armed =>
      refine moving_bind (fun s => Async.wp_alarmed fun b => .refl) fun b => ?_
      cases b with
      | false => exact moving_bind (moving_pure ()) fun _ => moving_pure false
      | true => exact moving_bind (moving_remark rfl) fun _ => moving_pure true

/-- What a token drops is left where it stands, and that is noted. -/
theorem moving_unlessCancelled (cancel : CancellationToken) {q : Prog (RunspacePool τ) α}
    (h : Moving d q) : Moving d (unlessCancelled cancel q) := by
  cases cancel with
  | never => exact moving_bind h fun a => moving_pure (some a)
  | armed =>
      refine moving_bind (moving_isCancelled .armed) fun fired => ?_
      cases fired with
      | true => exact moving_pure none
      | false =>
          intro s
          refine wp_bind (Async.wp_guarded (wp_mono (h s) fun x t hx => ?_))
          cases x with
          | ok a => exact Async.wp_pure hx
          | err e => exact hx
          | suspended => exact hx
          | cut n =>
              cases n with
              | succ n => exact hx
              | zero =>
                  -- The read is dropped between two moves, or in the middle of one.
                  rcases hx with ⟨u, hmoves, rfl | hdeed⟩
                  · exact wp_recordThen _ (wp_recordThen _ (Async.wp_pure
                      ((hmoves.tail (.remarked .fired rfl)).tail (.remarked .dropped rfl))))
                  · exact wp_recordThen _ (wp_recordThen _ (Async.wp_pure
                      (hmoves.tail (.interrupted hdeed))))

theorem moving_readMessage : Moving d (readMessage d) := by
  refine moving_bind (moving_attempt moving_nextMessage) fun r => ?_
  cases r with
  | ok msg => exact moving_pure _
  | error e => exact moving_bind (moving_remark rfl) fun _ => moving_pure _

theorem moving_serve (pid rpid : Uuid) (cancel : CancellationToken) (signalled : Bool)
    (result : PipelineResult) : Moving d (serve d pid rpid cancel signalled result) := by
  refine moving_bind (moving_unlessCancelled _ moving_readMessage) fun selected => ?_
  cases selected with
  | none => exact moving_bind moving_signalTransportStop fun _ => moving_pure _
  | some r =>
      cases r with
      | error e => exact moving_ite (moving_throw _) (moving_throw _)
      | ok msg => exact moving_lift _

theorem moving_loopTurn (pid rpid : Uuid) (cancel : CancellationToken) (loop : LoopState) :
    Moving d (loopTurn d pid rpid cancel loop) := by
  rcases loop with ⟨signalled, result⟩
  cases signalled with
  | true => exact moving_serve pid rpid cancel true result
  | false =>
      rw [loopTurn_unsignalled]
      refine moving_bind (moving_isCancelled cancel) fun fired => moving_ite ?_ ?_
      · exact moving_bind moving_signalTransportStop fun _ => moving_serve pid rpid cancel true result
      · exact moving_serve pid rpid cancel false result

theorem moving_loops (pid rpid : Uuid) (cancel : CancellationToken) :
    Moving d (drainLoop d pid rpid cancel)
      ∧ Moving d (Async.loop (runTurn d pid rpid cancel) (false, emptyResult)) := by
  constructor
  · refine moving_loop (fun loop => ?_) _
    rw [drainTurn_eq]
    exact moving_loopTurn pid rpid cancel loop
  · refine moving_loop (fun loop => ?_) _
    rw [runTurn_eq]
    exact moving_loopTurn pid rpid cancel loop

theorem moving_metadataTurn (out : List CommandMetadata) : Moving d (metadataTurn d out) := by
  refine moving_bind moving_nextMessage fun msg => ?_
  cases hmt : msg.messageType with
  | pipelineOutput => exact moving_bind (moving_lift _) fun _ => moving_pure _
  | pipelineState =>
      cases stateFromXml d.platform.toPlatform msg.data with
      | none => exact moving_pure _
      | some state => exact moving_ite (moving_ite (moving_throw _) (moving_pure _)) (moving_pure _)
  | _ => exact moving_pure _

theorem moving_drainUntilOpened : Moving d (drainUntilOpened d) :=
  moving_loop (fun _ => moving_bind moving_nextMessage fun msg =>
    moving_bind (moving_onMessage msg) fun _ => moving_bind moving_get fun _ =>
      moving_ite (moving_pure _) (moving_pure _)) ()

theorem moving_awaitSessionKey : Moving d (awaitSessionKey d) := by
  refine moving_loop (fun _ => moving_bind moving_get fun s => moving_ite (moving_pure _) ?_) ()
  refine moving_bind moving_nextMessage fun msg => moving_ite ?_ ?_
  · exact moving_bind (moving_onMessage msg) fun _ => moving_pure _
  · exact moving_pure _

end Loops

section Operations

/-- A pipeline handle, without the pool it borrows. -/
structure Handle where
  pid : Uuid
  rpid : Uuid
  inputClosed : Bool
  deriving DecidableEq

/-- A program of a handle, on the pool it borrows. -/
def borrow (h : Handle) (q : Prog (PipelineHandle τ) α) : Prog (RunspacePool τ) α :=
  Async.zoom (fun pool => { pool, pid := h.pid, rpid := h.rpid, inputClosed := h.inputClosed })
    (fun handle _ => handle.pool) q

/-- What is done with a pool. -/
inductive PoolOperation where
  | nextMessage
  | «open»
  | requestSessionKey
  | setSessionKey (key : SessionKey)
  | runAllStreams (self : Pipeline) (pid : Uuid) (cancel : CancellationToken)
  | start (self : Pipeline) (pid : Uuid)
  | writeInput (h : Handle) (value : PsValue)
  | endInput (h : Handle)
  | collect (h : Handle) (cancel : CancellationToken)
  | stop (h : Handle)
  | getCommandMetadata (pid : Uuid) (patterns : List Text) (commandType : CommandType)
  | close

/-- Perform an operation. What it returns is not looked at. -/
def perform (d : Driver τ) : PoolOperation → Prog (RunspacePool τ) Unit
  | .nextMessage => do
    let _ ← RunspacePool.nextMessage d
    return ()
  | .open => RunspacePool.«open» d
  | .requestSessionKey => RunspacePool.requestSessionKey d
  | .setSessionKey key => Async.modify (RunspacePool.setSessionKey key)
  | .runAllStreams self pid cancel => do
    let _ ← self.runAllStreamsWithCancel d pid cancel
    return ()
  | .start self pid => do
    let _ ← self.start d pid
    return ()
  | .writeInput h value => borrow h (PipelineHandle.writeInput d value)
  | .endInput h => borrow h (PipelineHandle.endInput d)
  | .collect h cancel => do
    let _ ← borrow h (PipelineHandle.collectWithCancel d cancel)
    return ()
  | .stop h => borrow h (PipelineHandle.stop d)
  | .getCommandMetadata pid patterns commandType => do
    let _ ← RunspacePool.getCommandMetadata d pid patterns commandType
    return ()
  | .close => RunspacePool.close d

/-- A program of a handle that only moves the pool. -/
def HandleMoving (d : Driver τ) (q : Prog (PipelineHandle τ) α) : Prop :=
  ∀ h, wp q (fun x h' => Lives d h.pool x h'.pool) h

theorem handleMoving_onPool {q : Prog (RunspacePool τ) α} (h : Moving d q) :
    HandleMoving d (PipelineHandle.onPool q) := fun handle => Async.wp_zoom (h handle.pool)

theorem handleMoving_bind {q : Prog (PipelineHandle τ) α} {f : α → Prog (PipelineHandle τ) β}
    (h : HandleMoving d q) (hf : ∀ a, HandleMoving d (f a)) : HandleMoving d (q >>= f) := by
  intro handle
  refine wp_bind (wp_mono (h handle) fun x t hx => ?_)
  cases x with
  | ok a => exact wp_mono (hf a t) fun _ _ => Lives.after hx
  | err e => exact hx
  | cut n => exact hx
  | suspended => exact hx

theorem moving_borrow {q : Prog (PipelineHandle τ) α} (h : HandleMoving d q) (handle : Handle) :
    Moving d (borrow handle q) := fun s => Async.wp_zoom (h ⟨s, handle.pid, handle.rpid,
      handle.inputClosed⟩)

theorem handleMoving_endInput : HandleMoving d (PipelineHandle.endInput (τ := τ) d) := by
  intro h
  unfold PipelineHandle.endInput
  refine Async.wp_getThen ?_
  by_cases hclosed : h.inputClosed = true
  · rw [if_pos hclosed]
    exact Async.wp_pure .refl
  · rw [if_neg hclosed]
    refine Async.wp_modifyThen ?_
    exact handleMoving_onPool (moving_sendPipelineMessage rfl _ _) _

theorem handleMoving_collect (cancel : CancellationToken) :
    HandleMoving d (PipelineHandle.collectWithCancel (τ := τ) d cancel) := by
  refine handleMoving_bind handleMoving_endInput fun _ h => ?_
  refine Async.wp_getThen ?_
  exact handleMoving_onPool (moving_loops h.pid h.rpid cancel).1 h

theorem handleMoving_writeInput (value : PsValue) :
    HandleMoving d (PipelineHandle.writeInput (τ := τ) d value) := by
  intro h
  unfold PipelineHandle.writeInput
  refine Async.wp_getThen ?_
  by_cases hclosed : h.inputClosed = true
  · rw [if_pos hclosed]
    exact Async.wp_throw .refl
  · rw [if_neg hclosed]
    exact handleMoving_onPool (moving_sendPipelineMessage rfl _ _) h

/-- What the caller starts when there is neither a key nor an exchange. -/
theorem moving_requestSessionKey : Moving d (requestSessionKey d) := by
  intro s
  unfold requestSessionKey
  refine Async.wp_getThen ?_
  by_cases hkey : s.sessionKey.isSome = true
  · rw [if_pos hkey]
    exact Async.wp_pure .refl
  · rw [if_neg hkey]
    rw [Bool.not_eq_true, Option.isSome_eq_false_iff, Option.isNone_iff_eq_none] at hkey
    by_cases hpending : s.pendingClientKey.isNone = true
    · rw [if_pos hpending]
      rw [Option.isNone_iff_eq_none] at hpending
      show wp (generateClientKey >>= fun key => startExchange d key >>= fun _ => awaitSessionKey d)
        (Lives d s) s
      -- Drawing the key and publishing it is one move.
      rw [← Async.bind_assoc]
      refine wp_lives (wp_mono wp_publish fun _ _ =>
        lives_of_ended fun o t hpub => .published hkey hpending hpub) fun _ t _ => ?_
      exact moving_awaitSessionKey t
    · rw [if_neg hpending]
      exact moving_awaitSessionKey s

theorem moving_execute (actions : List Action)
    (h : ∀ action ∈ actions, isReserved action.messageType = false) :
    Moving d (execute d actions) := by
  induction actions with
  | nil => exact moving_pure ()
  | cons action actions ih =>
      refine moving_bind (moving_sendPsrpMessage (h action List.mem_cons_self) _) fun _ => ?_
      exact ih fun a ha => h a (List.mem_cons_of_mem action ha)

/-- Opening sends ordinary messages and keeps the id. -/
theorem machine_open (p : Platform) (m : RunspacePoolStateMachine) :
    (∀ action ∈ (m.open p).1, isReserved action.messageType = false)
      ∧ (m.open p).2.rpid = m.rpid := by
  unfold RunspacePoolStateMachine.open
  by_cases hstate : m.state ≠ .beforeOpen
  · rw [if_pos hstate]
    exact ⟨fun action h => (by cases h), rfl⟩
  · rw [if_neg hstate]
    refine ⟨fun action h => ?_, rfl⟩
    simp only [List.mem_cons, List.not_mem_nil, or_false] at h
    rcases h with rfl | rfl <;> rfl

theorem moving_open : Moving d («open» d) := by
  intro s
  unfold «open»
  refine wp_bind (Async.wp_update (fun actions t ht => ?_) fun e t ht => (by cases ht))
  have hopen := machine_open d.platform.toPlatform s.machine
  cases ht
  refine wp_mono (moving_bind (moving_execute _ hopen.1) (fun _ => moving_drainUntilOpened) _)
    fun _ _ => Lives.after (.single (.turned _ s.closed hopen.2))

theorem moving_close : Moving d (close d) := by
  intro s
  unfold close
  refine Async.wp_getThen ?_
  by_cases hclosed : s.closed = true
  · rw [if_pos hclosed]
    exact Async.wp_pure .refl
  · rw [if_neg hclosed]
    refine wp_bind (Async.wp_update (fun actions t ht => ?_) fun e t ht => (by cases ht))
    -- What closing asks for is nothing but a message about the pool.
    have hclose : (∀ action ∈ s.machine.close.1, isReserved action.messageType = false)
        ∧ s.machine.close.2.rpid = s.machine.rpid := by
      unfold RunspacePoolStateMachine.close
      by_cases hterminal : s.machine.isTerminal = true
      · rw [if_pos hterminal]
        exact ⟨fun action h => (by cases h), rfl⟩
      · rw [if_neg hterminal]
        refine ⟨fun action h => ?_, rfl⟩
        rw [List.mem_singleton] at h
        rw [h]
        rfl
    cases ht
    have hrest : Moving d (do
        let sendResult ← Async.attempt (execute d s.machine.close.1)
        onTransport d.transport.closeShell
        Async.modify fun s => { s with machine := s.machine.markClosed }
        Async.lift sendResult) :=
      moving_bind (moving_attempt (moving_execute _ hclose.1)) fun _ =>
        moving_bind (moving_aside fun _ _ _ h => .close _ h) fun _ =>
          moving_bind (moving_modify fun s => .turned s.machine.markClosed s.closed rfl) fun _ =>
            moving_lift _
    exact wp_mono (hrest _) fun _ _ => Lives.after (.single (.turned _ true hclose.2))

theorem moving_start (self : Pipeline) (pid : Uuid) : Moving d (self.start d pid) := by
  refine moving_ite (moving_throw _) (moving_bind moving_get fun s => ?_)
  exact moving_bind (moving_sendPipelineMessage rfl _ _) fun _ => moving_pure _

theorem moving_runAllStreamsWithCancel (self : Pipeline) (pid : Uuid)
    (cancel : CancellationToken) : Moving d (self.runAllStreamsWithCancel d pid cancel) := by
  refine moving_ite (moving_throw _) (moving_bind moving_get fun s => ?_)
  exact moving_bind (moving_sendPipelineMessage rfl _ _) fun _ => (moving_loops pid _ cancel).2

theorem moving_getCommandMetadata (pid : Uuid) (patterns : List Text) (commandType : CommandType) :
    Moving d (getCommandMetadata d pid patterns commandType) :=
  moving_bind (moving_sendPipelineMessage rfl _ _) fun _ => moving_loop moving_metadataTurn []

/-- Every operation moves the pool, and no other way of changing it exists. -/
theorem wp_perform (op : PoolOperation) : Moving d (perform d op) := by
  cases op with
  | nextMessage => exact moving_bind moving_nextMessage fun _ => moving_pure ()
  | «open» => exact moving_open
  | requestSessionKey => exact moving_requestSessionKey
  | setSessionKey key => exact moving_modify fun s => .injected key
  | runAllStreams self pid cancel =>
      exact moving_bind (moving_runAllStreamsWithCancel self pid cancel) fun _ => moving_pure ()
  | start self pid => exact moving_bind (moving_start self pid) fun _ => moving_pure ()
  | writeInput h value => exact moving_borrow (handleMoving_writeInput value) h
  | endInput h => exact moving_borrow handleMoving_endInput h
  | collect h cancel =>
      exact moving_bind (moving_borrow (handleMoving_collect cancel) h) fun _ => moving_pure ()
  | stop h => exact moving_borrow (handleMoving_onPool moving_signalTransportStop) h
  | getCommandMetadata pid patterns commandType =>
      exact moving_bind (moving_getCommandMetadata pid patterns commandType) fun _ => moving_pure ()
  | close => exact moving_close

/-- What every move keeps holds of every run, and so does what a deed keeps that
    is dropped: in every run whatever is dropped in it, and wherever. -/
theorem play_moves {I : RunspacePool τ → Prop} (hmove : ∀ s t, I s → Move d s t → I t)
    (hdropped : ∀ s t, I s → Deed d .dropped s t → I t) (cs : List (Call Answer PoolOperation))
    (h : I s) : I (play (perform d) cs s).2 := by
  have hmoves : ∀ s t, I s → Moves d s t → I t := by
    intro s t hs hst
    induction hst with
    | refl => exact hs
    | tail _ hmv ih => exact hmove _ _ ih hmv
  refine Async.play_run (fun _ s => I s) (fun _ op s hs => ?_) cs h
  refine wp_mono (wp_perform op s) fun x t hx => ?_
  cases x with
  | ok a => exact hmoves s t hs hx
  | err e => exact hmoves s t hs hx
  | cut n | suspended =>
      -- An operation that was dropped may have left a deed half done.
      rcases hx with ⟨u, hsu, rfl | hdeed⟩
      · exact hmoves s u hs hsu
      · exact hdropped u t (hmoves s u hs hsu) hdeed

end Operations

end RunspacePool

end Psrp

import Psrp.Lib.Accounts
import Psrp.Theory.Pool.Operations

/-!
# What a Pool Takes from the World

A pool reads nothing but through its transport.

A transport keeps a record of what it reads, and the record may be checked
against the script of the world (`Accounts`). When the programs of the transport
account for what they take, so does every operation of the pool over it: the
rest of what a pool takes, drawn key pairs and what its host is told, is none of
the transport's. The host is a program from outside, and may wait for anything.
It is therefore assumed to leave alone what the transport reads.

## Main definitions

* `Sourced`: The transport accounts for what it takes, and nothing else takes
  what is recorded.

## Theorems

* `accounts_perform`: Every operation of a pool accounts for what it takes.
-/

namespace Psrp

namespace RunspacePool

open Async (Accounts Turn)

variable {τ α β κ : Type} {d : Driver τ} {record : τ → List κ} {reads : Answer → List κ}

/-- The programs of the transport account for what they take, and nothing else
    takes what is recorded. -/
structure Sourced (d : Driver τ) (record : τ → List κ) (reads : Answer → List κ) : Prop where
  sendFragment : ∀ bytes, Accounts record reads [] (d.transport.sendFragment bytes)
  sendPipelineFragment : ∀ bytes pid,
    Accounts record reads [] (d.transport.sendPipelineFragment bytes pid)
  executePipeline : ∀ bytes pid, Accounts record reads [] (d.transport.executePipeline bytes pid)
  recvChunk : Accounts record reads [] d.transport.recvChunk
  signalStop : Accounts record reads [] d.transport.signalStop
  closeShell : Accounts record reads [] d.transport.closeShell
  drawn : ∀ key, reads (.drawn key) = []
  host : ∀ mi mp,
    Accounts (fun _ : Unit => ([] : List κ)) reads [] (dispatchHostCall d.host mi mp)

/-- A program of a pool that takes what its transport records. -/
abbrev Tracked (record : τ → List κ) (reads : Answer → List κ) (q : Prog (RunspacePool τ) α) :
    Prop :=
  Accounts (fun s : RunspacePool τ => record s.transport) reads [] q

section Sending

/-- What leaves the transport alone takes nothing. -/
theorem tracked_modify {f : RunspacePool τ → RunspacePool τ}
    (h : ∀ s, (f s).transport = s.transport) :
    Tracked record reads (Async.modify f : Prog (RunspacePool τ) Unit) :=
  Async.accounts_modify fun s => by rw [h, List.append_nil]

theorem tracked_update {f : RunspacePool τ → Except PsrpError α × RunspacePool τ}
    (h : ∀ s, (f s).2.transport = s.transport) :
    Tracked record reads (Async.update f : Prog (RunspacePool τ) α) :=
  Async.accounts_update fun s => by rw [h, List.append_nil]

/-- The history of a pool is none of the transport. -/
theorem tracked_record (e : PoolEvent) :
    Tracked record reads (RunspacePool.record e : Prog (RunspacePool τ) Unit) :=
  tracked_modify fun _ => rfl

/-- What the transport takes is what it records. -/
theorem tracked_onTransport {q : Prog τ α} (hq : Accounts record reads [] q) :
    Tracked record reads (onTransport q) := Async.accounts_zoom (fun _ _ => rfl) hq

/-- A frame is made without the transport. -/
theorem takeFrame_transport (mt : MessageType) (pid : Uuid) (body : Text) (s : RunspacePool τ) :
    (takeFrame mt pid body s).2.transport = s.transport := by
  unfold takeFrame
  split <;> rfl

theorem tracked_takeFrame (mt : MessageType) (pid : Uuid) (body : Text) :
    Tracked record reads (Async.update (takeFrame mt pid body) : Prog (RunspacePool τ) Frame) :=
  tracked_update (takeFrame_transport mt pid body)

variable (h : Sourced d record reads)

include h

/-- A message is sent by the transport alone. -/
theorem tracked_sendPsrpMessage (mt : MessageType) (body : Text) :
    Tracked record reads (sendPsrpMessage d mt body) :=
  Async.accounts_bind (tracked_takeFrame mt Uuid.nil body) fun frame =>
    Async.accounts_bind (tracked_onTransport (h.sendFragment frame.bytes)) fun _ =>
      tracked_record _

/-- The one that creates a pipeline has a program of its own. -/
theorem tracked_sendPipelineMessage (mt : MessageType) (pid : Uuid) (body : Text) :
    Tracked record reads (sendPipelineMessage d mt pid body) := by
  refine Async.accounts_bind (tracked_takeFrame mt pid body) fun frame => Async.accounts_ite ?_ ?_
  · exact Async.accounts_bind (tracked_onTransport (h.executePipeline frame.bytes pid)) fun _ =>
      tracked_record _
  · exact Async.accounts_bind (tracked_onTransport (h.sendPipelineFragment frame.bytes pid))
      fun _ => tracked_record _

theorem tracked_signalTransportStop : Tracked record reads (signalTransportStop d) :=
  Async.accounts_bind (tracked_record _) fun _ =>
    Async.accounts_bind (tracked_onTransport h.signalStop) fun _ => tracked_record _

/-- A key pair is drawn without a wait. -/
theorem tracked_generateClientKey :
    Tracked record reads (generateClientKey : Prog (RunspacePool τ) ClientSessionKey) := by
  refine Async.accounts_bind (Async.accounts_choose fun a key hkey => ?_) fun drawn => ?_
  · cases a with
    | drawn key' => exact h.drawn key'
    | _ => cases hkey
  · cases drawn with
    | ok key => exact Async.accounts_pure _
    | error e => exact Async.accounts_bind (tracked_record _) fun _ => Async.accounts_throw _

/-- A key pair is published with a message. -/
theorem tracked_startExchange (key : ClientSessionKey) :
    Tracked record reads (startExchange d key) :=
  Async.accounts_bind (tracked_sendPsrpMessage h _ _) fun _ => tracked_modify fun _ => rfl

theorem tracked_startExchangeUnlessPending : Tracked record reads (startExchangeUnlessPending d) :=
  Async.accounts_bind Async.accounts_get fun _ => Async.accounts_ite (Async.accounts_pure _)
    (Async.accounts_bind (tracked_generateClientKey h) fun key => tracked_startExchange h key)

theorem tracked_ensureKeyExchangeStarted : Tracked record reads (ensureKeyExchangeStarted d) :=
  Async.accounts_bind Async.accounts_get fun _ => Async.accounts_ite (Async.accounts_pure _)
    (tracked_startExchangeUnlessPending h)

/-- By induction on the answers that may be sent. -/
theorem tracked_flushTurns (key : SessionKey) (n : Nat) :
    Tracked record reads (flushTurns d key n) := by
  induction n with
  | zero => exact Async.accounts_pure _
  | succ n ih =>
      refine Async.accounts_bind Async.accounts_get fun s => ?_
      cases s.deferredHostResponses with
      | nil => exact Async.accounts_pure _
      | cons parked rest =>
          exact Async.accounts_bind (tracked_record _) fun _ =>
            Async.accounts_bind (tracked_sendPipelineMessage h _ _ _) fun _ =>
              Async.accounts_bind (tracked_modify fun _ => rfl) fun _ => ih

theorem tracked_flushDeferredHostResponses :
    Tracked record reads (flushDeferredHostResponses d) := by
  refine Async.accounts_bind Async.accounts_get fun s => ?_
  cases s.sessionKey with
  | none => exact Async.accounts_pure _
  | some key => exact tracked_flushTurns h key _

/-- By induction on the calls that are answered; an error of a send is passed over.
    -/
theorem tracked_failEach (message : String) (ps : List DeferredHostResponse) :
    Tracked record reads (failEach d message ps) := by
  induction ps with
  | nil => exact Async.accounts_pure _
  | cons parked ps ih =>
      exact Async.accounts_bind (tracked_record _) fun _ =>
        Async.accounts_bind (Async.accounts_attempt (tracked_sendPipelineMessage h _ _ _))
          fun _ => ih

theorem tracked_failDeferredHostResponses (why : PsrpError) :
    Tracked record reads (failDeferredHostResponses d why) :=
  Async.accounts_bind (tracked_update fun _ => rfl) fun taken => tracked_failEach h _ taken

end Sending

section Receiving

variable (h : Sourced d record reads)

include h

/-- Whatever becomes of the reply, only answers are sent. -/
theorem tracked_acceptEncryptedSessionKey (msg : PsrpMessage) :
    Tracked record reads (acceptEncryptedSessionKey d msg) := by
  refine Async.accounts_bind Async.accounts_get fun s => ?_
  cases s.pendingClientKey with
  | none => exact Async.accounts_pure _
  | some clientKey =>
      refine Async.accounts_bind (tracked_modify fun _ => rfl) fun _ => ?_
      cases unwrapSessionKey d.platform.toPlatform msg.data clientKey with
      | error e =>
          exact Async.accounts_bind (tracked_record _) fun _ =>
            Async.accounts_bind (tracked_failDeferredHostResponses h e) fun _ =>
              Async.accounts_throw e
      | ok key =>
          exact Async.accounts_bind (tracked_modify fun _ => rfl) fun _ =>
            tracked_flushDeferredHostResponses h

/-- The host is asked, and its answer is sent, or parked. -/
theorem tracked_handleHostCall (msg : PsrpMessage) :
    Tracked record reads (handleHostCall d msg) := by
  refine Async.accounts_bind (Async.accounts_lift _) fun call =>
    Async.accounts_bind (Async.accounts_outside (h.host _ _)) fun answer =>
      Async.accounts_bind (tracked_record _) fun _ => ?_
  -- The host may read; sending and parking take nothing.
  cases answer with
  | error e => exact tracked_sendPipelineMessage h _ _ _
  | ok value =>
      cases value with
      | none => exact Async.accounts_pure _
      | some value =>
          refine Async.accounts_ite (Async.accounts_bind Async.accounts_get fun s => ?_)
            (tracked_sendPipelineMessage h _ _ _)
          cases s.sessionKey with
          | some key => exact tracked_sendPipelineMessage h _ _ _
          | none =>
              exact Async.accounts_bind (tracked_ensureKeyExchangeStarted h) fun _ =>
                tracked_modify fun _ => rfl

omit h in
theorem tracked_hand (msg : PsrpMessage) :
    Tracked record reads (hand msg : Prog (RunspacePool τ) (Turn Unit PsrpMessage)) :=
  Async.accounts_bind (tracked_record _) fun _ => Async.accounts_pure _

/-- What becomes of a message, by its type. -/
theorem tracked_handleMessage (msg : PsrpMessage) :
    Tracked record reads (handleMessage d msg) := by
  unfold handleMessage
  cases msg.messageType with
  | runspacePoolHostCall | pipelineHostCall =>
      exact Async.accounts_bind (tracked_handleHostCall h msg) fun _ => Async.accounts_pure _
  | encryptedSessionKey =>
      exact Async.accounts_bind (tracked_acceptEncryptedSessionKey h msg) fun _ => tracked_hand msg
  | publicKeyRequest =>
      exact Async.accounts_bind (tracked_startExchangeUnlessPending h) fun _ => tracked_hand msg
  | _ => exact tracked_hand msg

omit h in
/-- A chunk is fed to the buffer. -/
theorem feedChunk_transport (chunk : Bytes) (s : RunspacePool τ) :
    (feedChunk chunk s).2.transport = s.transport := by
  unfold feedChunk
  split
  · rfl
  · split <;> rfl

/-- The only read of the transport. -/
theorem tracked_receiveChunk : Tracked record reads (receiveChunk d) :=
  Async.accounts_bind (tracked_onTransport h.recvChunk) fun chunk =>
    Async.accounts_bind (tracked_record _) fun _ => Async.accounts_bind Async.accounts_get fun _ =>
      Async.accounts_ite (tracked_hand _)
        (Async.accounts_bind (tracked_update (feedChunk_transport chunk)) fun _ =>
          Async.accounts_pure _)

/-- A turn flushes first, and reads when nothing is buffered. -/
theorem tracked_readTurn : Tracked record reads (readTurn d) := by
  refine Async.accounts_bind Async.accounts_get fun _ =>
    Async.accounts_afterwards (tracked_flushDeferredHostResponses h) ?_
  refine Async.accounts_bind (tracked_update fun s => ?_) fun popped => ?_
  · unfold popMessage
    cases s.pendingMessages <;> rfl
  · cases popped with
    | some msg => exact tracked_handleMessage h msg
    | none => exact tracked_receiveChunk h

theorem tracked_nextMessage : Tracked record reads (nextMessage d) :=
  Async.accounts_loop (fun _ => tracked_readTurn h) ()

end Receiving

section Loops

/-- The state machine reads nothing. -/
theorem tracked_onMessage (msg : PsrpMessage) :
    Tracked record reads (Async.update (onMessage d msg) : Prog (RunspacePool τ) Unit) :=
  tracked_update fun _ => rfl

/-- A token that fired is taken, and is no answer. -/
theorem tracked_isCancelled (cancel : CancellationToken) :
    Tracked record reads (isCancelled cancel : Prog (RunspacePool τ) Bool) := by
  cases cancel with
  | never => exact Async.accounts_pure _
  | armed =>
      refine Async.accounts_bind Async.accounts_alarmed fun fired => Async.accounts_ite ?_ ?_
      · exact Async.accounts_bind (tracked_record _) fun _ => Async.accounts_pure _
      · exact Async.accounts_pure _

/-- A program that is dropped when the token fires has taken what it took. -/
theorem tracked_unlessCancelled {q : Prog (RunspacePool τ) α} (cancel : CancellationToken)
    (hq : Tracked record reads q) : Tracked record reads (unlessCancelled cancel q) := by
  cases cancel with
  | never => exact Async.accounts_bind hq fun _ => Async.accounts_pure _
  | armed =>
      refine Async.accounts_bind (tracked_isCancelled _) fun fired =>
        Async.accounts_ite (Async.accounts_pure _)
          (Async.accounts_bind (Async.accounts_guarded hq) fun r => ?_)
      cases r with
      | some a => exact Async.accounts_pure _
      | none =>
          exact Async.accounts_bind (tracked_record _) fun _ =>
            Async.accounts_bind (tracked_record _) fun _ => Async.accounts_pure _

variable (h : Sourced d record reads)

include h

/-- An error of a read is a value. -/
theorem tracked_readMessage : Tracked record reads (readMessage d) := by
  refine Async.accounts_bind (Async.accounts_attempt (tracked_nextMessage h)) fun r => ?_
  cases r with
  | ok msg => exact Async.accounts_pure _
  | error e => exact Async.accounts_bind (tracked_record _) fun _ => Async.accounts_pure _

/-- What a turn selects, it has read. -/
theorem tracked_serve (pid rpid : Uuid) (cancel : CancellationToken) (signalled : Bool)
    (result : PipelineResult) : Tracked record reads (serve d pid rpid cancel signalled result) := by
  refine Async.accounts_bind (tracked_unlessCancelled _ (tracked_readMessage h)) fun selected => ?_
  cases selected with
  | none =>
      exact Async.accounts_bind (tracked_signalTransportStop h) fun _ => Async.accounts_pure _
  | some r =>
      cases r with
      | error e => exact Async.accounts_ite (Async.accounts_throw _) (Async.accounts_throw _)
      | ok msg => exact Async.accounts_lift _

/-- A turn that finds the token fired signals the stop before. -/
theorem tracked_loopTurn (pid rpid : Uuid) (cancel : CancellationToken) (loop : LoopState) :
    Tracked record reads (loopTurn d pid rpid cancel loop) := by
  rcases loop with ⟨signalled, result⟩
  cases signalled with
  | true => exact tracked_serve h pid rpid cancel true result
  | false =>
      rw [loopTurn_unsignalled]
      refine Async.accounts_bind (tracked_isCancelled cancel) fun fired => Async.accounts_ite ?_ ?_
      · exact Async.accounts_bind (tracked_signalTransportStop h) fun _ =>
          tracked_serve h pid rpid cancel true result
      · exact tracked_serve h pid rpid cancel false result

/-- Both loops, turn by turn. -/
theorem tracked_loops (pid rpid : Uuid) (cancel : CancellationToken) :
    Tracked record reads (drainLoop d pid rpid cancel)
      ∧ Tracked record reads (Async.loop (runTurn d pid rpid cancel) (false, emptyResult)) := by
  constructor
  · refine Async.accounts_loop (fun loop => ?_) _
    rw [drainTurn_eq]
    exact tracked_loopTurn h pid rpid cancel loop
  · refine Async.accounts_loop (fun loop => ?_) _
    rw [runTurn_eq]
    exact tracked_loopTurn h pid rpid cancel loop

theorem tracked_metadataTurn (out : List CommandMetadata) :
    Tracked record reads (metadataTurn d out) := by
  refine Async.accounts_bind (tracked_nextMessage h) fun msg => ?_
  cases msg.messageType with
  | pipelineOutput =>
      exact Async.accounts_bind (Async.accounts_lift _) fun _ => Async.accounts_pure _
  | pipelineState =>
      cases stateFromXml d.platform.toPlatform msg.data with
      | none => exact Async.accounts_pure _
      | some state =>
          exact Async.accounts_ite (Async.accounts_ite (Async.accounts_throw _)
            (Async.accounts_pure _)) (Async.accounts_pure _)
  | _ => exact Async.accounts_pure _

theorem tracked_drainUntilOpened : Tracked record reads (drainUntilOpened d) :=
  Async.accounts_loop (fun _ => Async.accounts_bind (tracked_nextMessage h) fun msg =>
    Async.accounts_bind (tracked_onMessage msg) fun _ => Async.accounts_bind Async.accounts_get
      fun _ => Async.accounts_ite (Async.accounts_pure _) (Async.accounts_pure _)) ()

theorem tracked_awaitSessionKey : Tracked record reads (awaitSessionKey d) := by
  refine Async.accounts_loop (fun _ => Async.accounts_bind Async.accounts_get fun s =>
    Async.accounts_ite (Async.accounts_pure _) ?_) ()
  refine Async.accounts_bind (tracked_nextMessage h) fun msg => Async.accounts_ite ?_ ?_
  · exact Async.accounts_bind (tracked_onMessage msg) fun _ => Async.accounts_pure _
  · exact Async.accounts_pure _

end Loops

section Operations

variable (h : Sourced d record reads)

include h

/-- An exchange in flight is awaited. -/
theorem tracked_requestSessionKey : Tracked record reads (requestSessionKey d) := by
  have hawait := tracked_awaitSessionKey h
  refine Async.accounts_bind Async.accounts_get fun s =>
    Async.accounts_ite (Async.accounts_pure _) (Async.accounts_ite ?_ hawait)
  exact Async.accounts_bind (tracked_generateClientKey h) fun key =>
    Async.accounts_bind (tracked_startExchange h key) fun _ => hawait

theorem tracked_execute (actions : List Action) : Tracked record reads (execute d actions) := by
  induction actions with
  | nil => exact Async.accounts_pure _
  | cons action actions ih =>
      exact Async.accounts_bind (tracked_sendPsrpMessage h _ _) fun _ => ih

theorem tracked_open : Tracked record reads («open» d) :=
  Async.accounts_bind (tracked_update fun _ => rfl) fun actions =>
    Async.accounts_bind (tracked_execute h actions) fun _ => tracked_drainUntilOpened h

/-- The transport is closed also when the message is not sent. -/
theorem tracked_close : Tracked record reads (close d) :=
  Async.accounts_bind Async.accounts_get fun _ => Async.accounts_ite (Async.accounts_pure _)
    (Async.accounts_bind (tracked_update fun _ => rfl) fun actions =>
      Async.accounts_bind (Async.accounts_attempt (tracked_execute h actions)) fun _ =>
        Async.accounts_bind (tracked_onTransport h.closeShell) fun _ =>
          Async.accounts_bind (tracked_modify fun _ => rfl) fun _ => Async.accounts_lift _)

theorem tracked_start (self : Pipeline) (pid : Uuid) :
    Tracked record reads (self.start d pid) := by
  refine Async.accounts_ite (Async.accounts_throw _)
    (Async.accounts_bind Async.accounts_get fun s => ?_)
  exact Async.accounts_bind (tracked_sendPipelineMessage h _ _ _) fun _ => Async.accounts_pure _

/-- A message and a loop. -/
theorem tracked_runAllStreamsWithCancel (self : Pipeline) (pid : Uuid)
    (cancel : CancellationToken) :
    Tracked record reads (self.runAllStreamsWithCancel d pid cancel) := by
  refine Async.accounts_ite (Async.accounts_throw _)
    (Async.accounts_bind Async.accounts_get fun s => ?_)
  exact Async.accounts_bind (tracked_sendPipelineMessage h _ _ _) fun _ =>
    (tracked_loops h pid _ cancel).2

theorem tracked_getCommandMetadata (pid : Uuid) (patterns : List Text)
    (commandType : CommandType) :
    Tracked record reads (getCommandMetadata d pid patterns commandType) :=
  Async.accounts_bind (tracked_sendPipelineMessage h _ _ _) fun _ =>
    Async.accounts_loop (tracked_metadataTurn h) []

omit h in
/-- A handle borrows its pool, and the transport of it. -/
theorem tracked_borrow {q : Prog (PipelineHandle τ) α}
    (hq : Accounts (fun handle => record handle.pool.transport) reads [] q) (handle : Handle) :
    Tracked record reads (borrow handle q) :=
  Async.accounts_zoom (fun _ _ => rfl) hq

omit h in
/-- What a handle does with its pool. -/
theorem accounts_onPool {q : Prog (RunspacePool τ) α} (hq : Tracked record reads q) :
    Accounts (fun handle : PipelineHandle τ => record handle.pool.transport) reads []
      (PipelineHandle.onPool q) := Async.accounts_zoom (fun _ _ => rfl) hq

theorem accounts_endInput :
    Accounts (fun handle : PipelineHandle τ => record handle.pool.transport) reads []
      (PipelineHandle.endInput d) :=
  Async.accounts_bind Async.accounts_get fun handle => Async.accounts_ite (Async.accounts_pure _)
    (Async.accounts_bind (Async.accounts_modify fun _ => (List.append_nil _).symm) fun _ =>
      accounts_onPool (tracked_sendPipelineMessage h _ handle.pid []))

theorem accounts_writeInput (value : PsValue) :
    Accounts (fun handle : PipelineHandle τ => record handle.pool.transport) reads []
      (PipelineHandle.writeInput d value) :=
  Async.accounts_bind Async.accounts_get fun handle => Async.accounts_ite (Async.accounts_throw _)
    (accounts_onPool (tracked_sendPipelineMessage h _ handle.pid _))

/-- The end of the input goes first. -/
theorem accounts_collect (cancel : CancellationToken) :
    Accounts (fun handle : PipelineHandle τ => record handle.pool.transport) reads []
      (PipelineHandle.collectWithCancel d cancel) :=
  Async.accounts_bind (accounts_endInput h) fun _ => Async.accounts_bind Async.accounts_get
    fun handle => accounts_onPool (tracked_loops h handle.pid _ cancel).1

/-- Every operation takes what its transport records, and nothing else of it. -/
theorem accounts_perform (op : PoolOperation) : Tracked record reads (perform d op) := by
  cases op with
  | nextMessage =>
      exact Async.accounts_bind (tracked_nextMessage h) fun _ => Async.accounts_pure _
  | «open» => exact tracked_open h
  | requestSessionKey => exact tracked_requestSessionKey h
  | setSessionKey key => exact tracked_modify fun _ => rfl
  | runAllStreams self pid cancel =>
      exact Async.accounts_bind (tracked_runAllStreamsWithCancel h self pid cancel) fun _ =>
        Async.accounts_pure _
  | start self pid =>
      exact Async.accounts_bind (tracked_start h self pid) fun _ => Async.accounts_pure _
  | writeInput handle value => exact tracked_borrow (accounts_writeInput h value) handle
  | endInput handle => exact tracked_borrow (accounts_endInput h) handle
  | collect handle cancel =>
      exact Async.accounts_bind (tracked_borrow (accounts_collect h cancel) handle) fun _ =>
        Async.accounts_pure _
  | stop handle =>
      exact tracked_borrow (accounts_onPool (tracked_signalTransportStop h)) handle
  | getCommandMetadata pid patterns commandType =>
      exact Async.accounts_bind (tracked_getCommandMetadata h pid patterns commandType) fun _ =>
        Async.accounts_pure _
  | close => exact tracked_close h

end Operations

end RunspacePool

end Psrp

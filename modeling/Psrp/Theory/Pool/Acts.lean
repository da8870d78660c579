import Psrp.Lib.Walks
import Psrp.Theory.Pool.Operations

/-!
# What a Pool Does

The operations of a pool as walks along one relation.

`Act` is finer than `Move`: it says which requests a caller can make and with
which body, and that the state machine is turned by nobody but the operations
of its own lifecycle. A message goes to the machine where it is handed over,
so one step does both; what the machine asks for is sent where it is turned,
in order and up to the first message that does not go through (`Executes`).

Whatever is dropped on the way is an act that did not get through. So every
operation walks, and a fact about every run is proved by cases on acts.

## Main definitions

* `Executes`: The messages that the machine asks for are sent.
* `Request`: What callers send, and with which body.
* `Act`: One thing that happens to a pool.

## Theorems

* `walks_perform`: Every operation walks along the acts.
* `play_acts`: What every act keeps holds of every run.
-/

namespace Psrp

namespace RunspacePool

open Async (wp wp_bind wp_mono Ends Turn Call Walks play)
open Relation (ReflTransGen)

variable {τ α β γ : Type} {d : Driver τ} {s t u : RunspacePool τ}

section Acts

/-- Messages are sent to the pool in order, up to the first that does not go
    through. -/
inductive Executes (d : Driver τ) : List Action → Fate → RunspacePool τ → RunspacePool τ → Prop
  | nil {s : RunspacePool τ} : Executes d [] .through s s
  | cons {s t u : RunspacePool τ} {a : Action} {as : List Action} {o : Fate} :
      Sends d.transport.sendFragment a.messageType Uuid.nil a.body s .through t →
      Executes d as o t u → Executes d (a :: as) o s u
  | stopped {s t : RunspacePool τ} {a : Action} {as : List Action} {o : Fate} : o ≠ .through →
      Sends d.transport.sendFragment a.messageType Uuid.nil a.body s o t →
      Executes d (a :: as) o s t

/-- The requests of callers, with what they carry. -/
inductive Request (p : Platform) : MessageType → Text → Prop
  | createPipeline (self : Pipeline) : self.commands ≠ [] →
      Request p .createPipeline (self.createPipelineXml p)
  | pipelineInput (value : PsValue) : Request p .pipelineInput (toClixml p value)
  | endOfPipelineInput : Request p .endOfPipelineInput []
  | getCommandMetadata (patterns : List Text) (commandType : CommandType) :
      Request p .getCommandMetadata (buildGetCommandMetadataBody p patterns commandType)

/-- One thing that happens to a pool, and not to its machine. -/
inductive Chore (d : Driver τ) (s : RunspacePool τ) : RunspacePool τ → Prop
  | deed {t : RunspacePool τ} {o : Fate} : Deed d o s t → Chore d s t
  | handed {t : RunspacePool τ} {msg : PsrpMessage} : Handover d msg s t → Chore d s t
  /-- A caller sends a request to a pipeline. -/
  | requested {t : RunspacePool τ} {mt : MessageType} {pid : Uuid} {body : Text} {o : Fate} :
      Request d.platform.toPlatform mt body → Sends (carrier d mt pid) mt pid body s o t →
      Chore d s t
  | injected (key : SessionKey) : Chore d s (setSessionKey key s)
  | aside (v : τ) : Aside d s.transport v → Chore d s { s with transport := v }
  | remarked (e : PoolEvent) : isRemark e = true → Chore d s (s.note e)

/-- One thing that happens to a pool. -/
inductive Act (d : Driver τ) (s : RunspacePool τ) : RunspacePool τ → Prop
  | chore {t : RunspacePool τ} : Chore d s t → Act d s t
  /-- A message is handed over, and goes to the state machine. -/
  | heard {t : RunspacePool τ} {msg : PsrpMessage} : Handover d msg s t →
      Act d s { t with machine := (t.machine.onMessage d.platform.toPlatform msg).2 }
  /-- The pool is opened, and says so to the server. -/
  | opened {t : RunspacePool τ} {o : Fate} : Executes d (s.machine.open d.platform.toPlatform).1 o
        { s with machine := (s.machine.open d.platform.toPlatform).2 } t →
      Act d s t
  /-- The pool is closed, once, and says so to the server. -/
  | closing {t : RunspacePool τ} {o : Fate} : s.closed = false → Executes d s.machine.close.1 o
        { s with closed := true, machine := s.machine.close.2 } t →
      Act d s t
  | buried : s.closed = true → Act d s { s with machine := s.machine.markClosed }
  /-- A caller wants a key. -/
  | published {t : RunspacePool τ} {o : Fate} : s.sessionKey = none → s.pendingClientKey = none →
      Publishes d s o t → Act d s t

theorem Deeds.chores (h : Deeds d s t) : ReflTransGen (Chore d) s t := h.lift id fun _ _ => .deed

theorem Busy.chores {o : Fate} (h : Busy d s o t) : ReflTransGen (Chore d) s t := by
  cases h with
  | through hdeeds => exact hdeeds.chores
  | stopped ho hdeeds hdeed => exact hdeeds.chores.tail (.deed hdeed)
  | idle hdeeds => exact hdeeds.chores

theorem acts_of_chores (h : ReflTransGen (Chore d) s t) : ReflTransGen (Act d) s t :=
  h.lift id fun _ _ => .chore

/-- What only does chores acts. -/
theorem walks_acts {q : Prog (RunspacePool τ) α} (h : Walks (Chore d) q) : Walks (Act d) q :=
  h.mono fun _ _ => .chore

/-- Sending leaves the pool as open or closed as it was. -/
theorem Sends.closed {q : Bytes → Prog τ Unit} {mt : MessageType} {pid : Uuid} {body : Text}
    {o : Fate} (h : Sends q mt pid body s o t) : t.closed = s.closed := by
  cases h with
  | through v hroom hran => rfl
  | stopped o x v ho hfate hroom hran => rfl
  | exhausted e hfull => rfl

theorem Executes.closed {actions : List Action} {o : Fate} (h : Executes d actions o s t) :
    t.closed = s.closed := by
  induction h with
  | nil => rfl
  | cons hsend hrest ih => exact ih.trans hsend.closed
  | stopped ho hsend => exact hsend.closed

theorem wp_execute (actions : List Action) :
    wp (execute d actions) (Ended fun o t => Executes d actions o s t) s := by
  induction actions generalizing s with
  | nil => exact Async.wp_pure .nil
  | cons action actions ih =>
      refine wp_andThen (wp_sendPsrpMessage _ _) (fun o t ho hsend => .stopped ho hsend)
        fun _ t hsend => ?_
      refine wp_mono ih fun x u hx => ?_
      cases x with
      | ok a => exact .cons hsend hx
      | err e => exact .cons hsend hx
      | cut n => exact .cons hsend hx
      | suspended => exact .cons hsend hx

/-- What is one step whatever its fate. -/
theorem step_of_ended {R : Fate → RunspacePool τ → Prop}
    {R' : RunspacePool τ → RunspacePool τ → Prop} {x : Exit PsrpError α}
    (hR : ∀ o t, R o t → R' s t) (h : Ended R x t) : ReflTransGen R' s t := .single <| by
  cases x with
  | ok a => exact hR _ t h
  | err e => exact hR _ t h
  | cut n => exact hR _ t h
  | suspended => exact hR _ t h

end Acts

section Programs

theorem walks_remark {e : PoolEvent} (he : isRemark e = true) :
    Walks (Chore d) (record e : Prog (RunspacePool τ) Unit) :=
  Async.walks_modify fun _ => .remarked e he

theorem walks_aside {q : Prog τ α} (h : ∀ x v v', Ran q x v v' → Aside d v v') :
    Walks (Chore d) (onTransport q) :=
  Async.walks_of_wp fun _ => wp_onTransport q fun x v hran => .single (.aside v (h x _ _ hran))

theorem walks_request {mt : MessageType} {body : Text} (h : Request d.platform.toPlatform mt body)
    (pid : Uuid) : Walks (Chore d) (sendPipelineMessage d mt pid body) :=
  Async.walks_of_wp fun _ => wp_mono (wp_sendPipelineMessage mt pid body) fun _ _ =>
    step_of_ended fun _ _ hsend => .requested h hsend

theorem walks_nextMessage : Walks (Chore d) (nextMessage d) := by
  refine Async.walks_of_wp fun s => wp_mono wp_nextMessage fun x t hx => ?_
  cases x with
  | ok msg =>
      rcases hx with ⟨u, hdeeds, hhand⟩
      exact hdeeds.chores.tail (.handed hhand)
  | err e => exact hx.chores
  | cut n => exact hx.chores
  | suspended => exact hx.chores

theorem walks_signalTransportStop : Walks (Chore d) (signalTransportStop d) :=
  Async.walks_bind (walks_remark rfl) fun _ =>
    Async.walks_bind (walks_aside fun _ _ _ h => .stop _ h) fun _ => walks_remark rfl

end Programs

section Loops

theorem walks_isCancelled (cancel : CancellationToken) :
    Walks (Chore d) (isCancelled cancel : Prog (RunspacePool τ) Bool) := by
  cases cancel with
  | never => exact Async.walks_pure false
  | armed =>
      refine Async.walks_bind Async.walks_alarmed fun fired => ?_
      by_cases hfired : fired = true
      · simp only [hfired, if_true]
        exact Async.walks_bind (walks_remark rfl) fun _ => Async.walks_pure true
      · simp only [hfired]
        exact Async.walks_bind (Async.walks_pure ()) fun _ => Async.walks_pure _

/-- What a token drops has walked as far as it came. -/
theorem walks_unlessCancelled (cancel : CancellationToken) {q : Prog (RunspacePool τ) α}
    (h : Walks (Chore d) q) : Walks (Chore d) (unlessCancelled cancel q) := by
  cases cancel with
  | never => exact Async.walks_bind h fun a => Async.walks_pure (some a)
  | armed =>
      refine Async.walks_bind (walks_isCancelled .armed) fun fired => Async.walks_ite ?_ ?_
      · exact Async.walks_pure none
      · refine Async.walks_bind (Async.walks_guarded h) fun r => ?_
        cases r with
        | some a => exact Async.walks_pure (some a)
        | none =>
            exact Async.walks_bind (walks_remark rfl) fun _ =>
              Async.walks_bind (walks_remark rfl) fun _ => Async.walks_pure none

theorem walks_readMessage : Walks (Chore d) (readMessage d) := by
  refine Async.walks_bind (Async.walks_attempt walks_nextMessage) fun r => ?_
  cases r with
  | ok msg => exact Async.walks_pure _
  | error e => exact Async.walks_bind (walks_remark rfl) fun _ => Async.walks_pure _

theorem walks_serve (pid rpid : Uuid) (cancel : CancellationToken) (signalled : Bool)
    (result : PipelineResult) : Walks (Chore d) (serve d pid rpid cancel signalled result) := by
  refine Async.walks_bind (walks_unlessCancelled _ walks_readMessage) fun selected => ?_
  cases selected with
  | none => exact Async.walks_bind walks_signalTransportStop fun _ => Async.walks_pure _
  | some r =>
      cases r with
      | error e => exact Async.walks_ite (Async.walks_throw _) (Async.walks_throw _)
      | ok msg => exact Async.walks_lift _

theorem walks_loopTurn (pid rpid : Uuid) (cancel : CancellationToken) (loop : LoopState) :
    Walks (Chore d) (loopTurn d pid rpid cancel loop) := by
  rcases loop with ⟨signalled, result⟩
  cases signalled with
  | true => exact walks_serve pid rpid cancel true result
  | false =>
      rw [loopTurn_unsignalled]
      refine Async.walks_bind (walks_isCancelled cancel) fun fired => Async.walks_ite ?_ ?_
      · exact Async.walks_bind walks_signalTransportStop fun _ =>
          walks_serve pid rpid cancel true result
      · exact walks_serve pid rpid cancel false result

theorem walks_drainLoop (pid rpid : Uuid) (cancel : CancellationToken) :
    Walks (Chore d) (drainLoop d pid rpid cancel) := by
  refine Async.walks_loop (fun loop => ?_) _
  rw [drainTurn_eq]
  exact walks_loopTurn pid rpid cancel loop

theorem walks_metadataTurn (out : List CommandMetadata) : Walks (Chore d) (metadataTurn d out) := by
  refine Async.walks_bind walks_nextMessage fun msg => ?_
  split
  · exact Async.walks_bind (Async.walks_lift _) fun _ => Async.walks_pure _
  · split
    · exact Async.walks_pure _
    · exact Async.walks_ite (Async.walks_ite (Async.walks_throw _) (Async.walks_pure _))
        (Async.walks_pure _)
  · exact Async.walks_pure _

/-- A message is read and goes to the machine. The two are one act: nothing
    can come between them, and the error of the machine ends the caller. -/
theorem walks_hear {f : PsrpMessage → Prog (RunspacePool τ) β} {g : PsrpMessage → Bool}
    (hf : ∀ msg, Walks (Act d) (f msg)) : Walks (Act d) (do
      let msg ← nextMessage d
      if g msg then
        Async.update (onMessage d msg)
      f msg) := by
  refine Async.walks_of_wp fun s => wp_bind (wp_mono wp_nextMessage fun x t hx => ?_)
  cases x with
  | err e => exact acts_of_chores hx.chores
  | cut n => exact acts_of_chores hx.chores
  | suspended => exact acts_of_chores hx.chores
  | ok msg =>
      rcases hx with ⟨u, hdeeds, hhand⟩
      by_cases hg : g msg = true
      · simp only [Async.andThen, hg, if_true]
        -- The message is given to the machine, which may refuse it after it heard it.
        have hheard := (acts_of_chores hdeeds.chores).tail (.heard hhand)
        refine wp_bind (Async.wp_update (fun a v hv => ?_) fun e v hv => ?_)
        · have hv' := congrArg Prod.snd hv
          subst hv'
          exact wp_mono ((hf msg).wp _) fun _ _ => hheard.trans
        · have hv' := congrArg Prod.snd hv
          subst hv'
          exact hheard
      · simp only [Async.andThen, hg]
        exact wp_mono ((hf msg).wp _) fun _ _ =>
          ((acts_of_chores hdeeds.chores).tail (.chore (.handed hhand))).trans

theorem walks_drainUntilOpened : Walks (Act d) (drainUntilOpened d) :=
  Async.walks_loop (fun _ => walks_hear (g := fun _ => true) fun _ =>
    Async.walks_bind Async.walks_get fun _ =>
      Async.walks_ite (Async.walks_pure _) (Async.walks_pure _)) ()

/-- The reply itself does not go to the machine. -/
theorem walks_awaitSessionKey : Walks (Act d) (awaitSessionKey d) := by
  refine Async.walks_loop (fun _ => Async.walks_bind Async.walks_get fun s =>
    Async.walks_ite (Async.walks_pure _) ?_) ()
  have hhear := walks_hear (d := d) (g := fun msg => decide (msg.messageType ≠ .encryptedSessionKey))
    (f := fun _ => (pure (.more ()) : Prog (RunspacePool τ) (Turn Unit Unit)))
    fun _ => Async.walks_pure _
  simp only [decide_eq_true_eq] at hhear
  exact hhear

end Loops

section Operations

theorem walks_open : Walks (Act d) («open» d) := by
  refine Async.walks_of_wp fun s => ?_
  unfold «open»
  refine wp_bind (Async.wp_update (fun actions t ht => ?_) fun e t ht => (by cases ht))
  cases ht
  simp only [Async.andThen]
  -- The machine is turned before anything is sent: the two are one act.
  refine wp_bind (wp_mono (wp_execute _) fun x t hx => ?_)
  have hacts : ReflTransGen (Act d) s t :=
    step_of_ended (fun o t hexecutes => .opened hexecutes) hx
  cases x with
  | ok a => exact wp_mono (walks_drainUntilOpened.wp t) fun _ _ => hacts.trans
  | err e => exact hacts
  | cut n => exact hacts
  | suspended => exact hacts

/-- What follows the message that says so: the transport is closed, and the
    machine is dead. -/
theorem wp_bury (sent : Except PsrpError Unit) (h : s.closed = true) : wp (do
      onTransport d.transport.closeShell
      Async.modify fun s => { s with machine := s.machine.markClosed }
      Async.lift sent) (fun _ t => ReflTransGen (Act d) s t) s := by
  refine wp_bind (wp_onTransport _ fun x v hran => ?_)
  -- The shell is closed first, and a call that is dropped there has not buried the pool.
  have hclosed : ReflTransGen (Act d) s { s with transport := v } :=
    .single (.chore (.aside v (.close x hran)))
  cases x with
  | err e => exact hclosed
  | cut n => exact hclosed
  | suspended => exact hclosed
  | ok a =>
      simp only [Async.andThen]
      refine Async.wp_modifyThen ?_
      have hburied := hclosed.tail (.buried h)
      exact Async.wp_lift (fun _ _ => hburied) fun _ _ => hburied

theorem walks_close : Walks (Act d) (close d) := by
  refine Async.walks_of_wp fun s => ?_
  unfold close
  refine Async.wp_getThen ?_
  by_cases hclosed : s.closed = true
  · rw [if_pos hclosed]
    exact Async.wp_pure .refl
  · rw [if_neg hclosed]
    refine wp_bind (Async.wp_update (fun actions t ht => ?_) fun e t ht => (by cases ht))
    cases ht
    simp only [Async.andThen]
    refine wp_bind (Async.wp_attempt (wp_mono (wp_execute _) fun x t hx => ?_))
    -- Also when the messages do not go out, the shell is closed and the machine marked.
    have hacts : ReflTransGen (Act d) s t := step_of_ended
      (fun o t hexecutes => .closing (Bool.eq_false_iff.mpr hclosed) hexecutes) hx
    cases x with
    | ok a => exact wp_mono (wp_bury (.ok a) (Executes.closed hx)) fun _ _ => hacts.trans
    | err e => exact wp_mono (wp_bury (.error e) (Executes.closed hx)) fun _ _ => hacts.trans
    | cut n => exact hacts
    | suspended => exact hacts

theorem walks_requestSessionKey : Walks (Act d) (requestSessionKey d) := by
  refine Async.walks_of_wp fun s => ?_
  unfold requestSessionKey
  refine Async.wp_getThen ?_
  by_cases hkey : s.sessionKey.isSome = true
  · rw [if_pos hkey]
    exact Async.wp_pure .refl
  · rw [if_neg hkey]
    rw [Bool.not_eq_true, Option.isSome_eq_false_iff, Option.isNone_iff_eq_none] at hkey
    -- A call that finds a key awaited waits for it with no pair of its own.
    by_cases hpending : s.pendingClientKey.isNone = true
    · rw [if_pos hpending]
      rw [Option.isNone_iff_eq_none] at hpending
      show wp (generateClientKey >>= fun key => startExchange d key >>= fun _ => awaitSessionKey d)
        _ s
      rw [← Async.bind_assoc]
      exact Async.wp_walks_bind wp_publish
        (fun x t hx => step_of_ended (fun o t hpub => .published hkey hpending hpub) hx)
        fun _ t _ => walks_awaitSessionKey.wp t
    · rw [if_neg hpending]
      exact walks_awaitSessionKey.wp s

/-- An empty pipeline is refused, and any other is sent. -/
theorem walks_create {self : Pipeline} {q : Uuid → Prog (RunspacePool τ) α} (pid : Uuid)
    (hq : ∀ rpid, Walks (Chore d) (q rpid)) : Walks (Chore d) (do
      if self.commands.isEmpty then Async.throw (.protocol "pipeline is empty")
      else do
        let s ← Async.get
        let rpid := s.machine.rpid
        let body := self.createPipelineXml d.platform.toPlatform
        sendPipelineMessage d .createPipeline pid body
        q rpid) := by
  by_cases hempty : self.commands.isEmpty = true
  · simp only [hempty, if_true]
    exact Async.walks_throw _
  · simp only [hempty]
    refine Async.walks_bind Async.walks_get fun s => Async.walks_bind ?_ fun _ => hq _
    exact walks_request (.createPipeline self fun hnil => hempty (by rw [hnil]; rfl)) pid

theorem walks_runAllStreamsWithCancel (self : Pipeline) (pid : Uuid)
    (cancel : CancellationToken) : Walks (Chore d) (self.runAllStreamsWithCancel d pid cancel) := by
  refine walks_create (q := fun rpid => Async.loop (runTurn d pid rpid cancel) (false, emptyResult))
    pid fun rpid => Async.walks_loop (fun loop => ?_) _
  rw [runTurn_eq]
  exact walks_loopTurn pid rpid cancel loop

theorem walks_start (self : Pipeline) (pid : Uuid) : Walks (Chore d) (self.start d pid) :=
  walks_create (q := fun rpid => pure (rpid, self.noInput)) pid fun _ => Async.walks_pure _

/-- What happens to a handle: something happens to its pool, or nothing. -/
def HandleChore (d : Driver τ) (h h' : PipelineHandle τ) : Prop :=
  h'.pool = h.pool ∨ Chore d h.pool h'.pool

theorem walks_onPool {q : Prog (RunspacePool τ) α} (h : Walks (Chore d) q) :
    Walks (HandleChore d) (PipelineHandle.onPool q) :=
  Async.walks_zoom h (fun _ => rfl) fun _ _ _ hchore => .single (Or.inr hchore)

/-- A handle borrows its pool. -/
theorem walks_borrow {q : Prog (PipelineHandle τ) α} (h : Walks (HandleChore d) q)
    (handle : Handle) : Walks (Chore d) (borrow handle q) := by
  refine Async.walks_zoom h (fun _ => rfl) fun _ t u hchore => ?_
  rcases hchore with hsame | hchore
  · rw [hsame]
  · exact .single hchore

theorem walks_writeInput (value : PsValue) :
    Walks (HandleChore d) (PipelineHandle.writeInput (τ := τ) d value) :=
  Async.walks_bind Async.walks_get fun _ => Async.walks_ite (Async.walks_throw _)
    (walks_onPool (walks_request (.pipelineInput value) _))

theorem walks_endInput : Walks (HandleChore d) (PipelineHandle.endInput (τ := τ) d) :=
  Async.walks_bind Async.walks_get fun _ => Async.walks_ite (Async.walks_pure _)
    (Async.walks_bind (Async.walks_modify fun _ => Or.inl rfl) fun _ =>
      walks_onPool (walks_request .endOfPipelineInput _))

theorem walks_collect (cancel : CancellationToken) :
    Walks (HandleChore d) (PipelineHandle.collectWithCancel (τ := τ) d cancel) :=
  Async.walks_bind walks_endInput fun _ => Async.walks_bind Async.walks_get fun _ =>
    walks_onPool (walks_drainLoop _ _ cancel)

/-- The operations that turn the machine. -/
def isLifecycleOperation : PoolOperation → Bool
  | .open | .requestSessionKey | .close => true
  | _ => false

/-- Every other operation does chores only. -/
theorem walks_errand {op : PoolOperation} (h : isLifecycleOperation op = false) :
    Walks (Chore d) (perform d op) := by
  cases op with
  | nextMessage => exact Async.walks_bind walks_nextMessage fun _ => Async.walks_pure ()
  | «open» => cases h
  | requestSessionKey => cases h
  | setSessionKey key => exact Async.walks_modify fun _ => .injected key
  | runAllStreams self pid cancel =>
      exact Async.walks_bind (walks_runAllStreamsWithCancel self pid cancel) fun _ =>
        Async.walks_pure ()
  | start self pid =>
      exact Async.walks_bind (walks_start self pid) fun _ => Async.walks_pure ()
  | writeInput handle value => exact walks_borrow (walks_writeInput value) handle
  | endInput handle => exact walks_borrow walks_endInput handle
  | collect handle cancel =>
      exact Async.walks_bind (walks_borrow (walks_collect cancel) handle) fun _ => Async.walks_pure ()
  | stop handle => exact walks_borrow (walks_onPool walks_signalTransportStop) handle
  | getCommandMetadata pid patterns commandType =>
      refine Async.walks_bind (Async.walks_bind ?_ fun _ => Async.walks_loop walks_metadataTurn [])
        fun _ => Async.walks_pure ()
      exact walks_request (.getCommandMetadata patterns commandType) pid
  | close => cases h

/-- Every operation walks along the acts. -/
theorem walks_perform (op : PoolOperation) : Walks (Act d) (perform d op) := by
  by_cases h : isLifecycleOperation op = true
  · cases op with
    | «open» => exact walks_open
    | requestSessionKey => exact walks_requestSessionKey
    | close => exact walks_close
    | _ => cases h
  · exact walks_acts (walks_errand (Bool.eq_false_iff.mpr h))

/-- What every act keeps holds of every run: in every order of operations,
    whatever is dropped in it and wherever. -/
theorem play_acts {I : RunspacePool τ → Prop} (hact : ∀ s t, I s → Act d s t → I t)
    (cs : List (Call Answer PoolOperation)) (h : I s) : I (play (perform d) cs s).2 :=
  Async.play_walks walks_perform hact cs h

end Operations

end RunspacePool

end Psrp

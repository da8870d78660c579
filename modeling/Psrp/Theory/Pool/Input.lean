import Psrp.Core.Winrm
import Psrp.Theory.Pool.Mock
import Psrp.Theory.Pool.Operations

/-!
# The Input of a Pipeline

What is sent for the input of a pipeline, in which order, and what is on its way
when the results are drained.

A handle has one flag for two things: that its pipeline takes no input, and that
the end of the input was asked for. The flag goes up before the end is sent, so
nothing can be sent after it and it cannot be sent twice, whatever fails. It
stays up when that send fails. The next one who asks for the end is then told
that all is well, and the next one is the call that drains.

`InputTrace` says what the events about input are at every moment: some objects,
then perhaps an end, and whether that went through. A run is followed by it
alone, because a drain answers the server and sends no input (`OnlyAnswers`).

## Main definitions

* `concerns`, `isInputEvent`: Events about messages of some type.
* `OnlyAnswers`: What has happened to a pool that only answers the server.
* `InputTrace`, `Kept`: The events about input, and the handle they belong to.
* `HandleOperation`, `performInput`: What is done with a handle.
* `EndsSent`: Every end that was asked for went through.
* `DrainStarts`: Where the results begin to be drained.
* `InputProtocol`: What is expected of the events of a handle.

## Theorems

* `Deed.answers`, `stays_drainLoop`: A drain sends no input.
* `wp_sendInput`: What a send leaves behind.
* `play_kept`: A run of a handle.
* `input_protocol_iff`: When a run does what is expected.
-/

namespace Psrp

namespace RunspacePool

open Async (wp wp_bind wp_mono Ends Turn Call play Stays)
open Relation (ReflTransGen)

variable {τ α : Type} {d : Driver τ} {s t u : RunspacePool τ}

/-- An event about a message of some type: it is given to the transport, or it
    went through. -/
def concerns (mt : MessageType) : PoolEvent → Bool
  | .sending f | .sent f => f.msg.messageType = mt
  | _ => false

/-- An event about the input of a pipeline. -/
def isInputEvent (e : PoolEvent) : Bool :=
  concerns .pipelineInput e || concerns .endOfPipelineInput e

section Answering

/-- The parked answers are responses. -/
def Reserved (s : RunspacePool τ) : Prop :=
  ∀ p ∈ s.deferredHostResponses, isReserved p.responseType = true

/-- Since some state there was no event about input. -/
structure OnlyAnswers (s t : RunspacePool τ) : Prop where
  grown : ∃ new, t.history = s.history ++ new ∧ ∀ e ∈ new, isInputEvent e = false
  reserved : Reserved t

theorem OnlyAnswers.refl (hs : Reserved s) : OnlyAnswers s s :=
  ⟨⟨[], (List.append_nil _).symm, fun _ he => by cases he⟩, hs⟩

/-- What leaves the history alone, and parks nothing new. -/
theorem OnlyAnswers.congr (h : OnlyAnswers s t) (hhistory : u.history = t.history)
    (hparked : ∀ p ∈ u.deferredHostResponses, p ∈ t.deferredHostResponses) : OnlyAnswers s u := by
  refine ⟨?_, fun p hp => h.reserved p (hparked p hp)⟩
  rw [hhistory]
  exact h.grown

theorem OnlyAnswers.note (h : OnlyAnswers s t) {e : PoolEvent} (he : isInputEvent e = false) :
    OnlyAnswers s (t.note e) := by
  rcases h.grown with ⟨new, hnew, hquiet⟩
  refine ⟨⟨new ++ [e], ?_, fun e' he' => ?_⟩, h.reserved⟩
  · change t.history ++ [e] = _
    rw [hnew, List.append_assoc]
  · rcases List.mem_append.mp he' with hold | hlast
    · exact hquiet e' hold
    · rw [List.mem_singleton.mp hlast]
      exact he

theorem OnlyAnswers.parked (h : OnlyAnswers s t) {p : DeferredHostResponse}
    (hp : isReserved p.responseType = true) : OnlyAnswers s (park p t) := by
  have hnoted := h.note (e := .parked p) rfl
  refine ⟨hnoted.grown, fun q hq => ?_⟩
  rcases List.mem_append.mp hq with hold | hlast
  · exact h.reserved q hold
  · rw [List.mem_singleton.mp hlast]
    exact hp

theorem OnlyAnswers.refused (h : OnlyAnswers s t) (e : PsrpError) : OnlyAnswers s (refuse e t) :=
  (h.note (e := .refused e) rfl).congr rfl fun _ hp => by cases hp

/-- A response is no input. -/
theorem concerns_of_reserved {mt : MessageType} (hmt : isReserved mt = true) (f : Frame)
    (hf : f.msg.messageType = mt) :
    isInputEvent (.sending f) = false ∧ isInputEvent (.sent f) = false := by
  have hnot : isInputEvent (.sending f) = false := by
    change (decide (f.msg.messageType = .pipelineInput)
      || decide (f.msg.messageType = .endOfPipelineInput)) = false
    rw [hf]
    cases mt <;> first | rfl | cases hmt
  exact ⟨hnot, hnot⟩

theorem Sends.answers {q : Bytes → Prog τ Unit} {mt : MessageType} {pid : Uuid} {body : Text}
    {o : Fate} (hsend : Sends q mt pid body t o u) (hmt : isReserved mt = true)
    (h : OnlyAnswers s t) : OnlyAnswers s u := by
  have hframe := concerns_of_reserved hmt (frame mt pid body t) rfl
  have hbegun : ∀ v, OnlyAnswers s (begun (frame mt pid body t) v t) := fun v =>
    (h.note hframe.1).congr rfl fun _ hp => hp
  cases hsend with
  | through v hroom hran => exact (hbegun v).note hframe.2
  | stopped o x v ho hfate hroom hran => exact hbegun v
  | exhausted e hfull => exact h.note rfl

theorem Publishes.answers {o : Fate} (hpub : Publishes d t o u) (h : OnlyAnswers s t) :
    OnlyAnswers s u := by
  cases hpub with
  | started key v hsend => exact ((hsend.answers rfl h).note rfl).congr rfl fun _ hp => hp
  | stopped key o v ho hsend => exact hsend.answers rfl h
  | keyless e => exact h.note rfl

theorem FailsEach.answers {message : String} {ps : List DeferredHostResponse} {o : Fate}
    (hfails : FailsEach d message ps o t u) (hps : ∀ p ∈ ps, isReserved p.responseType = true)
    (h : OnlyAnswers s t) : OnlyAnswers s u := by
  induction hfails with
  | nil s => exact h
  | cons hne hsend hrest ih =>
      refine ih (fun p hp => hps p (List.mem_cons_of_mem _ hp)) ?_
      exact hsend.answers (hps _ List.mem_cons_self) (h.note rfl)
  | dropped hsend => exact hsend.answers (hps _ List.mem_cons_self) (h.note rfl)

theorem Took.answers {msg : PsrpMessage} (htook : Took msg t u) (h : OnlyAnswers s t) :
    OnlyAnswers s u := by
  rcases htook with ⟨_, rest, _, rfl⟩
  exact (h.note rfl).congr rfl fun _ hp => hp

theorem OnlyAnswers.fed (h : OnlyAnswers s t) {chunk : Bytes} {v : τ} {r : Except PsrpError Unit}
    (hfeed : feedChunk chunk (RunspacePool.note (.chunk chunk) { t with transport := v })
      = (r, u)) : OnlyAnswers s u := by
  rcases feedChunk_eq chunk (RunspacePool.note (.chunk chunk) { t with transport := v })
    with ⟨r', pending, heq⟩
  rw [hfeed] at heq
  subst heq
  exact (h.note rfl).congr rfl fun _ hp => hp

/-- Nothing a read does on its way is about input. -/
theorem Deed.answers {o : Fate} (hdeed : Deed d o t u) (h : OnlyAnswers s t) : OnlyAnswers s u := by
  -- Responses to host calls are among the types that no handle sends.
  have hcall : ∀ mt, isReserved (hostResponseType mt) = true := by
    intro mt
    unfold hostResponseType
    split <;> rfl
  cases hdeed with
  | unread hsettled ho hfate hran => exact h.congr rfl fun _ hp => hp
  | fed hsettled hpending hran hfeed => exact h.fed hfeed
  | unfed hsettled hpending hran hfeed => exact h.fed hfeed
  | flushed hparked hkey hsend =>
      rename_i v p ps key
      have hp : isReserved p.responseType = true :=
        h.reserved p (hparked ▸ List.mem_cons_self)
      have hsent := (hsend.answers hp (h.note rfl)).note (e := .flushed p) rfl
      exact hsent.congr rfl fun _ hp => List.mem_of_mem_tail hp
  | unflushed ho hparked hkey hsend =>
      exact hsend.answers (h.reserved _ (hparked ▸ List.mem_cons_self)) (h.note rfl)
  | undecodable htook hmt hdecode => exact htook.answers h
  | asking htook hmt => exact htook.answers h
  | silent htook hmt hdecode hwrites => exact (htook.answers h).note rfl
  | replied htook hmt hdecode hwants hreply hsend =>
      exact hsend.answers (hcall _) ((htook.answers h).note rfl)
  | parked htook hmt hdecode hwants hsecure hkey hpending =>
      exact ((htook.answers h).note rfl).parked (hcall _)
  | parkedFirst htook hmt hdecode hwants hsecure hkey hpending hpub =>
      exact (hpub.answers ((htook.answers h).note rfl)).parked (hcall _)
  | unparked ho htook hmt hdecode hwants hsecure hkey hpending hpub =>
      exact hpub.answers ((htook.answers h).note rfl)
  | accepted htook hmt hpending hunwrap =>
      exact ((htook.answers h).note rfl).congr rfl fun _ hp => hp
  | refused htook hmt hpending hunwrap hfails =>
      exact hfails.answers h.reserved ((htook.answers h).refused _)
  | refusing htook hmt hpending hunwrap hfails =>
      exact hfails.answers h.reserved ((htook.answers h).refused _)
  | requested htook hmt hpending hpub => exact hpub.answers (htook.answers h)

theorem Handover.answers {msg : PsrpMessage} (hhand : Handover d msg t u) (h : OnlyAnswers s t) :
    OnlyAnswers s u := by
  cases hhand with
  | plain htook hcall hkey hrequest => exact (htook.answers h).note rfl
  | after hsettled hmt => exact h.note rfl
  | ended hsettled hran hidle hempty hmsg =>
      rename_i v
      have hread : OnlyAnswers s { t with transport := v } := h.congr rfl fun _ hp => hp
      exact (hread.note (e := .chunk []) rfl).note (e := .handed msg) rfl

theorem Deeds.answers (hdeeds : Deeds d t u) (h : OnlyAnswers s t) : OnlyAnswers s u := by
  induction hdeeds with
  | refl => exact h
  | tail _ hdeed ih => exact hdeed.answers ih

theorem Busy.answers {o : Fate} (hbusy : Busy d t o u) (h : OnlyAnswers s t) : OnlyAnswers s u := by
  cases hbusy with
  | through hdeeds => exact Deeds.answers hdeeds h
  | stopped ho hdeeds hdeed => exact hdeed.answers (Deeds.answers hdeeds h)
  | idle hdeeds => exact Deeds.answers hdeeds h

/-- The parked answers of a pool are responses, whatever is done with it. -/
theorem Move.reserved (hmove : Move d s t) (hs : Reserved s) : Reserved t := by
  cases hmove with
  | deed ho hdeed => exact (hdeed.answers (.refl hs)).reserved
  | handed hhand => exact (hhand.answers (.refl hs)).reserved
  | sent hmt hq hsend => cases hsend <;> exact hs
  | published hkey hpending hpub => exact (hpub.answers (.refl hs)).reserved
  | injected key => exact hs
  | turned machine closed hrpid => exact hs
  | aside v haside => exact hs
  | remarked e he => exact hs
  | interrupted hdeed => exact (hdeed.answers (.refl hs)).reserved

theorem reserved_play (d : Driver τ) (past : List (Call Answer PoolOperation)) (hs : Reserved s) :
    Reserved (play (perform d) past s).2 :=
  play_moves (fun _ _ ht hmove => hmove.reserved ht)
    (fun _ _ ht hdeed => (hdeed.answers (.refl ht)).reserved) past hs

end Answering

section Draining

theorem stays_nextMessage : Stays (OnlyAnswers s) (nextMessage d) := by
  intro t ht
  refine wp_mono wp_nextMessage fun x u hx => ?_
  cases x with
  | ok msg =>
      rcases hx with ⟨v, hdeeds, hhand⟩
      exact hhand.answers (Deeds.answers hdeeds ht)
  | err e => exact Busy.answers hx ht
  | cut n => exact Busy.answers hx ht
  | suspended => exact Busy.answers hx ht

theorem stays_remark {e : PoolEvent} (he : isInputEvent e = false) :
    Stays (OnlyAnswers s) (record e : Prog (RunspacePool τ) Unit) :=
  Async.stays_modify fun _ h => h.note he

theorem stays_signalTransportStop : Stays (OnlyAnswers s) (signalTransportStop d) := by
  refine Async.stays_bind (stays_remark rfl) fun _ => Async.stays_bind ?_ fun _ => stays_remark rfl
  intro t ht
  exact wp_onTransport _ fun _ _ _ => ht.congr rfl fun _ hp => hp

theorem stays_isCancelled (cancel : CancellationToken) :
    Stays (OnlyAnswers s) (isCancelled cancel : Prog (RunspacePool τ) Bool) := by
  cases cancel with
  | never => exact Async.stays_pure false
  | armed =>
      refine Async.stays_bind Async.stays_alarmed fun fired => ?_
      cases fired with
      | false => exact Async.stays_pure false
      | true => exact Async.stays_bind (stays_remark rfl) fun _ => Async.stays_pure true

theorem stays_unlessCancelled (cancel : CancellationToken) {q : Prog (RunspacePool τ) α}
    (h : Stays (OnlyAnswers s) q) : Stays (OnlyAnswers s) (unlessCancelled cancel q) := by
  cases cancel with
  | never => exact Async.stays_bind h fun a => Async.stays_pure (some a)
  | armed =>
      refine Async.stays_bind (stays_isCancelled .armed) fun fired => ?_
      refine Async.stays_ite (Async.stays_pure none) ?_
      refine Async.stays_bind (Async.stays_guarded h) fun r => ?_
      cases r with
      | some a => exact Async.stays_pure (some a)
      | none =>
          exact Async.stays_bind (stays_remark rfl) fun _ =>
            Async.stays_bind (stays_remark rfl) fun _ => Async.stays_pure none

theorem stays_readMessage : Stays (OnlyAnswers s) (readMessage d) := by
  refine Async.stays_bind (Async.stays_attempt stays_nextMessage) fun r => ?_
  cases r with
  | ok msg => exact Async.stays_pure _
  | error e => exact Async.stays_bind (stays_remark rfl) fun _ => Async.stays_pure _

/-- A drain answers the server, and that is all it sends. -/
theorem stays_drainLoop (pid rpid : Uuid) (cancel : CancellationToken) :
    Stays (OnlyAnswers s) (drainLoop d pid rpid cancel) := by
  refine Async.stays_loop (fun loop => ?_) _
  rw [drainTurn_eq]
  -- What is left of a turn when the token has been looked at.
  have hserve : ∀ signalled result,
      Stays (OnlyAnswers s) (serve d pid rpid cancel signalled result) := by
    intro signalled result
    refine Async.stays_bind (stays_unlessCancelled _ stays_readMessage) fun selected => ?_
    rcases selected with _ | e | msg
    · exact Async.stays_bind stays_signalTransportStop fun _ => Async.stays_pure _
    · exact Async.stays_ite (Async.stays_throw _) (Async.stays_throw _)
    · exact Async.stays_lift _
  rcases loop with ⟨signalled, result⟩
  cases signalled with
  | true => exact hserve true result
  | false =>
      rw [loopTurn_unsignalled]
      refine Async.stays_bind (stays_isCancelled cancel) fun fired => Async.stays_ite ?_ ?_
      · exact Async.stays_bind stays_signalTransportStop fun _ => hserve true result
      · exact hserve false result

end Draining

section Trace

/-- What a send leaves behind: it went through or it did not, and that is on
    record. -/
def Sent (mt : MessageType) (pid : Uuid) (s : RunspacePool τ) (x : Exit PsrpError Unit)
    (t : RunspacePool τ) : Prop :=
  t.deferredHostResponses = s.deferredHostResponses
    ∧ ((x = .ok () ∧ ∃ f, f.msg.messageType = mt ∧ f.msg.pid = pid
        ∧ t.history = s.history ++ [.sending f, .sent f])
      ∨ (x ≠ .ok () ∧ (t.history = s.history ++ [.exhausted]
        ∨ ∃ f, f.msg.messageType = mt ∧ f.msg.pid = pid
          ∧ t.history = s.history ++ [.sending f])))

theorem wp_sendInput (mt : MessageType) (pid : Uuid) (body : Text) :
    wp (sendPipelineMessage d mt pid body) (Sent mt pid s) s := by
  -- What did not go through was at most started.
  have hstopped : ∀ o x t, o ≠ Fate.through → x ≠ Exit.ok () →
      Sends (carrier d mt pid) mt pid body s o t → Sent mt pid s x t := by
    intro o x t ho hx hsend
    cases hsend with
    | through v hroom hran => exact absurd rfl ho
    | stopped o y v ho hfate hroom hran =>
        exact ⟨rfl, .inr ⟨hx, .inr ⟨frame mt pid body s, rfl, rfl, rfl⟩⟩⟩
    | exhausted e hfull => exact ⟨rfl, .inr ⟨hx, .inl rfl⟩⟩
  refine wp_mono (wp_sendPipelineMessage mt pid body) fun x t hsend => ?_
  cases x with
  | ok a =>
      cases hsend with
      | through v hroom hran =>
          refine ⟨rfl, .inl ⟨rfl, frame mt pid body s, rfl, rfl, ?_⟩⟩
          exact List.append_assoc s.history [_] [_]
      | stopped o x v ho hfate hroom hran => exact absurd rfl ho
  | err e => exact hstopped (.failed e) _ t nofun nofun hsend
  | cut n => exact hstopped .dropped _ t nofun nofun hsend
  | suspended => exact hstopped .dropped _ t nofun nofun hsend

/-- The events about the input of a pipeline: some objects, and once the flag
    is up perhaps an end, which went through or not. -/
inductive InputTrace (pid : Uuid) : Bool → Bool → List PoolEvent → Prop
  | objects {es : List PoolEvent} : (∀ e ∈ es, concerns .pipelineInput e = true) →
      InputTrace pid false false es
  | ended {es : List PoolEvent} {f : Frame} : (∀ e ∈ es, concerns .pipelineInput e = true) →
      f.msg.messageType = .endOfPipelineInput → f.msg.pid = pid →
      InputTrace pid true true (es ++ [.sending f, .sent f])
  | cut {es : List PoolEvent} {f : Frame} : (∀ e ∈ es, concerns .pipelineInput e = true) →
      f.msg.messageType = .endOfPipelineInput → InputTrace pid true false (es ++ [.sending f])
  | unsent {es : List PoolEvent} : (∀ e ∈ es, concerns .pipelineInput e = true) →
      InputTrace pid true false es

/-- What a handle has done since some events, and whether the end of its input
    went through. -/
structure Kept (base : List PoolEvent) (ended : Bool) (h : PipelineHandle τ) : Prop where
  reserved : Reserved h.pool
  trace : ∃ new, h.pool.history = base ++ new
    ∧ InputTrace h.pid h.inputClosed ended (new.filter isInputEvent)

variable {base : List PoolEvent} {ended : Bool} {h : PipelineHandle τ}

/-- A handle whose pool only answers the server. -/
theorem Kept.answers (hk : Kept base ended h) (hreads : OnlyAnswers h.pool t) :
    Kept base ended { h with pool := t } := by
  rcases hk.trace with ⟨new, hnew, htrace⟩
  rcases hreads.grown with ⟨more, hmore, hquiet⟩
  refine ⟨hreads.reserved, new ++ more, ?_, ?_⟩
  · rw [hmore, hnew, List.append_assoc]
  · have hnone : more.filter isInputEvent = [] := by
      rw [List.filter_eq_nil_iff]
      intro e he
      rw [hquiet e he]
      exact Bool.false_ne_true
    rw [List.filter_append, hnone, List.append_nil]
    exact htrace

/-- One more object. -/
theorem InputTrace.snoc {pid : Uuid} {es more : List PoolEvent}
    (htrace : InputTrace pid false ended es)
    (hmore : ∀ e ∈ more, concerns .pipelineInput e = true) :
    InputTrace pid false ended (es ++ more) := by
  cases htrace with
  | objects hobjects =>
      refine .objects fun e he => ?_
      rcases List.mem_append.mp he with hold | hnew
      · exact hobjects e hold
      · exact hmore e hnew

/-- An object was sent, or not. -/
theorem Kept.object (hk : Kept base ended h) (hopen : h.inputClosed = false)
    {x : Exit PsrpError Unit} (hsent : Sent .pipelineInput h.pid h.pool x t) :
    Kept base ended { h with pool := t } := by
  rcases hk.trace with ⟨new, hnew, htrace⟩
  rw [hopen] at htrace
  have hreserved : Reserved t := by
    unfold Reserved
    rw [hsent.1]
    exact hk.reserved
  -- The handle is open, so everything on the stream so far is objects, and this is one more.
  have hgo : ∀ more, t.history = h.pool.history ++ more →
      (∀ e ∈ more.filter isInputEvent, concerns .pipelineInput e = true) →
      Kept base ended { h with pool := t } := by
    intro more hmore hobjects
    refine ⟨hreserved, new ++ more, ?_, ?_⟩
    · rw [hmore, hnew, List.append_assoc]
    · change InputTrace h.pid h.inputClosed ended _
      rw [List.filter_append, hopen]
      exact htrace.snoc hobjects
  have hobject : ∀ (f : Frame), f.msg.messageType = .pipelineInput →
      concerns .pipelineInput (.sending f) = true ∧ concerns .pipelineInput (.sent f) = true :=
    fun f hf => ⟨decide_eq_true hf, decide_eq_true hf⟩
  -- It went through, or no id was left, or it was only started.
  rcases hsent.2 with ⟨-, f, hf, -, hhistory⟩ | ⟨-, hhistory | ⟨f, hf, -, hhistory⟩⟩
  · refine hgo _ hhistory fun e he => ?_
    rcases List.mem_pair.mp (List.mem_of_mem_filter he) with rfl | rfl
    · exact (hobject f hf).1
    · exact (hobject f hf).2
  · refine hgo _ hhistory fun e he => ?_
    rw [List.filter_cons_of_neg (by exact Bool.false_ne_true), List.filter_nil] at he
    cases he
  · refine hgo _ hhistory fun e he => ?_
    rw [List.mem_singleton.mp (List.mem_of_mem_filter he)]
    exact (hobject f hf).1

/-- The end was asked for, and went through exactly if its send did. -/
theorem Kept.closed (hk : Kept base ended h) (hopen : h.inputClosed = false)
    {x : Exit PsrpError Unit} (hsent : Sent .endOfPipelineInput h.pid h.pool x t) :
    Kept base (decide (x = .ok ())) { h with pool := t, inputClosed := true } := by
  rcases hk.trace with ⟨new, hnew, htrace⟩
  rw [hopen] at htrace
  have hreserved : Reserved t := by
    unfold Reserved
    rw [hsent.1]
    exact hk.reserved
  cases htrace with
  | objects hobjects =>
      -- The end went through, or no id was left, or it was only started: the handle is closed
      -- in each case.
      rcases hsent.2 with ⟨hx, f, hf, hpid, hhistory⟩ | ⟨hx, hhistory | ⟨f, hf, hpid, hhistory⟩⟩
      · rw [decide_eq_true hx]
        refine ⟨hreserved, new ++ [.sending f, .sent f], ?_, ?_⟩
        · rw [hhistory, hnew, List.append_assoc]
        · have hkeep : [PoolEvent.sending f, .sent f].filter isInputEvent
              = [.sending f, .sent f] := by
            have hsending : isInputEvent (.sending f) = true := by
              rw [isInputEvent, Bool.or_eq_true]
              exact .inr (decide_eq_true hf)
            have hsent : isInputEvent (.sent f) = true := hsending
            rw [List.filter_cons_of_pos hsending, List.filter_cons_of_pos hsent, List.filter_nil]
          rw [List.filter_append, hkeep]
          exact .ended hobjects hf hpid
      · rw [decide_eq_false hx]
        refine ⟨hreserved, new ++ [.exhausted], ?_, ?_⟩
        · rw [hhistory, hnew, List.append_assoc]
        · rw [List.filter_append, List.filter_cons_of_neg (by exact Bool.false_ne_true),
            List.filter_nil, List.append_nil]
          exact .unsent hobjects
      · rw [decide_eq_false hx]
        refine ⟨hreserved, new ++ [.sending f], ?_, ?_⟩
        · rw [hhistory, hnew, List.append_assoc]
        · have hsending : isInputEvent (.sending f) = true := by
            rw [isInputEvent, Bool.or_eq_true]
            exact .inr (decide_eq_true hf)
          rw [List.filter_append, List.filter_cons_of_pos hsending, List.filter_nil]
          exact .cut hobjects hf

end Trace

section Runs

/-- What is done with a handle before its results are collected. -/
inductive HandleOperation where
  | writeInput (value : PsValue)
  | endInput
  | stop

/-- Perform it. -/
def performInput (d : Driver τ) : HandleOperation → Prog (PipelineHandle τ) Unit
  | .writeInput value => PipelineHandle.writeInput d value
  | .endInput => PipelineHandle.endInput d
  | .stop => PipelineHandle.stop d

/-- Every end that was asked for was sent, and the send went through. -/
def EndsSent (d : Driver τ) : List (Call Answer HandleOperation) → PipelineHandle τ → Prop
  | [], _ => True
  | c :: calls, h =>
    (c.operation = .endInput → h.inputClosed = false →
      (sendPipelineMessage d .endOfPipelineInput h.pid [] ⟨h.pool, c.script, c.turns⟩).1 = .ok ())
    ∧ EndsSent d calls (performInput d c.operation ⟨h, c.script, c.turns⟩).2.state

variable {base : List PoolEvent} {ended : Bool} {h : PipelineHandle τ}
  {script : List (Psrp.Wake Answer)} {turns : Nat}

theorem endInput_closed (hclosed : h.inputClosed = true) :
    PipelineHandle.endInput d ⟨h, script, turns⟩ = (.ok (), ⟨h, script, turns⟩) := by
  unfold PipelineHandle.endInput
  simp only [Async.bind_apply, Async.get, if_pos hclosed]
  rfl

/-- The flag goes up, and then the end is sent. -/
theorem endInput_open (hopen : h.inputClosed = false) :
    PipelineHandle.endInput d ⟨h, script, turns⟩
      = ((sendPipelineMessage d .endOfPipelineInput h.pid [] ⟨h.pool, script, turns⟩).1,
        ⟨{ h with
            pool := (sendPipelineMessage d .endOfPipelineInput h.pid []
              ⟨h.pool, script, turns⟩).2.state
            inputClosed := true },
          (sendPipelineMessage d .endOfPipelineInput h.pid [] ⟨h.pool, script, turns⟩).2.script,
          (sendPipelineMessage d .endOfPipelineInput h.pid []
            ⟨h.pool, script, turns⟩).2.turns⟩) := by
  unfold PipelineHandle.endInput
  simp only [Async.bind_apply, Async.get, hopen, Bool.false_eq_true, if_false, Async.modify,
    PipelineHandle.onPool, Async.zoom]

/-- One operation. Asking for the end raises the flag, and only then is anything
    learned of whether it went through. -/
theorem perform_kept (op : HandleOperation) (hk : Kept base ended h) :
    (op = .endInput → h.inputClosed = false →
      (performInput d op ⟨h, script, turns⟩).2.state.inputClosed = true
        ∧ Kept base (decide ((sendPipelineMessage d .endOfPipelineInput h.pid []
          ⟨h.pool, script, turns⟩).1 = .ok ())) (performInput d op ⟨h, script, turns⟩).2.state)
    ∧ (¬ (op = .endInput ∧ h.inputClosed = false) →
      (performInput d op ⟨h, script, turns⟩).2.state.inputClosed = h.inputClosed
        ∧ Kept base ended (performInput d op ⟨h, script, turns⟩).2.state) := by
  cases op with
  | endInput =>
      refine ⟨fun _ hopen => ?_, fun hnot => ?_⟩
      · rw [performInput, endInput_open hopen]
        exact ⟨rfl, hk.closed hopen (wp_sendInput _ _ _ script turns)⟩
      · -- A second end is refused before anything is sent.
        have hclosed : h.inputClosed = true :=
          Bool.eq_true_of_not_eq_false fun hopen => hnot ⟨rfl, hopen⟩
        rw [performInput, endInput_closed hclosed]
        exact ⟨rfl, hk⟩
  | writeInput value =>
      refine ⟨fun hop => (by cases hop), fun _ => ?_⟩
      have hwrite : wp (PipelineHandle.writeInput d value)
          (fun _ h' => h'.inputClosed = h.inputClosed ∧ Kept base ended h') h := by
        unfold PipelineHandle.writeInput
        refine Async.wp_getThen ?_
        -- So is an object after the end.
        by_cases hclosed : h.inputClosed = true
        · rw [if_pos hclosed]
          exact Async.wp_throw ⟨rfl, hk⟩
        · rw [if_neg hclosed]
          refine Async.wp_zoom (wp_mono (wp_sendInput _ _ _) fun x t hsent => ⟨rfl, ?_⟩)
          exact hk.object (Bool.eq_false_iff.mpr hclosed) hsent
      exact hwrite script turns
  | stop =>
      refine ⟨fun hop => (by cases hop), fun _ => ?_⟩
      have hstop : wp (PipelineHandle.stop d)
          (fun _ h' => h'.inputClosed = h.inputClosed ∧ Kept base ended h') h := by
        unfold PipelineHandle.stop PipelineHandle.onPool
        refine Async.wp_zoom ?_
        exact wp_mono (stays_signalTransportStop h.pool (.refl hk.reserved))
          fun _ _ hreads => ⟨rfl, hk.answers hreads⟩
      exact hstop script turns

/-- A run of a handle, by induction on its calls. Once the flag is up nothing
    changes any more, so what is known at the end is what the first call that
    asked for the end left behind. -/
theorem play_kept (calls : List (Call Answer HandleOperation)) (hk : Kept base ended h) :
    ∃ ended', Kept base ended' (play (performInput d) calls h).2
      ∧ (h.inputClosed = true →
        ended' = ended ∧ (play (performInput d) calls h).2.inputClosed = true)
      ∧ (h.inputClosed = false → (EndsSent d calls h
        ↔ ((play (performInput d) calls h).2.inputClosed = true → ended' = true))) := by
  induction calls generalizing h ended with
  | nil =>
      refine ⟨ended, hk, fun hclosed => ⟨rfl, hclosed⟩, fun hopen => ?_⟩
      refine iff_of_true trivial fun hclosed => ?_
      cases hopen.symm.trans hclosed
  | cons c calls ih =>
      rcases @perform_kept τ d base ended h c.script c.turns c.operation hk with ⟨hend, hother⟩
      -- The call that raises the flag is the one that counts; the others change nothing about
      -- it.
      by_cases hfirst : c.operation = .endInput ∧ h.inputClosed = false
      · rcases hend hfirst.1 hfirst.2 with ⟨hup, hk'⟩
        rcases ih hk' with ⟨ended', hlast, hsame, -⟩
        rcases hsame hup with ⟨heq, hstill⟩
        refine ⟨ended', hlast, fun hclosed => ?_, fun _ => ?_⟩
        · cases hfirst.2.symm.trans hclosed
        · -- The calls after this one find the flag up.
          have hrest : ∀ (cs : List (Call Answer HandleOperation)) (g : PipelineHandle τ),
              g.inputClosed = true → Reserved g.pool → EndsSent d cs g := by
            intro cs
            induction cs with
            | nil => exact fun _ _ _ => trivial
            | cons c' cs ih' =>
                intro g hg hres
                refine ⟨fun _ hopen => ?_, ?_⟩
                · cases hopen.symm.trans hg
                · have hkept : Kept g.pool.history false g :=
                    ⟨hres, [], (List.append_nil _).symm, by
                      rw [hg]
                      exact .unsent fun _ he => by cases he⟩
                  rcases (@perform_kept τ d _ _ g c'.script c'.turns c'.operation hkept).2
                    (fun hnot => by cases hnot.2.symm.trans hg) with ⟨hstay, hk''⟩
                  exact ih' _ (hstay.trans hg) hk''.reserved
          constructor
          · rintro ⟨hsent, -⟩ _
            rw [heq, decide_eq_true (hsent hfirst.1 hfirst.2)]
          · intro hall
            have hsent := hall hstill
            rw [heq, decide_eq_true_iff] at hsent
            exact ⟨fun _ _ => hsent, hrest calls _ hup hk'.reserved⟩
      · -- Any other call leaves the flag, and the rest decides.
        rcases hother hfirst with ⟨hflag, hk'⟩
        rcases ih hk' with ⟨ended', hlast, hsame, hends⟩
        refine ⟨ended', hlast, fun hclosed => hsame (hflag.trans hclosed), fun hopen => ?_⟩
        refine Iff.trans ?_ (hends (hflag.trans hopen))
        exact and_iff_right fun hop hopen => absurd ⟨hop, hopen⟩ hfirst

/-- A call that collects begins to drain the results. -/
def DrainStarts (d : Driver τ) (cancel : CancellationToken)
    (w v : World Answer (PipelineHandle τ)) : Prop :=
  PipelineHandle.endInput d w = (.ok (), v)
    ∧ PipelineHandle.collectWithCancel d cancel w
      = PipelineHandle.onPool (drainLoop d v.state.pid v.state.rpid cancel) v

/-- It does so exactly if it is told that the input is at its end. -/
theorem drainStarts_iff {cancel : CancellationToken} {w v : World Answer (PipelineHandle τ)} :
    DrainStarts d cancel w v ↔ PipelineHandle.endInput d w = (.ok (), v) := by
  refine and_iff_left_of_imp fun hend => ?_
  unfold PipelineHandle.collectWithCancel
  rw [Async.bind_apply, hend]
  rfl

/-- Nothing about input comes after anything about its end. -/
def NoInputAfterEnd (events : List PoolEvent) : Prop :=
  events.Pairwise fun e e' =>
    concerns .endOfPipelineInput e = true → concerns .pipelineInput e' = false

/-- An end went through. -/
def isEnd : PoolEvent → Bool
  | .sent f => f.msg.messageType = .endOfPipelineInput
  | _ => false

/-- The end of the input of a pipeline went through. -/
def EndOf (pid : Uuid) (events : List PoolEvent) : Prop :=
  ∃ f, .sent f ∈ events ∧ f.msg.messageType = .endOfPipelineInput ∧ f.msg.pid = pid

/-- What is expected of a call that collects, after some events: nothing is sent
    after the end, the end goes through once at most, and nothing is drained
    before. -/
structure InputProtocol (d : Driver τ) (base : List PoolEvent) (cancel : CancellationToken)
    (w : World Answer (PipelineHandle τ)) : Prop where
  order : NoInputAfterEnd
    ((PipelineHandle.collectWithCancel d cancel w).2.state.pool.history.drop base.length)
  once : ((PipelineHandle.collectWithCancel d cancel w).2.state.pool.history.drop
    base.length).countP isEnd ≤ 1
  drains : ∀ v, DrainStarts d cancel w v →
    EndOf v.state.pid (v.state.pool.history.drop base.length)

/-- An object is not an end. -/
theorem not_end_of_object {e : PoolEvent} (he : concerns .pipelineInput e = true) :
    concerns .endOfPipelineInput e = false ∧ isEnd e = false := by
  have hframe : ∀ f : Frame, decide (f.msg.messageType = .pipelineInput) = true →
      decide (f.msg.messageType = .endOfPipelineInput) = false := by
    intro f hf
    rw [of_decide_eq_true hf]
    rfl
  cases e with
  | sending f => exact ⟨hframe f he, rfl⟩
  | sent f => exact ⟨hframe f he, hframe f he⟩
  | _ => cases he

/-- The objects come first. -/
theorem InputTrace.split {pid : Uuid} {closed through : Bool} {events : List PoolEvent}
    (h : InputTrace pid closed through events) : ∃ objects tail, events = objects ++ tail
      ∧ (∀ e ∈ objects, concerns .pipelineInput e = true)
      ∧ (∀ e ∈ tail, concerns .pipelineInput e = false)
      ∧ tail.countP isEnd ≤ 1 ∧ (EndOf pid tail ↔ through = true) := by
  have hnone : ∀ events : List PoolEvent, (∀ f, .sent f ∉ events) →
      (EndOf pid events ↔ false = true) := fun events hnot =>
    iff_of_false (fun ⟨f, hf, _⟩ => hnot f hf) Bool.false_ne_true
  -- The message of the end is none of the objects.
  have hend : ∀ f : Frame, f.msg.messageType = .endOfPipelineInput →
      concerns .pipelineInput (.sending f) = false ∧ concerns .pipelineInput (.sent f) = false := by
    intro f hf
    have hnot : decide (f.msg.messageType = .pipelineInput) = false := by
      rw [hf]
      rfl
    exact ⟨hnot, hnot⟩
  cases h with
  | objects hobjects =>
      refine ⟨events, [], (List.append_nil _).symm, hobjects, fun _ he => (by cases he),
        Nat.zero_le 1, hnone _ fun f hf => (by cases hf)⟩
  | unsent hobjects =>
      refine ⟨events, [], (List.append_nil _).symm, hobjects, fun _ he => (by cases he),
        Nat.zero_le 1, hnone _ fun f hf => (by cases hf)⟩
  | @cut es f hobjects hf =>
      refine ⟨es, [.sending f], rfl, hobjects, fun e he => ?_, Nat.zero_le 1,
        hnone _ fun f' hf' => ?_⟩
      · rw [List.mem_singleton.mp he]
        exact (hend f hf).1
      · cases List.mem_singleton.mp hf'
  | @ended es f hobjects hf hpid =>
      refine ⟨es, [.sending f, .sent f], rfl, hobjects, fun e he => ?_, ?_, ?_⟩
      · rcases List.mem_pair.mp he with rfl | rfl
        · exact (hend f hf).1
        · exact (hend f hf).2
      · have hcount := List.countP_le_length (p := isEnd) (l := [PoolEvent.sent f])
        rw [List.countP_cons_of_neg (by exact Bool.false_ne_true)]
        exact hcount
      · exact iff_of_true ⟨f, List.mem_cons_of_mem _ (List.mem_singleton_self _), hf, hpid⟩ rfl

theorem InputTrace.order {pid : Uuid} {closed through : Bool} {events : List PoolEvent}
    (h : InputTrace pid closed through (events.filter isInputEvent)) : NoInputAfterEnd events := by
  rcases h.split with ⟨objects, tail, heq, hobjects, htail, -, -⟩
  have hfiltered : NoInputAfterEnd (events.filter isInputEvent) := by
    rw [heq]
    refine List.pairwise_append.mpr ⟨?_, ?_, fun e he e' _ hend => ?_⟩
    · refine List.pairwise_of_forall_mem_list fun e he e' _ hend => ?_
      cases (not_end_of_object (hobjects e he)).1.symm.trans hend
    · exact List.pairwise_of_forall_mem_list fun _ _ e' he' _ => htail e' he'
    · cases (not_end_of_object (hobjects e he)).1.symm.trans hend
  refine (List.pairwise_filter.mp hfiltered).imp fun {e e'} hpair hend => ?_
  by_contra hinput
  rw [Bool.not_eq_false] at hinput
  have he : isInputEvent e = true := by
    rw [isInputEvent, hend, Bool.or_true]
  have he' : isInputEvent e' = true := by
    rw [isInputEvent, hinput, Bool.true_or]
  exact Bool.false_ne_true ((hpair he he' hend).symm.trans hinput)

/-- What went through is about input. -/
theorem isInputEvent_of_isEnd {e : PoolEvent} (he : isEnd e = true) : isInputEvent e = true := by
  cases e with
  | sent f =>
      rw [isInputEvent, Bool.or_eq_true]
      exact .inr he
  | _ => cases he

theorem InputTrace.once {pid : Uuid} {closed through : Bool} {events : List PoolEvent}
    (h : InputTrace pid closed through (events.filter isInputEvent)) :
    events.countP isEnd ≤ 1 := by
  rcases h.split with ⟨objects, tail, heq, hobjects, -, honce, -⟩
  have hcount : (events.filter isInputEvent).countP isEnd = events.countP isEnd := by
    rw [List.countP_filter]
    refine List.countP_congr fun e _ => ?_
    rw [Bool.and_eq_true]
    exact and_iff_left_of_imp isInputEvent_of_isEnd
  have hobjects : objects.countP isEnd = 0 := by
    rw [List.countP_eq_zero]
    intro e he
    rw [(not_end_of_object (hobjects e he)).2]
    exact Bool.false_ne_true
  rw [← hcount, heq, List.countP_append, hobjects, Nat.zero_add]
  exact honce

theorem InputTrace.endOf_iff {pid : Uuid} {closed through : Bool} {events : List PoolEvent}
    (h : InputTrace pid closed through (events.filter isInputEvent)) :
    EndOf pid events ↔ through = true := by
  rcases h.split with ⟨objects, tail, heq, hobjects, -, -, hend⟩
  rw [← hend]
  constructor
  · rintro ⟨f, hf, hmt, hpid⟩
    have hmem : .sent f ∈ events.filter isInputEvent :=
      List.mem_filter.mpr ⟨hf, isInputEvent_of_isEnd (decide_eq_true hmt)⟩
    rw [heq] at hmem
    rcases List.mem_append.mp hmem with hobject | htail
    · have hnot := (not_end_of_object (hobjects _ hobject)).2
      cases hnot.symm.trans (decide_eq_true hmt)
    · exact ⟨f, htail, hmt, hpid⟩
  · rintro ⟨f, hf, hmt, hpid⟩
    have hmem : .sent f ∈ events.filter isInputEvent := by
      rw [heq]
      exact List.mem_append_right _ hf
    exact ⟨f, List.mem_of_mem_filter hmem, hmt, hpid⟩

/-- A handle's own events, and what they say of the end. -/
theorem Kept.endOf_iff (hk : Kept base ended h) :
    EndOf h.pid (h.pool.history.drop base.length) ↔ ended = true := by
  rcases hk.trace with ⟨new, hnew, htrace⟩
  rw [hnew, List.drop_left]
  exact htrace.endOf_iff

/-- The call that collects. A drain that is not waited for by an end of its own
    starts at once. -/
theorem collect_kept (cancel : CancellationToken) (hk : Kept base ended h) :
    (∃ ended', Kept base ended'
      (PipelineHandle.collectWithCancel d cancel ⟨h, script, turns⟩).2.state)
    ∧ ((∀ v, DrainStarts d cancel ⟨h, script, turns⟩ v →
        EndOf v.state.pid (v.state.pool.history.drop base.length))
      ↔ (h.inputClosed = true → ended = true)) := by
  constructor
  · -- Collecting ends the input first, and then only reads.
    have hend : wp (PipelineHandle.endInput d) (fun _ h' => ∃ b, Kept base b h') h := by
      intro script turns
      rcases @perform_kept τ d base ended h script turns .endInput hk with ⟨hfirst, hother⟩
      by_cases hopen : h.inputClosed = false
      · exact ⟨_, (hfirst rfl hopen).2⟩
      · exact ⟨_, (hother fun hnot => hopen hnot.2).2⟩
    have hall : wp (PipelineHandle.collectWithCancel d cancel) (fun _ h' => ∃ b, Kept base b h')
        h := by
      unfold PipelineHandle.collectWithCancel
      refine wp_bind (wp_mono hend fun x h' hx => ?_)
      rcases hx with ⟨b, hk'⟩
      have hdrain : wp (PipelineHandle.onPool (drainLoop d h'.pid h'.rpid cancel))
          (fun _ h'' => ∃ b, Kept base b h'') h' := by
        unfold PipelineHandle.onPool
        refine Async.wp_zoom ?_
        exact wp_mono (stays_drainLoop _ _ _ h'.pool (.refl hk'.reserved))
          fun _ _ hreads => ⟨b, hk'.answers hreads⟩
      cases x with
      | ok a =>
          simp only [Async.andThen]
          exact Async.wp_getThen hdrain
      | err e => exact ⟨b, hk'⟩
      | cut n => exact ⟨b, hk'⟩
      | suspended => exact ⟨b, hk'⟩
    exact hall script turns
  · simp only [drainStarts_iff]
    by_cases hopen : h.inputClosed = false
    · -- The end is sent here, and has to go through.
      refine iff_of_true (fun v hv => ?_) fun hclosed => ?_
      · have hkept := (@perform_kept τ d base ended h script turns .endInput hk).1 rfl hopen
        have hsent := @endInput_open τ d h script turns hopen
        rw [hv] at hsent
        have hok := (Prod.mk.inj hsent).1
        change _ ∧ Kept base _ (PipelineHandle.endInput d ⟨h, script, turns⟩).2.state at hkept
        rw [hv, decide_eq_true hok.symm] at hkept
        exact hkept.2.endOf_iff.mpr rfl
      · cases hopen.symm.trans hclosed
    · -- The flag was up before, so nothing is sent here.
      rw [Bool.not_eq_false] at hopen
      rw [endInput_closed hopen]
      constructor
      · intro hall _
        exact hk.endOf_iff.mp (hall _ rfl)
      · rintro hended v hv
        cases hv
        exact hk.endOf_iff.mpr (hended hopen)

end Runs

/-- The handle of a pipeline that was started. -/
def handleOf (w : World Answer (RunspacePool τ)) (pid : Uuid) (started : Uuid × Bool) :
    PipelineHandle τ :=
  { pool := w.state, pid, rpid := started.1, inputClosed := started.2 }

/-- A handle starts without an event about input, and with the flag of its
    pipeline. -/
theorem kept_handleOf {self : Pipeline} {pid : Uuid} {w w' : World Answer (RunspacePool τ)}
    {started : Uuid × Bool} (hs : Reserved w.state) (hinput : self.noInput = false)
    (hstart : self.start d pid w = (.ok started, w')) :
    Kept w'.state.history false (handleOf w' pid started) ∧ started.2 = false := by
  have hmoves := Async.wp_apply w (moving_start (d := d) self pid w.state)
  rw [hstart] at hmoves
  have hreserved : Reserved w'.state := by
    have hall : ∀ t, Moves d w.state t → Reserved t := by
      intro t ht
      induction ht with
      | refl => exact hs
      | tail _ hmove ih => exact hmove.reserved ih
    exact hall _ hmoves
  -- The handle is closed from the start exactly if the pipeline takes no input.
  have hflag : wp (self.start d pid) (fun x _ => ∀ a, x = .ok a → a.2 = self.noInput) w.state := by
    unfold Pipeline.start
    by_cases hempty : self.commands.isEmpty = true
    · rw [if_pos hempty]
      exact Async.wp_throw nofun
    · rw [if_neg hempty]
      refine Async.wp_getThen (wp_bind (wp_mono (wp_sendPipelineMessage _ _ _) fun x t _ => ?_))
      cases x with
      | ok a =>
          simp only [Async.andThen]
          refine Async.wp_pure ?_
          intro b hb
          cases hb
          rfl
      | err e => exact nofun
      | cut n => exact nofun
      | suspended => exact nofun
  have hstarted := Async.wp_apply w hflag started
  rw [hstart] at hstarted
  have hopen := (hstarted rfl).trans hinput
  refine ⟨⟨hreserved, [], (List.append_nil _).symm, ?_⟩, hopen⟩
  change InputTrace pid started.2 false []
  rw [hopen]
  exact .objects fun e he => by cases he

/-- In every run of a pool, for every pipeline with input that is started in it,
    and every sequence of calls on its handle with what becomes of each of them,
    and a call that collects: objects and end are sent in order and the end goes
    through once at most. Nothing is drained before the end went through either,
    exactly if every send of the end that was tried before went through. -/
theorem input_protocol_iff (d : Driver τ) (transport : τ) (machine : RunspacePoolStateMachine)
    (nextObjectId : UInt64) (key : Option SessionKey) (past : List (Call Answer PoolOperation))
    (self : Pipeline) (hinput : self.noInput = false) (pid : Uuid)
    (script : List (Psrp.Wake Answer)) (turns : Nat) (started : Uuid × Bool)
    (w : World Answer (RunspacePool τ))
    (hstart : self.start d pid
      ⟨(play (perform d) past (attached transport machine nextObjectId key)).2, script, turns⟩
        = (.ok started, w))
    (calls : List (Call Answer HandleOperation)) (cancel : CancellationToken)
    (script' : List (Psrp.Wake Answer)) (turns' : Nat) :
    (NoInputAfterEnd ((PipelineHandle.collectWithCancel d cancel
        ⟨(play (performInput d) calls (handleOf w pid started)).2, script', turns'⟩
          ).2.state.pool.history.drop w.state.history.length)
      ∧ ((PipelineHandle.collectWithCancel d cancel
        ⟨(play (performInput d) calls (handleOf w pid started)).2, script', turns'⟩
          ).2.state.pool.history.drop w.state.history.length).countP isEnd ≤ 1)
    ∧ (InputProtocol d w.state.history cancel
        ⟨(play (performInput d) calls (handleOf w pid started)).2, script', turns'⟩
      ↔ EndsSent d calls (handleOf w pid started)) := by
  have hreserved : Reserved
      (play (perform d) past (attached transport machine nextObjectId key)).2 :=
    reserved_play d past fun p hp => by cases hp
  rcases kept_handleOf hreserved hinput hstart with ⟨hk, hopen⟩
  -- The calls keep the trace of the input, and collecting ends it.
  rcases play_kept calls hk with ⟨ended, hlast, -, hends⟩
  rcases @collect_kept τ d w.state.history ended _ script' turns' cancel hlast
    with ⟨⟨ended', hfinal⟩, hdrains⟩
  -- Order and number are read off that trace.
  rcases hfinal.trace with ⟨new, hnew, htrace⟩
  have horder : NoInputAfterEnd ((PipelineHandle.collectWithCancel d cancel
      ⟨(play (performInput d) calls (handleOf w pid started)).2, script', turns'⟩
        ).2.state.pool.history.drop w.state.history.length) := by
    rw [hnew, List.drop_left]
    exact htrace.order
  have honce : ((PipelineHandle.collectWithCancel d cancel
      ⟨(play (performInput d) calls (handleOf w pid started)).2, script', turns'⟩
        ).2.state.pool.history.drop w.state.history.length).countP isEnd ≤ 1 := by
    rw [hnew, List.drop_left]
    exact htrace.once
  refine ⟨⟨horder, honce⟩, ?_⟩
  rw [hends hopen, ← hdrains]
  exact ⟨fun h => h.drains, fun h => ⟨horder, honce, h⟩⟩

/-- A driver on the WinRM transport. -/
def winrmDriver : Driver WinrmPsrpTransport where
  platform := .basic
  transport := WinrmPsrpTransport.transport
  host := {}

/-- A pipeline that takes input. -/
def inputPipeline : Pipeline where
  commands := [⟨"Sort-Object".toList, [], false, false⟩]
  noInput := false
  addInvocationInfo := false
  addToHistory := false

/-- A new pool over a shell, where the server starts what is asked for. -/
def startWorld : World Answer (RunspacePool WinrmPsrpTransport) :=
  ⟨attached (.ofShell ⟨['S']⟩) freshMachine 1 none, [.answer (.named ['C'])], 0⟩

theorem start_inputPipeline : inputPipeline.start winrmDriver Uuid.nil startWorld
    = (.ok (Uuid.nil, false), (inputPipeline.start winrmDriver Uuid.nil startWorld).2) :=
  Prod.ext rfl rfl

/-- The handle on it. -/
def inputHandle : PipelineHandle WinrmPsrpTransport :=
  handleOf (inputPipeline.start winrmDriver Uuid.nil startWorld).2 Uuid.nil (Uuid.nil, false)

/-- A send of the end that runs into a timeout. -/
def failedEnd : Call Answer HandleOperation :=
  ⟨.endInput, [.answer (.failed (.winrm (.timeout 60)))], 0⟩

/-- After the end could not be sent, the results are drained nevertheless. -/
theorem input_protocol_broken : ¬ ∀ calls : List (Call Answer HandleOperation),
    InputProtocol winrmDriver inputHandle.pool.history .never
      ⟨(play (performInput winrmDriver) calls inputHandle).2, [], 0⟩ := by
  intro hall
  have hreserved : Reserved startWorld.state := fun p hp => by cases hp
  have hk := (kept_handleOf hreserved rfl start_inputPipeline).1
  rcases @play_kept _ winrmDriver _ false inputHandle [failedEnd] hk with ⟨ended, hlast, -, hends⟩
  have hdrains := (@collect_kept _ winrmDriver _ ended _ [] 0 .never hlast).2.mp
    (hall [failedEnd]).drains
  have hfailed : (sendPipelineMessage winrmDriver .endOfPipelineInput inputHandle.pid []
      ⟨inputHandle.pool, failedEnd.script, 0⟩).1 = .err (.winrm (.timeout 60)) := rfl
  have hsent := ((hends rfl).mpr hdrains).1 rfl rfl
  cases hsent.symm.trans hfailed

/-- An object and the end are sent, and the results are drained. -/
def inputCalls : List (Call Answer HandleOperation) :=
  [⟨.writeInput .null, [.answer .done], 0⟩, ⟨.endInput, [.answer .done], 0⟩]

/-- When nothing fails, the end goes first, and once. -/
theorem input_protocol_iff_collect :
    let h := (play (performInput winrmDriver) inputCalls inputHandle).2
    let w : World Answer (PipelineHandle WinrmPsrpTransport) :=
      ⟨h, [.answer (.received ⟨[], true⟩)], 5⟩
    let events := (PipelineHandle.collectWithCancel winrmDriver .never w).2.state.pool.history.drop
      inputHandle.pool.history.length
    InputProtocol winrmDriver inputHandle.pool.history .never w
      ∧ events.countP (concerns .pipelineInput) = 2 ∧ events.countP isEnd = 1 := by
  intro h w events
  refine ⟨?_, by decide +kernel, by decide +kernel⟩
  exact (input_protocol_iff winrmDriver (.ofShell ⟨['S']⟩) freshMachine 1 none [] inputPipeline rfl
    Uuid.nil [.answer (.named ['C'])] 0 (Uuid.nil, false) _ start_inputPipeline inputCalls .never
    [.answer (.received ⟨[], true⟩)] 5).2.mpr ⟨nofun, fun _ _ => rfl, trivial⟩

end RunspacePool

end Psrp

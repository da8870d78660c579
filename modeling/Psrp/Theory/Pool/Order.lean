import Psrp.Theory.Pool.Faults
import Psrp.Theory.Pool.Notes

/-!
# Messages in Order

What becomes of the messages of a stream, one call of `nextMessage` after the
other.

Each call takes some messages out of the buffer. All of them but the last are
host calls, which it answers on its way; the last one is returned, or is what
the call failed or was dropped over. So what the calls take, put together, is
what the stream brings (`Reading`), and the order in which they return messages
is the order in which those complete. A call that is dropped while it waits for
a chunk has nothing in its hands.

The one message that is returned and was not taken is the end, made up when an
empty chunk comes in while nothing is left to read.

Only two kinds of events matter here: that a message was taken, and that the
host answered a call. `Stays` proves of everything below a turn that it keeps
both as they are.

## Main definitions

* `answeredOf`: The calls that the host answered.
* `Marked`: What was taken and answered so far.
* `WaitsForChunk`: A call has come to where it waits for a chunk.
* `Served`, `Serves`: What one call does with messages, and what several do.
* `Returned`: What the transport returned.

## Theorems

* `wp_readTurn_marks`: One turn.
* `wp_nextMessage_served`: One call.
* `Deed.supplied`, `Move.supplied`: A chunk is what the transport returned.
* `messages_in_order`: Every run.
-/

namespace Psrp

/-- The host calls that were answered by the host, in order. -/
def answeredOf (h : List PoolEvent) : List PsrpMessage :=
  h.filterMap fun e => match e with
    | .answered msg _ _ => some msg
    | _ => none

theorem answeredOf_snoc (h : List PoolEvent) (e : PoolEvent) :
    answeredOf (h ++ [e]) = answeredOf h ++ answeredOf [e] := List.filterMap_append ..

namespace RunspacePool

open Async (wp wp_bind wp_mono wp_ends wp_seq Ends Stays Turn Call play)

variable {τ α : Type} {d : Driver τ} {s t u : RunspacePool τ}

section Marks

/-- What was taken and answered so far. -/
def Marked (tooks answers : List PsrpMessage) (s : RunspacePool τ) : Prop :=
  tookOf s.history = tooks ∧ answeredOf s.history = answers

variable {tooks answers : List PsrpMessage}

theorem Marked.note (h : Marked tooks answers s) (e : PoolEvent) :
    Marked (tooks ++ tookOf [e]) (answers ++ answeredOf [e]) (s.note e) := by
  refine ⟨?_, ?_⟩
  · rw [RunspacePool.note, tookOf_snoc, h.1]
  · rw [RunspacePool.note, answeredOf_snoc, h.2]

/-- An event of another kind. -/
theorem Marked.unmarked (h : Marked tooks answers s) {e : PoolEvent} (htook : tookOf [e] = [])
    (hanswered : answeredOf [e] = []) : Marked tooks answers (s.note e) := by
  have hnote := h.note e
  rw [htook, hanswered, List.append_nil, List.append_nil] at hnote
  exact hnote

theorem stays_record_marks {e : PoolEvent} (htook : tookOf [e] = []) (hanswered : answeredOf [e] = []) :
    Stays (Marked tooks answers) (record e : Prog (RunspacePool τ) Unit) :=
  Async.stays_modify fun _ h => h.unmarked htook hanswered

theorem stays_onTransport_marks (q : Prog τ α) :
    Stays (Marked tooks answers) (onTransport q : Prog (RunspacePool τ) α) :=
  fun _ h => wp_onTransport q fun _ _ _ => h

theorem stays_takeFrame_marks (mt : MessageType) (pid : Uuid) (body : Text) :
    Stays (Marked tooks answers) (Async.update (takeFrame mt pid body)
      : Prog (RunspacePool τ) Frame) := by
  intro s h
  have hframe : ∀ {r t}, takeFrame mt pid body s = (r, t) → Marked tooks answers t := by
    intro r t ht
    unfold takeFrame at ht
    split at ht
    · cases ht
      exact h.unmarked rfl rfl
    · cases ht
      exact h.unmarked rfl rfl
  exact Async.wp_update (fun _ _ ht => hframe ht) fun _ _ ht => hframe ht

theorem stays_sendPsrpMessage_marks (mt : MessageType) (body : Text) :
    Stays (Marked tooks answers) (sendPsrpMessage d mt body) :=
  Async.stays_bind (stays_takeFrame_marks mt Uuid.nil body) fun _ =>
    Async.stays_bind (stays_onTransport_marks _) fun _ => stays_record_marks rfl rfl

theorem stays_sendPipelineMessage_marks (mt : MessageType) (pid : Uuid) (body : Text) :
    Stays (Marked tooks answers) (sendPipelineMessage d mt pid body) := by
  refine Async.stays_bind (stays_takeFrame_marks mt pid body) fun f => ?_
  by_cases hmt : mt = .createPipeline
  · simp only [if_pos hmt]
    exact Async.stays_bind (stays_onTransport_marks _) fun _ => stays_record_marks rfl rfl
  · simp only [if_neg hmt]
    exact Async.stays_bind (stays_onTransport_marks _) fun _ => stays_record_marks rfl rfl

theorem stays_startExchange_marks (key : ClientSessionKey) :
    Stays (Marked tooks answers) (startExchange d key) := by
  refine Async.stays_bind (stays_sendPsrpMessage_marks _ _) fun _ => ?_
  refine Async.stays_modify fun s h => ?_
  have hnote := h.unmarked (e := .exchange key) rfl rfl
  exact ⟨hnote.1, hnote.2⟩

theorem stays_generateClientKey_marks :
    Stays (Marked tooks answers) (generateClientKey : Prog (RunspacePool τ) ClientSessionKey) := by
  refine Async.stays_bind (fun _ h => Async.wp_choose fun _ => h) fun drawn => ?_
  cases drawn with
  | ok key => exact Async.stays_pure key
  | error e => exact Async.stays_bind (stays_record_marks rfl rfl) fun _ => Async.stays_throw _

theorem stays_startExchangeUnlessPending_marks :
    Stays (Marked tooks answers) (startExchangeUnlessPending d) := by
  intro s h
  refine Async.wp_getThen ?_
  by_cases hpending : s.pendingClientKey.isSome = true
  · rw [if_pos hpending]
    exact Async.wp_pure h
  · rw [if_neg hpending]
    exact Async.stays_bind stays_generateClientKey_marks
      (fun key => stays_startExchange_marks key) s h

theorem stays_ensureKeyExchangeStarted_marks :
    Stays (Marked tooks answers) (ensureKeyExchangeStarted d) := by
  intro s h
  refine Async.wp_getThen ?_
  by_cases hkey : s.sessionKey.isSome = true
  · rw [if_pos hkey]
    exact Async.wp_pure h
  · rw [if_neg hkey]
    exact stays_startExchangeUnlessPending_marks s h

theorem stays_flushTurns_marks (key : SessionKey) (n : Nat) :
    Stays (Marked tooks answers) (flushTurns d key n) := by
  induction n with
  | zero => exact Async.stays_pure ()
  | succ n ih =>
      intro s h
      unfold flushTurns
      refine Async.wp_getThen ?_
      cases s.deferredHostResponses with
      | nil => exact Async.wp_pure h
      | cons parked rest =>
          refine Async.stays_bind (stays_record_marks rfl rfl) (fun _ => ?_) s h
          refine Async.stays_bind (stays_sendPipelineMessage_marks _ _ _) fun _ => ?_
          refine Async.stays_bind (Async.stays_modify fun t ht => ?_) fun _ => ih
          have hnote := ht.unmarked (e := .flushed parked) rfl rfl
          exact ⟨hnote.1, hnote.2⟩

theorem stays_flushDeferredHostResponses_marks :
    Stays (Marked tooks answers) (flushDeferredHostResponses d) := by
  intro s h
  refine Async.wp_getThen ?_
  cases s.sessionKey with
  | none => exact Async.wp_pure h
  | some key => exact stays_flushTurns_marks key _ s h

theorem stays_failEach_marks (message : String) (ps : List DeferredHostResponse) :
    Stays (Marked tooks answers) (failEach d message ps) := by
  induction ps with
  | nil => exact Async.stays_pure ()
  | cons parked rest ih =>
      refine Async.stays_bind (stays_record_marks rfl rfl) fun _ => ?_
      exact Async.stays_bind (Async.stays_attempt (stays_sendPipelineMessage_marks _ _ _)) fun _ => ih

theorem stays_failDeferredHostResponses_marks (e : PsrpError) :
    Stays (Marked tooks answers) (failDeferredHostResponses d e) := by
  refine Async.stays_bind (fun s h => ?_) fun taken => stays_failEach_marks _ taken
  refine Async.wp_update (fun taken t ht => ?_) fun e t ht => (by cases ht)
  cases ht
  exact ⟨h.1, h.2⟩

theorem stays_acceptEncryptedSessionKey_marks (msg : PsrpMessage) :
    Stays (Marked tooks answers) (acceptEncryptedSessionKey d msg) := by
  intro s h
  refine Async.wp_getThen ?_
  cases s.pendingClientKey with
  | none => exact Async.wp_pure h
  | some pair =>
      refine Async.wp_modifyThen ?_
      have hcleared : Marked tooks answers { s with pendingClientKey := none } := ⟨h.1, h.2⟩
      cases unwrapSessionKey d.platform.toPlatform msg.data pair with
      | error e =>
          refine Async.stays_bind (stays_record_marks rfl rfl) (fun _ => ?_) _ hcleared
          exact Async.stays_bind (stays_failDeferredHostResponses_marks e) fun _ =>
            Async.stays_throw e
      | ok key =>
          refine Async.stays_bind (Async.stays_modify fun t ht => ?_)
            (fun _ => stays_flushDeferredHostResponses_marks) _ hcleared
          have hnote := ht.unmarked (e := .keyed key) rfl rfl
          exact ⟨hnote.1, hnote.2⟩

end Marks

section Turns

/-- Host calls were taken and answered, and nothing else. -/
def Handled (s t : RunspacePool τ) (handled : List PsrpMessage) : Prop :=
  Marked (tookOf s.history ++ handled) (answeredOf s.history ++ handled) t
    ∧ ∀ msg ∈ handled, isHostCall msg.messageType

/-- At most one message was taken, and answered or not. -/
def Held (s t : RunspacePool τ) (held : List PsrpMessage) : Prop :=
  held.length ≤ 1 ∧ ∃ answered, (answered = [] ∨ answered = held)
    ∧ Marked (tookOf s.history ++ held) (answeredOf s.history ++ answered) t

/-- The end was made up: the last chunk was empty, and nothing was left. -/
structure MadeUp (d : Driver τ) (msg : PsrpMessage) (t : RunspacePool τ) : Prop where
  synthetic : msg = syntheticCompletion d.platform.toPlatform t.machine.rpid
  chunk : ∃ before, t.history = before ++ [.chunk [], .handed msg]
  idle : t.reassembler.isIdle = true
  empty : t.pendingMessages = []

/-- A message was taken to be returned, or the end was made up. -/
def Returns (d : Driver τ) (s : RunspacePool τ) (msg : PsrpMessage) (t : RunspacePool τ) : Prop :=
  (¬ isHostCall msg.messageType
      ∧ Marked (tookOf s.history ++ [msg]) (answeredOf s.history) t)
    ∨ (MadeUp d msg t ∧ Marked (tookOf s.history) (answeredOf s.history) t)

/-- What a turn does with messages. -/
def TurnServes (d : Driver τ) (s : RunspacePool τ) :
    Exit PsrpError (Turn Unit PsrpMessage) → RunspacePool τ → Prop :=
  Ends (fun t => ∃ held, Held s t held) (fun _ t => ∃ held, Held s t held) fun turn t =>
    match turn with
    | .more () => ∃ handled, Handled s t handled
    | .done msg => Returns d s msg t

theorem marked_self (s : RunspacePool τ) : Marked (tookOf s.history) (answeredOf s.history) s :=
  ⟨rfl, rfl⟩

/-- Nothing was taken. -/
theorem held_none (h : Marked (tookOf s.history) (answeredOf s.history) t) : ∃ held, Held s t held := by
  refine ⟨[], Nat.zero_le _, [], Or.inl rfl, ?_⟩
  rw [List.append_nil, List.append_nil]
  exact h

/-- One message was taken. -/
theorem held_one {msg : PsrpMessage}
    (h : Marked (tookOf s.history ++ [msg]) (answeredOf s.history) t
      ∨ Marked (tookOf s.history ++ [msg]) (answeredOf s.history ++ [msg]) t) :
    ∃ held, Held s t held := by
  refine ⟨[msg], Nat.le_refl _, ?_⟩
  rcases h with h | h
  · refine ⟨[], Or.inl rfl, ?_⟩
    rw [List.append_nil]
    exact h
  · exact ⟨[msg], Or.inr rfl, h⟩

/-- A host call is answered, or the call that took it ends with it. -/
theorem wp_handleHostCall_marks {tooks answers : List PsrpMessage} {msg : PsrpMessage}
    (h : Marked tooks answers s) :
    wp (handleHostCall d msg) (Ends
      (fun t => Marked tooks answers t ∨ Marked tooks (answers ++ [msg]) t)
      (fun _ t => Marked tooks answers t ∨ Marked tooks (answers ++ [msg]) t)
      fun _ t => Marked tooks (answers ++ [msg]) t) s := by
  -- What follows the answer leaves everything as it is.
  have hafter : ∀ {q : Prog (RunspacePool τ) Unit} {t : RunspacePool τ},
      Stays (Marked tooks (answers ++ [msg])) q → Marked tooks (answers ++ [msg]) t →
      wp q (Ends (fun t => Marked tooks answers t ∨ Marked tooks (answers ++ [msg]) t)
        (fun _ t => Marked tooks answers t ∨ Marked tooks (answers ++ [msg]) t)
        fun _ t => Marked tooks (answers ++ [msg]) t) t := by
    intro q t hq ht
    refine wp_mono (hq t ht) fun x u hu => ?_
    cases x with
    | ok a => exact hu
    | err e => exact Or.inr hu
    | cut n => exact Or.inr hu
    | suspended => exact Or.inr hu
  unfold handleHostCall
  refine wp_bind (Async.wp_lift (fun call hdecode => ?_) fun e hdecode => Or.inl h)
  refine wp_bind (Async.wp_outside (fun answer => ?_) (fun n => Or.inl h) (Or.inl h))
  refine wp_recordThen _ ?_
  -- The call is answered from here on, however the answer is delivered.
  have hanswered : Marked tooks (answers ++ [msg]) (s.note (.answered msg call answer)) := by
    have hnote := h.note (.answered msg call answer)
    rw [show tookOf [PoolEvent.answered msg call answer] = [] from rfl, List.append_nil] at hnote
    exact hnote
  cases answer with
  | error e => exact hafter (stays_sendPipelineMessage_marks _ _ _) hanswered
  | ok answer =>
      cases answer with
      | none => exact hafter (Async.stays_pure ()) hanswered
      | some v =>
          -- A secret that can not be sealed yet is parked.
          refine hafter ?_ hanswered
          refine Async.stays_ite ?_ (stays_sendPipelineMessage_marks _ _ _)
          intro t ht
          refine Async.wp_getThen ?_
          cases t.sessionKey with
          | some key => exact stays_sendPipelineMessage_marks _ _ _ t ht
          | none =>
              refine Async.stays_bind stays_ensureKeyExchangeStarted_marks (fun _ => ?_) t ht
              refine Async.stays_modify fun u hu => ?_
              have hnote := hu.unmarked (e := .parked
                { responseType := hostResponseType msg.messageType, pid := msg.pid, ci := call.ci,
                  mi := call.mi, value := v }) rfl rfl
              exact ⟨hnote.1, hnote.2⟩

/-- A message that was taken is handed over. -/
theorem wp_hand_serves {msg : PsrpMessage} (hmt : ¬ isHostCall msg.messageType)
    (h : Marked (tookOf s.history ++ [msg]) (answeredOf s.history) t) :
    wp (hand msg) (TurnServes d s) t := by
  have hhanded : Returns d s msg (t.note (.handed msg)) := Or.inl ⟨hmt, h.unmarked rfl rfl⟩
  exact wp_recordThen _ (Async.wp_pure hhanded)

/-- What becomes of a message that was taken. -/
theorem wp_handleMessage_serves {msg : PsrpMessage}
    (h : Marked (tookOf s.history ++ [msg]) (answeredOf s.history) t) :
    wp (handleMessage d msg) (TurnServes d s) t := by
  -- A host call is answered inside the read, which goes on.
  have hcall : isHostCall msg.messageType → wp (do
      handleHostCall d msg
      return Turn.more ()) (TurnServes d s) t := by
    intro hmt
    refine wp_seq (wp_handleHostCall_marks h) (fun _ hu => held_one hu) (fun _ _ hu => held_one hu)
      fun _ u hu => ?_
    have hhandled : ∃ handled, Handled s u handled := by
      refine ⟨[msg], hu, fun m hm => ?_⟩
      rw [List.mem_singleton.mp hm]
      exact hmt
    exact Async.wp_pure hhandled
  -- A message of the key exchange is acted on and handed over.
  have hkeys : ∀ {q : Prog (RunspacePool τ) Unit}, ¬ isHostCall msg.messageType →
      (∀ tooks answers, Stays (Marked tooks answers) q) → wp (do
      q
      hand msg) (TurnServes d s) t := by
    intro q hmt hq
    refine wp_bind (wp_mono (hq _ _ t h) fun x u hu => ?_)
    cases x with
    | ok a => exact wp_hand_serves hmt hu
    | err e => exact held_one (Or.inl hu)
    | cut n => exact held_one (Or.inl hu)
    | suspended => exact held_one (Or.inl hu)
  have hother : msg.messageType ≠ .runspacePoolHostCall → msg.messageType ≠ .pipelineHostCall →
      ¬ isHostCall msg.messageType := fun hpool hpipeline hmt => hmt.elim hpool hpipeline
  unfold handleMessage
  -- Everything else is handed over.
  cases hmt : msg.messageType with
  | runspacePoolHostCall => exact hcall (Or.inl hmt)
  | pipelineHostCall => exact hcall (Or.inr hmt)
  | encryptedSessionKey =>
      refine hkeys (hother ?_ ?_) fun _ _ => stays_acceptEncryptedSessionKey_marks msg
      all_goals rw [hmt]
      all_goals exact nofun
  | publicKeyRequest =>
      refine hkeys (hother ?_ ?_) fun _ _ => stays_startExchangeUnlessPending_marks
      all_goals rw [hmt]
      all_goals exact nofun
  | _ =>
      refine wp_hand_serves (hother ?_ ?_) h
      all_goals rw [hmt]
      all_goals exact nofun

/-- A chunk is read: nothing is taken. -/
theorem wp_receiveChunk_serves (h : Marked (tookOf s.history) (answeredOf s.history) t) :
    wp (receiveChunk d) (TurnServes d s) t := by
  unfold receiveChunk
  refine wp_bind (wp_onTransport _ fun x v hran => ?_)
  have hnone : ∀ u : RunspacePool τ, Marked (tookOf s.history) (answeredOf s.history) u →
      ∃ handled, Handled s u handled := by
    intro u hu
    refine ⟨[], ?_, fun _ hm => absurd hm List.not_mem_nil⟩
    rw [List.append_nil, List.append_nil]
    exact hu
  cases x with
  | err e => exact held_none h
  | cut n => exact held_none h
  | suspended => exact held_none h
  | ok chunk =>
      refine wp_recordThen _ ?_
      have hchunk : Marked (tookOf s.history) (answeredOf s.history)
          (RunspacePool.note (.chunk chunk) { t with transport := v }) :=
        Marked.unmarked (s := { t with transport := v }) h rfl rfl
      refine Async.wp_getThen ?_
      split
      · next hend =>
        rcases hend with ⟨rfl, hidle, hempty⟩
        refine wp_recordThen _ (Async.wp_pure ?_)
        refine Or.inr ⟨⟨rfl, ⟨t.history, ?_⟩, hidle, hempty⟩, hchunk.unmarked rfl rfl⟩
        simp only [RunspacePool.note, List.append_assoc, List.cons_append, List.nil_append]
      · have hfed : ∀ {r u}, feedChunk chunk
            (RunspacePool.note (.chunk chunk) { t with transport := v }) = (r, u) →
            Marked (tookOf s.history) (answeredOf s.history) u := by
          intro r u hu
          rcases feedChunk_eq chunk (RunspacePool.note (.chunk chunk) { t with transport := v })
            with ⟨r', pending, hfeed⟩
          rw [hu] at hfeed
          rw [show u = _ from hfeed]
          exact ⟨hchunk.1, hchunk.2⟩
        refine wp_bind (Async.wp_update (fun _ u hu => ?_) fun e u hu => held_none (hfed hu))
        exact Async.wp_pure (hnone u (hfed hu))

/-- A turn, once whatever was parked is sent. -/
theorem wp_popThen_serves (h : Marked (tookOf s.history) (answeredOf s.history) t) : wp (do
    let popped ← Async.update fun s =>
      let (popped, s) := popMessage s
      ((.ok popped : Except PsrpError (Option PsrpMessage)), s)
    match popped with
    | some msg => handleMessage d msg
    | none => receiveChunk d) (TurnServes d s) t := by
  refine wp_bind (Async.wp_update (fun popped v hpop => ?_) fun e v hpop => (by cases hpop))
  cases hpending : t.pendingMessages with
  | nil =>
      simp only [popMessage, hpending] at hpop
      cases hpop
      exact wp_receiveChunk_serves h
  | cons msg rest =>
      simp only [popMessage, hpending] at hpop
      cases hpop
      refine wp_handleMessage_serves ?_
      have hnote := h.note (.took msg)
      rw [show answeredOf [PoolEvent.took msg] = [] from rfl, List.append_nil] at hnote
      exact ⟨hnote.1, hnote.2⟩

theorem wp_readTurn_serves : wp (readTurn d) (TurnServes d s) s := by
  unfold readTurn
  refine Async.wp_getThen ?_
  by_cases hparked : s.deferredHostResponses ≠ [] ∧ s.sessionKey.isSome = true
  · rw [if_pos hparked]
    refine wp_bind (wp_mono (stays_flushDeferredHostResponses_marks s (marked_self s))
      fun x u hu => ?_)
    cases x with
    | ok a => exact wp_popThen_serves hu
    | err e => exact held_none hu
    | cut n => exact held_none hu
    | suspended => exact held_none hu
  · rw [if_neg hparked]
    exact wp_popThen_serves (marked_self s)

end Turns

section Reads

/-- A call has come to where it waits for a chunk: after some turns, whatever
    was parked is sent, and the buffer is empty. -/
inductive WaitsForChunk (d : Driver τ) : RunspacePool τ → RunspacePool τ → Prop
  | now {s : RunspacePool τ} : s.pendingMessages = [] → WaitsForChunk d s s
  | flushed {s : RunspacePool τ} (script turns) :
      (flushDeferredHostResponses d ⟨s, script, turns⟩).1 = .ok () →
      (flushDeferredHostResponses d ⟨s, script, turns⟩).2.state.pendingMessages = [] →
      WaitsForChunk d s (flushDeferredHostResponses d ⟨s, script, turns⟩).2.state
  | later {s t : RunspacePool τ} (script turns) :
      (readTurn d ⟨s, script, turns⟩).1 = .ok (.more ()) →
      WaitsForChunk d (readTurn d ⟨s, script, turns⟩).2.state t → WaitsForChunk d s t

/-- A call was dropped while it waited for a chunk. -/
def DroppedWaiting (d : Driver τ) (s t : RunspacePool τ) : Prop :=
  ∃ u x v, WaitsForChunk d s u ∧ fateOf x = .dropped ∧ Ran d.transport.recvChunk x u.transport v
    ∧ t = { u with transport := v }

/-- What a call does with the messages it takes. It answers them, all but the
    last; and the last is returned, or the call ends over it. -/
structure Served (d : Driver τ) (s : RunspacePool τ) (messages : List PsrpMessage)
    (x : Exit PsrpError PsrpMessage) (t : RunspacePool τ) : Prop where
  took : tookOf t.history = tookOf s.history ++ messages
  returned : ∀ msg, x = .ok msg → ∃ handled,
    answeredOf t.history = answeredOf s.history ++ handled
    ∧ (∀ m ∈ handled, isHostCall m.messageType)
    ∧ ((messages = handled ++ [msg] ∧ ¬ isHostCall msg.messageType)
      ∨ (messages = handled ∧ MadeUp d msg t))
  stopped : (∀ msg, x ≠ .ok msg) → ∃ handled held answered,
    messages = handled ++ held ∧ held.length ≤ 1 ∧ (answered = [] ∨ answered = held)
    ∧ answeredOf t.history = answeredOf s.history ++ handled ++ answered
    ∧ ∀ m ∈ handled, isHostCall m.messageType
  dropped : (∀ msg, x ≠ .ok msg) → DroppedWaiting d s t →
    answeredOf t.history = answeredOf s.history ++ messages
    ∧ ∀ m ∈ messages, isHostCall m.messageType

variable {handled handled' held : List PsrpMessage}

theorem handled_self (s : RunspacePool τ) : Handled s s [] := by
  refine ⟨?_, fun _ hm => absurd hm List.not_mem_nil⟩
  rw [List.append_nil, List.append_nil]
  exact marked_self s

theorem Handled.trans (h : Handled s t handled) (h' : Handled t u handled') :
    Handled s u (handled ++ handled') := by
  refine ⟨⟨?_, ?_⟩, fun m hm => ?_⟩
  · rw [h'.1.1, h.1.1, List.append_assoc]
  · rw [h'.1.2, h.1.2, List.append_assoc]
  · exact (List.mem_append.mp hm).elim (h.2 m) (h'.2 m)

/-- Turns before the last one of a call. -/
def Before (s t : RunspacePool τ) : Prop := ∃ handled, Handled s t handled

/-- Where a call stands when it ends early. -/
def Stopped (s t : RunspacePool τ) : Prop :=
  ∃ u handled held, Handled s u handled ∧ Held u t held

theorem wp_nextMessage_serves : wp (nextMessage d)
    (Ends (Stopped s) (fun _ => Stopped s) fun msg t => ∃ u, Before s u ∧ Returns d u msg t) s := by
  refine Async.wp_loop (fun _ t => Before s t) ⟨[], handled_self s⟩ (fun _ t ht => ?_) fun _ t ht => ?_
  · rcases ht with ⟨handled, ht⟩
    rcases held_none (marked_self t) with ⟨held, hheld⟩
    exact ⟨t, handled, held, ht, hheld⟩
  · refine wp_mono wp_readTurn_serves fun x v hx => ?_
    rcases ht with ⟨handled, ht⟩
    cases x with
    | ok turn =>
        cases turn with
        | more =>
            rcases hx with ⟨handled', hx⟩
            exact ⟨handled ++ handled', ht.trans hx⟩
        | done msg => exact ⟨t, ⟨handled, ht⟩, hx⟩
    | err e =>
        rcases hx with ⟨held, hx⟩
        exact ⟨t, handled, held, ht, hx⟩
    | cut n =>
        rcases hx with ⟨held, hx⟩
        exact ⟨t, handled, held, ht, hx⟩
    | suspended =>
        rcases hx with ⟨held, hx⟩
        exact ⟨t, handled, held, ht, hx⟩

/-- Up to where it waits for a chunk, a call has only answered host calls. -/
theorem WaitsForChunk.before (h : WaitsForChunk d s t) : Before s t := by
  induction h with
  | now hpending => exact ⟨[], handled_self _⟩
  | flushed script turns hend hpending =>
      rename_i s
      refine ⟨[], ?_, fun _ hm => absurd hm List.not_mem_nil⟩
      rw [List.append_nil, List.append_nil]
      exact stays_flushDeferredHostResponses_marks s (marked_self s) script turns
  | later script turns hend hrest ih =>
      rename_i s t
      have hturn := wp_readTurn_serves (d := d) (s := s) script turns
      rw [hend] at hturn
      rcases hturn with ⟨handled, hturn⟩
      rcases ih with ⟨handled', ih⟩
      exact ⟨handled ++ handled', hturn.trans ih⟩

theorem DroppedWaiting.before (h : DroppedWaiting d s t) : Before s t := by
  rcases h with ⟨u, x, v, hwaits, _, _, rfl⟩
  rcases hwaits.before with ⟨handled, hmarked, hcalls⟩
  exact ⟨handled, ⟨hmarked.1, hmarked.2⟩, hcalls⟩

/-- What one call does with messages. -/
theorem wp_nextMessage_served :
    wp (nextMessage d) (fun x t => ∃ messages, Served d s messages x t) s := by
  refine wp_mono wp_nextMessage_serves fun x t hx => ?_
  have hstopped : (∀ msg, x ≠ .ok msg) → Stopped s t → ∃ messages, Served d s messages x t := by
    rintro hno ⟨u, handled, held, hhandled, hlength, answered, hanswered, hmarked⟩
    have htook : tookOf t.history = tookOf s.history ++ (handled ++ held) := by
      rw [hmarked.1, hhandled.1.1, List.append_assoc]
    refine ⟨handled ++ held, htook, fun msg hmsg => absurd hmsg (hno msg), fun _ => ?_, fun _ hwait => ?_⟩
    · refine ⟨handled, held, answered, rfl, hlength, hanswered, ?_, hhandled.2⟩
      rw [hmarked.2, hhandled.1.2]
    · -- The call held nothing when it was dropped there.
      rcases hwait.before with ⟨calls, hcalls⟩
      have hsame : handled ++ held = calls :=
        List.append_cancel_left (htook.symm.trans hcalls.1.1)
      rw [hsame]
      exact ⟨hcalls.1.2, hcalls.2⟩
  cases x with
  | err e => exact hstopped nofun hx
  | cut n => exact hstopped nofun hx
  | suspended => exact hstopped nofun hx
  | ok msg =>
      rcases hx with ⟨u, ⟨handled, hhandled⟩, ⟨hmt, hmarked⟩ | ⟨hmade, hmarked⟩⟩
      · refine ⟨handled ++ [msg], ?_, fun msg' hmsg => ?_, fun hno => absurd rfl (hno msg),
          fun hno => absurd rfl (hno msg)⟩
        · rw [hmarked.1, hhandled.1.1, List.append_assoc]
        · cases hmsg
          refine ⟨handled, ?_, hhandled.2, Or.inl ⟨rfl, hmt⟩⟩
          rw [hmarked.2, hhandled.1.2]
      · refine ⟨handled, ?_, fun msg' hmsg => ?_, fun hno => absurd rfl (hno msg),
          fun hno => absurd rfl (hno msg)⟩
        · rw [hmarked.1, hhandled.1.1]
        · cases hmsg
          refine ⟨handled, ?_, hhandled.2, Or.inr ⟨rfl, hmade⟩⟩
          rw [hmarked.2, hhandled.1.2]

end Reads

section Chunks

/-- What carries a message to the server. -/
def Transmits (d : Driver τ) (q : Bytes → Prog τ Unit) : Prop :=
  q = d.transport.sendFragment ∨ ∃ mt pid, q = carrier d mt pid

/-- What `recvChunk` returned while the transport went from one state to
    another. -/
inductive Returned (d : Driver τ) (v : τ) : List Bytes → τ → Prop
  | start : Returned d v [] v
  | chunk {chunks : List Bytes} {chunk : Bytes} {w w' : τ} : Returned d v chunks w →
    Ran d.transport.recvChunk (.ok chunk) w w' → Returned d v (chunks ++ [chunk]) w'
  | stopped {chunks : List Bytes} {x : Exit PsrpError Bytes} {w w' : τ} : Returned d v chunks w →
    fateOf x ≠ .through → Ran d.transport.recvChunk x w w' → Returned d v chunks w'
  | sent {chunks : List Bytes} {q : Bytes → Prog τ Unit} {bytes : Bytes}
    {x : Exit PsrpError Unit} {w w' : τ} : Returned d v chunks w → Transmits d q →
    Ran (q bytes) x w w' → Returned d v chunks w'
  | aside {chunks : List Bytes} {w w' : τ} : Returned d v chunks w → Aside d w w' →
    Returned d v chunks w'

/-- The chunks of a pool are what the transport returned. -/
def Supplied (d : Driver τ) (v : τ) (s : RunspacePool τ) : Prop :=
  Returned d v (chunksOf s.history) s.transport

variable {v : τ}

theorem Supplied.note (h : Supplied d v s) {e : PoolEvent} (he : chunksOf [e] = []) :
    Supplied d v (s.note e) := by
  rw [Supplied, RunspacePool.note, chunksOf_snoc, he, List.append_nil]
  exact h

/-- A chunk that is noted when it was returned. -/
theorem Supplied.chunk (h : Supplied d v s) {chunk : Bytes} {w : τ}
    (hran : Ran d.transport.recvChunk (.ok chunk) s.transport w) :
    Supplied d v (RunspacePool.note (.chunk chunk) { s with transport := w }) := by
  rw [Supplied, RunspacePool.note, chunksOf_snoc]
  exact Returned.chunk h hran

theorem Supplied.sends {q : Bytes → Prog τ Unit} {mt : MessageType} {pid : Uuid} {body : Text}
    {o : Fate} (h : Supplied d v s) (hq : Transmits d q) (hsend : Sends q mt pid body s o t) :
    Supplied d v t := by
  have hbegun : ∀ {x w}, Ran (q (frame mt pid body s).bytes) x s.transport w →
      Supplied d v (begun (frame mt pid body s) w s) := by
    intro x w hran
    have hnote := h.note (e := .sending (frame mt pid body s)) rfl
    exact Returned.sent hnote hq hran
  cases hsend with
  | through w hroom hran => exact (hbegun hran).note rfl
  | stopped o x w ho hfate hroom hran => exact hbegun hran
  | exhausted e hfull => exact h.note rfl

theorem Supplied.responds {mt : MessageType} {pid : Uuid} {body : Text} {o : Fate}
    (h : Supplied d v s) (hsend : Responds d mt pid body s o t) : Supplied d v t :=
  h.sends (Or.inr ⟨mt, pid, rfl⟩) hsend

theorem Supplied.publishes {o : Fate} (h : Supplied d v s) (hpub : Publishes d s o t) :
    Supplied d v t := by
  cases hpub with
  | started key u hsend => exact (h.sends (Or.inl rfl) hsend).note (e := .exchange key) rfl
  | stopped key o u ho hsend => exact h.sends (Or.inl rfl) hsend
  | keyless e => exact h.note rfl

theorem Supplied.failsEach {message : String} {ps : List DeferredHostResponse} {o : Fate}
    (hfails : FailsEach d message ps o s t) (h : Supplied d v s) : Supplied d v t := by
  induction hfails with
  | nil s => exact h
  | cons hne hsend hrest ih => exact ih ((h.note rfl).responds hsend)
  | dropped hsend => exact (h.note rfl).responds hsend

theorem Supplied.took {msg : PsrpMessage} (h : Supplied d v s) (htook : Took msg s u) :
    Supplied d v u := by
  rcases htook with ⟨_, rest, _, rfl⟩
  exact h.note (e := .took msg) rfl

/-- Feeding a chunk notes nothing and leaves the transport alone. -/
theorem Supplied.feeds {chunk : Bytes} {r : Except PsrpError Unit} (h : Supplied d v s)
    (hfeed : feedChunk chunk s = (r, t)) : Supplied d v t := by
  have hsame : t.history = s.history ∧ t.transport = s.transport := by
    unfold feedChunk at hfeed
    split at hfeed
    · cases hfeed
      exact ⟨rfl, rfl⟩
    · split at hfeed <;> cases hfeed <;> exact ⟨rfl, rfl⟩
  rw [Supplied, hsame.1, hsame.2]
  exact h

/-- A deed notes a chunk if and only if the transport returned it. -/
theorem Deed.supplied {o : Fate} (hdeed : Deed d o s t) (h : Supplied d v s) : Supplied d v t := by
  cases hdeed with
  | unread hsettled ho hfate hran => exact Returned.stopped h (hfate ▸ ho) hran
  | fed hsettled hpending hran hfeed => exact (h.chunk hran).feeds hfeed
  | unfed hsettled hpending hran hfeed => exact (h.chunk hran).feeds hfeed
  | flushed hparked hkey hsend =>
      exact ((h.note rfl).responds hsend).note (e := .flushed _) rfl
  | unflushed ho hparked hkey hsend => exact (h.note rfl).responds hsend
  | undecodable htook hmt hdecode => exact h.took htook
  | asking htook hmt => exact h.took htook
  | silent htook hmt hdecode hwrites => exact (h.took htook).note rfl
  | replied htook hmt hdecode hwants hreply hsend => exact ((h.took htook).note rfl).responds hsend
  | parked htook hmt hdecode hwants hsecure hkey hpending =>
      exact ((h.took htook).note rfl).note (e := .parked (parkedFor _ _ _)) rfl
  | parkedFirst htook hmt hdecode hwants hsecure hkey hpending hpub =>
      exact (((h.took htook).note rfl).publishes hpub).note (e := .parked (parkedFor _ _ _)) rfl
  | unparked ho htook hmt hdecode hwants hsecure hkey hpending hpub =>
      exact ((h.took htook).note rfl).publishes hpub
  | accepted htook hmt hpending hunwrap => exact (h.took htook).note (e := .keyed _) rfl
  | refused htook hmt hpending hunwrap hfails | refusing htook hmt hpending hunwrap hfails =>
      exact Supplied.failsEach hfails ((h.took htook).note (e := .refused _) rfl)
  | requested htook hmt hpending hpub => exact (h.took htook).publishes hpub

theorem Move.supplied (hmove : Move d s t) (h : Supplied d v s) : Supplied d v t := by
  cases hmove with
  | deed ho hdeed => exact hdeed.supplied h
  | handed hhand =>
      cases hhand with
      | plain htook hcall hkey hrequest => exact (h.took htook).note rfl
      | after hsettled hmt => exact h.note rfl
      | ended hsettled hran hidle hempty hmsg => exact (h.chunk hran).note rfl
  | sent hmt hq hsend => exact h.sends (hq.imp_right fun hq => ⟨_, _, hq⟩) hsend
  | published hkey hpending hpub => exact h.publishes hpub
  | injected key => exact h.note (e := .injected key) rfl
  | turned machine closed hrpid => exact h
  | aside w haside => exact Returned.aside h haside
  | remarked e he =>
      refine h.note ?_
      cases e <;> first | rfl | cases he
  | interrupted hdeed => exact ((hdeed.supplied h).note rfl).note rfl

/-- A program that only moves the pool notes what the transport returns. -/
theorem Moving.supplied {q : Prog (RunspacePool τ) α} (hq : Moving d q) (h : Supplied d v s) :
    wp q (fun _ t => Supplied d v t) s := by
  refine wp_mono (hq s) fun x t ht => ?_
  have hmoves : ∀ {u}, Moves d s u → Supplied d v u := by
    intro u hu
    induction hu with
    | refl => exact h
    | tail _ hmove ih => exact hmove.supplied ih
  cases x with
  | ok a => exact hmoves ht
  | err e => exact hmoves ht
  | cut n | suspended =>
      rcases ht with ⟨u, hu, rfl | hdeed⟩
      · exact hmoves hu
      · exact hdeed.supplied (hmoves hu)

end Chunks

section Runs

/-- What some calls do with messages, one after the other. -/
inductive Serves (d : Driver τ) : RunspacePool τ → List (Call Answer Unit) →
    List (List PsrpMessage) → Prop
  | nil (s : RunspacePool τ) : Serves d s [] []
  | cons {s : RunspacePool τ} {c : Call Answer Unit} {calls : List (Call Answer Unit)}
      {messages : List PsrpMessage} {rest : List (List PsrpMessage)} :
      Served d s messages (nextMessage d ⟨s, c.script, c.turns⟩).1
        (nextMessage d ⟨s, c.script, c.turns⟩).2.state →
      Serves d (nextMessage d ⟨s, c.script, c.turns⟩).2.state calls rest →
      Serves d s (c :: calls) (messages :: rest)

theorem exists_serves (calls : List (Call Answer Unit)) (s : RunspacePool τ) :
    ∃ segments, Serves d s calls segments
      ∧ tookOf (play (fun _ => nextMessage d) calls s).2.history
        = tookOf s.history ++ segments.flatten := by
  induction calls generalizing s with
  | nil => exact ⟨[], .nil s, (List.append_nil _).symm⟩
  | cons c calls ih =>
      rcases wp_nextMessage_served (d := d) (s := s) c.script c.turns with ⟨messages, hserved⟩
      rcases ih (nextMessage d ⟨s, c.script, c.turns⟩).2.state with ⟨rest, hrest, htook⟩
      refine ⟨messages :: rest, .cons hserved hrest, ?_⟩
      rw [play, htook, hserved.took, List.flatten_cons, List.append_assoc]

/-- Reads keep what is known of the buffer and the stream. -/
theorem reading_play (calls : List (Call Answer Unit)) (h : Reading s) :
    Reading (play (fun _ => nextMessage d) calls s).2 :=
  Async.play_run (fun _ u => Reading u) (fun _ _ _ hu => moving_nextMessage.reading hu) calls h

/-- Successive calls of `nextMessage`, in a pool that anything has been done with
    before, take messages out of the stream of the server in the order in which
    they complete: as long as no fragment and no message of the stream is
    malformed, what they take and what is left in the buffer is exactly what
    was not taken before. Each call takes host calls and answers them, and then
    returns the next message that is none; or it ends without returning one,
    with at most one message in its hands, and with none if it was dropped
    while it waited for a chunk. A message that is returned and was not taken
    is made up, after an empty chunk with nothing left to read. And the stream
    is what the transport returned, chunk by chunk. -/
theorem messages_in_order (d : Driver τ) (transport : τ) (machine : RunspacePoolStateMachine)
    (n : UInt64) (key : Option SessionKey) (past : List (Call Answer PoolOperation))
    (calls : List (Call Answer Unit)) :
    let s := (play (perform d) past (attached transport machine n key)).2
    let t := (play (fun _ => nextMessage d) calls s).2
    ∃ segments, Serves d s calls segments
      ∧ tookOf t.history = tookOf s.history ++ segments.flatten
      ∧ (faultOf (streamOf t) = none →
        soundMessages (streamOf t) = tookOf s.history ++ segments.flatten ++ t.pendingMessages)
      ∧ Returned d transport (chunksOf t.history) t.transport := by
  intro s t
  have hs : Reading s := play_moves (fun _ _ h hmove => Move.reading hmove h)
    (fun _ _ h hdeed => Deed.reading hdeed h) past (reading_attached transport machine n key)
  rcases exists_serves (d := d) calls s with ⟨segments, hserves, htook⟩
  refine ⟨segments, hserves, htook, fun hsound => ?_, ?_⟩
  · rw [← htook]
    exact (reading_play (d := d) calls hs).messages hsound
  · have hpast : Supplied d transport s := play_moves (fun _ _ h hmove => hmove.supplied h)
      (fun _ _ h hdeed => hdeed.supplied h) past .start
    exact Async.play_run (fun _ u => Supplied d transport u)
      (fun _ _ _ hu => moving_nextMessage.supplied hu) calls hpast

/-- A stream with a line for the host and two states of a pipeline, in chunks
    that cut the first message and the last one. -/
def mixedTransport : MockTransport :=
  let state := fun code => numberMessage .basic .pipelineState Uuid.nil Uuid.nil "PipelineState" code
  let stream := encodeMessage 1 (hostCallMessage 8 11).encode
    ++ encodeMessage 2 (state 2).encode ++ encodeMessage 3 (state 4).encode
  { MockTransport.new with
    inbox := [stream.take 30, (stream.drop 30).take (stream.length - 40),
      stream.drop (stream.length - 10)] }

/-- Two reads of it. -/
def mixedReads : List (Call Answer Unit) := [⟨(), [], 9⟩, ⟨(), [], 9⟩]

/-- The line is written, the two states are returned in order, and every chunk of
    the transport was read. -/
theorem messages_in_order_mixed :
    let t := (play (fun _ => nextMessage mockDriver) mixedReads
      (attached mixedTransport freshMachine 1 none)).2
    (handedOf t.history).map (fun msg => msg.data)
        = [numberBody .basic "PipelineState" 2, numberBody .basic "PipelineState" 4]
      ∧ (soundMessages (streamOf t)).length = 3 ∧ soundMessages (streamOf t) = tookOf t.history
      ∧ Returned mockDriver mixedTransport mixedTransport.inbox t.transport := by
  intro t
  have hrun : (handedOf t.history).map (fun msg => msg.data)
        = [numberBody .basic "PipelineState" 2, numberBody .basic "PipelineState" 4]
      ∧ (soundMessages (streamOf t)).length = 3 ∧ faultOf (streamOf t) = none
      ∧ t.pendingMessages = [] ∧ chunksOf t.history = mixedTransport.inbox := by
    decide +kernel
  rcases messages_in_order mockDriver mixedTransport freshMachine 1 none [] mixedReads with
    ⟨segments, _, htook, hsound, hreturned⟩
  rw [← htook] at hsound
  have hmessages : soundMessages (streamOf t) = tookOf t.history ++ t.pendingMessages :=
    hsound hrun.2.2.1
  refine ⟨hrun.1, hrun.2.1, ?_, hrun.2.2.2.2 ▸ hreturned⟩
  rw [hmessages, hrun.2.2.2.1, List.append_nil]

end Runs

end RunspacePool

end Psrp

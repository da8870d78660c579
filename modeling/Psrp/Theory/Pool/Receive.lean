import Psrp.Core.Metadata

/-!
# What a Receive Loop Does with a Message

The receive loops read with `nextMessage` and decide what a message means. What
they decide is a function of the message and of what they collected so far;
`absorb` is that function for the loops of a pipeline and `absorbMetadata` for
the loop of `getCommandMetadata`.

A message that was delivered is what `nextMessage` returned, whatever it took
to get it: chunks, host calls, the key exchange. `Delivers` says that some
messages were delivered one after the other.

## Main definitions

* `StreamKind`: The seven streams.
* `absorb`, `absorbMetadata`: What a loop does with a message.
* `Delivers`: Messages that were delivered.
* `foldTurns`: A loop over messages.

## Theorems

* `runTurn_eq`, `drainTurn_eq`: The two loops are one.
* `loopTurn_unfired`, `metadataTurn_read`: A turn is what its loop does with
  the message it reads.
* `turnsOf_delivers`: A loop over messages that were delivered.
-/

namespace Psrp

open Async (Turn)

/-- The streams of a pipeline. -/
inductive StreamKind where
  | output
  | errors
  | warnings
  | verbose
  | debug
  | information
  | progress
  deriving DecidableEq

/-- The type of the messages that carry a stream. -/
def StreamKind.messageType : StreamKind → MessageType
  | output => .pipelineOutput
  | errors => .errorRecord
  | warnings => .warningRecord
  | verbose => .verboseRecord
  | debug => .debugRecord
  | information => .informationRecord
  | progress => .progressRecord

/-- The stream that a type of message carries. -/
def streamOf : MessageType → Option StreamKind
  | .pipelineOutput => some .output
  | .errorRecord => some .errors
  | .warningRecord => some .warnings
  | .verboseRecord => some .verbose
  | .debugRecord => some .debug
  | .informationRecord => some .information
  | .progressRecord => some .progress
  | _ => none

/-- The stream of a result. -/
def PipelineResult.stream (r : PipelineResult) : StreamKind → List PsValue
  | .output => r.output
  | .errors => r.errors
  | .warnings => r.warnings
  | .verbose => r.verbose
  | .debug => r.debug
  | .information => r.information
  | .progress => r.progress

/-- A result with more values on a stream. -/
def PipelineResult.add (r : PipelineResult) (values : List PsValue) : StreamKind → PipelineResult
  | .output => { r with output := r.output ++ values }
  | .errors => { r with errors := r.errors ++ values }
  | .warnings => { r with warnings := r.warnings ++ values }
  | .verbose => { r with verbose := r.verbose ++ values }
  | .debug => { r with debug := r.debug ++ values }
  | .information => { r with information := r.information ++ values }
  | .progress => { r with progress := r.progress ++ values }

theorem streamOf_eq_some (mt : MessageType) (k : StreamKind) :
    streamOf mt = some k ↔ mt = k.messageType := by
  constructor
  · intro h
    cases mt <;> cases k <;> first | rfl | cases h
  · rintro rfl
    cases k <;> rfl

theorem stream_add (r : PipelineResult) (values : List PsValue) (k k' : StreamKind) :
    (r.add values k).stream k' = if k = k' then r.stream k' ++ values else r.stream k' := by
  cases k <;> cases k' <;> rfl

/-- A result is its streams and its state. -/
theorem PipelineResult.ext_streams {r r' : PipelineResult} (h : ∀ k, r.stream k = r'.stream k)
    (hstate : r.state = r'.state) : r = r' := by
  have houtput := h .output
  have herrors := h .errors
  have hwarnings := h .warnings
  have hverbose := h .verbose
  have hdebug := h .debug
  have hinformation := h .information
  have hprogress := h .progress
  rcases r with ⟨_, _, _, _, _, _, _, _⟩
  rcases r' with ⟨_, _, _, _, _, _, _, _⟩
  simp only [PipelineResult.stream] at *
  subst_vars
  rfl

/-- Whether a message belongs to a pipeline. -/
def isOwn (pid rpid : Uuid) (msg : PsrpMessage) : Bool := msg.pid = pid && msg.rpid = rpid

/-- What a terminal state makes of a pipeline. -/
def conclude (p : PoolPlatform) (cancelSignalled : Bool) (result : PipelineResult) (data : Text) :
    PipelineState → Except PsrpError PipelineResult
  | .failed => .error (.pipelineFailed (String.ofList (failureMessage p data result.errors)))
  | .stopped => .error (if cancelSignalled then .cancelled else .stopped)
  | state => .ok { result with state }

/-- What a pipeline does with a message. -/
def absorb (p : PoolPlatform) (pid rpid : Uuid) (cancelSignalled : Bool) (result : PipelineResult)
    (msg : PsrpMessage) : Except PsrpError (Turn RunspacePool.LoopState PipelineResult) :=
  if isOwn pid rpid msg = false then .ok (.more (cancelSignalled, result))
  else if msg.messageType = .pipelineState then
    match extractPipelineState p.toPlatform msg.data with
    | .error e => .error e
    | .ok state =>
      if state.isTerminal then
        (conclude p cancelSignalled { result with state } msg.data state).map .done
      else .ok (.more (cancelSignalled, { result with state }))
  else match streamOf msg.messageType with
    | none => .ok (.more (cancelSignalled, result))
    | some k => (parseClixml p.toPlatform msg.data).map fun values =>
        .more (cancelSignalled, result.add values k)

/-- What a request for metadata does with a message. -/
def absorbMetadata (p : Platform) (out : List CommandMetadata) (msg : PsrpMessage) :
    Except PsrpError (Turn (List CommandMetadata) (List CommandMetadata)) :=
  match msg.messageType with
  | .pipelineOutput => (parseClixml p msg.data).map fun values =>
      .more (out ++ values.filterMap CommandMetadata.fromPsObject)
  | .pipelineState =>
    match stateFromXml p msg.data with
    | none => .ok (.more out)
    | some state =>
      if state.isTerminal then
        if state = .failed then .error (RunspacePool.metadataFailure p msg.data)
        else .ok (.done out)
      else .ok (.more out)
  | _ => .ok (.more out)

namespace RunspacePool

variable {τ β γ : Type}

/-- A token that has not fired. -/
def Unfired (cancel : CancellationToken) (w : World Answer (RunspacePool τ)) : Prop :=
  cancel = .armed → ∀ rest, w.script ≠ .alarm 0 :: rest

/-- The messages that were delivered, one after the other, while a token did not
    fire. -/
inductive Delivers (d : Driver τ) (cancel : CancellationToken) :
    World Answer (RunspacePool τ) → List PsrpMessage → World Answer (RunspacePool τ) → Prop
  | nil (w) : Delivers d cancel w [] w
  | cons {w w' w'' msg msgs} : Unfired cancel w → nextMessage d w = (.ok msg, w') →
      Delivers d cancel w' msgs w'' → Delivers d cancel w (msg :: msgs) w''

variable {d : Driver τ} {cancel : CancellationToken} {w w' w'' : World Answer (RunspacePool τ)}

/-- The end of a computation that neither waits nor changes anything. -/
def exitOf {α : Type} (r : Except PsrpError α) : Exit PsrpError α :=
  match r with
  | .ok a => .ok a
  | .error e => .err e

theorem lift_apply {α : Type} (r : Except PsrpError α) (w : World Answer (RunspacePool τ)) :
    (Async.lift r : Prog (RunspacePool τ) α) w = (exitOf r, w) := by
  cases r <;> rfl

theorem readMessage_ok {msg : PsrpMessage} (h : nextMessage d w = (.ok msg, w')) :
    readMessage d w = (.ok (.ok msg), w') := by
  rw [readMessage, Async.bind_apply, Async.attempt, h]
  rfl

theorem readMessage_err {e : PsrpError} (h : nextMessage d w = (.err e, w')) :
    readMessage d w = (.ok (.error e), { w' with state := w'.state.note (.raised e) }) := by
  rw [readMessage, Async.bind_apply, Async.attempt, h]
  rfl

/-- One turn of a receive loop, with what becomes of a message said by
    `absorb`. -/
def loopTurn (d : Driver τ) (pid rpid : Uuid) (cancel : CancellationToken) (loop : LoopState) :
    Prog (RunspacePool τ) (Turn LoopState PipelineResult) := do
  let (cancelSignalled, result) := loop
  let cancelled ← if cancelSignalled then pure false else isCancelled cancel
  if cancelled then signalTransportStop d
  let cancelSignalled := cancelSignalled || cancelled
  let selected ←
    unlessCancelled (if cancelSignalled then .never else cancel) (readMessage d)
  match selected with
  | none => do
    signalTransportStop d
    return .more (true, result)
  | some (.error e) =>
    if e = .stopped ∧ cancelSignalled = true then Async.throw .cancelled else Async.throw e
  | some (.ok msg) => Async.lift (absorb d.platform pid rpid cancelSignalled result msg)

/-- What a loop does with a message is a computation. -/
theorem runMessage_eq (d : Driver τ) (pid rpid : Uuid) (b : Bool) (result : PipelineResult)
    (msg : PsrpMessage) :
    runMessage d pid rpid b result msg = Async.lift (absorb d.platform pid rpid b result msg) := by
  unfold runMessage absorb
  by_cases hown : msg.pid ≠ pid ∨ msg.rpid ≠ rpid
  · have hforeign : isOwn pid rpid msg = false := by
      rw [isOwn, Bool.and_eq_false_iff, decide_eq_false_iff_not, decide_eq_false_iff_not]
      exact hown
    rw [if_pos hown, if_pos hforeign]
    rfl
  · have hforeign : ¬ isOwn pid rpid msg = false := by
      rw [isOwn, Bool.and_eq_false_iff, decide_eq_false_iff_not, decide_eq_false_iff_not]
      exact hown
    rw [if_neg hown, if_neg hforeign]
    cases hmt : msg.messageType with
    | pipelineState =>
        simp only [if_true]
        cases extractPipelineState d.platform.toPlatform msg.data with
        | error e => rfl
        | ok state => cases state <;> cases b <;> rfl
    | pipelineOutput | errorRecord | warningRecord | verboseRecord | debugRecord
    | informationRecord | progressRecord =>
        simp only [reduceCtorEq, if_false, streamOf]
        cases parseClixml d.platform.toPlatform msg.data <;> rfl
    | _ => rfl

theorem runTurn_eq (d : Driver τ) (pid rpid : Uuid) (cancel : CancellationToken)
    (loop : LoopState) : runTurn d pid rpid cancel loop = loopTurn d pid rpid cancel loop := by
  have hmessage : runMessage d pid rpid
      = fun b result msg => Async.lift (absorb d.platform pid rpid b result msg) := by
    funext b result msg
    exact runMessage_eq d pid rpid b result msg
  rcases loop with ⟨cancelSignalled, result⟩
  have hrun := runTurn.eq_1 d pid rpid cancel cancelSignalled result
  rw [hmessage] at hrun
  exact hrun

/-- The two loops are written out twice and are the same. -/
theorem drainTurn_eq (d : Driver τ) (pid rpid : Uuid) (cancel : CancellationToken)
    (loop : LoopState) : drainTurn d pid rpid cancel loop = loopTurn d pid rpid cancel loop :=
  runTurn_eq d pid rpid cancel loop

/-- The part of a turn after the token was looked at: a select, and what
    becomes of what it selects. -/
def serve (d : Driver τ) (pid rpid : Uuid) (cancel : CancellationToken) (signalled : Bool)
    (result : PipelineResult) : Prog (RunspacePool τ) (Turn LoopState PipelineResult) := do
  let selected ← unlessCancelled (if signalled then .never else cancel) (readMessage d)
  match selected with
  | none => do
    signalTransportStop d
    return .more (true, result)
  | some (.error e) =>
    if e = .stopped ∧ signalled = true then Async.throw .cancelled else Async.throw e
  | some (.ok msg) => Async.lift (absorb d.platform pid rpid signalled result msg)

/-- A turn that has signalled the stop only serves; one that has not looks at
    the token first. -/
theorem loopTurn_signalled (d : Driver τ) (pid rpid : Uuid) (cancel : CancellationToken)
    (result : PipelineResult) :
    loopTurn d pid rpid cancel (true, result) = serve d pid rpid cancel true result := rfl

theorem loopTurn_unsignalled (d : Driver τ) (pid rpid : Uuid) (cancel : CancellationToken)
    (result : PipelineResult) : loopTurn d pid rpid cancel (false, result) = (do
      let fired ← isCancelled cancel
      if fired then
        signalTransportStop d
        serve d pid rpid cancel true result
      else serve d pid rpid cancel false result) := by
  simp only [loopTurn, Bool.false_eq_true, if_false, Bool.false_or]
  refine congrArg (isCancelled cancel >>= ·) (funext fun fired => ?_)
  cases fired <;> rfl

theorem isCancelled_unfired (h : Unfired cancel w) : isCancelled cancel w = (.ok false, w) := by
  cases cancel with
  | never => rfl
  | armed =>
      have halarmed : (Async.alarmed : Prog (RunspacePool τ) Bool) w = (.ok false, w) := by
        unfold Async.alarmed
        split
        · next rest hscript => exact absurd hscript (h rfl rest)
        · rfl
      rw [isCancelled, Async.bind_apply, halarmed]
      rfl

theorem unlessCancelled_unfired {α : Type} {q : Prog (RunspacePool τ) α} {a : α}
    (h : Unfired cancel w) (hq : q w = (.ok a, w')) :
    unlessCancelled cancel q w = (.ok (some a), w') := by
  cases cancel with
  | never =>
      rw [unlessCancelled, Async.bind_apply, hq]
      rfl
  | armed =>
      have hguarded : Async.guarded q w = (.ok (some a), w') := by
        rw [Async.guarded, hq]
      rw [unlessCancelled, Async.bind_apply, isCancelled_unfired h]
      simp only [Bool.false_eq_true, if_false]
      rw [Async.bind_apply, hguarded]
      rfl

/-- A turn of a loop whose token does not fire is what it does with the message
    it reads. -/
theorem loopTurn_unfired {pid rpid : Uuid} {result : PipelineResult} {msg : PsrpMessage}
    (hunfired : Unfired cancel w) (h : nextMessage d w = (.ok msg, w')) :
    loopTurn d pid rpid cancel (false, result) w
      = (exitOf (absorb d.platform pid rpid false result msg), w') := by
  simp only [loopTurn, Bool.false_eq_true, if_false]
  rw [Async.bind_apply, isCancelled_unfired hunfired]
  simp only [Bool.false_eq_true, if_false, Bool.or_false]
  rw [Async.bind_apply, unlessCancelled_unfired hunfired (readMessage_ok h)]
  exact lift_apply _ _

theorem loopTurn_unfired_err {pid rpid : Uuid} {result : PipelineResult} {e : PsrpError}
    (hunfired : Unfired cancel w) (h : nextMessage d w = (.err e, w')) :
    loopTurn d pid rpid cancel (false, result) w
      = (.err e, { w' with state := w'.state.note (.raised e) }) := by
  simp only [loopTurn, Bool.false_eq_true, if_false]
  rw [Async.bind_apply, isCancelled_unfired hunfired]
  simp only [Bool.false_eq_true, if_false, Bool.or_false]
  rw [Async.bind_apply, unlessCancelled_unfired hunfired (readMessage_err h)]
  simp only [and_false, if_false]
  rfl

/-- The token of a loop stays unsignalled while it does not fire. -/
theorem absorb_signalled {p : PoolPlatform} {pid rpid : Uuid} {b b' : Bool}
    {r r' : PipelineResult} {msg : PsrpMessage}
    (h : absorb p pid rpid b r msg = .ok (.more (b', r'))) : b' = b := by
  unfold absorb at h
  -- A turn that goes on hands the flag on, whatever it absorbed.
  by_cases hforeign : isOwn pid rpid msg = false
  · rw [if_pos hforeign] at h
    cases h
    rfl
  · rw [if_neg hforeign] at h
    split at h
    · cases hextract : extractPipelineState p.toPlatform msg.data with
      | error e =>
          rw [hextract] at h
          cases h
      | ok state =>
          rw [hextract] at h
          simp only [] at h
          split at h
          · cases hconclude : conclude p b { r with state } msg.data state with
            | error e =>
                rw [hconclude] at h
                cases h
            | ok r =>
                rw [hconclude] at h
                cases h
          · cases h
            rfl
    · cases hstream : streamOf msg.messageType with
      | none =>
          rw [hstream] at h
          cases h
          rfl
      | some k =>
          rw [hstream] at h
          cases hparse : parseClixml p.toPlatform msg.data with
          | error e =>
              rw [hparse] at h
              cases h
          | ok values =>
              rw [hparse] at h
              cases h
              rfl

/-- A turn of the request for metadata is what it does with the message it
    reads. -/
theorem metadataTurn_read {out : List CommandMetadata} {msg : PsrpMessage}
    (h : nextMessage d w = (.ok msg, w')) : metadataTurn d out w
      = (exitOf (absorbMetadata d.platform.toPlatform out msg), w') := by
  rw [metadataTurn, Async.bind_apply, h]
  simp only [absorbMetadata]
  cases hmt : msg.messageType with
  | pipelineOutput =>
      simp only []
      cases parseClixml d.platform.toPlatform msg.data <;> rfl
  | pipelineState =>
      simp only []
      cases stateFromXml d.platform.toPlatform msg.data with
      | none => rfl
      | some state => cases state <;> rfl
  | _ => rfl

/-- A loop over messages: where it stands after all of them, or how it ended on
    the way. -/
def foldTurns (step : β → PsrpMessage → Except PsrpError (Turn β γ)) :
    List PsrpMessage → β → Except PsrpError (Turn β γ)
  | [], b => .ok (.more b)
  | msg :: msgs, b => match step b msg with
    | .ok (.more b') => foldTurns step msgs b'
    | r => r

/-- A loop that ends while it reads messages that were delivered ends as the
    messages say. The claim about a turn may rely on what every turn keeps. -/
theorem turnsOf_delivers {body : β → Prog (RunspacePool τ) (Turn β γ)}
    {step : β → PsrpMessage → Except PsrpError (Turn β γ)} (I : β → Prop)
    (hkeep : ∀ b msg b', I b → step b msg = .ok (.more b') → I b')
    (hbody : ∀ b w msg w', I b → Unfired cancel w → nextMessage d w = (.ok msg, w') →
      body b w = (exitOf (step b msg), w'))
    {msgs : List PsrpMessage} (h : Delivers d cancel w msgs w') {b : β} (hb : I b) {n : Nat}
    (hn : msgs.length ≤ n) :
    (∀ e, foldTurns step msgs b = .error e → (Async.turnsOf body n b w).1 = .err e)
    ∧ (∀ c, foldTurns step msgs b = .ok (.done c) → (Async.turnsOf body n b w).1 = .ok c)
    ∧ ∀ b', foldTurns step msgs b = .ok (.more b') → I b' ∧
      Async.turnsOf body n b w = Async.turnsOf body (n - msgs.length) b' w' := by
  -- Each message delivered is one turn of the loop and one step of the fold.
  induction h generalizing b n with
  | nil w =>
      refine ⟨fun e he => (by cases he), fun c hc => (by cases hc), fun b' hb' => ?_⟩
      cases hb'
      exact ⟨hb, rfl⟩
  | cons hunfired hread hrest ih =>
      rename_i w w' w'' msg msgs
      rcases n with _ | n
      · rw [List.length_cons] at hn
        omega
      · have hturn : Async.turnsOf body (n + 1) b w = match (exitOf (step b msg), w') with
            | (.ok (.more b'), w') => Async.turnsOf body n b' w'
            | (.ok (.done c), w') => (.ok c, w')
            | (.err e, w') => (.err e, w')
            | (.cut n, w') => (.cut n, w')
            | (.suspended, w') => (.suspended, w') := by
          rw [Async.turnsOf, Async.bind_apply, hbody b w msg w' hb hunfired hread]
          cases step b msg with
          | error e => rfl
          | ok turn => cases turn <;> rfl
        rw [hturn]
        simp only [foldTurns]
        cases hstep : step b msg with
        | error e =>
            refine ⟨fun e' he => ?_, fun c hc => (by cases hc), fun b' hb' => (by cases hb')⟩
            cases he
            rfl
        | ok turn =>
            cases turn with
            | done c =>
                refine ⟨fun e he => (by cases he), fun c' hc => ?_, fun b' hb' => (by cases hb')⟩
                cases hc
                rfl
            | more b₁ =>
                -- The loop goes on, with a turn less to take.
                have hlen : msgs.length ≤ n := by
                  rw [List.length_cons] at hn
                  omega
                rw [List.length_cons, Nat.add_sub_add_right]
                exact ih (hkeep b msg b₁ hb hstep) hlen

end RunspacePool

end Psrp

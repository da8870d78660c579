import Psrp.Theory.Pool.Mock

/-!
# Pipelines Do Not Mix

What a pipeline returns is decided by its own messages, in their order.

Of all messages that are delivered, those with the id of the pipeline and of
the pool are its own. The first of them that is malformed or announces a
terminal state decides the result (`decisive`). The streams hold what the own
messages before it carry, and nothing else does anything.

## Main definitions

* `Ending`, `ending`: What makes a message decide.
* `decisive`: The first own message that decides, and those before it.
* `verdict`: The result it decides.
* `outcome`: The result that some messages lead to.

## Theorems

* `foldTurns_absorb`: A loop computes the outcome.
* `pipeline_isolation`: Both loops return the outcome of what is delivered.
-/

namespace Psrp

open Async (Turn)

/-- How a message ends a pipeline. -/
inductive Ending where
  | malformed (e : PsrpError)
  | reached (state : PipelineState)
  deriving DecidableEq

/-- Whether a message ends its pipeline, and how. -/
def ending (p : Platform) (msg : PsrpMessage) : Option Ending :=
  if msg.messageType = .pipelineState then
    match extractPipelineState p msg.data with
    | .error e => some (.malformed e)
    | .ok state => if state.isTerminal then some (.reached state) else none
  else if (streamOf msg.messageType).isSome then
    match parseClixml p msg.data with
    | .error e => some (.malformed e)
    | .ok _ => none
  else none

/-- What some messages carry on a stream, in order. -/
def streamValues (p : Platform) (k : StreamKind) (msgs : List PsrpMessage) : List PsValue :=
  (msgs.filter fun msg => msg.messageType = k.messageType).flatMap fun msg =>
    ((parseClixml p msg.data).toOption).getD []

/-- The streams of some messages. -/
def collected (p : Platform) (msgs : List PsrpMessage) (state : PipelineState) : PipelineResult where
  output := streamValues p .output msgs
  errors := streamValues p .errors msgs
  warnings := streamValues p .warnings msgs
  verbose := streamValues p .verbose msgs
  debug := streamValues p .debug msgs
  information := streamValues p .information msgs
  progress := streamValues p .progress msgs
  state := state

/-- The first message that ends the pipeline, with those before it. -/
def decisive (p : Platform) :
    List PsrpMessage → Option (List PsrpMessage × PsrpMessage × Ending)
  | [] => none
  | msg :: msgs => match ending p msg with
    | some e => some ([], msg, e)
    | none => (decisive p msgs).map fun (before, last, e) => (msg :: before, last, e)

/-- The result of a pipeline, given the messages before the one that ends it.
    A pipeline that was stopped was cancelled if its stop was signalled. -/
def verdict (p : PoolPlatform) (signalled : Bool) (before : List PsrpMessage)
    (last : PsrpMessage) : Ending → Except PsrpError PipelineResult
  | .malformed e => .error e
  | .reached .failed => .error (.pipelineFailed
      (String.ofList (failureMessage p last.data (streamValues p.toPlatform .errors before))))
  | .reached .stopped => .error (if signalled then .cancelled else .stopped)
  | .reached state => .ok (collected p.toPlatform before state)

/-- The result that the messages of a pipeline lead to, if one ends it. -/
def outcome (p : PoolPlatform) (pid rpid : Uuid) (msgs : List PsrpMessage) :
    Option (Except PsrpError PipelineResult) :=
  (decisive p.toPlatform (msgs.filter (isOwn pid rpid))).map fun (before, last, e) =>
    verdict p false before last e

theorem streamValues_append (p : Platform) (k : StreamKind) (msgs msgs' : List PsrpMessage) :
    streamValues p k (msgs ++ msgs') = streamValues p k msgs ++ streamValues p k msgs' := by
  rw [streamValues, List.filter_append, List.flatMap_append]
  rfl

/-- The streams hold what some messages carry. -/
def Collected (p : Platform) (msgs : List PsrpMessage) (r : PipelineResult) : Prop :=
  ∀ k, r.stream k = streamValues p k msgs

theorem collected_eq {p : Platform} {msgs : List PsrpMessage} {r : PipelineResult}
    (h : Collected p msgs r) : collected p msgs r.state = r := by
  refine PipelineResult.ext_streams (fun k => ?_) rfl
  rw [h k]
  cases k <;> rfl

/-- A message that ends nothing only adds its values. -/
theorem absorb_ongoing {p : PoolPlatform} {pid rpid : Uuid} {b : Bool} {r : PipelineResult}
    {msg : PsrpMessage} (hown : isOwn pid rpid msg = true)
    (hending : ending p.toPlatform msg = none) :
    ∃ r', absorb p pid rpid b r msg = .ok (.more (b, r'))
      ∧ ∀ k, r'.stream k = r.stream k ++ streamValues p.toPlatform k [msg] := by
  have hforeign : ¬ isOwn pid rpid msg = false := by rw [hown]; exact Bool.noConfusion
  -- A message adds to its own stream only.
  have hvalues : ∀ k, msg.messageType ≠ k.messageType →
      streamValues p.toPlatform k [msg] = [] := by
    intro k hk
    rw [streamValues, List.filter_cons_of_neg (by rw [decide_eq_true_eq]; exact hk)]
    rfl
  unfold absorb
  rw [if_neg hforeign]
  unfold ending at hending
  by_cases hstate : msg.messageType = .pipelineState
  · rw [if_pos hstate] at hending ⊢
    have hnone : ∀ k, streamValues p.toPlatform k [msg] = [] :=
      fun k => hvalues k (by rw [hstate]; cases k <;> exact MessageType.noConfusion)
    cases hextract : extractPipelineState p.toPlatform msg.data with
    | error e =>
        rw [hextract] at hending
        cases hending
    | ok state =>
        rw [hextract] at hending
        -- A state that is not terminal is noted, and adds no value.
        by_cases hterminal : state.isTerminal = true
        · simp only [if_pos hterminal, reduceCtorEq] at hending
        · simp only [if_neg hterminal]
          refine ⟨_, rfl, fun k => ?_⟩
          rw [hnone k, List.append_nil]
          cases k <;> rfl
  · rw [if_neg hstate] at hending ⊢
    cases hstream : streamOf msg.messageType with
    | none =>
        refine ⟨r, rfl, fun k => ?_⟩
        have hk : msg.messageType ≠ k.messageType := by
          intro heq
          rw [(streamOf_eq_some _ k).mpr heq] at hstream
          cases hstream
        rw [hvalues k hk, List.append_nil]
    | some k =>
        rw [hstream] at hending
        -- A stream message that can be read adds its values.
        have hk := (streamOf_eq_some _ k).mp hstream
        cases hparse : parseClixml p.toPlatform msg.data with
        | error e =>
            rw [hparse] at hending
            cases hending
        | ok values =>
            refine ⟨r.add values k, rfl, fun k' => ?_⟩
            rw [stream_add]
            by_cases hkk : k = k'
            · subst hkk
              rw [if_pos rfl, streamValues, List.filter_cons_of_pos (by rw [hk]; exact decide_eq_true rfl),
                List.filter_nil, List.flatMap_singleton, hparse]
              rfl
            · have hne : msg.messageType ≠ k'.messageType := by
                intro heq
                rw [(streamOf_eq_some _ k').mpr heq] at hstream
                exact hkk (Option.some.inj hstream).symm
              rw [if_neg hkk, hvalues k' hne, List.append_nil]

/-- A message that ends the pipeline decides its result. -/
theorem absorb_ending {p : PoolPlatform} {pid rpid : Uuid} {b : Bool} {r : PipelineResult}
    {msg : PsrpMessage} {before : List PsrpMessage} {e : Ending}
    (hown : isOwn pid rpid msg = true) (hending : ending p.toPlatform msg = some e)
    (hr : Collected p.toPlatform before r) :
    absorb p pid rpid b r msg = (verdict p b before msg e).map .done := by
  have hforeign : ¬ isOwn pid rpid msg = false := by rw [hown]; exact Bool.noConfusion
  unfold absorb
  rw [if_neg hforeign]
  unfold ending at hending
  by_cases hstate : msg.messageType = .pipelineState
  · rw [if_pos hstate] at hending ⊢
    cases hextract : extractPipelineState p.toPlatform msg.data with
    | error e' =>
        rw [hextract] at hending
        cases hending
        rfl
    | ok state =>
        rw [hextract] at hending
        by_cases hterminal : state.isTerminal = true
        · simp only [if_pos hterminal, Option.some.injEq] at hending ⊢
          subst hending
          -- The verdict is on what the messages before collected.
          have herrors : r.errors = streamValues p.toPlatform .errors before := hr .errors
          have hcollected : collected p.toPlatform before state = { r with state } :=
            collected_eq (r := { r with state }) fun k => (by cases k <;> rfl : _ = _).trans (hr k)
          cases state with
          | failed => simp only [conclude, verdict, herrors]
          | stopped => rfl
          | completed | disconnected =>
              simp only [conclude, verdict]
              rw [hcollected]
          | notStarted | running | stopping | unknown => cases hterminal
        · simp only [if_neg hterminal, reduceCtorEq] at hending
  · rw [if_neg hstate] at hending ⊢
    cases hstream : streamOf msg.messageType with
    | none =>
        rw [hstream] at hending
        cases hending
    | some k =>
        rw [hstream] at hending
        -- A stream message ends the loop only if it can not be read.
        cases hparse : parseClixml p.toPlatform msg.data with
        | error e' =>
            rw [hparse] at hending
            cases hending
            rfl
        | ok values =>
            rw [hparse] at hending
            cases hending

/-- A loop over messages computes what the own ones lead to. The induction
    carries the own messages behind it, whose values the result holds. -/
theorem foldTurns_absorb (p : PoolPlatform) (pid rpid : Uuid) (b : Bool) (msgs : List PsrpMessage)
    {before : List PsrpMessage} {r : PipelineResult} (hr : Collected p.toPlatform before r) :
    match decisive p.toPlatform (msgs.filter (isOwn pid rpid)) with
    | none => ∃ r', RunspacePool.foldTurns (fun b => absorb p pid rpid b.1 b.2) msgs (b, r)
          = .ok (.more (b, r'))
        ∧ Collected p.toPlatform (before ++ msgs.filter (isOwn pid rpid)) r'
    | some (between, last, e) =>
        RunspacePool.foldTurns (fun b => absorb p pid rpid b.1 b.2) msgs (b, r)
          = (verdict p b (before ++ between) last e).map .done := by
  induction msgs generalizing before r with
  | nil => exact ⟨r, rfl, by rw [List.filter_nil, List.append_nil]; exact hr⟩
  | cons msg msgs ih =>
      -- A foreign message changes nothing; an own one decides, or is collected.
      by_cases hown : isOwn pid rpid msg = true
      · rw [List.filter_cons_of_pos hown]
        simp only [decisive, RunspacePool.foldTurns]
        cases hending : ending p.toPlatform msg with
        | some e =>
            simp only [absorb_ending hown hending hr, List.append_nil]
            cases verdict p b before msg e <;> rfl
        | none =>
            rcases absorb_ongoing (b := b) (r := r) hown hending with ⟨r', habsorb, hr'⟩
            -- It does not decide: the induction goes on with its values collected.
            have hnext : Collected p.toPlatform (before ++ [msg]) r' := by
              intro k
              rw [hr' k, hr k, streamValues_append]
            have ih := ih hnext
            simp only [habsorb]
            cases hdecisive : decisive p.toPlatform (msgs.filter (isOwn pid rpid)) with
            | none =>
                rw [hdecisive] at ih
                simp only [Option.map_none]
                rwa [List.append_assoc] at ih
            | some found =>
                rcases found with ⟨between, last, e⟩
                rw [hdecisive] at ih
                simp only [Option.map_some]
                simp only [List.append_assoc, List.singleton_append] at ih
                exact ih
      · rw [List.filter_cons_of_neg hown]
        have habsorb : absorb p pid rpid b r msg = .ok (.more (b, r)) := by
          rw [absorb, if_pos (Bool.eq_false_iff.mpr hown)]
        simp only [RunspacePool.foldTurns, habsorb]
        exact ih hr

namespace RunspacePool

variable {τ : Type} {d : Driver τ} {cancel : CancellationToken}
  {w w' : World Answer (RunspacePool τ)}

theorem drainLoop_apply (d : Driver τ) (pid rpid : Uuid) (cancel : CancellationToken)
    (w : World Answer (RunspacePool τ)) : drainLoop d pid rpid cancel w
      = Async.turnsOf (loopTurn d pid rpid cancel) w.turns (false, emptyResult) w := by
  have hturn : drainTurn d pid rpid cancel = loopTurn d pid rpid cancel :=
    funext fun loop => drainTurn_eq d pid rpid cancel loop
  rw [drainLoop, hturn]
  rfl

/-- The loop of a handle after some messages: it has returned their outcome, or
    it goes on. -/
theorem drainLoop_delivers (pid rpid : Uuid) {msgs : List PsrpMessage}
    (h : Delivers d cancel w msgs w') (hturns : msgs.length ≤ w.turns) :
    (∀ r, outcome d.platform pid rpid msgs = some r →
      (drainLoop d pid rpid cancel w).1 = exitOf r)
    ∧ (outcome d.platform pid rpid msgs = none → ∃ r, drainLoop d pid rpid cancel w
      = Async.turnsOf (loopTurn d pid rpid cancel) (w.turns - msgs.length) (false, r) w') := by
  have hkeep : ∀ (b : LoopState) msg b', b.1 = false →
      absorb d.platform pid rpid b.1 b.2 msg = .ok (.more b') → b'.1 = false :=
    fun b msg b' hb hstep => (absorb_signalled hstep).trans hb
  have hbody : ∀ (b : LoopState) v msg v', b.1 = false → Unfired cancel v →
      nextMessage d v = (.ok msg, v') → loopTurn d pid rpid cancel b v
        = (exitOf (absorb d.platform pid rpid b.1 b.2 msg), v') := by
    rintro ⟨b, r⟩ v msg v' rfl hunfired hread
    exact loopTurn_unfired hunfired hread
  rcases turnsOf_delivers (fun b : LoopState => b.1 = false) hkeep hbody h
    (b := (false, emptyResult)) rfl hturns with ⟨herr, hdone, hmore⟩
  have hempty : Collected d.platform.toPlatform [] emptyResult := fun k => by cases k <;> rfl
  have hfold := foldTurns_absorb d.platform pid rpid false msgs hempty
  rw [drainLoop_apply]
  unfold outcome
  cases hdecisive : decisive d.platform.toPlatform (msgs.filter (isOwn pid rpid)) with
  | none =>
      rw [hdecisive] at hfold
      rcases hfold with ⟨r', hfold, _⟩
      exact ⟨fun r hr => (by cases hr), fun _ => ⟨r', (hmore _ hfold).2⟩⟩
  | some found =>
      rcases found with ⟨before, last, e⟩
      rw [hdecisive] at hfold
      simp only [List.nil_append] at hfold
      refine ⟨fun r hr => ?_, fun hr => (by cases hr)⟩
      simp only [Option.map_some, Option.some.injEq] at hr
      subst hr
      cases hverdict : verdict d.platform false before last e with
      | error e' => exact herr e' (by rw [hfold, hverdict]; rfl)
      | ok r => exact hdone r (by rw [hfold, hverdict]; rfl)

/-- What a pipeline returns, by either loop, is the outcome of the messages
    that are delivered while it reads, however they came in; as long as none of
    them ends it, it fails only when a read fails. The outcome depends on the
    own messages alone, so two runs that agree on these return the same. All of
    it holds while the token does not fire. -/
theorem pipeline_isolation (d : Driver τ) (pid rpid : Uuid) (cancel : CancellationToken) :
    (∀ (self : Pipeline) w w', self.commands ≠ [] →
      sendPipelineMessage d .createPipeline pid (self.createPipelineXml d.platform.toPlatform) w
        = (.ok (), w') →
      self.runAllStreamsWithCancel d pid cancel w
        = drainLoop d pid w.state.machine.rpid cancel w')
    ∧ (∀ w msgs w', Delivers d cancel w msgs w' → msgs.length ≤ w.turns →
      (∀ r, outcome d.platform pid rpid msgs = some r →
        (drainLoop d pid rpid cancel w).1 = exitOf r)
      ∧ (outcome d.platform pid rpid msgs = none → msgs.length < w.turns →
        ∀ e w'', Unfired cancel w' → nextMessage d w' = (.err e, w'') →
          (drainLoop d pid rpid cancel w).1 = .err e))
    ∧ (∀ msgs msgs', msgs.filter (isOwn pid rpid) = msgs'.filter (isOwn pid rpid) →
      outcome d.platform pid rpid msgs = outcome d.platform pid rpid msgs')
    ∧ ∀ w₁ msgs₁ w₁' w₂ msgs₂ w₂', Delivers d cancel w₁ msgs₁ w₁' →
      Delivers d cancel w₂ msgs₂ w₂' → msgs₁.length ≤ w₁.turns → msgs₂.length ≤ w₂.turns →
      msgs₁.filter (isOwn pid rpid) = msgs₂.filter (isOwn pid rpid) →
      (outcome d.platform pid rpid msgs₁).isSome →
      (drainLoop d pid rpid cancel w₁).1 = (drainLoop d pid rpid cancel w₂).1 := by
  -- The outcome looks at own messages only.
  have hagree : ∀ msgs msgs', msgs.filter (isOwn pid rpid) = msgs'.filter (isOwn pid rpid) →
      outcome d.platform pid rpid msgs = outcome d.platform pid rpid msgs' := by
    intro msgs msgs' h
    rw [outcome, outcome, h]
  refine ⟨?_, ?_, hagree, ?_⟩
  · intro self w w' hcommands hsend
    -- The two loops have the same turn.
    have hturn : runTurn d pid w.state.machine.rpid cancel
        = drainTurn d pid w.state.machine.rpid cancel :=
      funext fun loop => (runTurn_eq d pid _ cancel loop).trans
        (drainTurn_eq d pid _ cancel loop).symm
    have hnonempty : self.commands.isEmpty = false := by
      rw [List.isEmpty_eq_false_iff]
      exact hcommands
    unfold Pipeline.runAllStreamsWithCancel
    rw [hnonempty, if_neg Bool.false_ne_true]
    rw [Async.bind_apply]
    simp only [Async.get]
    rw [Async.bind_apply, hsend, hturn]
    rfl
  · intro w msgs w' h hturns
    rcases drainLoop_delivers pid rpid h hturns with ⟨hreturned, hongoing⟩
    refine ⟨hreturned, fun hnone hlt e w'' hunfired herr => ?_⟩
    rcases hongoing hnone with ⟨r, hloop⟩
    -- Nothing was decided, so one turn more is left for the read that fails.
    have hleft : w.turns - msgs.length = (w.turns - msgs.length - 1) + 1 := by omega
    rw [hloop, hleft, Async.turnsOf, Async.bind_apply, loopTurn_unfired_err hunfired herr]
  · intro w₁ msgs₁ w₁' w₂ msgs₂ w₂' h₁ h₂ hturns₁ hturns₂ hown hsome
    rcases Option.isSome_iff_exists.mp hsome with ⟨r, hr⟩
    rw [(drainLoop_delivers pid rpid h₁ hturns₁).1 r hr,
      (drainLoop_delivers pid rpid h₂ hturns₂).1 r ((hagree _ _ hown).symm.trans hr)]

/-- A message of the server to a pipeline. -/
def toPipeline (pid : Uuid) (messageType : MessageType) (data : Text) : PsrpMessage :=
  { destination := .client, messageType, rpid := Uuid.nil, pid, data }

/-- A pipeline, and another one of the same pool. -/
def ownPid : Uuid := Uuid.nil

def foreignPid : Uuid := Uuid.fromBytesLe (Vector.replicate 16 1)

/-- An object for a pipeline, between messages of another one whose output is no
    CLIXML and which fails, and its end. -/
def mingled : List PsrpMessage :=
  [toPipeline foreignPid .pipelineOutput "<Obj".toList,
    toPipeline ownPid .pipelineOutput "<I32>7</I32>".toList,
    toPipeline foreignPid .pipelineState (numberBody .basic "PipelineState" 5),
    toPipeline ownPid .pipelineState (numberBody .basic "PipelineState" 4)]

/-- A pool that reads them. -/
def mingledWorld : World Answer (RunspacePool MockTransport) :=
  ⟨attached { MockTransport.new with inbox := mingled.map fun msg => encodeMessage 1 msg.encode }
    freshMachine 1 none, [], 9⟩

/-- The pipeline ends with its object, whatever becomes of the other one. -/
theorem pipeline_isolation_mingled :
    (∃ e, parseClixml .basic "<Obj".toList = .error e)
      ∧ ∃ result, (drainLoop mockDriver ownPid Uuid.nil .never mingledWorld).1 = .ok result
        ∧ result.state = .completed ∧ result.output.map PsValue.asI32 = [some 7] := by
  have hdelivers : ∃ w', Delivers mockDriver .never mingledWorld mingled w' := by
    have hunfired : ∀ w, Unfired (τ := MockTransport) .never w := fun _ h => by cases h
    refine ⟨_, .cons (hunfired _) (Prod.ext ?_ rfl) (.cons (hunfired _) (Prod.ext ?_ rfl)
      (.cons (hunfired _) (Prod.ext ?_ rfl) (.cons (hunfired _) (Prod.ext ?_ rfl) (.nil _))))⟩
    all_goals decide +kernel
  have hmalformed : (parseClixml .basic "<Obj".toList).toOption.isNone = true := by
    decide +kernel
  have houtcome : (outcome mockDriver.platform ownPid Uuid.nil mingled).map (fun r =>
      r.toOption.map fun result => (result.state, result.output.map PsValue.asI32))
        = some (some (.completed, [some 7])) := by
    decide +kernel
  rcases hdelivers with ⟨w', hdelivers⟩
  constructor
  · cases hparse : parseClixml .basic "<Obj".toList with
    | error e => exact ⟨e, rfl⟩
    | ok vs =>
        rw [hparse] at hmalformed
        cases hmalformed
  · rcases hr : outcome mockDriver.platform ownPid Uuid.nil mingled with _ | r
    · rw [hr] at houtcome
      cases houtcome
    · have hends := ((pipeline_isolation mockDriver ownPid Uuid.nil .never).2.1 _ _ _ hdelivers
        (by decide)).1 r hr
      rw [hr] at houtcome
      cases r with
      | error e => cases houtcome
      | ok result =>
          simp only [Option.map_some, Except.toOption, Option.some.injEq, Prod.mk.injEq]
            at houtcome
          exact ⟨result, hends, houtcome.1, houtcome.2⟩

end RunspacePool

end Psrp

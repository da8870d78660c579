import Psrp.Core.CreatePipeline
import Psrp.Core.Pool

/-!
# Pipelines

Running a pipeline on a pool and collecting its streams.

There are two receive loops, one for a pipeline that is run in one go and one
for a handle that was started before; they are written out twice, as in the
source. Each drops what belongs to another pipeline, puts the values of a
stream into the result, and ends with the first terminal state.

A loop with a token selects between the token and the next message. The token
is polled first, and a read that it interrupts is dropped where it stands. A
token that can never fire is `CancellationToken.never`: nothing is polled and
nothing is dropped.

## Main definitions

* `PipelineState`, `PipelineResult`: What a pipeline reports.
* `failureMessage`: Why a pipeline failed.
* `Pipeline`, `PipelineHandle`: A pipeline to run, and one that runs.
* `Pipeline.runAllStreamsWithCancel`, `RunspacePool.drainLoop`: The loops.
-/

namespace Psrp

/-- States of a pipeline. -/
inductive PipelineState where
  | notStarted
  | running
  | stopping
  | stopped
  | completed
  | failed
  | disconnected
  | unknown
  deriving DecidableEq, Repr

namespace PipelineState

def fromI32 (v : Int32) : PipelineState :=
  match v.toInt with
  | 0 => notStarted
  | 1 => running
  | 2 => stopping
  | 3 => stopped
  | 4 => completed
  | 5 => failed
  | 6 => disconnected
  | _ => unknown

def isTerminal : PipelineState → Bool
  | completed | failed | stopped | disconnected => true
  | _ => false

end PipelineState

/-- The streams of a pipeline and its state. -/
structure PipelineResult where
  output : List PsValue := []
  errors : List PsValue := []
  warnings : List PsValue := []
  verbose : List PsValue := []
  debug : List PsValue := []
  information : List PsValue := []
  progress : List PsValue := []
  state : PipelineState := .notStarted

/-- One argument of a command. -/
inductive Argument where
  | named (name : Text) (value : PsValue)
  | positional (value : PsValue)
  | switch (name : Text)

/-- One command of a pipeline. -/
structure Command where
  name : Text
  arguments : List Argument
  isScript : Bool
  mergeErrorsToOutput : Bool

/-- A pipeline. -/
structure Pipeline where
  commands : List Command
  noInput : Bool
  addInvocationInfo : Bool
  addToHistory : Bool

/-- Whether what runs can be cancelled. When the token fires is up to the
    world. -/
inductive CancellationToken where
  | never
  | armed
  deriving DecidableEq

/-- How many errors of the error stream a failure message quotes. -/
def MAX_DESCRIBED_ERRORS : Nat := 8

/-- What to say of one error: its exception message, else the identifier of
    the error, else the value itself. -/
def errorText (p : PoolPlatform) (v : PsValue) : Text :=
  match v with
  | .string s => s
  | v =>
    let notBlank (s : Text) : Bool := !(Text.trim s).isEmpty
    let record := ErrorRecord.fromPsObject v
    let message := (record.bind fun r => r.exception.bind ExceptionInfo.message).filter notBlank
    let legacy := match v with
      | .object o =>
        ((propertyStr o "Exception").or (propertyStr o "ErrorRecord_Exception")).or
          (propertyStr o "Exception_Message")
      | _ => none
    let identifier := (record.bind ErrorRecord.fullyQualifiedErrorId).filter notBlank
    ((message.or legacy).or identifier).getD (p.debugValue v)

/-- The quoted errors, and how many were left out. -/
def describeParts (p : PoolPlatform) (errors : List PsValue) : List Text × Nat :=
  ((errors.take MAX_DESCRIBED_ERRORS).map fun v =>
      escapeRemoteText (Text.trim (errorText p v)) MAX_SERVER_MESSAGE_CHARS,
    errors.length - MAX_DESCRIBED_ERRORS)

def joinParts (parts : List Text) (more : Nat) : Text :=
  let parts := if 0 < more then parts ++ [s!"… and {more} more".toList] else parts
  if parts = [] then "unknown error".toList else List.intercalate "; ".toList parts

/-- Why a pipeline failed: the reason in its state message, then the errors it
    wrote. -/
def failureMessage (p : PoolPlatform) (stateData : Text) (errors : List PsValue) : Text :=
  let reason := terminalStateReason p.toPlatform stateData
  let (parts, more) := describeParts p errors
  let parts := match reason with
    | some reason => if parts.contains reason then parts else reason :: parts
    | none => parts
  joinParts parts more

/-- The state that a `PipelineState` message announces. -/
def extractPipelineState (p : Platform) (xml : Text) : Except PsrpError PipelineState := do
  let parsed ← parseClixml p xml
  let code := parsed.findSome? fun value => match value with
    | .object obj => match PsObject.get obj "PipelineState".toList with
      | some (.i32 code) => some code
      | _ => none
    | _ => none
  match code with
  | some code => return PipelineState.fromI32 code
  | none => throw (.protocol "missing PipelineState property")

namespace Pipeline

/-- The body of the message that creates the pipeline. -/
def createPipelineXml (p : Platform) (self : Pipeline) : Text :=
  buildCreatePipelineXml p self.noInput self.addToHistory self.addInvocationInfo
    (self.commands.map fun c =>
      { name := c.name, isScript := c.isScript, mergeErrorsToOutput := c.mergeErrorsToOutput,
        args := c.arguments.map fun a => match a with
          | .named name value => .named name value
          | .positional value => .positional value
          | .switch name => .switch name })

end Pipeline

namespace RunspacePool

open Async (Turn)

variable {τ α : Type}

/-- Whether the token has fired by now. -/
def isCancelled (cancel : CancellationToken) : Prog (RunspacePool τ) Bool :=
  match cancel with
  | .never => return false
  | .armed => do
    let fired ← Async.alarmed
    if fired then record .fired
    return fired

/-- Run a program until it ends or the token fires, whichever comes first. The
    token is polled first. -/
def unlessCancelled (cancel : CancellationToken) (q : Prog (RunspacePool τ) α) :
    Prog (RunspacePool τ) (Option α) :=
  match cancel with
  | .never => do
    let a ← q
    return some a
  | .armed => do
    let fired ← isCancelled .armed
    if fired then return none
    else
      let r ← Async.guarded q
      match r with
      | some a => return some a
      | none => do
        record .fired
        record .dropped
        return none

/-- Read a message. An error is noted, and is a value here. -/
def readMessage (d : Driver τ) : Prog (RunspacePool τ) (Except PsrpError PsrpMessage) := do
  let r ← Async.attempt (nextMessage d)
  match r with
  | .ok msg => return .ok msg
  | .error e => do
    record (.raised e)
    return .error e

/-- A receive loop: whether the stop was signalled, and the result so far. -/
abbrev LoopState := Bool × PipelineResult

/-- The result before anything was received. -/
def emptyResult : PipelineResult := { state := .running }

/-- What a pipeline that is run in one go does with a message. -/
def runMessage (d : Driver τ) (pid rpid : Uuid) (cancelSignalled : Bool) (result : PipelineResult)
    (msg : PsrpMessage) : Prog (RunspacePool τ) (Turn LoopState PipelineResult) :=
  if msg.pid ≠ pid ∨ msg.rpid ≠ rpid then return .more (cancelSignalled, result)
  else
    let p := d.platform.toPlatform
    match msg.messageType with
    | .pipelineOutput => do
      let values ← Async.lift (parseClixml p msg.data)
      return .more (cancelSignalled, { result with output := result.output ++ values })
    | .errorRecord => do
      let values ← Async.lift (parseClixml p msg.data)
      return .more (cancelSignalled, { result with errors := result.errors ++ values })
    | .warningRecord => do
      let values ← Async.lift (parseClixml p msg.data)
      return .more (cancelSignalled, { result with warnings := result.warnings ++ values })
    | .verboseRecord => do
      let values ← Async.lift (parseClixml p msg.data)
      return .more (cancelSignalled, { result with verbose := result.verbose ++ values })
    | .debugRecord => do
      let values ← Async.lift (parseClixml p msg.data)
      return .more (cancelSignalled, { result with debug := result.debug ++ values })
    | .informationRecord => do
      let values ← Async.lift (parseClixml p msg.data)
      return .more (cancelSignalled,
        { result with information := result.information ++ values })
    | .progressRecord => do
      let values ← Async.lift (parseClixml p msg.data)
      return .more (cancelSignalled, { result with progress := result.progress ++ values })
    | .pipelineState => do
      let state ← Async.lift (extractPipelineState p msg.data)
      let result := { result with state }
      if state.isTerminal then
        if state = .failed then
          Async.throw
            (.pipelineFailed (String.ofList (failureMessage d.platform msg.data result.errors)))
        else if state = .stopped then
          if cancelSignalled then Async.throw .cancelled else Async.throw .stopped
        else return .done result
      else return .more (cancelSignalled, result)
    | _ => return .more (cancelSignalled, result)

/-- One turn of the loop of a pipeline that is run in one go. -/
def runTurn (d : Driver τ) (pid rpid : Uuid) (cancel : CancellationToken) (loop : LoopState) :
    Prog (RunspacePool τ) (Turn LoopState PipelineResult) := do
  let (cancelSignalled, result) := loop
  let cancelled ← if cancelSignalled then pure false else isCancelled cancel
  if cancelled then signalTransportStop d
  let cancelSignalled := cancelSignalled || cancelled
  let selected ←
    unlessCancelled (if cancelSignalled then .never else cancel) (readMessage d)
  match selected with
  | none => do
    signalTransportStop d
    return .more (true, result)
  | some (.error e) =>
    if e = .stopped ∧ cancelSignalled = true then Async.throw .cancelled else Async.throw e
  | some (.ok msg) => runMessage d pid rpid cancelSignalled result msg

/-- What a handle does with a message. -/
def drainMessage (d : Driver τ) (pid rpid : Uuid) (cancelSignalled : Bool) (result : PipelineResult)
    (msg : PsrpMessage) : Prog (RunspacePool τ) (Turn LoopState PipelineResult) :=
  if msg.pid ≠ pid ∨ msg.rpid ≠ rpid then return .more (cancelSignalled, result)
  else
    let p := d.platform.toPlatform
    match msg.messageType with
    | .pipelineOutput => do
      let values ← Async.lift (parseClixml p msg.data)
      return .more (cancelSignalled, { result with output := result.output ++ values })
    | .errorRecord => do
      let values ← Async.lift (parseClixml p msg.data)
      return .more (cancelSignalled, { result with errors := result.errors ++ values })
    | .warningRecord => do
      let values ← Async.lift (parseClixml p msg.data)
      return .more (cancelSignalled, { result with warnings := result.warnings ++ values })
    | .verboseRecord => do
      let values ← Async.lift (parseClixml p msg.data)
      return .more (cancelSignalled, { result with verbose := result.verbose ++ values })
    | .debugRecord => do
      let values ← Async.lift (parseClixml p msg.data)
      return .more (cancelSignalled, { result with debug := result.debug ++ values })
    | .informationRecord => do
      let values ← Async.lift (parseClixml p msg.data)
      return .more (cancelSignalled,
        { result with information := result.information ++ values })
    | .progressRecord => do
      let values ← Async.lift (parseClixml p msg.data)
      return .more (cancelSignalled, { result with progress := result.progress ++ values })
    | .pipelineState => do
      let state ← Async.lift (extractPipelineState p msg.data)
      let result := { result with state }
      if state.isTerminal then
        if state = .failed then
          Async.throw
            (.pipelineFailed (String.ofList (failureMessage d.platform msg.data result.errors)))
        else if state = .stopped then
          if cancelSignalled then Async.throw .cancelled else Async.throw .stopped
        else return .done result
      else return .more (cancelSignalled, result)
    | _ => return .more (cancelSignalled, result)

/-- One turn of the loop of a handle. -/
def drainTurn (d : Driver τ) (pid rpid : Uuid) (cancel : CancellationToken) (loop : LoopState) :
    Prog (RunspacePool τ) (Turn LoopState PipelineResult) := do
  let (cancelSignalled, result) := loop
  let cancelled ← if cancelSignalled then pure false else isCancelled cancel
  if cancelled then signalTransportStop d
  let cancelSignalled := cancelSignalled || cancelled
  let selected ←
    unlessCancelled (if cancelSignalled then .never else cancel) (readMessage d)
  match selected with
  | none => do
    signalTransportStop d
    return .more (true, result)
  | some (.error e) =>
    if e = .stopped ∧ cancelSignalled = true then Async.throw .cancelled else Async.throw e
  | some (.ok msg) => drainMessage d pid rpid cancelSignalled result msg

/-- Collect the streams of a pipeline that was started before. -/
def drainLoop (d : Driver τ) (pid rpid : Uuid) (cancel : CancellationToken) :
    Prog (RunspacePool τ) PipelineResult :=
  Async.loop (drainTurn d pid rpid cancel) (false, emptyResult)

end RunspacePool

namespace Pipeline

open RunspacePool (sendPipelineMessage runTurn emptyResult)

variable {τ : Type}

/-- Run a pipeline under a fresh id and collect its streams. -/
def runAllStreamsWithCancel (d : Driver τ) (self : Pipeline) (pid : Uuid)
    (cancel : CancellationToken) : Prog (RunspacePool τ) PipelineResult := do
  if self.commands.isEmpty then Async.throw (.protocol "pipeline is empty")
  else do
    let s ← Async.get
    let rpid := s.machine.rpid
    let body := self.createPipelineXml d.platform.toPlatform
    sendPipelineMessage d .createPipeline pid body
    Async.loop (runTurn d pid rpid cancel) (false, emptyResult)

end Pipeline

/-- A running pipeline: the pool it borrows, its id, and whether its input is
    closed. -/
structure PipelineHandle (τ : Type) where
  pool : RunspacePool τ
  pid : Uuid
  rpid : Uuid
  inputClosed : Bool

/-- Start a pipeline under a fresh id. What is returned is the rest of its
    handle. -/
def Pipeline.start {τ : Type} (d : Driver τ) (self : Pipeline) (pid : Uuid) :
    Prog (RunspacePool τ) (Uuid × Bool) := do
  if self.commands.isEmpty then Async.throw (.protocol "pipeline is empty")
  else do
    let s ← Async.get
    let rpid := s.machine.rpid
    let body := self.createPipelineXml d.platform.toPlatform
    RunspacePool.sendPipelineMessage d .createPipeline pid body
    return (rpid, self.noInput)

namespace PipelineHandle

variable {τ α : Type}

/-- A program of the pool of a handle. -/
def onPool (q : Prog (RunspacePool τ) α) : Prog (PipelineHandle τ) α :=
  Async.zoom PipelineHandle.pool (fun pool h => { h with pool }) q

/-- Send one input object. -/
def writeInput (d : Driver τ) (value : PsValue) : Prog (PipelineHandle τ) Unit := do
  let h ← Async.get
  if h.inputClosed then
    Async.throw (.protocol "pipeline was created with NoInput=true; cannot stream input")
  else
    onPool (RunspacePool.sendPipelineMessage d .pipelineInput h.pid
      (toClixml d.platform.toPlatform value))

/-- Close the input stream. -/
def endInput (d : Driver τ) : Prog (PipelineHandle τ) Unit := do
  let h ← Async.get
  if h.inputClosed then return ()
  else do
    Async.modify fun h => { h with inputClosed := true }
    onPool (RunspacePool.sendPipelineMessage d .endOfPipelineInput h.pid [])

/-- Collect the streams, until the end or until the token fires. -/
def collectWithCancel (d : Driver τ) (cancel : CancellationToken) :
    Prog (PipelineHandle τ) PipelineResult := do
  endInput d
  let h ← Async.get
  onPool (RunspacePool.drainLoop d h.pid h.rpid cancel)

/-- Collect the streams. -/
def collect (d : Driver τ) : Prog (PipelineHandle τ) PipelineResult :=
  collectWithCancel d .never

/-- Ask the server to stop the pipeline. -/
def stop (d : Driver τ) : Prog (PipelineHandle τ) Unit :=
  onPool (RunspacePool.signalTransportStop d)

end PipelineHandle

end Psrp

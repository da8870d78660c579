import Psrp.Core.Base64
import Psrp.Core.Transport

/-!
# The WinRM Transport

Fragments over the commands of a WinRM shell.

Output is read with long polls. A Receive is held by the server until there is
something to say, so one that is dropped on the way is not given up: it stays
parked in the transport, and the next call goes on waiting for it. A server
that has nothing to say for too long answers with an empty poll, which is asked
again.

The state is the record of the source. Its `history` is what the client asked
of the shell and what came of it. A Receive is named by how many were sent
before it.

## Main definitions

* `ShellEvent`: What is asked of a shell, and what comes of it.
* `WinrmPsrpTransport`: The state.
* `Winrm.classifyReceive`, `Winrm.receiveStep`: What one Receive means.
* `WinrmPsrpTransport.drive`: Wait for the Receive in flight.
* `WinrmPsrpTransport.recvChunk`: Read until there is something to deliver.
* `WinrmPsrpTransport.startPipelineCommand`,
  `WinrmPsrpTransport.executePipeline`: Start a command.
* `WinrmPsrpTransport.transport`: The transport.
-/

namespace Psrp

namespace Winrm

/-- How many client-side timeouts in a row end a call. -/
def MAX_CONSECUTIVE_TIMEOUTS : Nat := 3

/-- A Receive that was sent for a command. -/
structure Receive where
  number : Nat
  commandId : Text
  deriving DecidableEq

/-- How a Receive ended. -/
abbrev Polled := Except WinrmError ReceiveOutput

/-- What a client asks of a shell, and what comes of it. -/
inductive ShellEvent where
  | input (commandId : Text) (bytes : Bytes)
  | execute (arguments : List Text) (commandId : Option Text)
  | started (commandId : Text)
  | signal (commandId : Text)
  | signalled (commandId : Text)
  | receive (r : Receive)
  | answered (r : Receive) (polled : Polled)
  | close
  | disconnect

/-- The timeouts met in a row. -/
abbrev TimeoutStreak := Nat

/-- Count one more timeout, which ends the call at the limit. -/
def TimeoutStreak.record (err : WinrmError) (streak : TimeoutStreak) :
    Except PsrpError Nat × TimeoutStreak :=
  let streak := min (streak + 1) (2 ^ 32 - 1)
  if MAX_CONSECUTIVE_TIMEOUTS ≤ streak then (.error (.winrm err), streak) else (.ok streak, streak)

/-- What one finished Receive means. -/
inductive Poll where
  | retry
  | timedOut (e : WinrmError)
  | chunk (out : ReceiveOutput)

/-- What to do after one Receive: ask again, or return these bytes. -/
inductive Step where
  | again
  | deliver (bytes : Bytes)

/-- Whether the code of a fault names some error. -/
def names (code error : String) : Bool := code.toList.tails.any error.toList.isPrefixOf

/-- Sort the outcome of one Receive. After a stop signal of ours the command is
    gone, and the fault that says so is the stop. -/
def classifyReceive (polled : Polled) (stopSignalled : Bool) : Except PsrpError Poll :=
  match polled with
  | .ok out => .ok (.chunk out)
  | .error (.timeout seconds) => .ok (.timedOut (.timeout seconds))
  | .error (.fault code reason) =>
    if names code "TimedOut" then .ok .retry
    else if stopSignalled && names code "InvalidSelectors" then .error .stopped
    else .error (.winrm (.fault code reason))
  | .error (.other detail) => .error (.winrm (.other detail))

/-- One turn of `recv_chunk` without the wait. -/
def receiveStep (polled : Polled) (stopSignalled : Bool) (timeouts : TimeoutStreak)
    (done : Bool) : Except PsrpError Step × TimeoutStreak × Bool :=
  match classifyReceive polled stopSignalled with
  | .error e => (.error e, timeouts, done)
  | .ok .retry => (.ok .again, 0, done)
  | .ok (.timedOut e) =>
    match timeouts.record e with
    | (.error e, timeouts) => (.error e, timeouts, done)
    | (.ok _, timeouts) => (.ok .again, timeouts, done)
  | .ok (.chunk out) =>
    let done := done || out.done
    if out.stdout = [] ∧ done = false then (.ok .again, 0, done)
    else (.ok (.deliver out.stdout), 0, done)

end Winrm

open Winrm

/-- A handle on a shell. -/
structure Shell where
  shellId : Text
  deriving DecidableEq

/-- The client side of one shell. -/
structure WinrmPsrpTransport where
  history : List ShellEvent
  shell : Option Shell
  /-- The Receive in flight. -/
  receive : Option Receive
  commandId : Text
  /-- A stop signal was accepted. -/
  stopSignalled : Bool
  done : Bool
  /-- Whether a command was started. -/
  hasCommand : Bool

namespace WinrmPsrpTransport

open Async (Turn)

/-- A transport on a shell just opened, or just reconnected to. Until a command
    is started, the shell's own id stands for one. -/
def ofShell (shell : Shell) : WinrmPsrpTransport :=
  { history := [], shell := some shell, receive := none, commandId := shell.shellId,
    stopSignalled := false, done := false, hasCommand := false }

/-- Note what was asked of the shell, or what came of it. -/
def note (e : ShellEvent) (t : WinrmPsrpTransport) : WinrmPsrpTransport :=
  { t with history := t.history ++ [e] }

/-- The handle on the shell. -/
def openShell : Prog WinrmPsrpTransport Shell :=
  Async.update fun t =>
    match t.shell with
    | some shell => (.ok shell, t)
    | none => (.error (.protocol "transport closed"), t)

/-- Give up the Receive in flight. -/
def discard (t : WinrmPsrpTransport) : WinrmPsrpTransport := { t with receive := none }

/-- How many Receives were sent. -/
def receivesSent (history : List ShellEvent) : Nat :=
  history.countP fun e => match e with
    | .receive _ => true
    | _ => false

/-- Send a Receive for the command, unless one is in flight. -/
def park (t : WinrmPsrpTransport) : WinrmPsrpTransport :=
  match t.receive with
  | some _ => t
  | none =>
    let r : Receive := { number := receivesSent t.history, commandId := t.commandId }
    { t with receive := some r }.note (.receive r)

/-- Forget the Receive that was in flight, now that it is over. -/
def finish (polled : Polled) (t : WinrmPsrpTransport) : WinrmPsrpTransport :=
  match t.receive with
  | some r => t.discard.note (.answered r polled)
  | none => t

/-- How a Receive ends. -/
def receiveAnswer : Answer → Option Polled
  | .received out => some (.ok out)
  | .failed (.winrm e) => some (.error e)
  | _ => none

/-- How a request ends that the server answers with a name. -/
def nameAnswer : Answer → Option (Except PsrpError Text)
  | .named id => some (.ok id)
  | .failed (.winrm e) => some (.error (.winrm e))
  | _ => none

/-- How any other request ends. -/
def requestAnswer : Answer → Option (Except PsrpError Unit)
  | .done => some (.ok ())
  | .failed (.winrm e) => some (.error (.winrm e))
  | _ => none

/-- Wait for the Receive in flight, sending one first if there is none. A call
    dropped here leaves it parked for the next one. -/
def drive : Prog WinrmPsrpTransport Polled := do
  Async.modify park
  let polled ← Async.await receiveAnswer
  Async.modify (finish polled)
  return polled

/-- Act on the outcome of one Receive. -/
def received (polled : Polled) (timeouts : TimeoutStreak) (t : WinrmPsrpTransport) :
    Except PsrpError (Step × TimeoutStreak) × WinrmPsrpTransport :=
  let (step, timeouts, done) := receiveStep polled t.stopSignalled timeouts t.done
  (step.map fun step => (step, timeouts), { t with done })

/-- Bytes from the command: as many Receives as it takes. -/
def recvChunk : Prog WinrmPsrpTransport Bytes :=
  Async.loop (fun timeouts => do
    let _ ← openShell
    let polled ← drive
    match ← Async.update (received polled timeouts) with
    | (.again, timeouts) => return .more timeouts
    | (.deliver bytes, _) => return .done bytes) 0

/-- Send bytes to the command. -/
def sendFragment (bytes : Bytes) : Prog WinrmPsrpTransport Unit := do
  let _ ← openShell
  Async.modify fun t => t.note (.input t.commandId bytes)
  Async.lift (← Async.await requestAnswer)

/-- What follows the start of a command. A Receive still parked belongs to the
    one before. -/
def startedAs (id : Text) (t : WinrmPsrpTransport) : WinrmPsrpTransport :=
  { t.discard with stopSignalled := false, commandId := id, hasCommand := true }.note (.started id)

/-- Start a command. -/
def execute (arguments : List Text) (commandId : Option Text) : Prog WinrmPsrpTransport Unit := do
  let _ ← openShell
  Async.modify (note (.execute arguments commandId))
  let id ← Async.lift (← Async.await nameAnswer)
  Async.modify (startedAs id)

/-- Start an empty command inside the shell. -/
def startPipelineCommand : Prog WinrmPsrpTransport Unit := execute [] none

/-- Start a pipeline: its first fragment is the argument of the command, and
    its id the command's. -/
def executePipeline (fragmentBytes : Bytes) (pipelineId : Uuid) : Prog WinrmPsrpTransport Unit :=
  execute [base64Encode fragmentBytes] (some pipelineId.hyphenated)

/-- Ask the server to stop the command. -/
def signalStop : Prog WinrmPsrpTransport Unit := do
  let _ ← openShell
  Async.modify fun t => t.note (.signal t.commandId)
  let _ ← Async.lift (← Async.await requestAnswer)
  Async.modify fun t => { t with stopSignalled := true }.note (.signalled t.commandId)

/-- Take the shell out. The only other handle on it is that of a parked
    Receive, which is given up first. -/
def takeShell : Prog WinrmPsrpTransport (Option Shell) :=
  Async.update fun t => (.ok t.shell, { t.discard with shell := none })

/-- Close the shell, if it is still held. -/
def closeShell : Prog WinrmPsrpTransport Unit := do
  match ← takeShell with
  | some _ =>
    Async.modify (note .close)
    Async.lift (← Async.await requestAnswer)
  | none => return ()

/-- Let go of the shell, which stays alive on the server. -/
def disconnectShell : Prog WinrmPsrpTransport Text := do
  match ← takeShell with
  | some _ =>
    Async.modify (note .disconnect)
    Async.lift (← Async.await nameAnswer)
  | none => Async.throw (.protocol "transport closed")

/-- The transport over a shell. What is for a pipeline is sent to the command,
    like everything else. -/
def transport : PsrpTransport WinrmPsrpTransport where
  sendFragment := sendFragment
  recvChunk := recvChunk
  signalStop := signalStop
  closeShell := closeShell
  executePipeline := executePipeline
  disconnectShell := disconnectShell

end WinrmPsrpTransport

end Psrp

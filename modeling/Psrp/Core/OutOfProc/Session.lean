import Psrp.Core.Answer
import Psrp.Core.OutOfProc.Packet

/-!
# The Out-of-Process Session

One request in flight, and its acknowledgement read before anything else is
written.

The state is the record of the source. Its pipe is what went over it so far:
`history` lists the lines that were begun, the bytes that went out, the chunks
that came in and the received lines that were acted on, in the order of time.

Every operation may be dropped wherever it waits, which is in the write of a
line and in the read of a chunk. A chunk is processed as it is read, with no
wait in between.

## Main definitions

* `PipeEvent`: What goes over a pipe.
* `OutOfProcSession`: The state.
* `OutOfProcSession.send`, `OutOfProcSession.recv`, `OutOfProcSession.signal`,
  `OutOfProcSession.close`: The operations.
* `OutOfProcSession.request`: A line and its acknowledgement.
* `OutOfProcSession.pump`: One chunk.
-/

namespace Psrp

namespace OutOfProc

open Async (Turn)

/-- Received bytes not yet taken beyond which a session is broken. -/
def MAX_QUEUED_BYTES : Nat := 64 * 2 ^ 20

/-- What one queued payload costs beyond its bytes. -/
def QUEUE_ENTRY_OVERHEAD : Nat := 64

/-- Bound on every request, in nanoseconds. -/
def ACK_TIMEOUT : Nat := 60 * 10 ^ 9

def ABANDONED_WRITE : String := "a request was abandoned while its line was being written"

def ABANDONED_PAYLOAD : String := "a send was abandoned between two Data lines"

/-- What goes over a pipe: the line of a packet is begun, some of its bytes go
    out, a chunk comes in. A received line is also noted when it is acted on. -/
inductive PipeEvent where
  | line (packet : Packet)
  | sent (bytes : Bytes)
  | chunk (bytes : Bytes)
  | heard (line : Text)
  deriving DecidableEq

/-- The client side of one session. -/
structure OutOfProcSession where
  history : List PipeEvent
  lines : LineSplitter
  /-- Payloads received and not yet handed out. -/
  inbound : List Bytes
  /-- What `inbound` costs. -/
  inboundBytes : Nat
  maxQueuedBytes : Nat
  /-- Bound on every request, in nanoseconds. -/
  ackTimeout : Nat
  /-- The acknowledgement the request in flight waits for. -/
  awaiting : Option Packet
  /-- Set while a line is being written. -/
  writeInProgress : Bool
  /-- Set while a payload of several lines is being sent. -/
  payloadInProgress : Bool
  /-- The pipeline whose command was acknowledged and not yet closed. -/
  openCommand : Option Uuid
  /-- Why the session is unusable, once it is. -/
  broken : Option String
  deriving DecidableEq

/-- What a payload counts for while queued. -/
def queueCost (payload : Bytes) : Nat := payload.length + QUEUE_ENTRY_OVERHEAD

/-- A number of nanoseconds as the timeout messages print it. -/
def describeDuration (p : PacketPlatform) (d : Nat) : String :=
  if d % 10 ^ 9 = 0 then s!"{d / 10 ^ 9} s" else s!"{String.ofList (p.formatMillis d)} s"

/-- The element of the request that a packet acknowledges, and its GUID. -/
def requestElement : Packet → String × Uuid
  | .data _ g _ | .dataAck g => ("Data", g)
  | .command g | .commandAck g => ("Command", g)
  | .signal g | .signalAck g => ("Signal", g)
  | .close g | .closeAck g => ("Close", g)

/-- A payload in pieces that fit a line. -/
def dataChunks (payload : Bytes) : List Bytes :=
  if payload = [] then []
  else payload.take MAX_DATA_PAYLOAD :: dataChunks (payload.drop MAX_DATA_PAYLOAD)
termination_by payload.length
decreasing_by
  have hpos : 0 < payload.length := List.length_pos_of_ne_nil ‹_›
  have hmax : 0 < MAX_DATA_PAYLOAD := by decide
  rw [List.length_drop]
  omega

namespace OutOfProcSession

def new : OutOfProcSession :=
  { history := [], lines := .new, inbound := [], inboundBytes := 0,
    maxQueuedBytes := MAX_QUEUED_BYTES, ackTimeout := ACK_TIMEOUT, awaiting := none,
    writeInProgress := false, payloadInProgress := false, openCommand := none, broken := none }

/-- Bound every request by another time. -/
def withAckTimeout (timeout : Nat) (s : OutOfProcSession) : OutOfProcSession :=
  { s with ackTimeout := timeout }

/-- Bound the queue by another size. -/
def withMaxQueuedBytes (n : Nat) (s : OutOfProcSession) : OutOfProcSession :=
  { s with maxQueuedBytes := n }

/-- Note what went over the pipe. -/
def note (e : PipeEvent) (s : OutOfProcSession) : OutOfProcSession :=
  { s with history := s.history ++ [e] }

/-- Break the session. The first reason sticks. -/
def fail (err : PsrpError) (s : OutOfProcSession) : PsrpError × OutOfProcSession :=
  let reason := match err with
    | .protocol reason => reason
    | other => other.message
  let reason := s.broken.getD reason
  (.protocol reason, { s with broken := some reason })

/-- An error that breaks the session. -/
def failing {α : Type} (err : PsrpError) (s : OutOfProcSession) :
    Except PsrpError α × OutOfProcSession :=
  (.error (s.fail err).1, (s.fail err).2)

/-- An error on a broken session, which an abandoned write makes it. -/
def usable (s : OutOfProcSession) : Except PsrpError Unit × OutOfProcSession :=
  match s.broken with
  | some reason => (.error (.protocol reason), s)
  | none => if s.writeInProgress then s.failing (.protocol ABANDONED_WRITE) else (.ok (), s)

/-- The same at the start of an operation, where an abandoned payload makes it
    one too. -/
def ready (s : OutOfProcSession) : Except PsrpError Unit × OutOfProcSession :=
  match s.usable with
  | (.error e, s) => (.error e, s)
  | (.ok (), s) =>
    if s.payloadInProgress then s.failing (.protocol ABANDONED_PAYLOAD) else (.ok (), s)

/-- What an acknowledgement changed on the server. -/
def acknowledged (ack : Packet) (s : OutOfProcSession) : OutOfProcSession :=
  match ack with
  | .commandAck pid => { s with openCommand := some pid }
  | .closeAck pid => if s.openCommand = some pid then { s with openCommand := none } else s
  | _ => s

/-- Keep a payload for `recv`, if there is room. -/
def queue (payload : Bytes) (s : OutOfProcSession) : Except PsrpError Unit × OutOfProcSession :=
  let total := s.inboundBytes + queueCost payload
  if s.maxQueuedBytes < total then
    (.error (.protocol
      s!"PowerShell sent more than {s.maxQueuedBytes} bytes of data that were not received"), s)
  else (.ok (), { s with inboundBytes := total, inbound := s.inbound ++ [payload] })

/-- Act on a packet. Only the awaited acknowledgement counts. -/
def onPacket (packet : Packet) (s : OutOfProcSession) :
    Except PsrpError Unit × OutOfProcSession :=
  match packet with
  | .data _ _ payload => s.queue payload
  | .dataAck _ | .commandAck _ | .signalAck _ | .closeAck _ =>
    if s.awaiting = some packet then (.ok (), acknowledged packet { s with awaiting := none })
    else (.ok (), s)
  | .command _ | .signal _ | .close _ =>
    let line := packet.toLine.rdropWhile Text.isWhitespace
    (.error (.protocol
      s!"PowerShell sent a packet only a client may send: {String.ofList line}"), s)

/-- Act on a received line. -/
def onLine (p : PacketPlatform) (line : Text) (s : OutOfProcSession) :
    Except PsrpError Unit × OutOfProcSession :=
  let s := s.note (.heard line)
  match parseLine p line with
  | .error e => (.error e, s)
  | .ok none => (.ok (), s)
  | .ok (some packet) => s.onPacket packet

/-- Act on lines in order, up to the first that is an error. -/
def onLines (p : PacketPlatform) : List Text → OutOfProcSession →
    Except PsrpError Unit × OutOfProcSession
  | [], s => (.ok (), s)
  | line :: lines, s =>
    match s.onLine p line with
    | (.error e, s) => (.error e, s)
    | (.ok (), s) => onLines p lines s

/-- Act on every line a chunk completes, and only then on what stopped the
    split. -/
def process (p : PacketPlatform) (chunk : Bytes) (s : OutOfProcSession) :
    Except PsrpError Unit × OutOfProcSession :=
  let ((lines, splitError), splitter) := s.lines.push p chunk
  match onLines p lines { s with lines := splitter } with
  | (.error e, s) => (.error e, s)
  | (.ok (), s) => match splitError with
    | none => (.ok (), s)
    | some e => (.error e, s)

/-- What became of a read: the chunk is processed, and an error of the pipe or
    of the processing breaks the session. -/
def received (p : PacketPlatform) (read : Except PsrpError Bytes) (s : OutOfProcSession) :
    Except PsrpError Unit × OutOfProcSession :=
  match read with
  | .error e => s.failing e
  | .ok chunk => match (s.note (.chunk chunk)).process p chunk with
    | (.error e, s) => s.failing e
    | (.ok (), s) => (.ok (), s)

/-- The oldest payload that is not empty, out of a queue and its cost. -/
def dequeueFrom : List Bytes → Nat → Option Bytes × List Bytes × Nat
  | [], cost => (none, [], cost)
  | payload :: rest, cost =>
    if payload = [] then dequeueFrom rest (cost - queueCost payload)
    else (some payload, rest, cost - queueCost payload)

/-- The oldest queued payload that is not empty. -/
def dequeue (s : OutOfProcSession) : Option Bytes × OutOfProcSession :=
  let (payload, inbound, cost) := dequeueFrom s.inbound s.inboundBytes
  (payload, { s with inbound, inboundBytes := cost })

/-- Break the session after the time for a request is over. -/
def timedOut (p : PacketPlatform) (fallback : Packet) (s : OutOfProcSession) :
    PsrpError × OutOfProcSession :=
  let (element, guid) := requestElement (s.awaiting.getD fallback)
  let guidText := String.ofList guid.hyphenated
  let limit := describeDuration p s.ackTimeout
  s.fail (.protocol
    (if s.writeInProgress then
      s!"PowerShell did not accept {element} for {guidText} within {limit}: the write did not complete"
    else if element = "Data" ∧ guid = Uuid.nil then
      s!"PowerShell did not acknowledge {element} for {guidText} within {limit}: a runspace that starts slowly needs a longer `SshConfig::with_ack_timeout`"
    else s!"PowerShell did not acknowledge {element} for {guidText} within {limit}"))

/-- An error out of a change of the state. -/
def raise {α : Type} (f : OutOfProcSession → PsrpError × OutOfProcSession) :
    Prog OutOfProcSession α :=
  Async.update fun s => (.error (f s).1, (f s).2)

/-- How far a write got. -/
def writeAnswer : Answer → Option (Except PsrpError (Option Nat))
  | .accepted n => some (.ok (some n))
  | .done => some (.ok none)
  | .failed e => some (.error e)
  | _ => none

/-- What a read brought. -/
def readAnswer : Answer → Option (Except PsrpError Bytes)
  | .chunk bytes => some (.ok bytes)
  | .failed e => some (.error e)
  | _ => none

/-- Write what is left of a line. -/
def writeRest : Bytes → Prog OutOfProcSession (Except PsrpError Unit) :=
  Async.loop fun rest => do
    match ← Async.await writeAnswer with
    | .ok (some n) =>
      Async.modify (note (.sent (rest.take n)))
      return .more (rest.drop n)
    | .ok none =>
      Async.modify (note (.sent rest))
      return .done (.ok ())
    | .error e => return .done (.error e)

/-- Write the line of a packet. Bytes go out until the pipe took them all. -/
def write (packet : Packet) : Prog OutOfProcSession (Except PsrpError Unit) := do
  Async.modify (note (.line packet))
  writeRest packet.toLine.toUtf8

/-- Read one chunk and process every line it completes. The read is the only
    wait. -/
def pump (p : PacketPlatform) : Prog OutOfProcSession Unit := do
  Async.update usable
  let read ← Async.await readAnswer
  Async.update (received p read)

/-- Read until no acknowledgement is awaited. -/
def settle (p : PacketPlatform) : Prog OutOfProcSession Unit :=
  Async.loop (fun _ => do
    if (← Async.get).awaiting.isSome then
      pump p
      return .more ()
    else return .done ()) ()

/-- Stop reading when the time for a request is over. -/
def within (p : PacketPlatform) (fallback : Packet) (q : Prog OutOfProcSession Unit) :
    Prog OutOfProcSession Unit := do
  match ← Async.guarded q with
  | some () => return ()
  | none => raise (timedOut p fallback)

/-- The same for an acknowledgement a dropped request left awaited. -/
def settleBounded (p : PacketPlatform) : Prog OutOfProcSession Unit := do
  match (← Async.get).awaiting with
  | none => return ()
  | some pending => within p pending (settle p)

/-- Write a line, then read its acknowledgement. -/
def exchange (p : PacketPlatform) (packet ack : Packet) : Prog OutOfProcSession Unit := do
  settle p
  Async.modify fun s => { s with awaiting := some ack, writeInProgress := true }
  let written ← write packet
  Async.modify fun s => { s with writeInProgress := false }
  match written with
  | .error e => raise (fail e)
  | .ok () => settle p

/-- One request. Fails at once on a broken session, writing nothing. -/
def request (p : PacketPlatform) (packet ack : Packet) : Prog OutOfProcSession Unit := do
  Async.update usable
  within p ack (exchange p packet ack)

/-- Close the command that is open, if one is. -/
def closeOpen (p : PacketPlatform) (opened : Option Uuid) : Prog OutOfProcSession Unit :=
  match opened with
  | some prev => request p (.close prev) (.closeAck prev)
  | none => return ()

/-- Make a pipeline's command the open one. -/
def switchTo (p : PacketPlatform) (guid : Uuid) : Prog OutOfProcSession Unit := do
  settleBounded p
  let opened := (← Async.get).openCommand
  if opened ≠ some guid then
    closeOpen p opened
    request p (.command guid) (.commandAck guid)

/-- Send pieces of a payload, each acknowledged before the next. -/
def sendChunks (p : PacketPlatform) (guid : Uuid) : List Bytes → Prog OutOfProcSession Unit
  | [] => return ()
  | chunk :: chunks => do
    request p (.data .default guid chunk) (.dataAck guid)
    sendChunks p guid chunks

/-- Send a payload in the lines it takes. -/
def sendPayload (p : PacketPlatform) (guid : Uuid) (payload : Bytes) :
    Prog OutOfProcSession Unit := do
  Async.modify fun s =>
    { s with payloadInProgress := decide (MAX_DATA_PAYLOAD < payload.length) }
  sendChunks p guid (dataChunks payload)
  Async.modify fun s => { s with payloadInProgress := false }

/-- Send bytes to the pool or to a pipeline. An empty payload writes nothing. -/
def send (p : PacketPlatform) (guid : Uuid) (payload : Bytes) : Prog OutOfProcSession Unit :=
  if payload = [] then return ()
  else do
    Async.update ready
    if guid ≠ Uuid.nil then switchTo p guid
    sendPayload p guid payload

/-- The next payload from the server, in arrival order. What is queued is
    handed out even after the session broke. -/
def recv (p : PacketPlatform) : Prog OutOfProcSession Bytes :=
  Async.loop (fun _ => do
    match ← Async.update fun s => (.ok s.dequeue.1, s.dequeue.2) with
    | some payload => return .done payload
    | none =>
      Async.update ready
      match ← Async.attempt (pump p) with
      | .ok () => return .more ()
      | .error e =>
        match ← Async.update fun s => (.ok s.dequeue.1, s.dequeue.2) with
        | some payload => return .done payload
        | none => Async.throw e) ()

/-- Stop the open pipeline. Without one, nothing is written. -/
def signal (p : PacketPlatform) : Prog OutOfProcSession Unit := do
  Async.update ready
  settleBounded p
  match (← Async.get).openCommand with
  | some pid => request p (.signal pid) (.signalAck pid)
  | none => return ()

/-- Close the open command, if any, then the session. -/
def close (p : PacketPlatform) : Prog OutOfProcSession Unit := do
  Async.update ready
  settleBounded p
  closeOpen p (← Async.get).openCommand
  request p (.close Uuid.nil) (.closeAck Uuid.nil)

end OutOfProcSession

end OutOfProc

end Psrp

import Psrp.Core.Fragment
import Psrp.Core.Host
import Psrp.Core.RunspaceState
import Psrp.Core.Transport

/-!
# The Runspace Pool

The driver of a pool: it owns the transport, executes what the state machine
asks for, puts messages together from what comes in, answers the calls the
server makes to the host, and exchanges the session key.

Everything that is read goes through `nextMessage`. Host calls are answered
there and handed to nobody. The messages of the key exchange are acted on
there, whoever is reading, and handed on. An answer that holds a
`SecureString` is parked until there is a key.

`history` lists what happened, in order. It stands for what an observer sees
of the pool and of its transport; nothing reads it.

## Main definitions

* `PoolPlatform`, `Driver`: What a pool runs on.
* `Frame`: A message with the id of its fragments.
* `PoolEvent`: What happens to a pool.
* `RunspacePool`, `DeferredHostResponse`: A pool and its parked answers.
* `RunspacePool.nextMessage`: Read a message.
* `RunspacePool.handleHostCall`: Answer a host call.
* `RunspacePool.acceptEncryptedSessionKey`, `RunspacePool.requestSessionKey`:
  The key exchange.
* `RunspacePool.open`, `RunspacePool.close`, `RunspacePool.disconnect`,
  `DisconnectedPool.reconnect`: The life of a pool.
-/

namespace Psrp

/-- The libraries under a pool: those of the codec, the block cipher, and the
    `Debug` text of a value. -/
structure PoolPlatform extends Platform where
  cipher : BlockCipher
  debugValue : PsValue → Text

/-- A program of the host: it knows nothing of the pool, and an error of it is
    a value. -/
abbrev HostProg := Async Answer Empty Unit

/-- What a pool runs on. -/
structure Driver (τ : Type) where
  platform : PoolPlatform
  transport : PsrpTransport τ
  host : PsHost HostProg

/-- A message with the id its fragments carry. -/
structure Frame where
  objectId : UInt64
  msg : PsrpMessage
  deriving DecidableEq

/-- What goes to the transport for a message. -/
def Frame.bytes (f : Frame) : Bytes := encodeMessage f.objectId f.msg.encode

/-- A host-call answer waiting for the session key. -/
structure DeferredHostResponse where
  responseType : MessageType
  pid : Uuid
  ci : Int64
  mi : Int64
  value : PsValue

/-- What a host call asks for. -/
structure HostCall where
  ci : Int64
  mi : Int64
  mp : List PsValue

/-- What happens to a pool. -/
inductive PoolEvent where
  /-- A chunk came in. -/
  | chunk (bytes : Bytes)
  /-- A message was taken out of the buffer. -/
  | took (msg : PsrpMessage)
  /-- A message was handed to whoever is reading. -/
  | handed (msg : PsrpMessage)
  /-- The host answered a call. -/
  | answered (msg : PsrpMessage) (call : HostCall) (answer : Except PsrpError (Option PsValue))
  /-- An answer was parked. -/
  | parked (d : DeferredHostResponse)
  /-- The first parked answer is about to be sent, and was. -/
  | flushing (d : DeferredHostResponse)
  | flushed (d : DeferredHostResponse)
  /-- An error is about to be sent in place of a parked answer. -/
  | failing (d : DeferredHostResponse)
  /-- A message was given to the transport, and went through. -/
  | sending (frame : Frame)
  | sent (frame : Frame)
  /-- There was no object id left. -/
  | exhausted
  /-- No key pair could be generated. -/
  | keyless
  /-- A key exchange was started. -/
  | exchange (key : ClientSessionKey)
  /-- The pool was given a session key, by the awaited reply or from outside. -/
  | keyed (key : SessionKey)
  | injected (key : SessionKey)
  /-- The awaited reply was unusable. -/
  | refused (e : PsrpError)
  /-- A token was found to have fired. -/
  | fired
  /-- A read was dropped because of it. -/
  | dropped
  /-- The transport was asked to stop the pipeline, and did. -/
  | signalling
  | signalled
  /-- A read of a pipeline failed. -/
  | raised (e : PsrpError)

/-- Hand out the next fragment object id and advance the counter. The last id
    is never handed out. -/
def takeObjectId (counter : UInt64) : Except PsrpError UInt64 × UInt64 :=
  if counter.toNat + 1 < 2 ^ 64 then (.ok counter, counter + 1)
  else (.error (.protocol "fragment object id space exhausted"), counter)

mutual

/-- Whether a value holds a `SecureString` anywhere in it. -/
def containsSecureString : PsValue → Bool
  | .secureString _ => true
  | .list items => anySecureItem items
  | .dict entries => anySecureEntry entries
  | .object ⟨properties, _, _⟩ => anySecureProperty properties
  | _ => false

def anySecureItem : List PsValue → Bool
  | [] => false
  | v :: items => containsSecureString v || anySecureItem items

def anySecureEntry : List (PsValue × PsValue) → Bool
  | [] => false
  | (k, v) :: entries =>
    (containsSecureString k || containsSecureString v) || anySecureEntry entries

def anySecureProperty : List (Text × PsValue) → Bool
  | [] => false
  | (_, v) :: properties => containsSecureString v || anySecureProperty properties

end

mutual

/-- A value with every `SecureString` plaintext replaced by the base64 of its
    encryption. -/
def encryptSecureStrings (cipher : BlockCipher) (key : SessionKey) : PsValue → PsValue
  | .secureString plain => .secureString (base64Encode (key.encryptSecureString cipher plain))
  | .list items => .list (encryptItems cipher key items)
  | .dict entries => .dict (encryptEntries cipher key entries)
  | .object ⟨properties, typeNames, toString⟩ =>
    .object ⟨encryptProperties cipher key properties, typeNames, toString⟩
  | other => other

def encryptItems (cipher : BlockCipher) (key : SessionKey) : List PsValue → List PsValue
  | [] => []
  | v :: items => encryptSecureStrings cipher key v :: encryptItems cipher key items

def encryptEntries (cipher : BlockCipher) (key : SessionKey) :
    List (PsValue × PsValue) → List (PsValue × PsValue)
  | [] => []
  | (k, v) :: entries =>
    (encryptSecureStrings cipher key k, encryptSecureStrings cipher key v)
      :: encryptEntries cipher key entries

def encryptProperties (cipher : BlockCipher) (key : SessionKey) :
    List (Text × PsValue) → List (Text × PsValue)
  | [] => []
  | (k, v) :: properties =>
    (k, encryptSecureStrings cipher key v) :: encryptProperties cipher key properties

end

def buildHostResponseBody (p : Platform) (ci mi : Int64) (value : PsValue) : Text :=
  toClixml p (.object (((PsObject.new.with "ci".toList (.i64 ci)).with
    "mi".toList (.i64 mi)).with "mr".toList value))

def buildHostResponseErrorBody (p : Platform) (ci mi : Int64) (message : String) : Text :=
  let exception : PsObject :=
    { PsObject.new.with "Message".toList (.string message.toList) with
      typeNames := ["System.Exception".toList] }
  toClixml p (.object (((PsObject.new.with "ci".toList (.i64 ci)).with
    "mi".toList (.i64 mi)).with "me".toList (.object exception)))

/-- The method of a call: an enumeration holds its number bare, other servers
    send a plain integer. -/
def hostMethodNumber (obj : PsObject) : Option Int64 := do
  let v ← obj.get "mi".toList
  let v ← match v with
    | .object o => PsObject.get o valueKey
    | plain => some plain
  v.asI64.or (v.asI32.map Int32.toInt64)

/-- The arguments of a call, in a list or in an object around one. -/
def hostCallArguments (obj : PsObject) : List PsValue :=
  match obj.get "mp".toList with
  | some (.list items) => items
  | some (.object inner) => match PsObject.get inner valueKey with
    | some (.list items) => items
    | _ => []
  | _ => []

/-- Read the body of a host call. -/
def decodeHostCall (p : Platform) (data : Text) : Except PsrpError HostCall := do
  let parsed ← parseClixml p data
  match (parsed.head? : Option PsValue) with
  | none => throw (.protocol "host call: empty body")
  | some (.object obj) =>
    match (PsObject.get obj "ci".toList).bind PsValue.asI64 with
    | none => throw (.protocol "host call: missing ci")
    | some ci => match hostMethodNumber obj with
      | none => throw (.protocol "host call: missing mi")
      | some mi => return { ci, mi, mp := hostCallArguments obj }
  | some _ => throw (.protocol "host call: body is not an object")

/-- The type of the response to a call. -/
def hostResponseType : MessageType → MessageType
  | .runspacePoolHostCall => .runspacePoolHostResponse
  | _ => .pipelineHostResponse

/-- The body of a `PublicKey` message. -/
def publicKeyXml (p : Platform) (key : ClientSessionKey) : Text :=
  toClixml p (.object (PsObject.new.with "PublicKey".toList (.string key.publicBlobBase64)))

/-- Unwrap the key that an `EncryptedSessionKey` message carries. -/
def unwrapSessionKey (p : Platform) (data : Text) (key : ClientSessionKey) :
    Except PsrpError SessionKey := do
  let parsed ← parseClixml p data
  let encoded := parsed.findSome? fun v => match v with
    | .object obj => (PsObject.get obj "EncryptedSessionKey".toList).bind PsValue.asStr
    | _ => none
  match encoded with
  | none => throw (.protocol "EncryptedSessionKey message missing EncryptedSessionKey property")
  | some encoded => match base64Decode encoded with
    | none => throw (.protocol "EncryptedSessionKey: invalid base64")
    | some bytes =>
      let raw ← key.decryptSessionKey bytes
      return ⟨raw⟩

/-- The message made up when the transport says that nothing is left: a
    completed pipeline, of no pipeline in particular. -/
def syntheticCompletion (p : Platform) (rpid : Uuid) : PsrpMessage :=
  { destination := .client, messageType := .pipelineState, rpid, pid := Uuid.nil,
    data := toClixml p (.object (PsObject.new.with "PipelineState".toList (.i32 4))) }

/-- A runspace pool. -/
structure RunspacePool (τ : Type) where
  transport : τ
  reassembler : Reassembler
  machine : RunspacePoolStateMachine
  nextObjectId : UInt64
  closed : Bool
  sessionKey : Option SessionKey
  /-- The key pair whose `PublicKey` is sent and whose reply is awaited. -/
  pendingClientKey : Option ClientSessionKey
  /-- Answers holding a `SecureString`, until there is a key. -/
  deferredHostResponses : List DeferredHostResponse
  /-- Messages decoded and not taken yet, the next one first. -/
  pendingMessages : List PsrpMessage
  history : List PoolEvent

namespace RunspacePool

variable {τ α : Type}

/-- A pool on a transport, with nothing sent or received. -/
def attached (transport : τ) (machine : RunspacePoolStateMachine) (nextObjectId : UInt64)
    (sessionKey : Option SessionKey) : RunspacePool τ :=
  { transport, machine, nextObjectId, sessionKey, reassembler := .new, closed := false,
    pendingClientKey := none, deferredHostResponses := [], pendingMessages := [], history := [] }

def note (e : PoolEvent) (s : RunspacePool τ) : RunspacePool τ :=
  { s with history := s.history ++ [e] }

/-- Note that something happened. -/
def record (e : PoolEvent) : Prog (RunspacePool τ) Unit := Async.modify (note e)

/-- A program of the transport. -/
def onTransport (op : Prog τ α) : Prog (RunspacePool τ) α :=
  Async.zoom RunspacePool.transport (fun t s => { s with transport := t }) op

/-- The next message to the server, under the next id. -/
def takeFrame (messageType : MessageType) (pid : Uuid) (body : Text) (s : RunspacePool τ) :
    Except PsrpError Frame × RunspacePool τ :=
  match takeObjectId s.nextObjectId with
  | (.error e, _) => (.error e, s.note .exhausted)
  | (.ok objectId, next) =>
    let frame := { objectId, msg := .toServer messageType s.machine.rpid pid body }
    (.ok frame, { s.note (.sending frame) with nextObjectId := next })

/-- Send a message to the pool. -/
def sendPsrpMessage (d : Driver τ) (mt : MessageType) (body : Text) :
    Prog (RunspacePool τ) Unit := do
  let frame ← Async.update (takeFrame mt Uuid.nil body)
  onTransport (d.transport.sendFragment frame.bytes)
  record (.sent frame)

/-- Send a message to a pipeline. The one that creates it starts the command. -/
def sendPipelineMessage (d : Driver τ) (mt : MessageType) (pid : Uuid) (body : Text) :
    Prog (RunspacePool τ) Unit := do
  let frame ← Async.update (takeFrame mt pid body)
  if mt = .createPipeline then
    onTransport (d.transport.executePipeline frame.bytes pid)
  else
    onTransport (d.transport.sendPipelineFragment frame.bytes pid)
  record (.sent frame)

def signalTransportStop (d : Driver τ) : Prog (RunspacePool τ) Unit := do
  record .signalling
  onTransport d.transport.signalStop
  record .signalled

/-- Generate a key pair. -/
def generateClientKey : Prog (RunspacePool τ) ClientSessionKey := do
  let drawn ← Async.choose
    (fun a => match a with | .drawn key => some key | _ => none)
    (.error "nothing was drawn")
  match drawn with
  | .ok key => return key
  | .error e =>
    record .keyless
    Async.throw (.protocol s!"RSA keygen: {e}")

/-- Send the `PublicKey` message and remember the key pair for the reply. -/
def startExchange (d : Driver τ) (clientKey : ClientSessionKey) : Prog (RunspacePool τ) Unit := do
  sendPsrpMessage d .publicKey (publicKeyXml d.platform.toPlatform clientKey)
  Async.modify fun s => { s.note (.exchange clientKey) with pendingClientKey := some clientKey }

/-- Start an exchange unless one is in flight, even when a key is held. -/
def startExchangeUnlessPending (d : Driver τ) : Prog (RunspacePool τ) Unit := do
  let s ← Async.get
  if s.pendingClientKey.isSome then return ()
  else
    let clientKey ← generateClientKey
    startExchange d clientKey

/-- Start an exchange unless there is a key or one is in flight. -/
def ensureKeyExchangeStarted (d : Driver τ) : Prog (RunspacePool τ) Unit := do
  let s ← Async.get
  if s.sessionKey.isSome then return ()
  else startExchangeUnlessPending d

/-- Take a session key from outside. The exchange in flight is abandoned. -/
def setSessionKey (key : SessionKey) (s : RunspacePool τ) : RunspacePool τ :=
  { s.note (.injected key) with sessionKey := some key, pendingClientKey := none }

/-- Send the parked answers one at a time, each removed once it is sent. -/
def flushTurns (d : Driver τ) (key : SessionKey) : Nat → Prog (RunspacePool τ) Unit
  | 0 => return ()
  | n + 1 => do
    let s ← Async.get
    match s.deferredHostResponses with
    | [] => return ()
    | parked :: _ => do
      let value := encryptSecureStrings d.platform.cipher key parked.value
      let body := buildHostResponseBody d.platform.toPlatform parked.ci parked.mi value
      record (.flushing parked)
      sendPipelineMessage d parked.responseType parked.pid body
      Async.modify fun s =>
        { s.note (.flushed parked) with deferredHostResponses := s.deferredHostResponses.tail }
      flushTurns d key n

/-- Send the parked answers, encrypted, if there is a key. No turn adds one, so
    their number bounds the turns. -/
def flushDeferredHostResponses (d : Driver τ) : Prog (RunspacePool τ) Unit := do
  let s ← Async.get
  match s.sessionKey with
  | none => return ()
  | some key => flushTurns d key s.deferredHostResponses.length

/-- Answer each of some calls with an error. A send that fails is not tried
    again. -/
def failEach (d : Driver τ) (message : String) :
    List DeferredHostResponse → Prog (RunspacePool τ) Unit
  | [] => return ()
  | parked :: rest => do
    let body := buildHostResponseErrorBody d.platform.toPlatform parked.ci parked.mi message
    record (.failing parked)
    let _ ← Async.attempt (sendPipelineMessage d parked.responseType parked.pid body)
    failEach d message rest

/-- Answer every parked host call with an error that says why. -/
def failDeferredHostResponses (d : Driver τ) (why : PsrpError) : Prog (RunspacePool τ) Unit := do
  let message := s!"the SecureString could not be sent: {why.message}"
  let taken ← Async.update fun s =>
    (.ok s.deferredHostResponses, { s with deferredHostResponses := [] })
  failEach d message taken

/-- Take the key out of the awaited reply, then send the answers that were
    waiting for it. The key pair is single use, whatever comes of the reply. -/
def acceptEncryptedSessionKey (d : Driver τ) (msg : PsrpMessage) : Prog (RunspacePool τ) Unit := do
  let s ← Async.get
  match s.pendingClientKey with
  | none => return ()
  | some clientKey => do
    Async.modify fun s => { s with pendingClientKey := none }
    match unwrapSessionKey d.platform.toPlatform msg.data clientKey with
    | .error e => do
      record (.refused e)
      failDeferredHostResponses d e
      Async.throw e
    | .ok key => do
      Async.modify fun s => { s.note (.keyed key) with sessionKey := some key }
      flushDeferredHostResponses d

/-- Answer a host call: nothing for a method that writes, and an answer that
    holds a `SecureString` only encrypted. -/
def handleHostCall (d : Driver τ) (msg : PsrpMessage) : Prog (RunspacePool τ) Unit := do
  let p := d.platform.toPlatform
  let call ← Async.lift (decodeHostCall p msg.data)
  let responseType := hostResponseType msg.messageType
  let answer ← Async.outside
    (dispatchHostCall d.host (HostMethodId.fromI64 call.mi) call.mp)
  record (.answered msg call answer)
  match answer with
  | .ok none => return ()
  | .error e =>
    sendPipelineMessage d responseType msg.pid
      (buildHostResponseErrorBody p call.ci call.mi e.message)
  | .ok (some value) =>
    if containsSecureString value then do
      let s ← Async.get
      match s.sessionKey with
      | some key =>
        sendPipelineMessage d responseType msg.pid
          (buildHostResponseBody p call.ci call.mi
            (encryptSecureStrings d.platform.cipher key value))
      | none => do
        ensureKeyExchangeStarted d
        let parked : DeferredHostResponse :=
          { responseType, pid := msg.pid, ci := call.ci, mi := call.mi, value }
        Async.modify fun s =>
          { s.note (.parked parked) with
            deferredHostResponses := s.deferredHostResponses ++ [parked] }
    else
      sendPipelineMessage d responseType msg.pid (buildHostResponseBody p call.ci call.mi value)

/-- Take the next buffered message, if there is one. -/
def popMessage (s : RunspacePool τ) : Option PsrpMessage × RunspacePool τ :=
  match s.pendingMessages with
  | [] => (none, s)
  | msg :: rest => (some msg, { s.note (.took msg) with pendingMessages := rest })

/-- Put the messages of a chunk into the buffer. -/
def feedChunk (chunk : Bytes) (s : RunspacePool τ) : Except PsrpError Unit × RunspacePool τ :=
  match s.reassembler.feed chunk with
  | (.error e, r) => (.error e, { s with reassembler := r })
  | (.ok completed, r) => match completed.mapM PsrpMessage.decode with
    | .error e => (.error e, { s with reassembler := r })
    | .ok decoded =>
      (.ok (), { s with reassembler := r, pendingMessages := decoded ++ s.pendingMessages })

/-- Hand a message to whoever is reading. -/
def hand (msg : PsrpMessage) : Prog (RunspacePool τ) (Async.Turn Unit PsrpMessage) := do
  record (.handed msg)
  return .done msg

/-- What becomes of a message that was taken. -/
def handleMessage (d : Driver τ) (msg : PsrpMessage) :
    Prog (RunspacePool τ) (Async.Turn Unit PsrpMessage) :=
  match msg.messageType with
  | .runspacePoolHostCall | .pipelineHostCall => do
    handleHostCall d msg
    return .more ()
  | .encryptedSessionKey => do
    acceptEncryptedSessionKey d msg
    hand msg
  | .publicKeyRequest => do
    startExchangeUnlessPending d
    hand msg
  | _ => hand msg

/-- Read a chunk. An empty one with nothing in flight is the end. -/
def receiveChunk (d : Driver τ) : Prog (RunspacePool τ) (Async.Turn Unit PsrpMessage) := do
  let chunk ← onTransport d.transport.recvChunk
  record (.chunk chunk)
  let s ← Async.get
  if chunk = [] ∧ s.reassembler.isIdle = true ∧ s.pendingMessages = [] then
    hand (syntheticCompletion d.platform.toPlatform s.machine.rpid)
  else do
    Async.update (feedChunk chunk)
    return .more ()

/-- One turn of the reader. -/
def readTurn (d : Driver τ) : Prog (RunspacePool τ) (Async.Turn Unit PsrpMessage) := do
  let s ← Async.get
  -- Answers parked for a key that `setSessionKey` has since given.
  if s.deferredHostResponses ≠ [] ∧ s.sessionKey.isSome = true then
    flushDeferredHostResponses d
  let popped ← Async.update fun s =>
    let (popped, s) := popMessage s
    (.ok popped, s)
  match popped with
  | some msg => handleMessage d msg
  | none => receiveChunk d

/-- Read the next message for whoever is reading. -/
def nextMessage (d : Driver τ) : Prog (RunspacePool τ) PsrpMessage :=
  Async.loop (fun _ => readTurn d) ()

/-- Pass a message to the state machine. -/
def onMessage (d : Driver τ) (msg : PsrpMessage) (s : RunspacePool τ) :
    Except PsrpError Unit × RunspacePool τ :=
  let (r, machine) := s.machine.onMessage d.platform.toPlatform msg
  (r, { s with machine })

/-- Read until the session key is in place. Every message but the reply goes to
    the state machine. -/
def awaitSessionKey (d : Driver τ) : Prog (RunspacePool τ) Unit :=
  Async.loop (fun _ => do
    let s ← Async.get
    if s.sessionKey.isSome then return .done ()
    else do
      let msg ← nextMessage d
      if msg.messageType ≠ .encryptedSessionKey then
        Async.update (onMessage d msg)
      return .more ()) ()

/-- Exchange a session key, unless there is one. An exchange in flight is
    awaited, not repeated. -/
def requestSessionKey (d : Driver τ) : Prog (RunspacePool τ) Unit := do
  let s ← Async.get
  if s.sessionKey.isSome then return ()
  else do
    if s.pendingClientKey.isNone then do
      let clientKey ← generateClientKey
      startExchange d clientKey
    awaitSessionKey d

/-- Execute the actions of the state machine. -/
def execute (d : Driver τ) : List Action → Prog (RunspacePool τ) Unit
  | [] => return ()
  | action :: actions => do
    sendPsrpMessage d action.messageType action.body
    execute d actions

/-- Read until the pool is open. -/
def drainUntilOpened (d : Driver τ) : Prog (RunspacePool τ) Unit :=
  Async.loop (fun _ => do
    let msg ← nextMessage d
    Async.update (onMessage d msg)
    let s ← Async.get
    if s.machine.isOpened then return .done () else return .more ()) ()

/-- Open a pool by messages. -/
def «open» (d : Driver τ) : Prog (RunspacePool τ) Unit := do
  let actions ← Async.update fun s =>
    let (actions, machine) := s.machine.open d.platform.toPlatform
    (.ok actions, { s with machine })
  execute d actions
  drainUntilOpened d

/-- Close the pool. The transport is closed even when the message is not sent. -/
def close (d : Driver τ) : Prog (RunspacePool τ) Unit := do
  let s ← Async.get
  if s.closed then return ()
  else do
    let actions ← Async.update fun s =>
      let (actions, machine) := s.machine.close
      (.ok actions, { s with closed := true, machine })
    let sendResult ← Async.attempt (execute d actions)
    onTransport d.transport.closeShell
    Async.modify fun s => { s with machine := s.machine.markClosed }
    Async.lift sendResult

end RunspacePool

/-- A pool that has been disconnected and whose shell is still alive. -/
structure DisconnectedPool where
  shellId : Text
  rpid : Uuid
  minRunspaces : Int32
  maxRunspaces : Int32
  sessionKey : Option SessionKey

namespace RunspacePool

variable {τ : Type}

/-- The pool that `openWithTransport` opens by messages. -/
def ofTransport (transport : τ) (rpid : Uuid) (minRunspaces maxRunspaces : Int32) :
    Except PsrpError (RunspacePool τ) := do
  let machine ← RunspacePoolStateMachine.new rpid minRunspaces maxRunspaces
  return attached transport machine 1 none

/-- The opening messages of a pool, to be embedded in the creation of the
    shell: each with its id. -/
def creationFrames (p : Platform) (rpid : Uuid) (minRunspaces maxRunspaces : Int32) :
    Except PsrpError (List Frame) := do
  let machine ← RunspacePoolStateMachine.new rpid minRunspaces maxRunspaces
  let framed := (machine.open p).1.foldlM (fun (framed : List Frame × UInt64) action =>
    match takeObjectId framed.2 with
    | (.error e, _) => .error e
    | (.ok objectId, next) =>
      let msg := .toServer action.messageType machine.rpid Uuid.nil action.body
      .ok (framed.1 ++ [{ objectId, msg }], next)) (([], 1) : List Frame × UInt64)
  return (← framed).1

/-- The raw opening fragments. -/
def buildCreationFragments (p : Platform) (rpid : Uuid) (minRunspaces maxRunspaces : Int32) :
    Except PsrpError Bytes :=
  (creationFrames p rpid minRunspaces maxRunspaces).map fun frames => frames.flatMap Frame.bytes

/-- The pool on a transport that was created with the opening messages: it only
    has to wait. -/
def ofOpenedTransport (p : Platform) (transport : τ) (rpid : Uuid)
    (minRunspaces maxRunspaces : Int32) : Except PsrpError (RunspacePool τ) := do
  let machine ← RunspacePoolStateMachine.new rpid minRunspaces maxRunspaces
  return attached transport (machine.open p).2 3 none

/-- Disconnect the pool. When the transport refuses, the shell is torn down. -/
def disconnect (d : Driver τ) : Prog (RunspacePool τ) DisconnectedPool := do
  let s ← Async.get
  if s.closed then Async.throw (.protocol "pool already closed")
  else do
    Async.modify fun s => { s with closed := true }
    match ← Async.attempt (onTransport d.transport.disconnectShell) with
    | .error e => do
      let _ ← Async.attempt (onTransport d.transport.closeShell)
      Async.throw e
    | .ok shellId => do
      let s ← Async.get
      return { shellId, rpid := s.machine.rpid, minRunspaces := s.machine.minRunspaces,
               maxRunspaces := s.machine.maxRunspaces, sessionKey := s.sessionKey }

end RunspacePool

/-- Resume the pool on a transport that was rebuilt. Nothing is sent. -/
def DisconnectedPool.reconnect {τ : Type} (pool : DisconnectedPool) (transport : τ) :
    Except PsrpError (RunspacePool τ) := do
  let machine ← RunspacePoolStateMachine.new pool.rpid pool.minRunspaces pool.maxRunspaces
  return .attached transport machine.connect.2 1 pool.sessionKey

end Psrp

import Psrp.Core.Decode
import Psrp.Core.Encode
import Psrp.Core.Message
import Psrp.Core.Records

/-!
# The Runspace Pool State Machine

The lifecycle of a runspace pool, without any input or output: an operation
or a message from the server maps a state to a state and to the messages the
driver must send.

Four operations are the client's: `open`, `connect`, `close` and
`markClosed`. The fifth takes a message of the server, which may only make
the transitions that `isLegalServerTransition` lists.

## Main definitions

* `RunspacePoolState`: The states.
* `RunspacePoolStateMachine`: The machine, whose bounds are sane by
  construction.
* `RunspacePoolStateMachine.open`, `RunspacePoolStateMachine.connect`,
  `RunspacePoolStateMachine.onMessage`, `RunspacePoolStateMachine.close`,
  `RunspacePoolStateMachine.markClosed`: The operations.
* `isLegalServerTransition`: What the server may do.
* `terminalStateReason`: The reason the server gives for a terminal state.
-/

namespace Psrp

/-- Minimum protocol version advertised. -/
def PROTOCOL_VERSION : Text := "2.3".toList

def PS_VERSION : Text := "2.0".toList

def SERIALIZATION_VERSION : Text := "1.1.0.1".toList

/-- Lifecycle states of a runspace pool. -/
inductive RunspacePoolState where
  | beforeOpen
  | opening
  | opened
  | closed
  | closing
  | broken
  | disconnecting
  | disconnected
  | connecting
  | negotiationSent
  | negotiationSucceeded
  deriving DecidableEq, Repr

namespace RunspacePoolState

/-- Decode from a wire code; an unknown code is a broken pool. -/
def fromI32 (v : Int32) : RunspacePoolState :=
  match v.toInt with
  | 0 => beforeOpen
  | 1 => opening
  | 2 => opened
  | 3 => closed
  | 4 => closing
  | 5 => broken
  | 6 => disconnecting
  | 7 => disconnected
  | 8 => connecting
  | 9 => negotiationSent
  | 10 => negotiationSucceeded
  | _ => broken

/-- The `Debug` text of a state. -/
def debug : RunspacePoolState → String
  | beforeOpen => "BeforeOpen"
  | opening => "Opening"
  | opened => "Opened"
  | closed => "Closed"
  | closing => "Closing"
  | broken => "Broken"
  | disconnecting => "Disconnecting"
  | disconnected => "Disconnected"
  | connecting => "Connecting"
  | negotiationSent => "NegotiationSent"
  | negotiationSucceeded => "NegotiationSucceeded"

end RunspacePoolState

/-- A message the driver must send. -/
structure Action where
  messageType : MessageType
  body : Text
  deriving DecidableEq

/-- An enumeration value: its number stands bare in the object. -/
def psEnum (enumType valueName : String) (integerValue : Int32) : PsValue :=
  .object { properties := [(valueKey, .i32 integerValue)]
            typeNames := [enumType.toList, "System.Enum".toList, "System.ValueType".toList,
              "System.Object".toList]
            toString := some valueName.toList }

/-- The host information that declares no host. -/
def psHostInfoNull : PsValue :=
  .object ((((PsObject.new.with "_isHostNull".toList (.bool true)).with
    "_isHostUINull".toList (.bool true)).with "_isHostRawUINull".toList (.bool true)).with
    "_useRunspaceHost".toList (.bool true))

def sessionCapabilityXml (p : Platform) : Text :=
  toClixml p (.object (((PsObject.new.with "PSVersion".toList (.version PS_VERSION)).with
    "protocolversion".toList (.version PROTOCOL_VERSION)).with
    "SerializationVersion".toList (.version SERIALIZATION_VERSION)))

def initRunspacePoolXml (p : Platform) (min max : Int32) : Text :=
  toClixml p (.object ((((((PsObject.new.with "MinRunspaces".toList (.i32 min)).with
    "MaxRunspaces".toList (.i32 max)).with
    "PSThreadOptions".toList
      (psEnum "System.Management.Automation.Runspaces.PSThreadOptions" "Default" 0)).with
    "ApartmentState".toList
      (psEnum "System.Management.Automation.Runspaces.ApartmentState" "UNKNOWN" 2)).with
    "HostInfo".toList psHostInfoNull).with "ApplicationArguments".toList .null))

/-- The state that a `RunspacePoolState` message announces. -/
def extractRunspaceState (p : Platform) (xml : Text) : Except PsrpError RunspacePoolState := do
  let parsed ← parseClixml p xml
  let code := parsed.findSome? fun value => match value with
    | .object obj => match PsObject.get obj "RunspaceState".toList with
      | some (.i32 code) => some code
      | _ => none
    | _ => none
  match code with
  | some code => return RunspacePoolState.fromI32 code
  | none => throw (.protocol "RunspacePoolState message missing RunspaceState property")

/-- The server's reason for a terminal state, if it gave one that is not
    blank. -/
def terminalStateReason (p : Platform) (xml : Text) : Option Text := do
  let parsed ← (parseClixml p xml).toOption
  let message ← parsed.findSome? fun value => do
    let obj ← asObject value
    let record ← obj.get "ExceptionAsErrorRecord".toList
    match record.asStr with
    | some text => some text
    | none =>
      let record ← ErrorRecord.fromPsObject record
      let exception ← record.exception
      exception.message
  let message := Text.trim message
  if message = [] then none else some (escapeRemoteText message MAX_SERVER_MESSAGE_CHARS)

open RunspacePoolState in
/-- Whether the server may drive the pool from one state into another. -/
def isLegalServerTransition (src dst : RunspacePoolState) : Bool :=
  if src = dst then true
  -- The server can always say that a pool that is not closed died.
  else if dst = broken ∧ src ≠ closed then true
  else match src, dst with
    | beforeOpen, opening | beforeOpen, negotiationSent => true
    | opening, negotiationSent | opening, negotiationSucceeded | opening, opened => true
    | negotiationSent, negotiationSucceeded | negotiationSent, opened | negotiationSent, closed
    | negotiationSent, disconnected => true
    | negotiationSucceeded, opened | negotiationSucceeded, closed
    | negotiationSucceeded, disconnected => true
    | opened, closing | opened, closed | opened, disconnecting | opened, disconnected => true
    | closing, closed => true
    | disconnecting, disconnected => true
    | disconnected, connecting => true
    | connecting, negotiationSent | connecting, negotiationSucceeded | connecting, opened
    | connecting, disconnected => true
    | _, _ => false

/-- The state machine of a pool. Only sane bounds make one. -/
structure RunspacePoolStateMachine where
  state : RunspacePoolState
  rpid : Uuid
  minRunspaces : Int32
  maxRunspaces : Int32
  bounds : 1 ≤ minRunspaces ∧ minRunspaces ≤ maxRunspaces
  deriving DecidableEq

namespace RunspacePoolStateMachine

/-- Build a new machine. -/
def new (rpid : Uuid) (minRunspaces maxRunspaces : Int32) :
    Except PsrpError RunspacePoolStateMachine :=
  if h : 1 ≤ minRunspaces ∧ minRunspaces ≤ maxRunspaces then
    .ok { state := .beforeOpen, rpid, minRunspaces, maxRunspaces, bounds := h }
  else .error
    (.protocol s!"invalid runspace bounds: min={minRunspaces} max={maxRunspaces}")

/-- Dead for good. -/
def isTerminal (m : RunspacePoolStateMachine) : Bool :=
  m.state = .closed || m.state = .broken

def isOpened (m : RunspacePoolStateMachine) : Bool := m.state = .opened

/-- Start the opening handshake. Only a machine before it does. -/
def «open» (p : Platform) (m : RunspacePoolStateMachine) : List Action × RunspacePoolStateMachine :=
  if m.state ≠ .beforeOpen then ([], m)
  else
    ([{ messageType := .sessionCapability, body := sessionCapabilityXml p },
      { messageType := .initRunspacePool,
        body := initRunspacePoolXml p m.minRunspaces m.maxRunspaces }],
      { m with state := .negotiationSent })

/-- Resume a disconnected pool: nothing is sent. -/
def connect (m : RunspacePoolStateMachine) : List Action × RunspacePoolStateMachine :=
  if m.isTerminal then ([], m)
  else if ¬ (m.state = .beforeOpen ∨ m.state = .disconnected) then ([], m)
  else ([], { m with state := .opened })

/-- Take a message from the server. -/
def onMessage (p : Platform) (msg : PsrpMessage) (m : RunspacePoolStateMachine) :
    Except PsrpError Unit × RunspacePoolStateMachine :=
  match msg.messageType with
  | .runspacePoolState =>
    match extractRunspaceState p msg.data with
    | .error e => (.error e, m)
    | .ok newState =>
      if !isLegalServerTransition m.state newState then
        (.error (.protocol
          s!"illegal RunspacePool transition {m.state.debug} -> {newState.debug}"), m)
      else
        let m := { m with state := newState }
        if newState = .broken ∨ newState = .closed then
          let reason := match terminalStateReason p msg.data with
            | none => ""
            | some reason => s!": {String.ofList reason}"
          (.error (.protocol s!"runspace pool entered terminal state {newState.debug}{reason}"), m)
        else (.ok (), m)
  -- Everything else is informational.
  | _ => (.ok (), m)

/-- Start closing. A dead machine stays dead. -/
def close (m : RunspacePoolStateMachine) : List Action × RunspacePoolStateMachine :=
  if m.isTerminal then ([], m)
  else
    ([{ messageType := .closeRunspacePool, body := "<Obj RefId=\"0\"><MS/></Obj>".toList }],
      { m with state := .closing })

/-- Mark the machine as fully closed. -/
def markClosed (m : RunspacePoolStateMachine) : RunspacePoolStateMachine :=
  { m with state := .closed }

end RunspacePoolStateMachine

end Psrp

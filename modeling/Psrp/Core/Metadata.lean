import Psrp.Core.Pipeline

/-!
# Command Metadata

The values a `GetCommandMetadata` pipeline answers with, the body of the
request, and the loop that reads the answer.

## Main definitions

* `CommandMetadata`, `ParameterMetadata`: A command and its parameters.
* `CommandMetadata.fromPsObject`: Reading one.
* `buildGetCommandMetadataBody`: The request.
* `RunspacePool.getCommandMetadata`: The call.
-/

namespace Psrp

/-- A set of command types, as the bits of `CommandTypes`. -/
structure CommandType where
  bits : UInt32
  deriving DecidableEq

/-- One parameter of a command. -/
structure ParameterMetadata where
  name : Text
  parameterType : Option Text
  isMandatory : Option Bool
  position : Option Int32
  deriving DecidableEq

/-- One command. -/
structure CommandMetadata where
  name : Text
  «namespace» : Option Text
  hasCommonParameters : Option Bool
  commandType : Option Int32
  parameters : List ParameterMetadata
  deriving DecidableEq

def ParameterMetadata.fromPsValue (value : PsValue) : Option ParameterMetadata := do
  let obj ← value.properties
  let get (name : String) := IndexMap.get name.toList obj
  return { name := ((get "Name").bind PsValue.asStr).getD []
           parameterType := (get "ParameterType").bind PsValue.asStr
           isMandatory := (get "IsMandatory").bind PsValue.asBool
           position := (get "Position").bind PsValue.asI32 }

def CommandMetadata.fromPsObject (value : PsValue) : Option CommandMetadata := do
  let obj ← value.properties
  let get (name : String) := IndexMap.get name.toList obj
  return { name := ((get "Name").bind PsValue.asStr).getD []
           «namespace» := (get "Namespace").bind PsValue.asStr
           hasCommonParameters := (get "HasCommonParameters").bind PsValue.asBool
           commandType := (get "CommandType").bind PsValue.asI32
           parameters := match get "Parameters" with
             | some (.list list) => list.filterMap ParameterMetadata.fromPsValue
             | _ => [] }

/-- The body of a `GetCommandMetadata` message. -/
def buildGetCommandMetadataBody (p : Platform) (patterns : List Text) (commandType : CommandType) :
    Text :=
  toClixml p (.object ((((PsObject.new.with "Name".toList
    (.list (patterns.map PsValue.string))).with
    "CommandType".toList (.i32 ⟨commandType.bits⟩)).with
    "Namespace".toList (.list [])).with "ArgumentList".toList (.list [])))

/-- The state a number stands for. -/
def pipelineStateFromI32 (v : Int32) : PipelineState :=
  match v.toInt with
  | 0 => .notStarted
  | 1 => .running
  | 2 => .stopping
  | 3 => .stopped
  | 4 => .completed
  | 5 => .failed
  | 6 => .disconnected
  | _ => .unknown

/-- The state that a `PipelineState` message announces, if it announces one. -/
def stateFromXml (p : Platform) (xml : Text) : Option PipelineState := do
  let values ← (parseClixml p xml).toOption
  values.findSome? fun v => match v with
    | .object obj =>
      ((PsObject.get obj "PipelineState".toList).bind PsValue.asI32).map pipelineStateFromI32
    | _ => none

namespace RunspacePool

open Async (Turn)

variable {τ : Type}

/-- The error of a request that failed on the server. -/
def metadataFailure (p : Platform) (data : Text) : PsrpError :=
  .pipelineFailed (match terminalStateReason p data with
    | some reason => s!"GetCommandMetadata pipeline failed: {String.ofList reason}"
    | none => "GetCommandMetadata pipeline failed")

/-- One turn of the loop of `getCommandMetadata`. -/
def metadataTurn (d : Driver τ) (out : List CommandMetadata) :
    Prog (RunspacePool τ) (Turn (List CommandMetadata) (List CommandMetadata)) := do
  let p := d.platform.toPlatform
  let msg ← nextMessage d
  match msg.messageType with
  | .pipelineOutput => do
    let values ← Async.lift (parseClixml p msg.data)
    return .more (out ++ values.filterMap CommandMetadata.fromPsObject)
  | .pipelineState =>
    match stateFromXml p msg.data with
    | none => return .more out
    | some state =>
      if state.isTerminal then
        if state = .failed then Async.throw (metadataFailure p msg.data)
        else return .done out
      else return .more out
  | _ => return .more out

/-- Ask for the metadata of the commands that match, under a fresh id. -/
def getCommandMetadata (d : Driver τ) (pid : Uuid) (patterns : List Text)
    (commandType : CommandType) : Prog (RunspacePool τ) (List CommandMetadata) := do
  let body := buildGetCommandMetadataBody d.platform.toPlatform patterns commandType
  sendPipelineMessage d .getCommandMetadata pid body
  Async.loop (metadataTurn d) []

end RunspacePool

end Psrp

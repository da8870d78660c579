import Psrp.Core.Error
import Psrp.Core.Value

/-!
# The PowerShell Host

The calls a server makes back to the client, and their dispatch to a host.

A host answers in a monad of its own: it may do input and output, and every
interactive call of it may fail. A host that overrides nothing drops every
write and rejects every interactive call. `dispatchHostCall` reads the
arguments of a call and picks the method; a write has no answer.

## Main definitions

* `PsHost`: A host.
* `HostMethodId`: The methods a server calls.
* `dispatchHostCall`: The dispatch.
-/

namespace Psrp

/-- The kind of a rejected interactive call. -/
inductive HostCallKind where
  | readInput
  | readSecureInput
  | promptForChoice
  | prompt
  | getCredential
  | other (id : Int64)
  deriving DecidableEq, Repr

/-- The `Debug` text of a kind. -/
def HostCallKind.debug : HostCallKind → String
  | readInput => "ReadInput"
  | readSecureInput => "ReadSecureInput"
  | promptForChoice => "PromptForChoice"
  | prompt => "Prompt"
  | getCredential => "GetCredential"
  | other id => s!"Other({id})"

/-- The error of a rejected call, unless a host overrides it. -/
def defaultRejection (kind : HostCallKind) : PsrpError :=
  .protocol s!"this host does not support {kind.debug} — implement PsHost to handle it"

/-- A host. -/
structure PsHost (m : Type → Type) [Monad m] where
  rejectionFor : HostCallKind → PsrpError := defaultRejection
  writeLine : Text → m Unit := fun _ => pure ()
  writeErrorLine : Text → m Unit := fun _ => pure ()
  writeWarningLine : Text → m Unit := fun _ => pure ()
  writeVerboseLine : Text → m Unit := fun _ => pure ()
  writeDebugLine : Text → m Unit := fun _ => pure ()
  writeProgress : Int64 → PsValue → m Unit := fun _ _ => pure ()
  readLine : m (Except PsrpError Text) := pure (.error (rejectionFor .readInput))
  readLineAsSecureString : m (Except PsrpError Text) :=
    pure (.error (rejectionFor .readSecureInput))
  promptForChoice : Text → Text → List (Text × Text) → Int32 → m (Except PsrpError Int32) :=
    fun _ _ _ _ => pure (.error (rejectionFor .promptForChoice))
  prompt : Text → Text → List Text → m (Except PsrpError (List PsValue)) :=
    fun _ _ _ => pure (.error (rejectionFor .prompt))
  getCredential : Text → Text → Text → m (Except PsrpError (Text × Text)) :=
    fun _ _ _ => pure (.error (rejectionFor .getCredential))

/-- The methods a server calls. -/
inductive HostMethodId where
  | writeLine1
  | writeLine2
  | writeLine3
  | writeErrorLine
  | writeWarningLine
  | writeVerboseLine
  | writeDebugLine
  | writeProgress
  | readLine
  | readLineAsSecureString
  | promptForChoice
  | prompt
  | promptForCredential
  | other (id : Int64)
  deriving DecidableEq, Repr

namespace HostMethodId

/-- Decode a method id. -/
def fromI64 (v : Int64) : HostMethodId :=
  match v.toInt with
  | 11 => writeLine1
  | 12 => writeLine2
  | 13 => writeLine3
  | 14 => writeErrorLine
  | 15 => writeDebugLine
  | 16 => writeProgress
  | 17 => writeVerboseLine
  | 18 => writeWarningLine
  | 51 => readLine
  | 52 => readLineAsSecureString
  | 53 => prompt
  | 54 => promptForCredential
  | 56 => promptForChoice
  | _ => other v

/-- Encode back to the wire value. -/
def toI64 : HostMethodId → Int64
  | writeLine1 => 11
  | writeLine2 => 12
  | writeLine3 => 13
  | writeErrorLine => 14
  | writeDebugLine => 15
  | writeProgress => 16
  | writeVerboseLine => 17
  | writeWarningLine => 18
  | readLine => 51
  | readLineAsSecureString => 52
  | prompt => 53
  | promptForCredential => 54
  | promptForChoice => 56
  | other v => v

/-- What kind of call a method is. -/
def kind : HostMethodId → HostCallKind
  | readLine => .readInput
  | readLineAsSecureString => .readSecureInput
  | promptForChoice => .promptForChoice
  | prompt => .prompt
  | promptForCredential => .getCredential
  | other v => .other v
  | method => .other method.toI64

/-- Whether a method only writes, and is not answered. -/
def isVoid : HostMethodId → Bool
  | writeLine1 | writeLine2 | writeLine3 | writeErrorLine | writeWarningLine | writeVerboseLine
  | writeDebugLine | writeProgress => true
  | _ => false

end HostMethodId

/-- A text argument; a missing one is empty. -/
def textArgument (mp : List PsValue) (i : Nat) : Text := (mp[i]?.bind PsValue.asStr).getD []

/-- A text property; a missing one is empty. -/
def textProperty (p : IndexMap Text PsValue) (name : String) : Text :=
  ((IndexMap.get name.toList p).bind PsValue.asStr).getD []

/-- The choices among the arguments of `PromptForChoice`. -/
def choiceArguments (mp : List PsValue) : List (Text × Text) :=
  match (mp[2]? : Option PsValue) with
  | some (.list list) => list.filterMap fun v =>
      v.properties.map fun p => (textProperty p "Label", textProperty p "HelpMessage")
  | _ => []

/-- The fields among the arguments of `Prompt`. -/
def fieldArguments (mp : List PsValue) : List Text :=
  match (mp[2]? : Option PsValue) with
  | some (.list list) => list.filterMap PsValue.asStr
  | _ => []

/-- Dispatch a call to a host: the answer of an interactive method, nothing
    for a method that writes. -/
def dispatchHostCall {m : Type → Type} [Monad m] (host : PsHost m) (mi : HostMethodId)
    (mp : List PsValue) : m (Except PsrpError (Option PsValue)) := do
  if mi.isVoid then
    let text := List.intercalate [' '] (mp.filterMap PsValue.asStr)
    match mi with
    | .writeLine1 | .writeLine2 | .writeLine3 => host.writeLine text
    | .writeErrorLine => host.writeErrorLine text
    | .writeWarningLine => host.writeWarningLine text
    | .writeVerboseLine => host.writeVerboseLine text
    | .writeDebugLine => host.writeDebugLine text
    | .writeProgress =>
      host.writeProgress ((mp[0]?.bind PsValue.asI64).getD 0) (mp[1]?.getD .null)
    | _ => pure ()
    return .ok none
  match mi with
  | .readLine =>
    let answer ← host.readLine
    return answer.map fun s => some (.string s)
  | .readLineAsSecureString =>
    let answer ← host.readLineAsSecureString
    return answer.map fun s => some (.secureString s)
  | .promptForChoice =>
    let answer ← host.promptForChoice (textArgument mp 0) (textArgument mp 1)
      (choiceArguments mp) ((mp[3]?.bind PsValue.asI32).getD 0)
    return answer.map fun choice => some (.i32 choice)
  | .prompt =>
    let answer ← host.prompt (textArgument mp 0) (textArgument mp 1) (fieldArguments mp)
    return answer.map fun out => some (.list out)
  | .promptForCredential =>
    let answer ← host.getCredential (textArgument mp 0) (textArgument mp 1) (textArgument mp 2)
    return answer.map fun (u, p) =>
      some (.object ((PsObject.new.with "UserName".toList (.string u)).with
        "Password".toList (.secureString p)))
  | _ => return .error (host.rejectionFor mi.kind)

end Psrp

import Psrp.Core.Encode
import Psrp.Core.RunspaceState

/-!
# The Document of a Pipeline

The body of a `CreatePipeline` message, as the builder writes it.

The document is not the encoding of one value: the enumerations of the merge
fields share their type names, and so do the lists of commands and of
arguments. The first of each kind writes the names (`TN`) and the others
point to them (`TNRef`).

## Main definitions

* `PipelineArgSpec`, `PipelineCommandSpec`: A command and its arguments.
* `buildCreatePipelineXml`: The document.
-/

namespace Psrp

/-- One argument of a command. -/
inductive PipelineArgSpec where
  | named (name : Text) (value : PsValue)
  | positional (value : PsValue)
  | switch (name : Text)

/-- One command of a pipeline. -/
structure PipelineCommandSpec where
  name : Text
  isScript : Bool
  mergeErrorsToOutput : Bool
  args : List PipelineArgSpec

/-- Write an enumeration with the block of its type names. The id of the block
    is returned for the others of its kind. -/
def writeEnumFirstInGroup (name : Option Text) (enumType toString : String) (value : Int)
    (o : Out) : Nat × Out :=
  let (tnId, o) := (openObj name o).alloc
  let o := ((o.pushStr "<TN RefId=\"").push (intText tnId)).pushStr "\">"
  let o := ((o.pushStr "<T>").push (escape enumType.toList)).pushStr
    "</T><T>System.Enum</T><T>System.ValueType</T><T>System.Object</T>"
  let o := (((o.pushStr "</TN>").pushStr "<ToString>").push (escape toString.toList)).pushStr
    "</ToString>"
  (tnId, (((o.pushStr "<I32>").push (intText value)).pushStr "</I32>").pushStr "</Obj>")

/-- Write an enumeration whose type names were written before. -/
def writeEnumWithTnref (name : Option Text) (tnRefId : Nat) (toString : String) (value : Int)
    (o : Out) : Out :=
  let o := (((openObj name o).pushStr "<TNRef RefId=\"").push (intText tnRefId)).pushStr "\"/>"
  let o := ((o.pushStr "<ToString>").push (escape toString.toList)).pushStr "</ToString>"
  (((o.pushStr "<I32>").push (intText value)).pushStr "</I32>").pushStr "</Obj>"

/-- The type of the merge enumerations. -/
def pipelineResultTypes : String := "System.Management.Automation.Runspaces.PipelineResultTypes"

/-- Write the three merge fields that come before the arguments. The first
    command writes the type names; the id of their block is returned. -/
def writeMergeFields (merge : Bool) (firstPrtTn : Option Nat) (o : Out) : Nat × Out :=
  let (myName, myVal) : String × Int := if merge then ("Error", 2) else ("None", 0)
  let (toName, toVal) : String × Int := if merge then ("Output", 1) else ("None", 0)
  let (tnRef, o) := match firstPrtTn with
    | some tnRef =>
      (tnRef, writeEnumWithTnref (some "MergeMyResult".toList) tnRef myName myVal o)
    | none =>
      writeEnumFirstInGroup (some "MergeMyResult".toList) pipelineResultTypes myName myVal o
  let o := writeEnumWithTnref (some "MergeToResult".toList) tnRef toName toVal o
  (tnRef, writeEnumWithTnref (some "MergePreviousResults".toList) tnRef "None" 0 o)

/-- Write one argument: its name, if it has one, and its value. -/
def writeArg (p : Platform) (o : Out) (arg : PipelineArgSpec) : Out :=
  let o := (openObj none o).pushStr "<MS>"
  let (name, value) : PsValue × PsValue := match arg with
    | .named name value => (.string name, value)
    | .positional value => (.null, value)
    | .switch name => (.string name, .bool true)
  let o := writeValueWith p name (some "N".toList) o
  (writeValueWith p value (some "V".toList) o).pushStr "</MS></Obj>"

/-- Write one command. The id of the type names of its merge fields goes to
    the next one. -/
def writeCommand (p : Platform) (cmdsTn : Nat) (written : Option Nat × Out)
    (c : PipelineCommandSpec) : Option Nat × Out :=
  let (firstPrtTn, o) := written
  let o := (openObj none o).pushStr "<MS>"
  let o := writeValueWith p (.string c.name) (some "Cmd".toList) o
  let o := writeValueWith p (.bool c.isScript) (some "IsScript".toList) o
  let o := writeValueWith p .null (some "UseLocalScope".toList) o
  let (tnRef, o) := writeMergeFields c.mergeErrorsToOutput firstPrtTn o
  let (id, o) := o.alloc
  let o := ((((o.pushStr "<Obj RefId=\"").push (intText id)).pushStr
    "\" N=\"Args\"><TNRef RefId=\"").push (intText cmdsTn)).pushStr "\"/><LST>"
  let o := (c.args.foldl (writeArg p) o).pushStr "</LST></Obj>"
  let o := ["MergeError", "MergeWarning", "MergeVerbose", "MergeDebug", "MergeInformation"].foldl
    (fun o name => writeEnumWithTnref (some name.toList) tnRef "None" 0 o) o
  (some tnRef, o.pushStr "</MS></Obj>")

/-- The type of the list of commands. -/
def commandListType : String :=
  "System.Collections.Generic.List`1[[System.Management.Automation.PSObject, "
    ++ "System.Management.Automation, Version=1.0.0.0, Culture=neutral, "
    ++ "PublicKeyToken=31bf3856ad364e35]]"

/-- The body of a `CreatePipeline` message. -/
def buildCreatePipelineXml (p : Platform) (noInput addToHistory addInvocationInfo : Bool)
    (commands : List PipelineCommandSpec) : Text :=
  let (id, o) := (Out.mk [] 0).alloc
  let o := ((o.pushStr "<Obj RefId=\"").push (intText id)).pushStr "\"><MS>"
  let o := writeValueWith p (.bool noInput) (some "NoInput".toList) o
  let o := writeValueWith p
    (psEnum "System.Management.Automation.Runspaces.ApartmentState" "UNKNOWN" 2)
    (some "ApartmentState".toList) o
  let (soName, soVal) : String × Int32 :=
    if addInvocationInfo then ("AddInvocationInfo", 15) else ("None", 0)
  let o := writeValueWith p
    (psEnum "System.Management.Automation.Runspaces.RemoteStreamOptions" soName soVal)
    (some "RemoteStreamOptions".toList) o
  let o := writeValueWith p (.bool addToHistory) (some "AddToHistory".toList) o
  let o := writeValueWith p psHostInfoNull (some "HostInfo".toList) o
  let o := (openObj (some "PowerShell".toList) o).pushStr "<MS>"
  let o := writeValueWith p (.bool false) (some "IsNested".toList) o
  let o := writeValueWith p .null (some "ExtraCmds".toList) o
  let (cmdsTn, o) := o.alloc
  let (id, o) := o.alloc
  let o := ((((o.pushStr "<Obj RefId=\"").push (intText id)).pushStr
    "\" N=\"Cmds\"><TN RefId=\"").push (intText cmdsTn)).pushStr "\"><T>"
  let o := (o.pushStr commandListType).pushStr "</T><T>System.Object</T></TN><LST>"
  let (_, o) := commands.foldl (writeCommand p cmdsTn) (none, o)
  let o := o.pushStr "</LST></Obj>"
  let o := writeValueWith p .null (some "History".toList) o
  let o := writeValueWith p (.bool false) (some "RedirectShellErrorOutputPipe".toList) o
  let o := o.pushStr "</MS></Obj>"
  let o := writeValueWith p (.bool false) (some "IsNested".toList) o
  (o.pushStr "</MS></Obj>").text

end Psrp

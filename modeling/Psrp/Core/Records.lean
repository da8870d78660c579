import Psrp.Core.Value

/-!
# Typed Records

Typed accessors for the record types that pipelines emit.

A record is read off the properties of an object; a property that is missing
or of another type reads as none. An exception holds the exception inside it,
so reading one descends into its properties.

## Main definitions

* `ErrorRecord`, `ExceptionInfo`, `ErrorCategoryInfo`, `InvocationInfo`: An
  error and its parts.
* `InformationRecord`: An information record.
* `ErrorRecord.fromPsObject`, `InformationRecord.fromPsObject`: Reading them.
-/

namespace Psrp

/-- The object of a value that is one. -/
def asObject : PsValue → Option PsObject
  | .object obj => some obj
  | _ => none

def propertyStr (obj : PsObject) (name : String) : Option Text :=
  (obj.get name.toList).bind PsValue.asStr

def propertyI32 (obj : PsObject) (name : String) : Option Int32 :=
  (obj.get name.toList).bind PsValue.asI32

/-- A decoded `System.Exception` or descendant. -/
structure ExceptionInfo where
  message : Option Text
  source : Option Text
  stackTrace : Option Text
  innerException : Option ExceptionInfo
  typeName : Option Text

/-- A decoded `ErrorCategoryInfo`. -/
structure ErrorCategoryInfo where
  category : Option Int32
  activity : Option Text
  reason : Option Text
  targetName : Option Text
  targetType : Option Text

/-- A decoded `InvocationInfo`. -/
structure InvocationInfo where
  commandName : Option Text
  scriptName : Option Text
  lineNumber : Option Int32
  offsetInLine : Option Int32
  positionMessage : Option Text

/-- An `ErrorRecord`. -/
structure ErrorRecord where
  exception : Option ExceptionInfo
  fullyQualifiedErrorId : Option Text
  category : Option ErrorCategoryInfo
  scriptStackTrace : Option Text
  targetObject : Option PsValue
  invocationInfo : Option InvocationInfo

/-- An `InformationRecord`. -/
structure InformationRecord where
  messageData : Option PsValue
  source : Option Text
  timeGenerated : Option Text
  tags : List Text
  user : Option Text
  computer : Option Text
  processId : Option Int32
  nativeThreadId : Option Int32
  managedThreadId : Option Int32

/-- An exception with nothing but a message. -/
def ExceptionInfo.ofMessage (message : Text) : ExceptionInfo :=
  { message := some message, source := none, stackTrace := none, innerException := none,
    typeName := none }

/-- What a property holds is smaller than the object. -/
theorem sizeOf_get_lt (obj : PsObject) (name : Text) (v : PsValue) (h : obj.get name = some v) :
    sizeOf v < sizeOf (PsValue.object obj) := by
  have hmem := List.sizeOf_lt_of_mem (IndexMap.mem_of_get name v obj.properties h)
  rcases obj with ⟨props, typeNames, toString⟩
  simp only [Prod.mk.sizeOf_spec, PsValue.object.sizeOf_spec, PsObjectOf.mk.sizeOf_spec] at hmem ⊢
  omega

def ExceptionInfo.fromPsObject (value : PsValue) : Option ExceptionInfo :=
  match value with
  | .object obj => some
      { message := propertyStr obj "Message"
        source := propertyStr obj "Source"
        stackTrace := propertyStr obj "StackTrace"
        innerException := match _hinner : PsObject.get obj "InnerException".toList with
          | some inner => ExceptionInfo.fromPsObject inner
          | none => none
        typeName := obj.typeNames.head? }
  | _ => none
termination_by sizeOf value
decreasing_by exact sizeOf_get_lt obj _ inner _hinner

def ErrorCategoryInfo.fromPsObject (value : PsValue) : Option ErrorCategoryInfo := do
  let obj ← asObject value
  return { category := propertyI32 obj "Category"
           activity := propertyStr obj "Activity"
           reason := propertyStr obj "Reason"
           targetName := propertyStr obj "TargetName"
           targetType := propertyStr obj "TargetType" }

def InvocationInfo.fromPsObject (value : PsValue) : Option InvocationInfo := do
  let obj ← asObject value
  return { commandName := propertyStr obj "MyCommand"
           scriptName := propertyStr obj "ScriptName"
           lineNumber := propertyI32 obj "ScriptLineNumber"
           offsetInLine := propertyI32 obj "OffsetInLine"
           positionMessage := propertyStr obj "PositionMessage" }

def ErrorRecord.fromPsObject (value : PsValue) : Option ErrorRecord := do
  let obj ← asObject value
  return { exception := ((obj.get "Exception".toList).bind ExceptionInfo.fromPsObject).or
             ((propertyStr obj "Exception").map ExceptionInfo.ofMessage)
           fullyQualifiedErrorId := propertyStr obj "FullyQualifiedErrorId"
           category := (obj.get "CategoryInfo".toList).bind ErrorCategoryInfo.fromPsObject
           scriptStackTrace := (propertyStr obj "ErrorDetails_ScriptStackTrace").or
             (propertyStr obj "ScriptStackTrace")
           targetObject := obj.get "TargetObject".toList
           invocationInfo := (obj.get "InvocationInfo".toList).bind InvocationInfo.fromPsObject }

def InformationRecord.fromPsObject (value : PsValue) : Option InformationRecord :=
  match value with
  | .string s => some
      { messageData := some (.string s), source := none, timeGenerated := none, tags := [],
        user := none, computer := none, processId := none, nativeThreadId := none,
        managedThreadId := none }
  | value => do
    let obj ← asObject value
    let tags := match obj.get "Tags".toList with
      | some (.list list) => list.filterMap PsValue.asStr
      | _ => []
    return { messageData := obj.get "MessageData".toList
             source := propertyStr obj "Source"
             timeGenerated := propertyStr obj "TimeGenerated"
             tags
             user := propertyStr obj "User"
             computer := propertyStr obj "Computer"
             processId := propertyI32 obj "ProcessId"
             nativeThreadId := propertyI32 obj "NativeThreadId"
             managedThreadId := propertyI32 obj "ManagedThreadId" }

end Psrp

import Psrp.Core.Base64
import Psrp.Core.Escape
import Psrp.Core.Platform

/-!
# The CLIXML Encoder

A value to its document, as the encoder writes it.

The encoder appends to a string and takes reference ids off an allocator.
`Out` is both, and every function here maps the output so far to the output
after it has written its part.

A leaf is one element whose body is a text (`simpleElement`). A container is
an `Obj`: a list or a dictionary inside one of its own, unless it is the
`_value` of an object, where it stands bare.

## Main definitions

* `Out`: What has been written, and the next reference id.
* `simpleElement`: Tag and body of a leaf.
* `writeValueWith`: Write a value.
* `toClixml`: The document of a value.
-/

namespace Psrp

/-- What has been written, and the next reference id. -/
structure Out where
  text : Text
  next : Nat

/-- Append a text. -/
def Out.push (o : Out) (s : Text) : Out := { o with text := o.text ++ s }

/-- Append a literal. -/
def Out.pushStr (o : Out) (s : String) : Out := o.push s.toList

/-- The reference id after the given one: the allocator stays at the last. -/
def nextRefId (id : Nat) : Nat := min (id + 1) (2 ^ 32 - 1)

/-- Take the next reference id. -/
def Out.alloc (o : Out) : Nat × Out := (o.next, { o with next := nextRefId o.next })

/-- The text of a floating-point number. -/
def formatFloat (p : Platform) : F64 → Text
  | .nan => "NaN".toList
  | .infinity false => "Infinity".toList
  | .infinity true => "-Infinity".toList
  | .finite s e m => p.formatFinite s e m

/-- The code unit of a character: one outside the basic plane has none. -/
def charUnit (c : Char) : Nat := if c.toNat < 2 ^ 16 then c.toNat else 0xFFFD

/-- Tag, body and whether the element is self-closed, of a value that is
    written as one element without children. -/
def simpleElement (p : Platform) : PsValue → Option (String × Text × Bool)
  | .null => some ("Nil", [], true)
  | .bool b => some ("B", (if b then "true" else "false").toList, false)
  | .i8 v => some ("SB", intText v.toInt, false)
  | .u8 v => some ("By", intText v.toNat, false)
  | .i16 v => some ("I16", intText v.toInt, false)
  | .u16 v => some ("U16", intText v.toNat, false)
  | .i32 v => some ("I32", intText v.toInt, false)
  | .u32 v => some ("U32", intText v.toNat, false)
  | .i64 v => some ("I64", intText v.toInt, false)
  | .u64 v => some ("U64", intText v.toNat, false)
  | .f32 v => some ("Sg", formatFloat p (p.widen v), false)
  | .double v => some ("Db", formatFloat p v, false)
  | .decimal s => some ("D", escape s, false)
  | .char c => some ("C", intText (charUnit c), false)
  | .string s => some ("S", escape s, false)
  | .bytes b => some ("BA", base64Encode b, false)
  | .dateTime s => some ("DT", escape s, false)
  | .duration s => some ("TS", escape s, false)
  | .guid g => some ("G", g.hyphenated, false)
  | .version s => some ("Version", escape s, false)
  | .uri s => some ("URI", escape s, false)
  | .xml s => some ("XD", escape s, false)
  | .scriptBlock s => some ("SBK", escape s, false)
  | .secureString s => some ("SS", escape s, false)
  | .list _ | .dict _ | .object _ => none

/-- Write an element without children. -/
def writeSimple (tag : String) (body : Text) (name : Option Text) (selfClose : Bool) (o : Out) :
    Out :=
  if selfClose then
    match name with
    | some n => ((((o.pushStr "<").pushStr tag).pushStr " N=\"").push (escapeAttr n)).pushStr "\"/>"
    | none => ((o.pushStr "<").pushStr tag).pushStr "/>"
  else
    let opened := match name with
      | some n =>
        ((((o.pushStr "<").pushStr tag).pushStr " N=\"").push (escapeAttr n)).pushStr "\">"
      | none => ((o.pushStr "<").pushStr tag).pushStr ">"
    (((opened.push body).pushStr "</").pushStr tag).pushStr ">"

/-- Open an `Obj` with a fresh id. -/
def openObj (name : Option Text) (o : Out) : Out :=
  let (id, o) := o.alloc
  match name with
  | some n =>
    ((((o.pushStr "<Obj N=\"").push (escapeAttr n)).pushStr "\" RefId=\"").push (intText id)).pushStr
      "\">"
  | none => ((o.pushStr "<Obj RefId=\"").push (intText id)).pushStr "\">"

/-- Write the type names of an object, if it has any. -/
def writeTypeNames (typeNames : List Text) (o : Out) : Out :=
  if typeNames = [] then o
  else
    let (id, o) := o.alloc
    let o := ((o.pushStr "<TN RefId=\"").push (intText id)).pushStr "\">"
    let o := typeNames.foldl
      (fun o tn => ((o.pushStr "<T>").push (escape tn)).pushStr "</T>") o
    o.pushStr "</TN>"

/-- Write the `ToString` text of an object, if it has one. -/
def writeToString (toString : Option Text) (o : Out) : Out :=
  match toString with
  | some ts => ((o.pushStr "<ToString>").push (escape ts)).pushStr "</ToString>"
  | none => o

/-- Write the bare body of a list, given how its items are written. -/
def writeListBody (writeItems : Out → Out) (o : Out) : Out :=
  (writeItems (o.pushStr "<LST>")).pushStr "</LST>"

/-- Write the bare body of a dictionary, given how its entries are written. -/
def writeDictBody (writeEntries : Out → Out) (o : Out) : Out :=
  (writeEntries (o.pushStr "<DCT>")).pushStr "</DCT>"

mutual

/-- Write a value. -/
def writeValueWith (p : Platform) : PsValue → Option Text → Out → Out
  | .list items, name, o => (writeListBody (writeItems p items) (openObj name o)).pushStr "</Obj>"
  | .dict entries, name, o => (writeDictBody (writeEntries p entries) (openObj name o)).pushStr "</Obj>"
  | .object ⟨props, typeNames, toString⟩, name, o =>
    let o := writeToString toString (writeTypeNames typeNames (openObj name o))
    -- A container under `_value` is written bare: inside a second `Obj` the
    -- decoder would skip it.
    let o := writeValueProp p props o
    let o :=
      if props.all fun (k, _) => k = valueKey then o
      else (writeOtherProps p props (o.pushStr "<MS>")).pushStr "</MS>"
    o.pushStr "</Obj>"
  | v, name, o => match simpleElement p v with
    | some (tag, body, selfClose) => writeSimple tag body name selfClose o
    | none => o

def writeItems (p : Platform) : List PsValue → Out → Out
  | [], o => o
  | v :: vs, o => writeItems p vs (writeValueWith p v none o)

def writeEntries (p : Platform) : List (PsValue × PsValue) → Out → Out
  | [], o => o
  | (k, v) :: es, o =>
    let o := writeValueWith p k (some "Key".toList) (o.pushStr "<En>")
    writeEntries p es ((writeValueWith p v (some "Value".toList) o).pushStr "</En>")

/-- Write the `_value` property, if there is one: a container without an `Obj`
    of its own. -/
def writeValueProp (p : Platform) : List (Text × PsValue) → Out → Out
  | [], o => o
  | (k, v) :: ps, o =>
    if k = valueKey then
      match v with
      | .list items => writeListBody (writeItems p items) o
      | .dict entries => writeDictBody (writeEntries p entries) o
      | v => writeValueWith p v none o
    else writeValueProp p ps o

/-- Write the other properties. -/
def writeOtherProps (p : Platform) : List (Text × PsValue) → Out → Out
  | [], o => o
  | (k, v) :: ps, o =>
    writeOtherProps p ps (if k = valueKey then o else writeValueWith p v (some k) o)

end

/-- The document of a value. -/
def toClixml (p : Platform) (v : PsValue) : Text := (writeValueWith p v none ⟨[], 0⟩).text

end Psrp

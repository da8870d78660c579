import Psrp.Core.Base64
import Psrp.Core.Error
import Psrp.Core.Escape
import Psrp.Core.Platform
import Psrp.Lib.Pull

/-!
# The CLIXML Decoder

A document to its values, as the decoder reads it.

The decoder is a recursive descent over the events of a pull reader. It is
tolerant: unknown elements are skipped, a dangling reference is null. Two
limits protect it from a hostile document. Nesting is counted by
`parseElement`, through which every recursion passes. What references copy is
charged to a budget that grows with the document.

Every function that can recurse takes the element parser as an argument, and
`parseElement` ties the knot by recursion on the nesting still allowed. The
text an error quotes is escaped by `clixmlError`.

## Main definitions

* `DecoderState`: The objects and type names seen so far, the budget and the
  nesting.
* `measure`: Weight and height of a value.
* `resolveRef`: Resolve a reference.
* `leafParser`: The elements that hold a text.
* `parseElement`: The depth-guarded element parser.
* `parseObjBody`, `parseMemberSet`, `parseList`, `parseDict`,
  `parseDictEntry`, `parseTypeNames`, `readText`, `skipToEnd`: The loops.
* `parseClixml`: Decode a document.
-/

namespace Psrp

open Xml (Attr Event)

/-- Maximum nesting accepted from the wire. -/
def MAX_NESTING_DEPTH : Nat := 64

/-- Saturating addition of 64-bit numbers. -/
def satAdd (a b : Nat) : Nat := min (a + b) (2 ^ 64 - 1)

/-- Saturating addition of 32-bit numbers. -/
def satAdd32 (a b : Nat) : Nat := min (a + b) (2 ^ 32 - 1)

def REF_BUDGET_FLOOR : Nat := 2 ^ 20

def REF_BUDGET_CEILING : Nat := 8 * 2 ^ 20

def REF_BUDGET_PER_BYTE : Nat := 8

/-- How much the references of a document of the given length may copy. -/
def refBudget (xmlLen : Nat) : Nat :=
  min (satAdd REF_BUDGET_FLOOR (min (xmlLen * REF_BUDGET_PER_BYTE) (2 ^ 64 - 1)))
    REF_BUDGET_CEILING

structure DecoderState where
  /-- Objects that a `Ref` points to, by `RefId`. -/
  refs : IndexMap Text PsValue
  referenced : List Text
  /-- Weight copied by references so far, bounded by `budget`. -/
  expanded : Nat
  budget : Nat
  typeNames : IndexMap Text (List Text)
  /-- Current nesting level, maintained by `parseElement`. -/
  depth : Nat

/-- Charge a weight to the budget, or fail when it is spent. -/
def DecoderState.charge (s : DecoderState) (weight : Nat) : Except PsrpError DecoderState :=
  let expanded := satAdd s.expanded weight
  if s.budget < expanded then
    .error (clixmlError s!"CLIXML <Ref> expansion exceeds {s.budget}")
  else .ok { s with expanded := expanded }

/-- The value of the first attribute with a key. -/
def attrValue (key : String) : List Attr → Except PsrpError (Option Text)
  | [] => .ok none
  | a :: rest =>
    if a.key = key then
      match a.value with
      | .ok v => .ok (some v)
      | .error m => .error (clixmlError m)
    else attrValue key rest

/-- Read the property-name attribute, escapes decoded. -/
def nameAttr (attrs : List Attr) : Except PsrpError (Option Text) :=
  (attrValue "N" attrs).map (Option.map decodePwshEscapes)

/-- Read the `RefId` attribute of an `Obj` or a `TN`. -/
def refIdAttr (attrs : List Attr) : Except PsrpError (Option Text) := attrValue "RefId" attrs

/-- Read the `RefId` attribute of a `Ref` or a `TNRef`. -/
def refRefIdAttr (attrs : List Attr) : Except PsrpError (Option Text) := refIdAttr attrs

/-- The ids that some `Ref` of the document points to. -/
def referencedIds (es : List Event) : List Text :=
  es.filterMap fun
    | .start name attrs | .empty name attrs =>
      if name = "Ref" then
        match refRefIdAttr attrs with
        | .ok id => id
        | .error _ => none
      else none
    | _ => none

/-- The weight of type names. -/
def measureTypeNames (weight : Nat) (typeNames : List Text) : Nat :=
  typeNames.foldl (fun w t => satAdd (satAdd w (Text.utf8Len t)) 1) weight

mutual

/-- Rough memory weight and container nesting of a value. -/
def measure : PsValue → Nat × Nat
  | .string s | .decimal s | .dateTime s | .duration s | .version s | .uri s | .xml s
  | .scriptBlock s | .secureString s => (satAdd (Text.utf8Len s) 1, 0)
  | .bytes b => (satAdd b.length 1, 0)
  | .list items => measureItems items (1, 1)
  | .dict entries => measureEntries entries (1, 1)
  | .object ⟨props, typeNames, toString⟩ =>
    let weight := satAdd ((toString.map Text.utf8Len).getD 0) 1
    measureProps props (measureTypeNames weight typeNames, 1)
  | _ => (1, 0)

def measureItems : List PsValue → Nat × Nat → Nat × Nat
  | [], acc => acc
  | i :: is, (w, h) =>
    let (iw, ih) := measure i
    measureItems is (satAdd w iw, max h (satAdd32 ih 1))

def measureEntries : List (PsValue × PsValue) → Nat × Nat → Nat × Nat
  | [], acc => acc
  | (k, v) :: es, (w, h) =>
    let (kw, kh) := measure k
    let (vw, vh) := measure v
    measureEntries es (satAdd (satAdd w kw) vw, max h (satAdd32 (max kh vh) 1))

def measureProps : List (Text × PsValue) → Nat × Nat → Nat × Nat
  | [], acc => acc
  | (name, v) :: ps, (w, h) =>
    let (vw, vh) := measure v
    measureProps ps (satAdd (satAdd (satAdd w (Text.utf8Len name)) 1) vw, max h (satAdd32 vh 1))

end

/-- Resolve a reference against the objects decoded so far. The copy is
    bounded by the budget, and by the nesting it would reach when it is
    planted `level` containers below the current element. -/
def resolveRef (attrs : List Attr) (level : Nat) (s : DecoderState) :
    Except PsrpError (PsValue × DecoderState) := do
  match (← refRefIdAttr attrs).bind fun r => IndexMap.get r s.refs with
  | none => return (.null, s)
  | some target =>
    let (weight, height) := measure target
    if MAX_NESTING_DEPTH < satAdd32 (satAdd32 s.depth level) height then
      throw (clixmlError s!"CLIXML <Ref> would nest deeper than {MAX_NESTING_DEPTH} levels")
    else return (target, ← s.charge weight)

/-- The value of a self-closed element, if it has one. -/
def parseEmpty (tag : String) (attrs : List Attr) (s : DecoderState) :
    Except PsrpError (Option PsValue × DecoderState) :=
  if tag = "Nil" then .ok (some .null, s)
  else if tag = "Ref" then (resolveRef attrs 1 s).map fun (v, s) => (some v, s)
  else if tag = "S" then .ok (some (.string []), s)
  else if tag = "SBK" ∨ tag = "SCT" then .ok (some (.scriptBlock []), s)
  else .ok (none, s)

/-- Read a trimmed text as an integer of a range. -/
def parseIntText (lo hi : Int) (closing : String) (text : Text) : Except PsrpError Int :=
  match parseInt lo hi (Text.trim text) with
  | .ok n => .ok n
  | .error err => .error (clixmlError s!"{closing}: {err.message}")

/-- Read a trimmed text as an integer value. -/
def parseIntLeaf (lo hi : Int) (closing : String) (wrap : Int → PsValue) (text : Text) :
    Except PsrpError PsValue := (parseIntText lo hi closing text).map wrap

/-- Read a floating-point text. -/
def parseFloat (p : Platform) (s : Text) : Except String F64 :=
  if s = "NaN".toList then .ok .nan
  else if s = "Infinity".toList then .ok (.infinity false)
  else if s = "-Infinity".toList then .ok (.infinity true)
  else p.parseF64 s

/-- Read a trimmed text as a boolean. -/
def parseBool (text : Text) : Except PsrpError Bool :=
  let lower := (Text.trim text).map Char.toLower
  if lower = "true".toList ∨ lower = "1".toList then .ok true
  else if lower = "false".toList ∨ lower = "0".toList then .ok false
  else .error (clixmlError s!"B: bad bool '{String.ofList lower}'")

/-- The character of a number: a number that is no scalar value is replaced. -/
def charOfCode (n : Nat) : Char := if n.isValidChar then Char.ofNat n else replacementCharacter

/-- What is made of the text of an element, by tag. -/
def leafParser (p : Platform) (tag : String) : Option (Text → Except PsrpError PsValue) :=
  match tag with
  | "S" => some fun t => .ok (.string t)
  | "I32" => some (parseIntLeaf (-2 ^ 31) (2 ^ 31 - 1) tag fun n => .i32 (Int32.ofInt n))
  | "I64" => some (parseIntLeaf (-2 ^ 63) (2 ^ 63 - 1) tag fun n => .i64 (Int64.ofInt n))
  | "B" => some fun t => (parseBool t).map .bool
  | "Db" => some fun t => match parseFloat p (Text.trim t) with
    | .ok v => .ok (.double v)
    | .error err => .error (clixmlError s!"Db: {err}")
  | "Sg" => some fun t => match parseFloat p (Text.trim t) with
    | .ok v => .ok (.f32 (p.narrow v))
    | .error err => .error (clixmlError s!"Sg: {err}")
  | "SB" => some (parseIntLeaf (-2 ^ 7) (2 ^ 7 - 1) tag fun n => .i8 (Int8.ofInt n))
  | "By" => some (parseIntLeaf 0 (2 ^ 8 - 1) tag fun n => .u8 (UInt8.ofNat n.toNat))
  | "I16" => some (parseIntLeaf (-2 ^ 15) (2 ^ 15 - 1) tag fun n => .i16 (Int16.ofInt n))
  | "U16" => some (parseIntLeaf 0 (2 ^ 16 - 1) tag fun n => .u16 (UInt16.ofNat n.toNat))
  | "U32" => some (parseIntLeaf 0 (2 ^ 32 - 1) tag fun n => .u32 (UInt32.ofNat n.toNat))
  | "U64" => some (parseIntLeaf 0 (2 ^ 64 - 1) tag fun n => .u64 (UInt64.ofNat n.toNat))
  | "D" => some fun t => .ok (.decimal (Text.trim t))
  | "C" => some (parseIntLeaf 0 (2 ^ 32 - 1) tag fun n => .char (charOfCode n.toNat))
  | "BA" => some fun t => match base64Decode (Text.trim t) with
    | some b => .ok (.bytes b)
    | none => .error (clixmlError "BA: invalid base64")
  | "DT" => some fun t => .ok (.dateTime t)
  | "TS" => some fun t => .ok (.duration t)
  | "G" => some fun t => match p.parseUuid (Text.trim t) with
    | .ok g => .ok (.guid g)
    | .error err => .error (clixmlError s!"G: {err}")
  | "Version" => some fun t => .ok (.version t)
  | "URI" => some fun t => .ok (.uri t)
  | "XD" => some fun t => .ok (.xml t)
  | "SBK" | "SCT" => some fun t => .ok (.scriptBlock t)
  | "SS" => some fun t => .ok (.secureString t)
  | _ => none

/-- Keep an object for the references to it. The copy is charged too. -/
def keepReferenced (refId : Option Text) (value : PsValue) (s : DecoderState) :
    Except PsrpError DecoderState :=
  match refId.filter fun r => r ∈ s.referenced with
  | none => .ok s
  | some rid =>
    (s.charge (measure value).1).map fun s => { s with refs := IndexMap.insert rid value s.refs }

/-- The type names a `TNRef` shares, if it names any. -/
def sharedTypeNames (rid : Option Text) (s : DecoderState) (obj : PsObject) : PsObject :=
  match rid.bind fun r => IndexMap.get r s.typeNames with
  | some names => { obj with typeNames := names }
  | none => obj

/-- Remember the type names of a `TN` that has an id. -/
def rememberTypeNames (rid : Option Text) (names : List Text) (s : DecoderState) : DecoderState :=
  match rid with
  | some rid => { s with typeNames := IndexMap.insert rid names s.typeNames }
  | none => s

/-- The synthetic property that exposes what stood bare in an `Obj`. -/
def exposeValue (embedded : Option PsValue) (obj : PsObject) : PsObject :=
  match embedded with
  | some v => if obj.properties = [] then obj.with valueKey v else obj
  | none => obj

/-- Store a member of a dictionary entry. -/
def setEntry (name : Text) (v : PsValue) (e : PsValue × PsValue) : PsValue × PsValue :=
  if name = "Key".toList then (v, e.2)
  else if name = "Value".toList then (e.1, v)
  else e

/-- A program of the decoder. -/
abbrev Decode := Pull Event DecoderState PsrpError

open Pull (Turn loop lift update)

/-- The character data an event adds to a text. -/
def eventText : Event → Except PsrpError Text
  | .text t => .ok t
  | .generalRef name char =>
    match char with
    | .error m => .error (clixmlError m)
    | .ok (some c) => .ok [c]
    | .ok none =>
      match Xml.resolvePredefinedEntity name with
      | some s => .ok s
      | none => .error (clixmlError s!"unknown entity reference &{String.ofList name};")
  | .cdata t => .ok t
  | _ => .ok []

/-- One turn of `readText`. -/
def textTurn (closing : String) (out : Text) : Event → Decode (Turn Text Text)
  | .stop tag => return if tag = closing then .done out else .more out
  | e => return .more (out ++ (← lift (eventText e)))

/-- The loop of `readText`. -/
def textLoop (closing : String) : Text → Decode Text :=
  loop clixmlError (textTurn closing) fun _ => throw (clixmlError s!"EOF reading <{closing}>")

/-- Read the text of an element, up to its end tag. -/
def readText (closing : String) : Decode Text := do
  return decodePwshEscapes (← textLoop closing [])

/-- One turn of `skipToEnd`. -/
def skipTurn (depth : Nat) : Event → Decode (Turn Nat Unit)
  | .start _ _ => return .more (depth + 1)
  | .stop _ => return if depth - 1 = 0 then .done () else .more (depth - 1)
  | _ => return .more depth

/-- The loop of `skipToEnd`. -/
def skipLoop : Nat → Decode Unit := loop clixmlError skipTurn fun _ => return ()

/-- Drain everything up to the end tag that closes the current element. -/
def skipToEnd : Decode Unit := skipLoop 1

/-- One turn of `parseTypeNames`. -/
def typeNamesTurn (out : List Text) : Event → Decode (Turn (List Text) (List Text))
  | .start tag _ => do
    if tag = "T" then return .more (out ++ [← readText "T"]) else return .more out
  | .stop tag => return if tag = "TN" then .done out else .more out
  | _ => return .more out

/-- The loop of `parseTypeNames`. -/
def typeNamesLoop : List Text → Decode (List Text) :=
  loop clixmlError typeNamesTurn fun _ => throw (clixmlError "EOF inside <TN>")

/-- Read the type names of a `TN`. -/
def parseTypeNames : Decode (List Text) := typeNamesLoop []

section Containers

variable (parseElement : String → List Attr → Decode (Option PsValue))

/-- One turn of `parseDictEntry`. -/
def entryTurn (entry : PsValue × PsValue) :
    Event → Decode (Turn (PsValue × PsValue) (PsValue × PsValue))
  | .start tag attrs => do
    let name := (← lift (nameAttr attrs)).getD []
    match ← parseElement tag attrs with
    | some v => return .more (setEntry name v entry)
    | none => return .more entry
  | .empty tag attrs => do
    match ← update (parseEmpty tag attrs) with
    | some v => return .more (setEntry ((← lift (nameAttr attrs)).getD []) v entry)
    | none => return .more entry
  | .stop tag => return if tag = "En" then .done entry else .more entry
  | _ => return .more entry

/-- The loop of `parseDictEntry`. -/
def entryLoop : PsValue × PsValue → Decode (PsValue × PsValue) :=
  loop clixmlError (entryTurn parseElement) fun _ => throw (clixmlError "EOF inside <En>")

/-- Read the key and the value of a dictionary entry. -/
def parseDictEntry : Decode (PsValue × PsValue) := entryLoop parseElement (.null, .null)

/-- One turn of `parseDict`. -/
def dictTurn (entries : List (PsValue × PsValue)) :
    Event → Decode (Turn (List (PsValue × PsValue)) (List (PsValue × PsValue)))
  | .start tag _ => do
    if tag = "En" then return .more (entries ++ [← parseDictEntry parseElement])
    else return .more entries
  | .stop tag => return if tag = "DCT" then .done entries else .more entries
  | _ => return .more entries

/-- The loop of `parseDict`. -/
def dictLoop : List (PsValue × PsValue) → Decode (List (PsValue × PsValue)) :=
  loop clixmlError (dictTurn parseElement) fun _ => throw (clixmlError "EOF inside <DCT>")

/-- Read the entries of a dictionary. -/
def parseDict : Decode (List (PsValue × PsValue)) := dictLoop parseElement []

/-- One turn of `parseList`. -/
def listTurn (closingTag : String) (items : List PsValue) :
    Event → Decode (Turn (List PsValue) (List PsValue))
  | .start tag attrs => do
    match ← parseElement tag attrs with
    | some v => return .more (items ++ [v])
    | none => return .more items
  | .empty tag attrs => do
    match ← update (parseEmpty tag attrs) with
    | some v => return .more (items ++ [v])
    | none => return .more items
  | .stop tag => return if tag = closingTag then .done items else .more items
  | _ => return .more items

/-- The loop of `parseList`. -/
def listLoop (closingTag : String) : List PsValue → Decode (List PsValue) :=
  loop clixmlError (listTurn parseElement closingTag)
    fun _ => throw (clixmlError "EOF inside list")

/-- Read the items of a list. -/
def parseList (closingTag : String) : Decode (List PsValue) :=
  listLoop parseElement closingTag []

/-- One turn of `parseMemberSet`. -/
def membersTurn (closingTag : String) (obj : PsObject) :
    Event → Decode (Turn PsObject PsObject)
  | .start tag attrs => do
    let name := (← lift (nameAttr attrs)).getD []
    match ← parseElement tag attrs with
    | some v => return .more (obj.with name v)
    | none => return .more obj
  | .empty tag attrs => do
    if tag = "Nil" then
      match ← lift (nameAttr attrs) with
      | some name => return .more (obj.with name .null)
      | none => return .more obj
    else
      match ← update (parseEmpty tag attrs) with
      | some v => return .more (obj.with ((← lift (nameAttr attrs)).getD []) v)
      | none => return .more obj
  | .stop tag => return if tag = closingTag then .done obj else .more obj
  | _ => return .more obj

/-- Read the members of an object into it. -/
def parseMemberSet (obj : PsObject) (closingTag : String) : Decode PsObject :=
  loop clixmlError (membersTurn parseElement closingTag)
    (fun _ => throw (clixmlError "EOF inside member set")) obj

/-- One turn of `parseObjBody`. -/
def objTurn (body : PsObject × Option PsValue) :
    Event → Decode (Turn (PsObject × Option PsValue) (PsObject × Option PsValue))
  | .start tag attrs => do
    let (obj, embedded) := body
    if tag = "MS" ∨ tag = "Props" then
      return .more (← parseMemberSet parseElement obj tag, embedded)
    else if tag = "TN" then
      let rid ← lift (refIdAttr attrs)
      let names ← parseTypeNames
      update fun s => .ok ((), rememberTypeNames rid names s)
      return .more ({ obj with typeNames := names }, embedded)
    else if tag = "TNRef" then
      let rid ← lift (refRefIdAttr attrs)
      skipToEnd
      return .more (← update fun s => .ok (sharedTypeNames rid s obj, s), embedded)
    else if tag = "LST" ∨ tag = "IE" ∨ tag = "QUE" ∨ tag = "STK" then
      return .more (obj, some (.list (← parseList parseElement tag)))
    else if tag = "DCT" then
      return .more (obj, some (.dict (← parseDict parseElement)))
    else
      -- A nameless scalar child: the first one counts.
      return .more (obj, embedded.or (← parseElement tag attrs))
  | .empty tag attrs => do
    if tag = "TNRef" then
      let rid ← lift (refRefIdAttr attrs)
      return .more (← update fun s => .ok (sharedTypeNames rid s body.1, s), body.2)
    else return .more body
  | .stop tag => return if tag = "Obj" then .done body else .more body
  | _ => return .more body

/-- The loop of `parseObjBody`: the object so far, and what stood bare in it. -/
def objLoop : PsObject × Option PsValue → Decode (PsObject × Option PsValue) :=
  loop clixmlError (objTurn parseElement)
    fun _ => throw (clixmlError "unexpected EOF inside <Obj>")

/-- Read an object. -/
def parseObjBody : Decode PsObject := do
  let (obj, embedded) ← objLoop parseElement (PsObject.new, none)
  return exposeValue embedded obj

/-- Read an element whose start tag was read. -/
def parseElementInner (p : Platform) (tag : String) (attrs : List Attr) :
    Decode (Option PsValue) := do
  match leafParser p tag with
  | some parse => return some (← lift (parse (← readText tag)))
  | none =>
    if tag = "Obj" then
      let refId ← lift (refIdAttr attrs)
      let value := .object (← parseObjBody parseElement)
      update fun s => (keepReferenced refId value s).map fun s => ((), s)
      return some value
    else if tag = "Ref" then
      -- The self-closed form is `parseEmpty`'s.
      let value ← update (resolveRef attrs 0)
      skipToEnd
      return some value
    else
      skipToEnd
      return none

end Containers

/-- The error of an element nested too deep. -/
def nestedTooDeep : PsrpError :=
  clixmlError s!"CLIXML nested deeper than {MAX_NESTING_DEPTH} levels"

/-- One level less, however a program ends. -/
def leaving {α : Type} (m : Decode α) : Decode α := fun c =>
  match m c with
  | .ok a c => .ok a { c with state := { c.state with depth := c.state.depth - 1 } }
  | .error e c => .error e { c with state := { c.state with depth := c.state.depth - 1 } }

/-- Depth-guarded entry point for element parsing. The recursion is on the
    nesting still allowed: it is spent exactly when the guard refuses. -/
def parseElement (p : Platform) : Nat → String → List Attr → Decode (Option PsValue)
  | 0, _, _ => throw nestedTooDeep
  | allowed + 1, tag, attrs => do
    update fun s =>
      if MAX_NESTING_DEPTH ≤ s.depth then .error nestedTooDeep
      else .ok ((), { s with depth := s.depth + 1 })
    leaving (parseElementInner (parseElement p allowed) p tag attrs)

/-- One turn of `parseClixml`. -/
def topTurn (p : Platform) (out : List PsValue) :
    Event → Decode (Turn (List PsValue) (List PsValue))
  | .start tag attrs =>
    return .more (out ++ (← parseElement p MAX_NESTING_DEPTH tag attrs).toList)
  | .empty tag attrs => return .more (out ++ (← update (parseEmpty tag attrs)).toList)
  | _ => return .more out

/-- The loop of `parseClixml`. -/
def topLoop (p : Platform) : List PsValue → Decode (List PsValue) :=
  loop clixmlError (topTurn p) fun out => return out

/-- A document without byte-order marks and white space before it. -/
def cleanDocument (xml : Text) : Text :=
  Text.trimStart (xml.dropWhile (· = Char.ofNat 0xFEFF))

/-- The state a document is decoded from. -/
def initialState (es : List Event) (xmlLen : Nat) : DecoderState :=
  { refs := [], referenced := referencedIds es, expanded := 0, budget := refBudget xmlLen,
    typeNames := [], depth := 0 }

/-- Decode a document. -/
def parseClixml (p : Platform) (xml : Text) : Except PsrpError (List PsValue) :=
  let cleaned := cleanDocument xml
  let stream := p.read cleaned
  let cursor : Cursor Event DecoderState :=
    { events := stream.events, fault := stream.fault,
      state := initialState stream.events (Text.utf8Len cleaned) }
  (Pull.run (topLoop p []) cursor).map Prod.fst

end Psrp

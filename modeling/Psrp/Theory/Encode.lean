import Psrp.Core.Encode
import Psrp.Theory.Base64
import Psrp.Theory.Escape

/-!
# The Encoder Writes a Tree

What the encoder appends to its output is the serialisation of an XML tree.

`node` is that tree, by recursion on the value, with the reference ids it
takes threaded through. The strings the encoder pushes one by one, and the
entity escapes among them, are what rendering the tree amounts to
(`writeValueWith_eq`). From here on the encoder is not looked at again: a
reader sees the events of the tree.

A tree the encoder writes is plain, so that a lawful reader reads it back
event by event. It holds no `Ref`, so that decoding it keeps no object.

## Main definitions

* `leafContent`: The character data of a leaf, entities resolved.
* `node`: The tree of a value.
* `Readable`: A tree that is read back, without references.

## Theorems

* `writeValueWith_eq`: The encoder renders the tree.
* `readable_node`: The tree is plain and holds no reference.
-/

namespace Psrp

open Xml (Node renderList eventsList)

/-- The character data of a leaf, with its entities resolved. -/
def leafContent (p : Platform) (v : PsValue) : Text :=
  match v with
  | .decimal s | .string s | .dateTime s | .duration s | .version s | .uri s | .xml s
  | .scriptBlock s | .secureString s => pwshEscape false s
  | v => match simpleElement p v with
    | some (_, body, _) => body
    | none => []

/-- The attribute that names a value. -/
def nameAttrs (name : Option Text) : List (String × Text) :=
  match name with
  | some n => [("N", pwshEscape true n)]
  | none => []

/-- The element of a leaf. -/
def leafNode (p : Platform) (v : PsValue) (name : Option Text) : Node :=
  match simpleElement p v with
  | some (tag, _, true) => .empty tag (nameAttrs name)
  | some (tag, _, false) => .element tag (nameAttrs name) [.text (leafContent p v)]
  | none => .text []

def objNode (name : Option Text) (id : Nat) (children : List Node) : Node :=
  .element "Obj" (nameAttrs name ++ [("RefId", intText id)]) children

def typeNamesNodes (typeNames : List Text) (id : Nat) : List Node :=
  if typeNames = [] then []
  else [.element "TN" [("RefId", intText id)]
    (typeNames.map fun tn => .element "T" [] [.text (pwshEscape false tn)])]

def toStringNodes (toString : Option Text) : List Node :=
  match toString with
  | some ts => [.element "ToString" [] [.text (pwshEscape false ts)]]
  | none => []

/-- The members of an object, if it has any beside `_value`. -/
def membersNodes (props : List (Text × PsValue)) (members : List Node) : List Node :=
  if props.all fun (k, _) => k = valueKey then [] else [.element "MS" [] members]

/-- The next id after the type names of an object were written. -/
def typeNamesNext (typeNames : List Text) (id : Nat) : Nat :=
  if typeNames = [] then id else nextRefId id

mutual

/-- The tree of a value, and the next reference id after it. -/
def node (p : Platform) : PsValue → Option Text → Nat → Node × Nat
  | .list items, name, id =>
    (objNode name id [.element "LST" [] (itemNodes p items (nextRefId id)).1],
      (itemNodes p items (nextRefId id)).2)
  | .dict entries, name, id =>
    (objNode name id [.element "DCT" [] (entryNodes p entries (nextRefId id)).1],
      (entryNodes p entries (nextRefId id)).2)
  | .object ⟨props, typeNames, toString⟩, name, id =>
    let vs := valueNodes p props (typeNamesNext typeNames (nextRefId id))
    let ms := memberNodes p props vs.2
    (objNode name id (typeNamesNodes typeNames (nextRefId id) ++ toStringNodes toString ++ vs.1
      ++ membersNodes props ms.1), ms.2)
  | v, name, id => (leafNode p v name, id)

def itemNodes (p : Platform) : List PsValue → Nat → List Node × Nat
  | [], id => ([], id)
  | v :: vs, id =>
    let n := node p v none id
    let ns := itemNodes p vs n.2
    (n.1 :: ns.1, ns.2)

def entryNodes (p : Platform) : List (PsValue × PsValue) → Nat → List Node × Nat
  | [], id => ([], id)
  | (k, v) :: es, id =>
    let kn := node p k (some "Key".toList) id
    let vn := node p v (some "Value".toList) kn.2
    let ns := entryNodes p es vn.2
    (.element "En" [] [kn.1, vn.1] :: ns.1, ns.2)

/-- What stands bare in an object for its `_value` property. -/
def valueNodes (p : Platform) : List (Text × PsValue) → Nat → List Node × Nat
  | [], id => ([], id)
  | (k, v) :: ps, id =>
    if k = valueKey then
      match v with
      | .list items => ([.element "LST" [] (itemNodes p items id).1], (itemNodes p items id).2)
      | .dict entries =>
        ([.element "DCT" [] (entryNodes p entries id).1], (entryNodes p entries id).2)
      | v => ([(node p v none id).1], (node p v none id).2)
    else valueNodes p ps id

def memberNodes (p : Platform) : List (Text × PsValue) → Nat → List Node × Nat
  | [], id => ([], id)
  | (k, v) :: ps, id =>
    if k = valueKey then memberNodes p ps id
    else
      let n := node p v (some k) id
      let ns := memberNodes p ps n.2
      (n.1 :: ns.1, ns.2)

end

/-- What an output is after trees were written to it. -/
def Out.append (o : Out) (r : List Node × Nat) : Out :=
  { text := o.text ++ renderList r.1, next := r.2 }

/-- A text of tokens is its own escaped form. -/
theorem escapeText_of_isToken (t : Text) (h : ∀ c ∈ t, Text.isToken c = true) :
    Xml.escapeText t = t := by
  induction t with
  | nil => rfl
  | cons c t ih =>
      have hn := Text.isToken_toNat c (h c (List.mem_cons_self ..))
      have hne : ∀ d : Char, d.toNat < 43 ∨ d.toNat = 60 ∨ d.toNat = 62 → c ≠ d := by
        rintro d hd rfl
        omega
      have hc : Xml.escapeChar c = [c] := by
        simp only [Xml.escapeChar, Xml.entityOf, if_neg (hne '<' (by decide)),
          if_neg (hne '>' (by decide)), if_neg (hne '&' (by decide)),
          if_neg (hne '"' (by decide)), if_neg (hne '\'' (by decide))]
      rw [Xml.escapeText_cons, hc, ih fun d hd => h d (List.mem_cons_of_mem _ hd)]
      rfl

theorem intText_isToken (n : Int) : ∀ c ∈ intText n, Text.isToken c = true := by
  intro c hc
  rcases intText_chars n c hc with h | rfl
  · exact Text.isToken_of_isDigit c h
  · rfl

theorem hyphenated_isToken (g : Uuid) : ∀ c ∈ g.hyphenated, Text.isToken c = true := by
  intro c hc
  rcases Uuid.hyphenated_chars g c hc with h | rfl
  · rw [Text.isToken, h, Bool.true_or]
  · rfl

section Lawful

variable {p : Platform} (hp : p.Lawful)

include hp

theorem formatFloat_isToken (v : F64) : ∀ c ∈ formatFloat p v, Text.isToken c = true := by
  have hnan : ∀ c ∈ "NaN".toList, Text.isToken c = true := List.all_eq_true.mp rfl
  have hpos : ∀ c ∈ "Infinity".toList, Text.isToken c = true := List.all_eq_true.mp rfl
  have hneg : ∀ c ∈ "-Infinity".toList, Text.isToken c = true := List.all_eq_true.mp rfl
  cases v with
  | nan => exact hnan
  | infinity negative =>
      cases negative with
      | false => exact hpos
      | true => exact hneg
  | finite s e m =>
      intro c hc
      rcases hp.formatFinite_chars s e m c hc with h | rfl | rfl
      · exact Text.isToken_of_isDigit c h
      · rfl
      · rfl

/-- The body of a leaf is its content, escaped: a text goes through both
    layers, and nothing else needs either. -/
theorem simpleElement_body (v : PsValue) (tag : String) (body : Text)
    (h : simpleElement p v = some (tag, body, false)) :
    body = Xml.escapeText (leafContent p v) := by
  have htext : ∀ s, escape s = Xml.escapeText (pwshEscape false s) := escapeInner_eq false
  -- The code writes some bodies without escaping them: they hold nothing to escape.
  cases v with
  | null => cases h
  | bool b =>
      cases h
      cases b <;> rfl
  | i8 v | u8 v | i16 v | u16 v | i32 v | u32 v | i64 v | u64 v | char v =>
      cases h
      exact (escapeText_of_isToken _ (intText_isToken _)).symm
  | f32 v | double v =>
      cases h
      exact (escapeText_of_isToken _ (formatFloat_isToken hp _)).symm
  | bytes b =>
      cases h
      exact (escapeText_of_isToken _ fun c hc => (base64Encode_chars b c hc).2).symm
  | guid g =>
      cases h
      exact (escapeText_of_isToken _ (hyphenated_isToken g)).symm
  | decimal s | string s | dateTime s | duration s | version s | uri s | xml s | scriptBlock s
  | secureString s =>
      cases h
      exact htext s
  | list items | dict entries | object o => cases h

omit hp

theorem simpleElement_some (v : PsValue) (h : v.isContainer = false) :
    ∃ r, simpleElement p v = some r := by
  cases v <;> first
    | exact ⟨_, rfl⟩
    | cases h

/-- Only null is written self-closed. -/
theorem simpleElement_closed (v : PsValue) (tag : String) (body : Text)
    (h : simpleElement p v = some (tag, body, true)) : v = .null ∧ tag = "Nil" := by
  cases v <;> cases h
  exact ⟨rfl, rfl⟩

theorem writeValueWith_leaf (v : PsValue) (h : v.isContainer = false) (name : Option Text)
    (o : Out) :
    writeValueWith p v name o = match simpleElement p v with
      | some (tag, body, selfClose) => writeSimple tag body name selfClose o
      | none => o := by
  cases v <;> first
    | rfl
    | cases h

theorem node_leaf (v : PsValue) (h : v.isContainer = false) (name : Option Text) (id : Nat) :
    node p v name id = (leafNode p v name, id) := by
  cases v <;> first
    | rfl
    | cases h

@[simp] theorem push_text (o : Out) (s : Text) : (o.push s).text = o.text ++ s := rfl

@[simp] theorem push_next (o : Out) (s : Text) : (o.push s).next = o.next := rfl

@[simp] theorem pushStr_text (o : Out) (s : String) : (o.pushStr s).text = o.text ++ s.toList := rfl

@[simp] theorem pushStr_next (o : Out) (s : String) : (o.pushStr s).next = o.next := rfl

theorem Out.ext {o o' : Out} (h : o.text = o'.text) (h' : o.next = o'.next) : o = o' := by
  cases o
  cases o'
  cases h
  cases h'
  rfl

include hp

/-- An element without children is the rendered element of the leaf. -/
theorem writeSimple_eq (v : PsValue) (name : Option Text) (o : Out) (tag : String) (body : Text)
    (selfClose : Bool) (h : simpleElement p v = some (tag, body, selfClose)) :
    writeSimple tag body name selfClose o = o.append ([leafNode p v name], o.next) := by
  have hattr : ∀ s, escapeAttr s = Xml.escapeText (pwshEscape true s) := escapeInner_eq true
  -- Self-closed or not, and with a name or without one.
  cases selfClose with
  | true =>
      simp only [leafNode, h]
      cases name with
      | none =>
          refine Out.ext ?_ rfl
          simp [writeSimple, Out.append, nameAttrs, Node.render, renderList, Xml.renderAttrs]
      | some n =>
          refine Out.ext ?_ rfl
          simp [writeSimple, Out.append, nameAttrs, Node.render, renderList, Xml.renderAttrs,
            hattr]
  | false =>
      have hbody := simpleElement_body hp v tag body h
      simp only [leafNode, h]
      cases name with
      | none =>
          refine Out.ext ?_ rfl
          simp [writeSimple, Out.append, nameAttrs, Node.render, renderList, Xml.renderAttrs,
            hbody]
      | some n =>
          refine Out.ext ?_ rfl
          simp [writeSimple, Out.append, nameAttrs, Node.render, renderList, Xml.renderAttrs,
            hbody, hattr]

omit hp in
/-- The characters the encoder pushes around the children of an `Obj`. -/
theorem openObj_append (name : Option Text) (o : Out) (children : List Node) (next : Nat) :
    ((openObj name o).append (children, next)).pushStr "</Obj>"
      = o.append ([objNode name o.next children], next) := by
  have hattr : ∀ s, escapeAttr s = Xml.escapeText (pwshEscape true s) := escapeInner_eq true
  have hid : ∀ n : Int, Xml.escapeText (intText n) = intText n :=
    fun n => escapeText_of_isToken _ (intText_isToken n)
  refine Out.ext ?_ rfl
  cases name with
  | none =>
      simp [openObj, Out.alloc, Out.append, objNode, nameAttrs, Node.render, renderList,
        Xml.renderAttrs, hid]
  | some n =>
      simp [openObj, Out.alloc, Out.append, objNode, nameAttrs, Node.render, renderList,
        Xml.renderAttrs, hid, hattr]

omit hp in
theorem openObj_next (name : Option Text) (o : Out) : (openObj name o).next = nextRefId o.next := by
  cases name <;> rfl

omit hp in
theorem append_append (o : Out) (ns ms : List Node) (n m : Nat) :
    (o.append (ns, n)).append (ms, m) = o.append (ns ++ ms, m) := by
  refine Out.ext ?_ rfl
  simp only [Out.append, Xml.renderList_append, List.append_assoc]

omit hp in
/-- An element around children: the start tag, the children, the end tag. -/
theorem element_append (o : Out) (tag : String) (children : List Node) (next : Nat) :
    ((o.pushStr ("<" ++ tag ++ ">")).append (children, next)).pushStr ("</" ++ tag ++ ">")
      = o.append ([.element tag [] children], next) := by
  refine Out.ext ?_ rfl
  simp [Out.append, Node.render, renderList, Xml.renderAttrs]

omit hp in
theorem writeTypeNames_eq (typeNames : List Text) (o : Out) :
    writeTypeNames typeNames o
      = o.append (typeNamesNodes typeNames o.next, typeNamesNext typeNames o.next) := by
  have htext : ∀ s, escape s = Xml.escapeText (pwshEscape false s) := escapeInner_eq false
  have hid : ∀ n : Int, Xml.escapeText (intText n) = intText n :=
    fun n => escapeText_of_isToken _ (intText_isToken n)
  -- One element after the other, for the names in order.
  have hfold : ∀ (names : List Text) (o : Out),
      names.foldl (fun o tn => ((o.pushStr "<T>").push (escape tn)).pushStr "</T>") o
        = o.append (names.map fun tn => .element "T" [] [.text (pwshEscape false tn)], o.next) := by
    intro names
    induction names with
    | nil =>
        intro o
        refine Out.ext ?_ rfl
        simp only [List.foldl_nil, Out.append, List.map_nil, renderList, List.append_nil]
    | cons tn names ih =>
        intro o
        rw [List.foldl_cons, ih]
        refine Out.ext ?_ rfl
        simp [Out.append, Node.render, renderList, Xml.renderAttrs, htext]
  rw [writeTypeNames, typeNamesNodes, typeNamesNext]
  split_ifs
  · refine Out.ext ?_ rfl
    simp only [Out.append, renderList, List.append_nil]
  · refine Out.ext ?_ ?_
    · simp [Out.alloc, hfold, Out.append, Node.render, renderList, Xml.renderAttrs, hid]
    · simp only [Out.alloc, hfold, Out.append, pushStr_next, push_next]

omit hp in
theorem writeToString_eq (toString : Option Text) (o : Out) :
    writeToString toString o = o.append (toStringNodes toString, o.next) := by
  have htext : ∀ s, escape s = Xml.escapeText (pwshEscape false s) := escapeInner_eq false
  refine Out.ext ?_ ?_
  · cases toString with
    | none => simp only [writeToString, toStringNodes, Out.append, renderList, List.append_nil]
    | some ts =>
        simp [writeToString, toStringNodes, Out.append, Node.render, renderList, Xml.renderAttrs,
          htext]
  · cases toString <;> rfl

/-- The writer appends the rendered tree. -/
def Writes (p : Platform) (v : PsValue) : Prop :=
  ∀ name o, writeValueWith p v name o
    = o.append ([(node p v name o.next).1], (node p v name o.next).2)

omit hp in
theorem writeItems_eq (items : List PsValue) (h : ∀ v ∈ items, Writes p v) (o : Out) :
    writeItems p items o = o.append (itemNodes p items o.next) := by
  induction items generalizing o with
  | nil =>
      refine Out.ext ?_ rfl
      simp only [writeItems, itemNodes, Out.append, renderList, List.append_nil]
  | cons v vs ih =>
      rw [writeItems, h v (List.mem_cons_self ..), ih fun w hw => h w (List.mem_cons_of_mem _ hw)]
      simp only [itemNodes]
      exact append_append o _ _ _ _

omit hp in
theorem writeEntries_eq (entries : List (PsValue × PsValue))
    (h : ∀ e ∈ entries, Writes p e.1 ∧ Writes p e.2) (o : Out) :
    writeEntries p entries o = o.append (entryNodes p entries o.next) := by
  induction entries generalizing o with
  | nil =>
      refine Out.ext ?_ rfl
      simp only [writeEntries, entryNodes, Out.append, renderList, List.append_nil]
  | cons e es ih =>
      rcases e with ⟨k, v⟩
      have he := h (k, v) (List.mem_cons_self ..)
      rw [writeEntries, he.1, he.2, append_append,
        show "</En>" = "</" ++ "En" ++ ">" from rfl, show "<En>" = "<" ++ "En" ++ ">" from rfl,
        element_append, ih fun w hw => h w (List.mem_cons_of_mem _ hw)]
      simp only [entryNodes]
      exact append_append o _ _ _ _

omit hp in
theorem writeListBody_eq (items : List PsValue) (h : ∀ v ∈ items, Writes p v) (o : Out) :
    writeListBody (writeItems p items) o
      = o.append ([.element "LST" [] (itemNodes p items o.next).1], (itemNodes p items o.next).2) := by
  rw [writeListBody, writeItems_eq items h]
  exact element_append o "LST" _ _

omit hp in
theorem writeDictBody_eq (entries : List (PsValue × PsValue))
    (h : ∀ e ∈ entries, Writes p e.1 ∧ Writes p e.2) (o : Out) :
    writeDictBody (writeEntries p entries) o
      = o.append ([.element "DCT" [] (entryNodes p entries o.next).1],
          (entryNodes p entries o.next).2) := by
  rw [writeDictBody, writeEntries_eq entries h]
  exact element_append o "DCT" _ _

/-- Everything below a value is written as its tree. -/
def Writes.Below (p : Platform) : PsValue → Prop
  | .list items => ∀ v ∈ items, Writes p v
  | .dict entries => ∀ e ∈ entries, Writes p e.1 ∧ Writes p e.2
  | _ => True

omit hp in
theorem writeValueProp_eq (props : List (Text × PsValue))
    (h : ∀ q ∈ props, Writes p q.2 ∧ Writes.Below p q.2) (o : Out) :
    writeValueProp p props o = o.append (valueNodes p props o.next) := by
  induction props generalizing o with
  | nil =>
      refine Out.ext ?_ rfl
      simp only [writeValueProp, valueNodes, Out.append, renderList, List.append_nil]
  | cons q ps ih =>
      rcases q with ⟨k, v⟩
      have hq := h (k, v) (List.mem_cons_self ..)
      -- A bare value is written into the body, a container as its items.
      by_cases hk : k = valueKey
      · cases v with
        | list items =>
            simp only [writeValueProp, valueNodes, if_pos hk]
            exact writeListBody_eq items hq.2 o
        | dict entries =>
            simp only [writeValueProp, valueNodes, if_pos hk]
            exact writeDictBody_eq entries hq.2 o
        | _ =>
            simp only [writeValueProp, valueNodes, if_pos hk]
            exact hq.1 none o
      · have hrest := ih (fun w hw => h w (List.mem_cons_of_mem _ hw)) o
        cases v <;> simp only [writeValueProp, valueNodes, if_neg hk] <;> exact hrest

omit hp in
theorem writeOtherProps_eq (props : List (Text × PsValue)) (h : ∀ q ∈ props, Writes p q.2)
    (o : Out) : writeOtherProps p props o = o.append (memberNodes p props o.next) := by
  induction props generalizing o with
  | nil =>
      refine Out.ext ?_ rfl
      simp only [writeOtherProps, memberNodes, Out.append, renderList, List.append_nil]
  | cons q ps ih =>
      rcases q with ⟨k, v⟩
      have hq := h (k, v) (List.mem_cons_self ..)
      rw [writeOtherProps, memberNodes, ih fun w hw => h w (List.mem_cons_of_mem _ hw)]
      split_ifs
      · rfl
      · rw [hq (some k) o]
        exact append_append o _ _ _ _

omit hp in
/-- Without other members nothing is written, and no id is taken. -/
theorem memberNodes_eq_nil (props : List (Text × PsValue)) (id : Nat)
    (h : (props.all fun (k, _) => k = valueKey) = true) : memberNodes p props id = ([], id) := by
  induction props with
  | nil => rfl
  | cons q ps ih =>
      rcases q with ⟨k, v⟩
      rw [List.all_cons, Bool.and_eq_true, decide_eq_true_eq] at h
      rw [memberNodes, if_pos h.1, ih h.2]

omit hp in
theorem writeMembers_eq (props : List (Text × PsValue)) (h : ∀ q ∈ props, Writes p q.2)
    (o : Out) :
    (if props.all fun (k, _) => k = valueKey then o
      else (writeOtherProps p props (o.pushStr "<MS>")).pushStr "</MS>")
      = o.append (membersNodes props (memberNodes p props o.next).1,
          (memberNodes p props o.next).2) := by
  rw [membersNodes]
  split_ifs with hall
  · rw [memberNodes_eq_nil props o.next hall]
    refine Out.ext ?_ rfl
    simp only [Out.append, renderList, List.append_nil]
  · rw [writeOtherProps_eq props h]
    exact element_append o "MS" _ _

/-- The encoder writes the tree of a value. -/
theorem writeValueWith_eq (v : PsValue) : Writes p v := by
  suffices hboth : Writes p v ∧ Writes.Below p v from hboth.1
  induction v using PsValue.induction with
  | leaf v hv =>
      refine ⟨fun name o => ?_, by cases v <;> trivial⟩
      rcases simpleElement_some (p := p) v hv with ⟨⟨tag, body, selfClose⟩, hsimple⟩
      rw [writeValueWith_leaf v hv, node_leaf v hv, hsimple]
      exact writeSimple_eq hp v name o tag body selfClose hsimple
  | list items ih =>
      have hitems : ∀ v ∈ items, Writes p v := fun v hv => (ih v hv).1
      refine ⟨fun name o => ?_, hitems⟩
      rw [writeValueWith, writeListBody_eq items hitems, openObj_next, node]
      exact openObj_append name o _ _
  | dict entries ih =>
      have hentries : ∀ e ∈ entries, Writes p e.1 ∧ Writes p e.2 :=
        fun e he => ⟨(ih e he).1.1, (ih e he).2.1⟩
      refine ⟨fun name o => ?_, hentries⟩
      rw [writeValueWith, writeDictBody_eq entries hentries, openObj_next, node]
      exact openObj_append name o _ _
  | object o ih =>
      rcases o with ⟨props, typeNames, toString⟩
      refine ⟨fun name o => ?_, trivial⟩
      -- The parts of an object, from the last one written to the first.
      have hmembers := writeMembers_eq props fun q hq => (ih q hq).1
      simp only [writeValueWith, node]
      rw [hmembers, writeValueProp_eq props ih, writeToString_eq, writeTypeNames_eq,
        openObj_next, append_append]
      simp only [show ∀ (o : Out) (ns : List Node) (n : Nat), (o.append (ns, n)).next = n from
        fun _ _ _ => rfl]
      rw [append_append, append_append, ← List.append_assoc, ← List.append_assoc]
      exact openObj_append name o _ _

/-- The document of a value is its rendered tree. -/
theorem toClixml_eq (v : PsValue) : toClixml p v = (node p v none 0).1.render := by
  rw [toClixml, writeValueWith_eq hp v]
  simp only [Out.append, renderList, List.append_nil, List.nil_append]

end Lawful

/-- A tree that a lawful reader reads back, that is no text, and that holds no
    reference. -/
def Readable (n : Node) : Prop :=
  n.plain = true ∧ n.isText = false ∧ n.all (· ≠ "Ref") = true

theorem readable_element (tag : String) (attrs : List (String × Text)) (children : List Node)
    (htag : Xml.plainName tag = true) (hne : tag ≠ "Ref") (hattrs : Xml.plainAttrs attrs = true)
    (h : ∀ n ∈ children, Readable n) : Readable (.element tag attrs children) := by
  refine ⟨?_, rfl, ?_⟩
  · rw [Node.plain, htag, hattrs,
      Xml.plainList_of_forall children fun n hn => ⟨(h n hn).1, (h n hn).2.1⟩]
    rfl
  · rw [Node.all, decide_eq_true hne, Bool.true_and, Xml.allList_iff]
    exact fun n hn => (h n hn).2.2

theorem readable_text (tag : String) (attrs : List (String × Text)) (t : Text)
    (htag : Xml.plainName tag = true) (hne : tag ≠ "Ref") (hattrs : Xml.plainAttrs attrs = true)
    (ht : Xml.plainText t = true) : Readable (.element tag attrs [.text t]) := by
  refine ⟨?_, rfl, ?_⟩
  · rw [Node.plain, htag, hattrs, Xml.plainList, Node.plain, ht]
    rfl
  · rw [Node.all, decide_eq_true hne]
    rfl

theorem plainText_pwshEscape (s : Text) : Xml.plainText (pwshEscape false s) = true := by
  rw [Xml.plainText, List.all_eq_true]
  intro c hc
  simp only [Bool.or_eq_true, decide_eq_true_eq]
  rcases pwshEscape_chars false s c hc with h | ⟨_, h | h⟩
  · exact Or.inl (Or.inl h)
  · exact Or.inl (Or.inr h)
  · exact Or.inr h

theorem plainText_of_isToken (t : Text) (h : ∀ c ∈ t, Text.isToken c = true) :
    Xml.plainText t = true := by
  rw [Xml.plainText, List.all_eq_true]
  intro c hc
  simp only [Text.space_le_of_isToken c (h c hc), decide_true, Bool.true_or]

theorem plainAttrs_nameAttrs (name : Option Text) : Xml.plainAttrs (nameAttrs name) = true := by
  cases name with
  | none => rfl
  | some n =>
      have hchars : (pwshEscape true n).all (fun c => ' ' ≤ c) = true := by
        rw [List.all_eq_true]
        intro c hc
        rcases pwshEscape_chars true n c hc with h | ⟨h, _⟩
        · exact decide_eq_true h
        · cases h
      simp only [Xml.plainAttrs, nameAttrs, List.map_cons, List.map_nil, List.nodup_singleton,
        decide_true, List.all_cons, List.all_nil, hchars, Bool.and_true, Bool.true_and]
      decide

theorem plainAttrs_refId (id : Nat) : Xml.plainAttrs [("RefId", intText id)] = true := by
  have hchars : (intText id).all (fun c => ' ' ≤ c) = true := by
    rw [List.all_eq_true]
    exact fun c hc => decide_eq_true (Text.space_le_of_isToken c (intText_isToken id c hc))
  simp only [Xml.plainAttrs, List.map_cons, List.map_nil, List.nodup_singleton, decide_true,
    List.all_cons, List.all_nil, hchars, Bool.and_true, Bool.true_and]
  decide

theorem plainAttrs_obj (name : Option Text) (id : Nat) :
    Xml.plainAttrs (nameAttrs name ++ [("RefId", intText id)]) = true := by
  have hid := plainAttrs_refId id
  cases name with
  | none => exact hid
  | some n =>
      have hname := plainAttrs_nameAttrs (some n)
      simp only [Xml.plainAttrs, nameAttrs, Bool.and_eq_true, List.all_cons, List.all_nil,
        List.cons_append, List.nil_append] at hname hid ⊢
      refine ⟨?_, hname.2.1, hid.2⟩
      simp only [List.map_cons, List.map_nil]
      decide

section Lawful

variable {p : Platform} (hp : p.Lawful)

include hp

theorem plainText_leafContent (v : PsValue) (h : v.isContainer = false) :
    Xml.plainText (leafContent p v) = true := by
  cases v with
  | null => rfl
  | bool b => cases b <;> rfl
  | i8 v | u8 v | i16 v | u16 v | i32 v | u32 v | i64 v | u64 v | char v =>
      exact plainText_of_isToken _ (intText_isToken _)
  | f32 v | double v => exact plainText_of_isToken _ (formatFloat_isToken hp _)
  | bytes b => exact plainText_of_isToken _ fun c hc => (base64Encode_chars b c hc).2
  | guid g => exact plainText_of_isToken _ (hyphenated_isToken g)
  | decimal s | string s | dateTime s | duration s | version s | uri s | xml s | scriptBlock s
  | secureString s => exact plainText_pwshEscape s
  | list items | dict entries | object o => cases h

theorem readable_leaf (v : PsValue) (h : v.isContainer = false) (name : Option Text) :
    Readable (leafNode p v name) := by
  have hattrs := plainAttrs_nameAttrs name
  have htext := plainText_leafContent hp v h
  cases v with
  | null =>
      refine ⟨?_, rfl, rfl⟩
      show (Xml.plainName "Nil" && Xml.plainAttrs (nameAttrs name)) = true
      rw [hattrs]
      rfl
  | list items | dict entries | object o => cases h
  | _ => exact readable_text _ _ _ (by decide) (by decide) hattrs htext

omit hp

theorem readable_items (items : List PsValue) (h : ∀ v ∈ items, ∀ name id, Readable (node p v name id).1)
    (id : Nat) : ∀ n ∈ (itemNodes p items id).1, Readable n := by
  induction items generalizing id with
  | nil => exact fun n hn => absurd hn List.not_mem_nil
  | cons v vs ih =>
      intro n hn
      rcases List.mem_cons.mp hn with rfl | hn
      · exact h v (List.mem_cons_self ..) none id
      · exact ih (fun w hw => h w (List.mem_cons_of_mem _ hw)) _ n hn

theorem readable_entries (entries : List (PsValue × PsValue))
    (h : ∀ e ∈ entries, (∀ name id, Readable (node p e.1 name id).1)
      ∧ ∀ name id, Readable (node p e.2 name id).1)
    (id : Nat) : ∀ n ∈ (entryNodes p entries id).1, Readable n := by
  induction entries generalizing id with
  | nil => exact fun n hn => absurd hn List.not_mem_nil
  | cons e es ih =>
      rcases e with ⟨k, v⟩
      have he := h (k, v) (List.mem_cons_self ..)
      intro n hn
      rcases List.mem_cons.mp hn with rfl | hn
      · refine readable_element "En" [] _ (by decide) (by decide) rfl fun m hm => ?_
        rcases List.mem_cons.mp hm with rfl | hm
        · exact he.1 _ id
        · rw [List.mem_singleton.mp hm]
          exact he.2 _ _
      · exact ih (fun w hw => h w (List.mem_cons_of_mem _ hw)) _ n hn

theorem readable_members (props : List (Text × PsValue))
    (h : ∀ q ∈ props, ∀ name id, Readable (node p q.2 name id).1) (id : Nat) :
    ∀ n ∈ (memberNodes p props id).1, Readable n := by
  induction props generalizing id with
  | nil => exact fun n hn => absurd hn List.not_mem_nil
  | cons q ps ih =>
      rcases q with ⟨k, v⟩
      have hrest := ih fun w hw => h w (List.mem_cons_of_mem _ hw)
      intro n hn
      rw [memberNodes] at hn
      split_ifs at hn
      · exact hrest _ n hn
      · rcases List.mem_cons.mp hn with rfl | hn
        · exact h (k, v) (List.mem_cons_self ..) _ id
        · exact hrest _ n hn

/-- Everything below a container is readable. -/
def ReadableBelow (p : Platform) : PsValue → Prop
  | .list items => ∀ v ∈ items, ∀ name id, Readable (node p v name id).1
  | .dict entries => ∀ e ∈ entries, (∀ name id, Readable (node p e.1 name id).1)
      ∧ ∀ name id, Readable (node p e.2 name id).1
  | _ => True

theorem readable_value (props : List (Text × PsValue))
    (h : ∀ q ∈ props, (∀ name id, Readable (node p q.2 name id).1) ∧ ReadableBelow p q.2)
    (id : Nat) : ∀ n ∈ (valueNodes p props id).1, Readable n := by
  induction props generalizing id with
  | nil => exact fun n hn => absurd hn List.not_mem_nil
  | cons q ps ih =>
      rcases q with ⟨k, v⟩
      have hq := h (k, v) (List.mem_cons_self ..)
      have hrest := ih (fun w hw => h w (List.mem_cons_of_mem _ hw)) id
      -- Only the member that stands for the value itself is written bare.
      by_cases hk : k = valueKey
      · cases v with
        | list items =>
            simp only [valueNodes, if_pos hk, List.mem_singleton, forall_eq]
            exact readable_element "LST" [] _ (by decide) (by decide) rfl
              (readable_items items hq.2 id)
        | dict entries =>
            simp only [valueNodes, if_pos hk, List.mem_singleton, forall_eq]
            exact readable_element "DCT" [] _ (by decide) (by decide) rfl
              (readable_entries entries hq.2 id)
        | _ =>
            simp only [valueNodes, if_pos hk, List.mem_singleton, forall_eq]
            exact hq.1 none id
      · cases v <;> simp only [valueNodes, if_neg hk] <;> exact hrest

theorem readable_typeNames (typeNames : List Text) (id : Nat) :
    ∀ n ∈ typeNamesNodes typeNames id, Readable n := by
  intro n hn
  rw [typeNamesNodes] at hn
  split_ifs at hn
  · exact absurd hn List.not_mem_nil
  · rw [List.mem_singleton.mp hn]
    refine readable_element "TN" _ _ (by decide) (by decide) (plainAttrs_refId id) fun m hm => ?_
    rcases List.mem_map.mp hm with ⟨tn, _, rfl⟩
    exact readable_text "T" [] _ (by decide) (by decide) rfl (plainText_pwshEscape tn)

theorem readable_toString (toString : Option Text) : ∀ n ∈ toStringNodes toString, Readable n := by
  intro n hn
  cases toString with
  | none => exact absurd hn List.not_mem_nil
  | some ts =>
      rw [List.mem_singleton.mp hn]
      exact readable_text "ToString" [] _ (by decide) (by decide) rfl (plainText_pwshEscape ts)

include hp

/-- The tree of a value is readable. -/
theorem readable_node (v : PsValue) : ∀ name id, Readable (node p v name id).1 := by
  suffices hboth : (∀ name id, Readable (node p v name id).1) ∧ ReadableBelow p v from hboth.1
  induction v using PsValue.induction with
  | leaf v hv =>
      refine ⟨fun name id => ?_, by cases v <;> trivial⟩
      rw [node_leaf v hv]
      exact readable_leaf hp v hv name
  | list items ih =>
      have hitems : ∀ v ∈ items, ∀ name id, Readable (node p v name id).1 :=
        fun v hv => (ih v hv).1
      refine ⟨fun name id => ?_, hitems⟩
      refine readable_element "Obj" _ _ (by decide) (by decide) (plainAttrs_obj name id) fun n hn => ?_
      rw [List.mem_singleton.mp hn]
      exact readable_element "LST" [] _ (by decide) (by decide) rfl (readable_items items hitems _)
  | dict entries ih =>
      have hentries : ∀ e ∈ entries, (∀ name id, Readable (node p e.1 name id).1)
          ∧ ∀ name id, Readable (node p e.2 name id).1 :=
        fun e he => ⟨(ih e he).1.1, (ih e he).2.1⟩
      refine ⟨fun name id => ?_, hentries⟩
      refine readable_element "Obj" _ _ (by decide) (by decide) (plainAttrs_obj name id) fun n hn => ?_
      rw [List.mem_singleton.mp hn]
      exact readable_element "DCT" [] _ (by decide) (by decide) rfl
        (readable_entries entries hentries _)
  | object o ih =>
      rcases o with ⟨props, typeNames, toString⟩
      refine ⟨fun name id => ?_, trivial⟩
      refine readable_element "Obj" _ _ (by decide) (by decide) (plainAttrs_obj name id) fun n hn => ?_
      simp only [List.mem_append] at hn
      -- A node of one of the four parts of an object.
      rcases hn with ((hn | hn) | hn) | hn
      · exact readable_typeNames typeNames _ n hn
      · exact readable_toString toString n hn
      · exact readable_value props ih _ n hn
      · rw [membersNodes] at hn
        split_ifs at hn
        · exact absurd hn List.not_mem_nil
        · rw [List.mem_singleton.mp hn]
          exact readable_element "MS" [] _ (by decide) (by decide) rfl
            (readable_members props (fun q hq => (ih q hq).1) _)

/-- Nothing in the document of a value opens a `Ref`. -/
theorem opens_toClixml (v : PsValue) :
    ∀ e ∈ (node p v none 0).1.events, e.opens ≠ some "Ref" := by
  intro e he h
  have hall := Xml.events_all (· ≠ "Ref") _ (readable_node hp v none 0).2.2 e he "Ref" h
  exact of_decide_eq_true hall rfl

end Lawful

end Psrp

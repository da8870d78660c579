import Psrp.Lib.Text

/-!
# XML Trees and Pull Readers

What a program that reads XML through a pull parser sees of a document, and
what it may rely on.

A pull parser turns a document into a stream of events: start tags, end tags,
self-closed tags, character data, entity references. A program on top of it
never looks at the characters again, so the stream is all the model needs.
The reader itself stays a parameter; `Reader.Lawful` lists the two documented
facts used about it.

The first is that a reader applied to the serialisation of a well-formed tree
yields the events of that tree in document order. Attribute values are
entity-escaped on the way out and come back unescaped; character data comes
back as runs of plain text between the references it was escaped into, which
is why `textEvents` exists.

The second is that events are slices of the document. No event holds more
bytes of names, values and text than the bytes it was read from, so the sizes
of all events together stay below the length of the document. Every memory
bound of a decoder starts from there.

## Main definitions

* `Attr`, `Event`, `Stream`: What a pull reader delivers.
* `Event.size`: A lower bound on the bytes an event was read from.
* `normaliseLines`, `normaliseAttrValue`: What a conforming reader does to
  literal white space.
* `Node`: An XML tree.
* `Node.render`: Its serialisation.
* `Node.events`: Its events.
* `Node.levels`: How deep its elements nest.
* `Node.plain`: Whether a tree holds only what serialises faithfully.
* `Node.all`: Whether every element has a name of some kind.
* `Balanced`: Events whose tags match.
* `Reader.Lawful`: The assumptions on a reader.

## Theorems

* `textEventsFrom_append`: Character data in two parts.
* `renderList_append`, `eventsList_append`: Trees in a row.
* `plainList_of_forall`: Plain trees in a row.
* `events_all`: The names in the events of a tree.
* `events_balanced`: The tags in the events of a tree match.
-/

namespace Psrp

namespace Xml

/-- An attribute of a tag, with its value after normalisation or the reason
    why that failed. -/
structure Attr where
  key : String
  value : Except String Text

/-- One event of a pull reader. -/
inductive Event where
  | start (name : String) (attrs : List Attr)
  | empty (name : String) (attrs : List Attr)
  | stop (name : String)
  | text (t : Text)
  | cdata (t : Text)
  /-- An entity or character reference, with the character it resolves to
      when it is a character reference. -/
  | generalRef (name : Text) (char : Except String (Option Char))
  /-- A comment, a processing instruction, a declaration. -/
  | other

/-- The events of a document, and the fault that ends them, if any: without
    one the document ended. -/
structure Stream where
  events : List Event
  fault : Option String

/-- Put events before a stream. -/
def Stream.prepend (es : List Event) (s : Stream) : Stream := { s with events := es ++ s.events }

@[simp] theorem Stream.prepend_nil (s : Stream) : s.prepend [] = s := rfl

@[simp] theorem Stream.prepend_prepend (es fs : List Event) (s : Stream) :
    (s.prepend fs).prepend es = s.prepend (es ++ fs) := by
  simp only [Stream.prepend, List.append_assoc]

/-- Bytes an attribute takes at least: key, equals sign, quotes and value. -/
def Attr.size (a : Attr) : Nat :=
  Text.utf8Len a.key.toList + 3 + match a.value with
    | .ok v => Text.utf8Len v
    | .error _ => 0

/-- Bytes an event was read from, at least. -/
def Event.size : Event → Nat
  | .start name attrs => Text.utf8Len name.toList + 2 + (attrs.map Attr.size).sum
  | .empty name attrs => Text.utf8Len name.toList + 3 + (attrs.map Attr.size).sum
  | .stop name => Text.utf8Len name.toList + 3
  | .text t => Text.utf8Len t
  | .cdata t => Text.utf8Len t
  | .generalRef name char => match char with
    | .ok (some c) => c.utf8Size
    | _ => Text.utf8Len name + 2
  | .other => 0

/-- Bytes a list of events was read from, at least. -/
def sizeSum (es : List Event) : Nat := (es.map Event.size).sum

@[simp] theorem sizeSum_nil : sizeSum [] = 0 := rfl

@[simp] theorem sizeSum_cons (e : Event) (es : List Event) :
    sizeSum (e :: es) = e.size + sizeSum es := by
  simp only [sizeSum, List.map_cons, List.sum_cons]

@[simp] theorem sizeSum_append (es fs : List Event) :
    sizeSum (es ++ fs) = sizeSum es + sizeSum fs := by
  simp only [sizeSum, List.map_append, List.sum_append]

/-- The name of the predefined entity a character is escaped to. -/
def entityOf (c : Char) : Option String :=
  if c = '<' then some "lt"
  else if c = '>' then some "gt"
  else if c = '&' then some "amp"
  else if c = '"' then some "quot"
  else if c = '\'' then some "apos"
  else none

/-- The text of a predefined entity. -/
def resolvePredefinedEntity (name : Text) : Option Text :=
  if name = "lt".toList then some ['<']
  else if name = "gt".toList then some ['>']
  else if name = "amp".toList then some ['&']
  else if name = "apos".toList then some ['\'']
  else if name = "quot".toList then some ['"']
  else none

theorem resolve_entityOf (c : Char) (name : String) (h : entityOf c = some name) :
    resolvePredefinedEntity name.toList = some [c] := by
  unfold entityOf at h
  split_ifs at h with h1 h2 h3 h4 h5 <;> cases h <;> subst_vars <;> decide

/-- A character as it is written in character data or an attribute value. -/
def escapeChar (c : Char) : Text :=
  match entityOf c with
  | some name => '&' :: name.toList ++ [';']
  | none => [c]

/-- Entity-escaped text. -/
def escapeText (t : Text) : Text := t.flatMap escapeChar

@[simp] theorem escapeText_nil : escapeText [] = [] := rfl

@[simp] theorem escapeText_cons (c : Char) (t : Text) :
    escapeText (c :: t) = escapeChar c ++ escapeText t := rfl

@[simp] theorem escapeText_append (s t : Text) :
    escapeText (s ++ t) = escapeText s ++ escapeText t := List.flatMap_append ..

/-- End-of-line normalisation: a carriage return, with the line feed after it
    if there is one, becomes a line feed. -/
def normaliseLines : Text → Text
  | '\r' :: '\n' :: cs => '\n' :: normaliseLines cs
  | '\r' :: cs => '\n' :: normaliseLines cs
  | c :: cs => c :: normaliseLines cs
  | [] => []

/-- Attribute-value normalisation: literal white space becomes a space. -/
def normaliseAttrValue (t : Text) : Text :=
  t.map fun c => if c = '\t' ∨ c = '\n' ∨ c = '\r' then ' ' else c

theorem normaliseLines_of_no_cr (t : Text) (h : ∀ c ∈ t, c ≠ '\r') : normaliseLines t = t := by
  fun_induction normaliseLines t with
  | case1 cs ih => exact absurd rfl (h _ List.mem_cons_self)
  | case2 cs hcs ih => exact absurd rfl (h _ List.mem_cons_self)
  | case3 c cs h1 h2 ih => rw [ih (fun d hd => h d (List.mem_cons_of_mem c hd))]
  | case4 => rfl

theorem normaliseAttrValue_of_printable (t : Text) (h : ∀ c ∈ t, 0x20 ≤ c.toNat) :
    normaliseAttrValue t = t := by
  have hkeep : ∀ c ∈ t, (if c = '\t' ∨ c = '\n' ∨ c = '\r' then ' ' else c) = c := by
    intro c hc
    have hle := h c hc
    refine if_neg ?_
    rintro (rfl | rfl | rfl) <;> exact absurd hle (by decide)
  rw [normaliseAttrValue, List.map_congr_left hkeep, List.map_id']

/-- The event of a run of plain characters, if there is one. -/
def flush (acc : Text) : List Event := if acc = [] then [] else [.text acc]

/-- The events of escaped character data, after the plain run `acc`. -/
def textEventsFrom : Text → Text → List Event
  | acc, [] => flush acc
  | acc, c :: cs => match entityOf c with
    | some name => flush acc ++ .generalRef name.toList (.ok none) :: textEventsFrom [] cs
    | none => textEventsFrom (acc ++ [c]) cs

/-- The events of escaped character data. -/
def textEvents (t : Text) : List Event := textEventsFrom [] t

/-- An XML tree. -/
inductive Node where
  | text (t : Text)
  | empty (name : String) (attrs : List (String × Text))
  | element (name : String) (attrs : List (String × Text)) (children : List Node)

/-- Attributes as they are written. -/
def renderAttrs : List (String × Text) → Text
  | [] => []
  | (key, value) :: rest =>
    ' ' :: key.toList ++ '=' :: '"' :: escapeText value ++ '"' :: renderAttrs rest

/-- Attributes as a reader reports them. -/
def readAttrs (attrs : List (String × Text)) : List Attr :=
  attrs.map fun (key, value) => { key := key, value := .ok value }

mutual

/-- The serialisation of a tree. -/
def Node.render : Node → Text
  | .text t => escapeText t
  | .empty name attrs => '<' :: name.toList ++ renderAttrs attrs ++ ['/', '>']
  | .element name attrs children =>
    '<' :: name.toList ++ renderAttrs attrs ++ '>' :: renderList children
      ++ '<' :: '/' :: name.toList ++ ['>']

/-- The serialisation of trees in a row. -/
def renderList : List Node → Text
  | [] => []
  | n :: ns => n.render ++ renderList ns

end

mutual

/-- The events of a tree. -/
def Node.events : Node → List Event
  | .text t => textEvents t
  | .empty name attrs => [.empty name (readAttrs attrs)]
  | .element name attrs children =>
    .start name (readAttrs attrs) :: (eventsList children ++ [.stop name])

/-- The events of trees in a row. -/
def eventsList : List Node → List Event
  | [] => []
  | n :: ns => n.events ++ eventsList ns

end

mutual

/-- How deep the elements with names of some kind nest. A self-closed element
    does not count. -/
def Node.levels (counts : String → Bool) : Node → Nat
  | .text _ => 0
  | .empty _ _ => 0
  | .element name _ children => levelsList counts children + (if counts name then 1 else 0)

/-- The same for trees in a row. -/
def levelsList (counts : String → Bool) : List Node → Nat
  | [] => 0
  | n :: ns => max (n.levels counts) (levelsList counts ns)

end

theorem levelsList_append (counts : String → Bool) (ns ms : List Node) :
    levelsList counts (ns ++ ms) = max (levelsList counts ns) (levelsList counts ms) := by
  induction ns with
  | nil => rw [levelsList, List.nil_append, Nat.zero_max]
  | cons n ns ih => rw [List.cons_append, levelsList, levelsList, ih, Nat.max_assoc]

/-- A letter and then letters and digits, the only names used here. -/
def plainName (name : String) : Bool :=
  match name.toList with
  | [] => false
  | c :: cs => c.isAlpha && cs.all Char.isAlphanum

theorem plainName_chars (name : String) (h : plainName name = true) :
    ∀ c ∈ name.toList, c.isAlphanum = true := by
  unfold plainName at h
  split at h
  · exact absurd h Bool.false_ne_true
  · rename_i c cs hname
    rw [Bool.and_eq_true, List.all_eq_true] at h
    intro d hd
    rw [hname] at hd
    rcases List.mem_cons.mp hd with rfl | hd
    · rw [Char.isAlphanum, h.1, Bool.true_or]
    · exact h.2 d hd

/-- Attributes with distinct plain keys and values without control
    characters, which normalisation would turn into spaces. -/
def plainAttrs (attrs : List (String × Text)) : Bool :=
  decide (attrs.map Prod.fst).Nodup
    && attrs.all fun (key, value) => plainName key && value.all fun c => ' ' ≤ c

/-- Character data without control characters but tab and line feed. -/
def plainText (t : Text) : Bool := t.all fun c => ' ' ≤ c || c = '\t' || c = '\n'

def Node.isText : Node → Bool
  | .text _ => true
  | _ => false

/-- An element begins with an angle bracket. -/
theorem render_eq_cons (n : Node) (h : n.isText = false) : ∃ t, n.render = '<' :: t := by
  cases n with
  | text t => cases h
  | empty name attrs => exact ⟨_, by rw [Node.render, List.cons_append]; rfl⟩
  | element name attrs children =>
      exact ⟨_, by rw [Node.render, List.cons_append, List.cons_append]; rfl⟩

mutual

/-- Whether a tree holds only what a serialisation carries faithfully. -/
def Node.plain : Node → Bool
  | .text t => plainText t
  | .empty name attrs => plainName name && plainAttrs attrs
  | .element name attrs children => plainName name && plainAttrs attrs && plainList children

/-- The same for trees in a row: two texts side by side would be read as one. -/
def plainList : List Node → Bool
  | [] => true
  | n :: ns => n.plain && plainList ns && !(n.isText && (ns.head?.map Node.isText).getD false)

end

@[simp] theorem renderList_append (ns ms : List Node) :
    renderList (ns ++ ms) = renderList ns ++ renderList ms := by
  induction ns with
  | nil => rfl
  | cons n ns ih => simp only [List.cons_append, renderList, ih, List.append_assoc]

@[simp] theorem eventsList_append (ns ms : List Node) :
    eventsList (ns ++ ms) = eventsList ns ++ eventsList ms := by
  induction ns with
  | nil => rfl
  | cons n ns ih => simp only [List.cons_append, eventsList, ih, List.append_assoc]

mutual

/-- Whether every element of a tree has a name of some kind. -/
def Node.all (P : String → Bool) : Node → Bool
  | .text _ => true
  | .empty name _ => P name
  | .element name _ children => P name && allList P children

/-- The same for trees in a row. -/
def allList (P : String → Bool) : List Node → Bool
  | [] => true
  | n :: ns => n.all P && allList P ns

end

theorem allList_iff (P : String → Bool) (ns : List Node) :
    allList P ns = true ↔ ∀ n ∈ ns, n.all P = true := by
  induction ns with
  | nil => simp only [allList, List.not_mem_nil, false_implies, implies_true]
  | cons n ns ih => rw [allList, Bool.and_eq_true, ih, List.forall_mem_cons]

/-- Trees in a row are plain when each is, and none is a text. -/
theorem plainList_of_forall (ns : List Node) (h : ∀ n ∈ ns, n.plain = true ∧ n.isText = false) :
    plainList ns = true := by
  induction ns with
  | nil => rfl
  | cons n ns ih =>
      have hn := h n (List.mem_cons_self ..)
      rw [plainList, hn.1, ih fun m hm => h m (List.mem_cons_of_mem _ hm), hn.2]
      rfl

/-- The name of a tag that opens an element. -/
def Event.opens : Event → Option String
  | .start name _ | .empty name _ => some name
  | _ => none

theorem opens_textEventsFrom (acc t : Text) :
    ∀ e ∈ textEventsFrom acc t, e.opens = none := by
  -- Neither the text between references nor a reference opens anything.
  have hflush : ∀ acc, ∀ e ∈ flush acc, e.opens = none := by
    intro acc e he
    rw [flush] at he
    split_ifs at he
    · exact absurd he List.not_mem_nil
    · rw [List.mem_singleton.mp he]
      rfl
  induction t generalizing acc with
  | nil => exact hflush acc
  | cons c cs ih =>
      intro e he
      rw [textEventsFrom] at he
      cases hent : entityOf c with
      | none =>
          rw [hent] at he
          exact ih _ e he
      | some name =>
          rw [hent] at he
          rcases List.mem_append.mp he with he | he
          · exact hflush acc e he
          · rcases List.mem_cons.mp he with rfl | he
            · rfl
            · exact ih _ e he

mutual

/-- The names in the events of a tree are names of its elements. -/
theorem events_all (P : String → Bool) : ∀ (n : Node), n.all P = true →
    ∀ e ∈ n.events, ∀ name, e.opens = some name → P name = true
  | .text t, _, e, he, name, hname => by
      rw [opens_textEventsFrom [] t e he] at hname
      cases hname
  | .empty tag attrs, h, e, he, name, hname => by
      rw [Node.events, List.mem_singleton] at he
      rw [he] at hname
      cases hname
      exact h
  | .element tag attrs children, h, e, he, name, hname => by
      rw [Node.all, Bool.and_eq_true] at h
      rw [Node.events] at he
      rcases List.mem_cons.mp he with rfl | he
      · cases hname
        exact h.1
      · rcases List.mem_append.mp he with he | he
        · exact eventsList_all P children h.2 e he name hname
        · rw [List.mem_singleton.mp he] at hname
          cases hname

theorem eventsList_all (P : String → Bool) : ∀ (ns : List Node), allList P ns = true →
    ∀ e ∈ eventsList ns, ∀ name, e.opens = some name → P name = true
  | [], _, e, he, _, _ => absurd he List.not_mem_nil
  | n :: ns, h, e, he, name, hname => by
      rw [allList, Bool.and_eq_true] at h
      rcases List.mem_append.mp he with he | he
      · exact events_all P n h.1 e he name hname
      · exact eventsList_all P ns h.2 e he name hname

end

/-- Whether an event neither opens an element nor closes one. -/
def Event.isFlat : Event → Bool
  | .start _ _ | .stop _ => false
  | _ => true

/-- Events of whole elements, and of what stands between them. -/
inductive Balanced : List Event → Prop where
  | nil : Balanced []
  | flat {e : Event} {es : List Event} : e.isFlat = true → Balanced es → Balanced (e :: es)
  | element {name : String} {attrs : List Attr} {inner es : List Event} : Balanced inner →
    Balanced es → Balanced (.start name attrs :: (inner ++ .stop name :: es))

theorem Balanced.append {es fs : List Event} (hes : Balanced es) (hfs : Balanced fs) :
    Balanced (es ++ fs) := by
  induction hes with
  | nil => exact hfs
  | flat he _ ih => exact .flat he ih
  | element hinner _ _ ih =>
      rw [List.cons_append, List.append_assoc, List.cons_append]
      exact .element hinner ih

theorem balanced_of_flat (es : List Event) (h : ∀ e ∈ es, e.isFlat = true) : Balanced es := by
  induction es with
  | nil => exact .nil
  | cons e es ih =>
      exact .flat (h e List.mem_cons_self) (ih fun d hd => h d (List.mem_cons_of_mem e hd))

theorem textEventsFrom_flat (acc t : Text) : ∀ e ∈ textEventsFrom acc t, e.isFlat = true := by
  -- Text is given out when an entity interrupts it, and at its end.
  have hflush : ∀ acc, ∀ e ∈ flush acc, e.isFlat = true := by
    intro acc e he
    rw [flush] at he
    split_ifs at he
    · exact absurd he List.not_mem_nil
    · rw [List.mem_singleton.mp he]
      rfl
  induction t generalizing acc with
  | nil => exact hflush acc
  | cons c cs ih =>
      intro e he
      rw [textEventsFrom] at he
      cases hent : entityOf c with
      | none =>
          rw [hent] at he
          exact ih _ e he
      | some name =>
          rw [hent] at he
          rcases List.mem_append.mp he with he | he
          · exact hflush acc e he
          · rcases List.mem_cons.mp he with rfl | he
            · rfl
            · exact ih _ e he

mutual

/-- The events of a tree are balanced. -/
theorem events_balanced : ∀ n : Node, Balanced n.events
  | .text t => balanced_of_flat _ (textEventsFrom_flat [] t)
  | .empty _ _ => .flat rfl .nil
  | .element _ _ children => .element (eventsList_balanced children) .nil

theorem eventsList_balanced : ∀ ns : List Node, Balanced (eventsList ns)
  | [] => .nil
  | n :: ns => (events_balanced n).append (eventsList_balanced ns)

end

/-- A pull reader: what it delivers for each document. -/
abbrev Reader := Text → Stream

/-- What is relied on of a pull reader. -/
structure Reader.Lawful (read : Reader) : Prop where
  /-- A serialised element is read back as its events. -/
  read_render : ∀ n : Node, n.isText = false → n.plain = true →
    read n.render = { events := n.events, fault := none }
  /-- Events are slices of the document. -/
  size_le : ∀ doc : Text, sizeSum (read doc).events ≤ Text.utf8Len doc

end Xml

end Psrp

import Psrp.Theory.Weight

/-!
# What Type Names Share

A scan of a document that says what the `TNRef`s in it share.

The scan reads the events as the decoder does, and carries numbers where the
decoder carries values. What a value weighs is kept in two parts (`Load`): its
`own` part was read from the document, or is a copy that a `Ref` made and the
budget was charged for; its `shared` part are the type names that `TNRef`s
copied and nothing was charged for. An object that reads its type names again
loses the ones it had, and so does a member, an entry or a bare value that is
replaced, so what is shared counts where it ends up and nowhere else.

The scan is total. It knows no budget, no nesting limit and no error, so what
it finds is a function of the document alone.

## Main definitions

* `Load`: What a value weighs, in two parts.
* `Activity.step`, `Scan.step`: What an event does to the scan.
* `documentLoad`: What a scan of a document finds.

## Theorems

* `Scan.step_unshared`: A step that ends no `TNRef` shares nothing.
* `documentLoad_unshared`: Without a `TNRef` in the document nothing is shared.
-/

namespace Psrp

open Xml (Attr Event)

namespace Sharing

/-- What a value weighs: what was read or charged, and what `TNRef`s copied
    into it. -/
structure Load where
  own : Nat
  shared : Nat
deriving DecidableEq

namespace Load

def total (l : Load) : Nat := l.own + l.shared

instance : Add Load := ⟨fun l m => ⟨l.own + m.own, l.shared + m.shared⟩⟩

/-- A weight that was read or charged. -/
def read (n : Nat) : Load := ⟨n, 0⟩

/-- The weight of type names that a `TNRef` copied. -/
def copied (n : Nat) : Load := ⟨0, n⟩

@[simp] theorem own_add (l m : Load) : (l + m).own = l.own + m.own := rfl

@[simp] theorem shared_add (l m : Load) : (l + m).shared = l.shared + m.shared := rfl

@[simp] theorem total_add (l m : Load) : (l + m).total = l.total + m.total := by
  simp only [total, own_add, shared_add]
  omega

@[simp] theorem own_read (n : Nat) : (read n).own = n := rfl

@[simp] theorem shared_read (n : Nat) : (read n).shared = 0 := rfl

@[simp] theorem total_read (n : Nat) : (read n).total = n := rfl

@[simp] theorem own_copied (n : Nat) : (copied n).own = 0 := rfl

@[simp] theorem total_copied (n : Nat) : (copied n).total = n := Nat.zero_add n

/-- The load of a value that may be missing. -/
def ofOption (l : Option Load) : Load := l.getD (read 0)

end Load

/-- The load of members, with their names. -/
def propsLoad : List (Text × Load) → Load
  | [] => .read 0
  | (name, l) :: ps => .read (Text.utf8Len name + 1) + l + propsLoad ps

/-- An object under construction. -/
structure Object where
  refId : Option Text
  props : IndexMap Text Load
  names : Load
  embedded : Option Load

/-- An object with nothing in it. -/
def Object.new (refId : Option Text) : Object := ⟨refId, [], .read 0, none⟩

/-- The load of an object, without what stands bare in it. -/
def Object.bare (o : Object) : Load := .read 1 + o.names + propsLoad o.props

/-- The load of an object that is closed. -/
def Object.load (o : Object) : Load :=
  match o.embedded with
  | some l =>
    if o.props = [] then Object.bare { o with props := IndexMap.insert valueKey l o.props }
    else o.bare
  | none => o.bare

/-- Which loop of an object is running. -/
inductive Mode where
  | body
  | members (closing : String)
  | list (closing : String) (items : Load)
  | dict (entries : Load)
  | entry (entries : Load) (entry : Load × Load)
  | typeNames (rid : Option Text) (names : Nat)
  | typeName (rid : Option Text) (names : Nat) (text : Text)
  | skipRef (rid : Option Text) (level : Nat)

/-- What an element is being read for. -/
inductive Activity where
  | leaf (tag : String) (text : Text)
  | object (o : Object) (mode : Mode)
  | skip (level : Nat) (load : Option Load)

structure Frame where
  name : Text
  activity : Activity

/-- What an event makes of the frame on top. -/
inductive Move where
  | goto (a : Activity)
  | push (child : Frame)
  | pop (l : Option Load)

/-- What the objects and type names that have an id weigh. -/
structure Table where
  referenced : List Text
  refs : IndexMap Text Nat
  typeNames : IndexMap Text Nat

/-- The name in a tag. -/
def nameOf (attrs : List Attr) : Option Text := (nameAttr attrs).toOption.join

/-- The id in a tag. -/
def idOf (attrs : List Attr) : Option Text := (refIdAttr attrs).toOption.join

/-- A reference is charged for everything it copies. -/
def refLoad (attrs : List Attr) (t : Table) : Load :=
  .read (((idOf attrs).bind fun r => IndexMap.get r t.refs).getD 1)

/-- The load of a self-closed element, if it has a value. -/
def emptyLoad (tag : String) (attrs : List Attr) (t : Table) : Option Load :=
  if tag = "Nil" then some (.read 1)
  else if tag = "Ref" then some (refLoad attrs t)
  else if tag = "S" then some (.read 1)
  else if tag = "SBK" ∨ tag = "SCT" then some (.read 1)
  else none

/-- The load of a leaf. -/
def leafLoad (p : Platform) (tag : String) (text : Text) : Load :=
  .read ((((leafParser p tag).bind fun parse => (parse (decodePwshEscapes text)).toOption).map
    weight).getD 0)

/-- Keep the weight of an object for the references to it. -/
def Table.keep (refId : Option Text) (l : Load) (t : Table) : Table :=
  match refId.filter fun r => t.referenced.contains r with
  | none => t
  | some rid => { t with refs := IndexMap.insert rid l.total t.refs }

/-- Remember the weight of type names that have an id. -/
def Table.remember (rid : Option Text) (names : Nat) (t : Table) : Table :=
  match rid with
  | some rid => { t with typeNames := IndexMap.insert rid names t.typeNames }
  | none => t

/-- An object takes the type names that a `TNRef` points to. -/
def Object.share (rid : Option Text) (t : Table) (o : Object) : Object :=
  match rid.bind fun r => IndexMap.get r t.typeNames with
  | some n => { o with names := .copied n }
  | none => o

/-- Store a member of a dictionary entry. -/
def setEntry (name : Text) (l : Load) (e : Load × Load) : Load × Load :=
  if name = "Key".toList then (l, e.2)
  else if name = "Value".toList then (e.1, l)
  else e

/-- What a delivered value does to an activity. -/
def receive (name : Text) (l : Option Load) : Activity → Activity
  | .object o .body => .object { o with embedded := o.embedded.or l } .body
  | .object o (.members closing) =>
    match l with
    | some l => .object { o with props := IndexMap.insert name l o.props } (.members closing)
    | none => .object o (.members closing)
  | .object o (.list closing items) => .object o (.list closing (items + .ofOption l))
  | .object o (.entry entries entry) =>
    match l with
    | some l => .object o (.entry entries (setEntry name l entry))
    | none => .object o (.entry entries entry)
  | a => a

/-- The frame for an element whose start tag was read. -/
def openElement (p : Platform) (name : Text) (tag : String) (attrs : List Attr) (t : Table) :
    Frame :=
  ⟨name,
    if (leafParser p tag).isSome then .leaf tag []
    else if tag = "Obj" then .object (.new (idOf attrs)) .body
    else if tag = "Ref" then .skip 1 (some (refLoad attrs t))
    else .skip 1 none⟩

/-- A step in the body of an object. -/
def bodyStep (p : Platform) (o : Object) (t : Table) : Event → Move × Table
  | .start tag attrs =>
    if tag = "MS" ∨ tag = "Props" then (.goto (.object o (.members tag)), t)
    else if tag = "TN" then (.goto (.object o (.typeNames (idOf attrs) 0)), t)
    else if tag = "TNRef" then (.goto (.object o (.skipRef (idOf attrs) 1)), t)
    else if tag = "LST" ∨ tag = "IE" ∨ tag = "QUE" ∨ tag = "STK" then
      (.goto (.object o (.list tag (.read 1))), t)
    else if tag = "DCT" then (.goto (.object o (.dict (.read 1))), t)
    else (.push (openElement p [] tag attrs t), t)
  | .empty tag attrs =>
    (.goto (.object (if tag = "TNRef" then o.share (idOf attrs) t else o) .body), t)
  | .stop tag =>
    if tag = "Obj" then (.pop (some o.load), t.keep o.refId o.load) else (.goto (.object o .body), t)
  | _ => (.goto (.object o .body), t)

/-- A step among the members of an object. -/
def membersStep (p : Platform) (o : Object) (closing : String) (t : Table) : Event → Move × Table
  | .start tag attrs => (.push (openElement p ((nameOf attrs).getD []) tag attrs t), t)
  | .empty tag attrs =>
    (.goto (receive ((nameOf attrs).getD [])
      (if tag = "Nil" then (nameOf attrs).map fun _ => .read 1 else emptyLoad tag attrs t)
      (.object o (.members closing))), t)
  | .stop tag => (.goto (.object o (if tag = closing then .body else .members closing)), t)
  | _ => (.goto (.object o (.members closing)), t)

/-- A step in a list. -/
def listStep (p : Platform) (o : Object) (closing : String) (items : Load) (t : Table) :
    Event → Move × Table
  | .start tag attrs => (.push (openElement p [] tag attrs t), t)
  | .empty tag attrs =>
    (.goto (receive [] (emptyLoad tag attrs t) (.object o (.list closing items))), t)
  | .stop tag =>
    if tag = closing then (.goto (.object { o with embedded := some items } .body), t)
    else (.goto (.object o (.list closing items)), t)
  | _ => (.goto (.object o (.list closing items)), t)

/-- A step in a dictionary. -/
def dictStep (o : Object) (entries : Load) (t : Table) : Event → Move × Table
  | .start tag _ =>
    (.goto (.object o (if tag = "En" then .entry entries (.read 1, .read 1) else .dict entries)), t)
  | .stop tag =>
    if tag = "DCT" then (.goto (.object { o with embedded := some entries } .body), t)
    else (.goto (.object o (.dict entries)), t)
  | _ => (.goto (.object o (.dict entries)), t)

/-- A step in an entry of a dictionary. -/
def entryStep (p : Platform) (o : Object) (entries : Load) (entry : Load × Load) (t : Table) :
    Event → Move × Table
  | .start tag attrs => (.push (openElement p ((nameOf attrs).getD []) tag attrs t), t)
  | .empty tag attrs =>
    (.goto (receive ((nameOf attrs).getD []) (emptyLoad tag attrs t)
      (.object o (.entry entries entry))), t)
  | .stop tag =>
    (.goto (.object o
      (if tag = "En" then .dict (entries + entry.1 + entry.2) else .entry entries entry)), t)
  | _ => (.goto (.object o (.entry entries entry)), t)

/-- A step among type names. -/
def typeNamesStep (o : Object) (rid : Option Text) (names : Nat) (t : Table) :
    Event → Move × Table
  | .start tag _ =>
    (.goto (.object o (if tag = "T" then .typeName rid names [] else .typeNames rid names)), t)
  | .stop tag =>
    if tag = "TN" then (.goto (.object { o with names := .read names } .body), t.remember rid names)
    else (.goto (.object o (.typeNames rid names)), t)
  | _ => (.goto (.object o (.typeNames rid names)), t)

/-- A step in a type name. -/
def typeNameStep (o : Object) (rid : Option Text) (names : Nat) (text : Text) (t : Table) :
    Event → Move × Table
  | .stop tag =>
    (.goto (.object o
      (if tag = "T" then .typeNames rid (names + (Text.utf8Len (decodePwshEscapes text) + 1))
        else .typeName rid names text)), t)
  | e => (.goto (.object o (.typeName rid names (text ++ (eventText e).toOption.getD []))), t)

/-- A step inside a `TNRef`. -/
def skipRefStep (o : Object) (rid : Option Text) (level : Nat) (t : Table) :
    Event → Move × Table
  | .start _ _ => (.goto (.object o (.skipRef rid (level + 1))), t)
  | .stop _ =>
    if level - 1 = 0 then (.goto (.object (o.share rid t) .body), t)
    else (.goto (.object o (.skipRef rid (level - 1))), t)
  | _ => (.goto (.object o (.skipRef rid level)), t)

/-- A step in the text of a leaf. -/
def leafStep (p : Platform) (tag : String) (text : Text) (t : Table) : Event → Move × Table
  | .stop s => if s = tag then (.pop (some (leafLoad p tag text)), t) else (.goto (.leaf tag text), t)
  | e => (.goto (.leaf tag (text ++ (eventText e).toOption.getD [])), t)

/-- A step in an element that is skipped. -/
def skipStep (level : Nat) (load : Option Load) (t : Table) : Event → Move × Table
  | .start _ _ => (.goto (.skip (level + 1) load), t)
  | .stop _ => (if level - 1 = 0 then .pop load else .goto (.skip (level - 1) load), t)
  | _ => (.goto (.skip level load), t)

/-- What an event does to an activity. -/
def Activity.step (p : Platform) (t : Table) : Activity → Event → Move × Table
  | .leaf tag text => leafStep p tag text t
  | .skip level load => skipStep level load t
  | .object o .body => bodyStep p o t
  | .object o (.members closing) => membersStep p o closing t
  | .object o (.list closing items) => listStep p o closing items t
  | .object o (.dict entries) => dictStep o entries t
  | .object o (.entry entries entry) => entryStep p o entries entry t
  | .object o (.typeNames rid names) => typeNamesStep o rid names t
  | .object o (.typeName rid names text) => typeNameStep o rid names text t
  | .object o (.skipRef rid level) => skipRefStep o rid level t

/-- The load of an activity that the document ends in. -/
def Activity.atEof : Activity → Option Load
  | .skip _ load => load
  | _ => none

end Sharing

open Sharing (Load)

/-- A scan: the elements that are open, innermost first, what was kept, and
    the load of the top level. -/
structure Scan where
  stack : List Sharing.Frame
  table : Sharing.Table
  out : Load

namespace Scan

open Sharing (Table Activity Move receive openElement emptyLoad)

/-- Deliver a value to the frame on top, or to the top level. -/
def deliver (name : Text) (l : Option Load) (c : Scan) : Scan :=
  match c.stack with
  | [] => { c with out := c.out + .ofOption l }
  | f :: rest => { c with stack := { f with activity := receive name l f.activity } :: rest }

/-- Carry a move out: the frame on top stood on `rest`. -/
def move (name : Text) (rest : List Sharing.Frame) (a : Activity) (out : Load) :
    Move × Table → Scan
  | (.goto b, t) => { stack := ⟨name, b⟩ :: rest, table := t, out := out }
  | (.push child, t) => { stack := child :: ⟨name, a⟩ :: rest, table := t, out := out }
  | (.pop l, t) => deliver name l { stack := rest, table := t, out := out }

/-- One step. -/
def step (p : Platform) (c : Scan) (e : Event) : Scan :=
  match c.stack with
  | [] =>
    match e with
    | .start tag attrs => { c with stack := [openElement p [] tag attrs c.table] }
    | .empty tag attrs => { c with out := c.out + .ofOption (emptyLoad tag attrs c.table) }
    | _ => c
  | f :: rest => move f.name rest f.activity c.out (f.activity.step p c.table e)

/-- Close the frames that are left: the last with `a` in place of its
    activity. -/
def close (out : Load) (name : Text) (a : Activity) : List Sharing.Frame → Load
  | [] => out + .ofOption a.atEof
  | f :: rest => close out f.name (receive name a.atEof f.activity) rest

/-- The load of the top level at the end of the document. -/
def finish (c : Scan) : Load :=
  match c.stack with
  | [] => c.out
  | f :: rest => close c.out f.name f.activity rest

/-- The scan of a document begins with what its references name. -/
def start (referenced : List Text) : Scan := ⟨[], ⟨referenced, [], []⟩, .read 0⟩

end Scan

/-- What a scan of a document finds. -/
def documentLoad (p : Platform) (xml : Text) : Load :=
  let events := (p.read (cleanDocument xml)).events
  (events.foldl (Scan.step p) (Scan.start (referencedIds events))).finish

/-- A tag of a `TNRef`. -/
def isTypeNamesRef : Event → Bool
  | .start tag _ | .empty tag _ => decide (tag = "TNRef")
  | _ => false

namespace Sharing

def Object.Unshared (o : Object) : Prop :=
  o.names.shared = 0 ∧ (propsLoad o.props).shared = 0 ∧ (Load.ofOption o.embedded).shared = 0

/-- A loop that holds nothing shared, and is not inside a `TNRef`. -/
def Mode.Unshared : Mode → Prop
  | .list _ items => items.shared = 0
  | .dict entries => entries.shared = 0
  | .entry entries current => entries.shared = 0 ∧ current.1.shared = 0 ∧ current.2.shared = 0
  | .skipRef _ _ => False
  | _ => True

def Activity.Unshared : Activity → Prop
  | .leaf _ _ => True
  | .object o mode => o.Unshared ∧ mode.Unshared
  | .skip _ load => (Load.ofOption load).shared = 0

def Move.Unshared : Move → Prop
  | .goto a => a.Unshared
  | .push f => f.activity.Unshared
  | .pop l => (Load.ofOption l).shared = 0

/-- An insertion of something that shares nothing. -/
theorem propsLoad_insert_shared (name : Text) {l : Load} {props : IndexMap Text Load}
    (hl : l.shared = 0) (h : (propsLoad props).shared = 0) :
    (propsLoad (IndexMap.insert name l props)).shared = 0 := by
  induction props with
  | nil => simp only [IndexMap.insert, propsLoad, Load.shared_add, Load.shared_read, hl]
  | cons q ps ih =>
      rcases q with ⟨k, m⟩
      simp only [propsLoad, Load.shared_add, Load.shared_read] at h
      rw [IndexMap.insert]
      split_ifs
      · simp only [propsLoad, Load.shared_add, Load.shared_read]
        omega
      · have hps := ih (by omega)
        simp only [propsLoad, Load.shared_add, Load.shared_read]
        omega

theorem emptyLoad_unshared (tag : String) (attrs : List Attr) (t : Table) :
    (Load.ofOption (emptyLoad tag attrs t)).shared = 0 := by
  rw [emptyLoad]
  split_ifs <;> rfl

/-- An object shares nothing if none of its parts does. -/
theorem Object.load_unshared {o : Object} (h : o.Unshared) : o.load.shared = 0 := by
  rcases o with ⟨refId, props, names, embedded⟩
  rcases h with ⟨hnames, hprops, hembedded⟩
  have hbare : ∀ {ps : IndexMap Text Load}, (propsLoad ps).shared = 0 →
      (Object.bare ⟨refId, ps, names, embedded⟩).shared = 0 := by
    intro ps hps
    show 0 + names.shared + (propsLoad ps).shared = 0
    rw [hnames, hps]
  cases embedded with
  | none => exact hbare hprops
  | some l =>
      rw [Object.load]
      simp only []
      split_ifs
      · exact hbare (propsLoad_insert_shared valueKey hembedded hprops)
      · exact hbare hprops

theorem receive_unshared {l : Option Load} {a : Activity} (name : Text)
    (hl : (Load.ofOption l).shared = 0) (ha : a.Unshared) : (receive name l a).Unshared := by
  cases a with
  | leaf | skip => exact ha
  | object o mode =>
      rcases o with ⟨refId, props, names, embedded⟩
      rcases ha with ⟨⟨hnames, hprops, hembedded⟩, hmode⟩
      cases mode with
      | body =>
          refine ⟨⟨hnames, hprops, ?_⟩, hmode⟩
          cases embedded with
          | none => exact hl
          | some m => exact hembedded
      | members closing =>
          cases l with
          | none => exact ⟨⟨hnames, hprops, hembedded⟩, hmode⟩
          | some l => exact ⟨⟨hnames, propsLoad_insert_shared name hl hprops, hembedded⟩, hmode⟩
      | list closing items =>
          refine ⟨⟨hnames, hprops, hembedded⟩, ?_⟩
          show items.shared + (Load.ofOption l).shared = 0
          rw [hl]
          exact hmode
      | entry entries entry =>
          cases l with
          | none => exact ⟨⟨hnames, hprops, hembedded⟩, hmode⟩
          | some l =>
              rcases hmode with ⟨hentries, hkey, hvalue⟩
              refine ⟨⟨hnames, hprops, hembedded⟩, hentries, ?_⟩
              rw [setEntry]
              split_ifs
              · exact ⟨hl, hvalue⟩
              · exact ⟨hkey, hl⟩
              · exact ⟨hkey, hvalue⟩
      | _ => exact ⟨⟨hnames, hprops, hembedded⟩, hmode⟩

theorem openElement_unshared (p : Platform) (name : Text) (tag : String) (attrs : List Attr)
    (t : Table) : (openElement p name tag attrs t).activity.Unshared := by
  rw [openElement]
  simp only []
  split_ifs
  · trivial
  · exact ⟨⟨rfl, rfl, rfl⟩, trivial⟩
  · rfl
  · rfl

/-- A step that is no `TNRef` and ends none shares nothing. -/
theorem Activity.step_unshared (p : Platform) (t : Table) {a : Activity} {e : Event}
    (ha : a.Unshared) (he : isTypeNamesRef e = false) : (a.step p t e).1.Unshared := by
  -- The only step that shares anything is a reference to type names, which is ruled out.
  cases a with
  | leaf tag text =>
      cases e with
      | stop s =>
          simp only [Activity.step, leafStep]
          split_ifs
          · rfl
          · trivial
      | _ => trivial
  | skip level load =>
      cases e with
      | stop s =>
          simp only [Activity.step, skipStep]
          split_ifs
          · exact ha
          · exact ha
      | _ => exact ha
  | object o mode =>
      have ho := ha.1
      cases mode with
      | body =>
          cases e with
          | start tag attrs =>
              simp only [Activity.step, bodyStep]
              split_ifs with _ _ hshares
              · exact ⟨ho, trivial⟩
              · exact ⟨ho, trivial⟩
              · -- The tag would be such a reference.
                exact absurd hshares (of_decide_eq_false he)
              · exact ⟨ho, rfl⟩
              · exact ⟨ho, rfl⟩
              · exact openElement_unshared p _ tag attrs t
          | empty tag attrs =>
              simp only [Activity.step, bodyStep, if_neg (of_decide_eq_false he)]
              exact ha
          | stop tag =>
              simp only [Activity.step, bodyStep]
              split_ifs
              · exact Object.load_unshared ho
              · exact ha
          | _ => exact ha
      | members closing =>
          cases e with
          | start tag attrs => exact openElement_unshared p _ tag attrs t
          | empty tag attrs =>
              refine receive_unshared _ ?_ ha
              split_ifs
              · cases nameOf attrs <;> rfl
              · exact emptyLoad_unshared tag attrs t
          | stop tag =>
              simp only [Activity.step, membersStep]
              split_ifs
              · exact ⟨ho, trivial⟩
              · exact ha
          | _ => exact ha
      | list closing items =>
          cases e with
          | start tag attrs => exact openElement_unshared p _ tag attrs t
          | empty tag attrs => exact receive_unshared [] (emptyLoad_unshared tag attrs t) ha
          | stop tag =>
              simp only [Activity.step, listStep]
              split_ifs
              · exact ⟨⟨ho.1, ho.2.1, ha.2⟩, trivial⟩
              · exact ha
          | _ => exact ha
      | dict entries =>
          cases e with
          | start tag attrs =>
              simp only [Activity.step, dictStep]
              split_ifs
              · exact ⟨ho, ha.2, rfl, rfl⟩
              · exact ha
          | stop tag =>
              simp only [Activity.step, dictStep]
              split_ifs
              · exact ⟨⟨ho.1, ho.2.1, ha.2⟩, trivial⟩
              · exact ha
          | _ => exact ha
      | entry entries entry =>
          cases e with
          | start tag attrs => exact openElement_unshared p _ tag attrs t
          | empty tag attrs => exact receive_unshared _ (emptyLoad_unshared tag attrs t) ha
          | stop tag =>
              simp only [Activity.step, entryStep]
              split_ifs
              · refine ⟨ho, ?_⟩
                show entries.shared + entry.1.shared + entry.2.shared = 0
                rw [ha.2.1, ha.2.2.1, ha.2.2.2]
              · exact ha
          | _ => exact ha
      -- A complete list of names is owned: it was read from the document.
      | typeNames rid names =>
          cases e with
          | start tag attrs =>
              simp only [Activity.step, typeNamesStep]
              split_ifs <;> exact ⟨ho, trivial⟩
          | stop tag =>
              simp only [Activity.step, typeNamesStep]
              split_ifs
              · exact ⟨⟨rfl, ho.2.1, ho.2.2⟩, trivial⟩
              · exact ha
          | _ => exact ha
      | typeName rid names text =>
          cases e with
          | stop tag =>
              simp only [Activity.step, typeNameStep]
              split_ifs <;> exact ⟨ho, trivial⟩
          | _ => exact ⟨ho, trivial⟩
      | skipRef rid level => exact absurd ha.2 id

end Sharing

namespace Scan

open Sharing

structure Unshared (c : Scan) : Prop where
  stack : ∀ f ∈ c.stack, f.activity.Unshared
  out : c.out.shared = 0

theorem deliver_unshared {c : Scan} {l : Option Load} (name : Text)
    (hl : (Load.ofOption l).shared = 0) (hc : c.Unshared) : (deliver name l c).Unshared := by
  rcases c with ⟨stack, t, out⟩
  rcases hc with ⟨hstack, hout⟩
  cases stack with
  | nil =>
      refine ⟨hstack, ?_⟩
      show out.shared + (Load.ofOption l).shared = 0
      rw [hl]
      exact hout
  | cons f rest =>
      rcases List.forall_mem_cons.mp hstack with ⟨hf, hrest⟩
      exact ⟨List.forall_mem_cons.mpr ⟨receive_unshared name hl hf, hrest⟩, hout⟩

/-- Without a reference to type names, no event shares. -/
theorem step_unshared (p : Platform) {c : Scan} {e : Event} (hc : c.Unshared)
    (he : isTypeNamesRef e = false) : (c.step p e).Unshared := by
  rcases c with ⟨stack, t, out⟩
  rcases hc with ⟨hstack, hout⟩
  cases stack with
  | nil =>
      cases e with
      | start tag attrs =>
          exact ⟨List.forall_mem_cons.mpr ⟨openElement_unshared p [] tag attrs t, hstack⟩, hout⟩
      | empty tag attrs =>
          refine ⟨hstack, ?_⟩
          show out.shared + (Load.ofOption (emptyLoad tag attrs t)).shared = 0
          rw [emptyLoad_unshared]
          exact hout
      | _ => exact ⟨hstack, hout⟩
  | cons f rest =>
      rcases List.forall_mem_cons.mp hstack with ⟨hf, hrest⟩
      have hstep := f.activity.step_unshared p t hf he
      show (move f.name rest f.activity out (f.activity.step p t e)).Unshared
      generalize f.activity.step p t e = moved at hstep ⊢
      rcases moved with ⟨m, t'⟩
      cases m with
      | goto b => exact ⟨List.forall_mem_cons.mpr ⟨hstep, hrest⟩, hout⟩
      | push g =>
          exact ⟨List.forall_mem_cons.mpr ⟨hstep, List.forall_mem_cons.mpr ⟨hf, hrest⟩⟩, hout⟩
      | pop l => exact deliver_unshared f.name hstep ⟨hrest, hout⟩

theorem close_unshared {out : Load} (hout : out.shared = 0) {rest : List Sharing.Frame} :
    ∀ {name : Text} {a : Activity}, a.Unshared → (∀ f ∈ rest, f.activity.Unshared) →
      (close out name a rest).shared = 0 := by
  have heof : ∀ {a : Activity}, a.Unshared → (Load.ofOption a.atEof).shared = 0 := by
    intro a ha
    cases a with
    | skip => exact ha
    | _ => rfl
  induction rest with
  | nil =>
      intro name a ha _
      show out.shared + (Load.ofOption a.atEof).shared = 0
      rw [hout, heof ha]
  | cons f rest ih =>
      intro name a ha hrest
      rcases List.forall_mem_cons.mp hrest with ⟨hf, hrest⟩
      exact ih (receive_unshared name (heof ha) hf) hrest

/-- By induction on the events. -/
theorem run_unshared (p : Platform) (es : List Event) :
    ∀ {c : Scan}, c.Unshared → (∀ e ∈ es, isTypeNamesRef e = false) →
      (es.foldl (step p) c).finish.shared = 0 := by
  induction es with
  | nil =>
      intro c hc _
      rcases c with ⟨stack, t, out⟩
      cases stack with
      | nil => exact hc.out
      | cons f rest =>
          rcases List.forall_mem_cons.mp hc.stack with ⟨hf, hrest⟩
          exact close_unshared hc.out hf hrest
  | cons e es ih =>
      intro c hc hes
      rcases List.forall_mem_cons.mp hes with ⟨he, hes⟩
      exact ih (step_unshared p hc he) hes

end Scan

/-- Without a `TNRef` in the document nothing is shared. -/
theorem documentLoad_unshared (p : Platform) (xml : Text)
    (h : ∀ e ∈ (p.read (cleanDocument xml)).events, isTypeNamesRef e = false) :
    (documentLoad p xml).shared = 0 :=
  Scan.run_unshared p _ ⟨fun _ hf => absurd hf List.not_mem_nil, rfl⟩ h

end Psrp

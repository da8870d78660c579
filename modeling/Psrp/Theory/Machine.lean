import Psrp.Core.Decode

/-!
# The Decoder as a Stack Machine

The recursive decoder with its call stack written down.

Every activation of `parseElement` is a frame, and a frame says where in its
loops the activation stands: in the body of an object, among its members, in
a list, in the text of a leaf. One event moves the frame on top, pushes a
child, or pops the frame and delivers its value to the one below. The machine
has no recursion left, so a property of every run is a property of one step.

Where the decoder keeps the name of a member in a variable while it reads the
value, the machine keeps it in the frame of the value, so that a frame waiting
for an event holds nothing about a child it no longer has.

`Psrp.Theory.MachineRefinement` proves that the machine and the decoder agree
on every document.

## Main definitions

* `Frame`, `Config`: The state of the machine.
* `openElement`: A start tag where an element is read.
* `Frame.step`: What an event does to the frame on top.
* `Frame.receive`: What a value does to the frame it is delivered to.
* `Config.step`, `Config.run`: The machine.

## Theorems

* `openElement_cases`: What can be opened.
-/

namespace Psrp

open Xml (Attr Event)

namespace Machine

/-- An object under construction. -/
structure ObjCtx where
  refId : Option Text
  obj : PsObject
  embedded : Option PsValue

/-- Which loop of an object is running. -/
inductive Mode where
  | body
  | members (closing : String)
  | list (closing : String) (items : List PsValue)
  | dict (entries : List (PsValue × PsValue))
  | entry (entries : List (PsValue × PsValue)) (entry : PsValue × PsValue)
  | typeNames (rid : Option Text) (names : List Text)
  | typeName (rid : Option Text) (names : List Text) (text : Text)
  /-- Skipping the inside of a `TNRef`. -/
  | skipRef (rid : Option Text) (level : Nat)

/-- What an activation of `parseElement` is doing. -/
inductive Activity where
  /-- Reading the text of a leaf. -/
  | leaf (tag : String) (parse : Text → Except PsrpError PsValue) (text : Text)
  | object (ctx : ObjCtx) (mode : Mode)
  /-- Skipping to the end of the element, with the value it has. -/
  | skip (level : Nat) (value : Option PsValue)

/-- An activation of `parseElement`: the name its value goes under, and what
    it is doing. -/
structure Frame where
  name : Text
  activity : Activity

/-- What an event makes of the frame on top. -/
inductive Move where
  | goto (a : Activity)
  | push (child : Frame)
  | pop (v : Option PsValue)

/-- The outcome of a step of one frame. -/
abbrev Outcome := Except PsrpError (Move × DecoderState)

/-- The frame for an element whose start tag was read. -/
def openElement (p : Platform) (name : Text) (tag : String) (attrs : List Attr)
    (s : DecoderState) : Except PsrpError (Frame × DecoderState) :=
  if MAX_NESTING_DEPTH ≤ s.depth then .error nestedTooDeep
  else
    let s := { s with depth := s.depth + 1 }
    match leafParser p tag with
    | some parse => .ok (⟨name, .leaf tag parse []⟩, s)
    | none =>
      if tag = "Obj" then
        (refIdAttr attrs).map fun refId => (⟨name, .object ⟨refId, PsObject.new, none⟩ .body⟩, s)
      else if tag = "Ref" then
        (resolveRef attrs 0 s).map fun (v, s) => (⟨name, .skip 1 (some v)⟩, s)
      else .ok (⟨name, .skip 1 none⟩, s)

/-- What can be opened, and what that leaves of the state. -/
theorem openElement_cases (p : Platform) (name : Text) (tag : String) (attrs : List Attr)
    (s s' : DecoderState) (f : Frame) (h : openElement p name tag attrs s = .ok (f, s')) :
    s.depth < MAX_NESTING_DEPTH ∧
      ((∃ parse, leafParser p tag = some parse ∧ f = ⟨name, .leaf tag parse []⟩
          ∧ s' = { s with depth := s.depth + 1 })
        ∨ (∃ refId, tag = "Obj" ∧ refIdAttr attrs = .ok refId
          ∧ f = ⟨name, .object ⟨refId, PsObject.new, none⟩ .body⟩
          ∧ s' = { s with depth := s.depth + 1 })
        ∨ (∃ v, tag = "Ref" ∧ resolveRef attrs 0 { s with depth := s.depth + 1 } = .ok (v, s')
          ∧ f = ⟨name, .skip 1 (some v)⟩)
        ∨ (leafParser p tag = none ∧ tag ≠ "Obj" ∧ tag ≠ "Ref" ∧ f = ⟨name, .skip 1 none⟩
          ∧ s' = { s with depth := s.depth + 1 })) := by
  rw [openElement] at h
  by_cases hdepth : MAX_NESTING_DEPTH ≤ s.depth
  · rw [if_pos hdepth] at h
    cases h
  refine ⟨by omega, ?_⟩
  simp only [if_neg hdepth] at h
  cases hleaf : leafParser p tag with
  | some parse =>
      rw [hleaf] at h
      cases h
      exact Or.inl ⟨parse, rfl, rfl, rfl⟩
  | none =>
      simp only [hleaf] at h
      by_cases hobj : tag = "Obj"
      · rw [if_pos hobj, except_map_eq_ok] at h
        rcases h with ⟨refId, hid, h⟩
        cases h
        exact Or.inr (Or.inl ⟨refId, hobj, hid, rfl, rfl⟩)
      · rw [if_neg hobj] at h
        by_cases href : tag = "Ref"
        · rw [if_pos href, except_map_eq_ok] at h
          rcases h with ⟨⟨v, t⟩, hres, h⟩
          cases h
          exact Or.inr (Or.inr (Or.inl ⟨v, href, hres, rfl⟩))
        · rw [if_neg href] at h
          cases h
          exact Or.inr (Or.inr (Or.inr ⟨rfl, hobj, href, rfl, rfl⟩))

theorem openElement_name (p : Platform) (name : Text) (tag : String) (attrs : List Attr)
    (s s' : DecoderState) (f : Frame) (h : openElement p name tag attrs s = .ok (f, s')) :
    f.name = name := by
  rcases (openElement_cases p name tag attrs s s' f h).2 with
    ⟨_, _, rfl, _⟩ | ⟨_, _, _, rfl, _⟩ | ⟨_, _, _, rfl⟩ | ⟨_, _, _, rfl, _⟩ <;> rfl

/-- Push the frame of an element. -/
def pushElement (p : Platform) (name : Text) (tag : String) (attrs : List Attr)
    (s : DecoderState) : Outcome :=
  (openElement p name tag attrs s).map fun (f, s) => (.push f, s)

/-- What a delivered value does to an activity. -/
def receive (name : Text) (v : Option PsValue) : Activity → Activity
  | .object ctx .body => .object { ctx with embedded := ctx.embedded.or v } .body
  | .object ctx (.members closing) =>
    match v with
    | some v => .object { ctx with obj := ctx.obj.with name v } (.members closing)
    | none => .object ctx (.members closing)
  | .object ctx (.list closing items) => .object ctx (.list closing (items ++ v.toList))
  | .object ctx (.entry entries entry) =>
    match v with
    | some v => .object ctx (.entry entries (setEntry name v entry))
    | none => .object ctx (.entry entries entry)
  | a => a

/-- Deliver the value of a self-closed element, under its name if it is
    read under one. -/
def receiveEmpty (named : Bool) (a : Activity) (tag : String) (attrs : List Attr)
    (s : DecoderState) : Outcome :=
  match parseEmpty tag attrs s with
  | .error e => .error e
  | .ok (none, s) => .ok (.goto a, s)
  | .ok (some v, s) =>
    if named then
      (nameAttr attrs).map fun name => (.goto (receive (name.getD []) (some v) a), s)
    else .ok (.goto (receive [] (some v) a), s)

/-- The element of a start tag, under its name. -/
def pushNamed (p : Platform) (tag : String) (attrs : List Attr) (s : DecoderState) : Outcome :=
  match nameAttr attrs with
  | .error e => .error e
  | .ok name => pushElement p (name.getD []) tag attrs s

/-- A step in the body of an object. -/
def bodyStep (p : Platform) (ctx : ObjCtx) (s : DecoderState) : Event → Outcome
  | .start tag attrs =>
    if tag = "MS" ∨ tag = "Props" then .ok (.goto (.object ctx (.members tag)), s)
    else if tag = "TN" then
      (refIdAttr attrs).map fun rid => (.goto (.object ctx (.typeNames rid [])), s)
    else if tag = "TNRef" then
      (refRefIdAttr attrs).map fun rid => (.goto (.object ctx (.skipRef rid 1)), s)
    else if tag = "LST" ∨ tag = "IE" ∨ tag = "QUE" ∨ tag = "STK" then
      .ok (.goto (.object ctx (.list tag [])), s)
    else if tag = "DCT" then .ok (.goto (.object ctx (.dict [])), s)
    else pushElement p [] tag attrs s
  | .empty tag attrs =>
    if tag = "TNRef" then
      (refRefIdAttr attrs).map fun rid =>
        (.goto (.object { ctx with obj := sharedTypeNames rid s ctx.obj } .body), s)
    else .ok (.goto (.object ctx .body), s)
  | .stop tag =>
    if tag = "Obj" then
      let value := .object (exposeValue ctx.embedded ctx.obj)
      (keepReferenced ctx.refId value s).map fun s => (.pop (some value), s)
    else .ok (.goto (.object ctx .body), s)
  | _ => .ok (.goto (.object ctx .body), s)

/-- A step among the members of an object. -/
def membersStep (p : Platform) (ctx : ObjCtx) (closing : String) (s : DecoderState) :
    Event → Outcome
  | .start tag attrs => pushNamed p tag attrs s
  | .empty tag attrs =>
    if tag = "Nil" then
      (nameAttr attrs).map fun name =>
        (.goto (receive (name.getD []) (name.map fun _ => .null) (.object ctx (.members closing))),
          s)
    else receiveEmpty true (.object ctx (.members closing)) tag attrs s
  | .stop tag =>
    .ok (.goto (.object ctx (if tag = closing then .body else .members closing)), s)
  | _ => .ok (.goto (.object ctx (.members closing)), s)

/-- A step in a list. -/
def listStep (p : Platform) (ctx : ObjCtx) (closing : String) (items : List PsValue)
    (s : DecoderState) : Event → Outcome
  | .start tag attrs => pushElement p [] tag attrs s
  | .empty tag attrs => receiveEmpty false (.object ctx (.list closing items)) tag attrs s
  | .stop tag =>
    if tag = closing then
      .ok (.goto (.object { ctx with embedded := some (.list items) } .body), s)
    else .ok (.goto (.object ctx (.list closing items)), s)
  | _ => .ok (.goto (.object ctx (.list closing items)), s)

/-- A step in a dictionary. -/
def dictStep (ctx : ObjCtx) (entries : List (PsValue × PsValue)) (s : DecoderState) :
    Event → Outcome
  | .start tag _ =>
    .ok (.goto (.object ctx
      (if tag = "En" then .entry entries (.null, .null) else .dict entries)), s)
  | .stop tag =>
    if tag = "DCT" then
      .ok (.goto (.object { ctx with embedded := some (.dict entries) } .body), s)
    else .ok (.goto (.object ctx (.dict entries)), s)
  | _ => .ok (.goto (.object ctx (.dict entries)), s)

/-- A step in an entry of a dictionary. -/
def entryStep (p : Platform) (ctx : ObjCtx) (entries : List (PsValue × PsValue))
    (entry : PsValue × PsValue) (s : DecoderState) : Event → Outcome
  | .start tag attrs => pushNamed p tag attrs s
  | .empty tag attrs => receiveEmpty true (.object ctx (.entry entries entry)) tag attrs s
  | .stop tag =>
    .ok (.goto (.object ctx
      (if tag = "En" then .dict (entries ++ [entry]) else .entry entries entry)), s)
  | _ => .ok (.goto (.object ctx (.entry entries entry)), s)

/-- A step among type names. -/
def typeNamesStep (ctx : ObjCtx) (rid : Option Text) (names : List Text) (s : DecoderState) :
    Event → Outcome
  | .start tag _ =>
    .ok (.goto (.object ctx
      (if tag = "T" then .typeName rid names [] else .typeNames rid names)), s)
  | .stop tag =>
    if tag = "TN" then
      .ok (.goto (.object { ctx with obj := { ctx.obj with typeNames := names } } .body),
        rememberTypeNames rid names s)
    else .ok (.goto (.object ctx (.typeNames rid names)), s)
  | _ => .ok (.goto (.object ctx (.typeNames rid names)), s)

/-- A step in a type name. -/
def typeNameStep (ctx : ObjCtx) (rid : Option Text) (names : List Text) (text : Text)
    (s : DecoderState) : Event → Outcome
  | .stop tag =>
    .ok (.goto (.object ctx
      (if tag = "T" then .typeNames rid (names ++ [decodePwshEscapes text])
        else .typeName rid names text)), s)
  | e => (eventText e).map fun t => (.goto (.object ctx (.typeName rid names (text ++ t))), s)

/-- A step inside a `TNRef`. -/
def skipRefStep (ctx : ObjCtx) (rid : Option Text) (level : Nat) (s : DecoderState) :
    Event → Outcome
  | .start _ _ => .ok (.goto (.object ctx (.skipRef rid (level + 1))), s)
  | .stop _ =>
    if level - 1 = 0 then
      .ok (.goto (.object { ctx with obj := sharedTypeNames rid s ctx.obj } .body), s)
    else .ok (.goto (.object ctx (.skipRef rid (level - 1))), s)
  | _ => .ok (.goto (.object ctx (.skipRef rid level)), s)

/-- A step in the text of a leaf. -/
def leafStep (tag : String) (parse : Text → Except PsrpError PsValue) (text : Text)
    (s : DecoderState) : Event → Outcome
  | .stop t =>
    if t = tag then (parse (decodePwshEscapes text)).map fun v => (.pop (some v), s)
    else .ok (.goto (.leaf tag parse text), s)
  | e => (eventText e).map fun t => (.goto (.leaf tag parse (text ++ t)), s)

/-- A step in an element that is skipped. -/
def skipStep (level : Nat) (value : Option PsValue) (s : DecoderState) : Event → Outcome
  | .start _ _ => .ok (.goto (.skip (level + 1) value), s)
  | .stop _ =>
    .ok (if level - 1 = 0 then .pop value else .goto (.skip (level - 1) value), s)
  | _ => .ok (.goto (.skip level value), s)

/-- What an event does to an activity. -/
def Activity.step (p : Platform) (s : DecoderState) : Activity → Event → Outcome
  | .leaf tag parse text => leafStep tag parse text s
  | .skip level value => skipStep level value s
  | .object ctx .body => bodyStep p ctx s
  | .object ctx (.members closing) => membersStep p ctx closing s
  | .object ctx (.list closing items) => listStep p ctx closing items s
  | .object ctx (.dict entries) => dictStep ctx entries s
  | .object ctx (.entry entries entry) => entryStep p ctx entries entry s
  | .object ctx (.typeNames rid names) => typeNamesStep ctx rid names s
  | .object ctx (.typeName rid names text) => typeNameStep ctx rid names text s
  | .object ctx (.skipRef rid level) => skipRefStep ctx rid level s

/-- The value of an activity the document ends in, or the error. -/
def Activity.atEof : Activity → Except PsrpError (Option PsValue)
  | .leaf tag _ _ => .error (clixmlError s!"EOF reading <{tag}>")
  | .skip _ value => .ok value
  | .object _ .body => .error (clixmlError "unexpected EOF inside <Obj>")
  | .object _ (.members _) => .error (clixmlError "EOF inside member set")
  | .object _ (.list _ _) => .error (clixmlError "EOF inside list")
  | .object _ (.dict _) => .error (clixmlError "EOF inside <DCT>")
  | .object _ (.entry _ _) => .error (clixmlError "EOF inside <En>")
  | .object _ (.typeNames _ _) => .error (clixmlError "EOF inside <TN>")
  | .object _ (.typeName _ _ _) => .error (clixmlError "EOF reading <T>")
  -- The end of the document ends the skipping, but not the object.
  | .object _ (.skipRef _ _) => .error (clixmlError "unexpected EOF inside <Obj>")

/-- The state of the machine: the activations, innermost first, the state of
    the decoder and the values read at the top level. -/
structure Config where
  stack : List Frame
  state : DecoderState
  out : List PsValue

/-- Deliver a value to the frame on top, or to the top level. -/
def deliver (name : Text) (v : Option PsValue) (c : Config) : Config :=
  match c.stack with
  | [] => { c with out := c.out ++ v.toList }
  | f :: rest => { c with stack := { f with activity := receive name v f.activity } :: rest }

/-- Carry a move out: the frame on top stood on `rest`. -/
def Config.move (name : Text) (rest : List Frame) (a : Activity) (out : List PsValue)
    (s : DecoderState) : Move → Config
  | .goto b => { stack := ⟨name, b⟩ :: rest, state := s, out := out }
  | .push child => { stack := child :: ⟨name, a⟩ :: rest, state := s, out := out }
  | .pop v => deliver name v { stack := rest, state := { s with depth := s.depth - 1 }, out := out }

/-- One step. -/
def Config.step (p : Platform) (c : Config) (e : Event) : Except PsrpError Config :=
  match c.stack with
  | [] =>
    match e with
    | .start tag attrs =>
      (openElement p [] tag attrs c.state).map fun (f, s) => { c with stack := [f], state := s }
    | .empty tag attrs =>
      (parseEmpty tag attrs c.state).map fun (v, s) =>
        { c with out := c.out ++ v.toList, state := s }
    | _ => .ok c
  | f :: rest =>
    (f.activity.step p c.state e).map fun (m, s) => Config.move f.name rest f.activity c.out s m

/-- The values of a run the document ends: frames are closed from the top,
    the last with `a` in place of its activity. -/
def finish (out : List PsValue) (name : Text) (a : Activity) :
    List Frame → Except PsrpError (List PsValue)
  | [] => a.atEof.map fun v => out ++ v.toList
  | f :: rest =>
    match a.atEof with
    | .error e => .error e
    | .ok v => finish out f.name (receive name v f.activity) rest

/-- The values of a machine at the end of the document. -/
def Config.finish (c : Config) : Except PsrpError (List PsValue) :=
  match c.stack with
  | [] => .ok c.out
  | f :: rest => Machine.finish c.out f.name f.activity rest

/-- Run the machine over events, up to the fault that ends them if one does. -/
def Config.run (p : Platform) (fault : Option String) : Config → List Event →
    Except PsrpError (List PsValue)
  | c, [] => match fault with
    | none => c.finish
    | some m => .error (clixmlError m)
  | c, e :: es => match c.step p e with
    | .error x => .error x
    | .ok c' => Config.run p fault c' es

/-- The machine before a document. -/
def Config.start (s : DecoderState) : Config := { stack := [], state := s, out := [] }

end Machine

end Psrp

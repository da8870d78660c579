import Psrp.Theory.Descent
import Psrp.Theory.Machine

/-!
# What One Step Can Do

The steps of the stack machine, said once.

`Steps` lists what an event can do to the frame on top: one rule for each
thing that happens, with the data it happens to, and without the tests that
led there. Every invariant of a run is proved by going through its rules, and
none unfolds the step functions again.

## Main definitions

* `NamedBy`: The name a value of an element goes under.
* `Activity.sharedId`: The type names that an event shares.
* `Steps`: What an event can do to an activity.
* `Config.Reaches`: Runs of the machine, without failing.

## Theorems

* `steps_of_step`: The rules cover every step.
* `Reaches.counted`: The nesting counter is the height of the stack, at most
  64, in every run.
-/

namespace Psrp

namespace Machine

open Xml (Attr Event)

/-- The name a value goes under: the one in the tag, or none. -/
def NamedBy (attrs : List Attr) (name : Text) : Prop :=
  name = [] ∨ ∃ n, nameAttr attrs = .ok n ∧ name = n.getD []

/-- A mode an object enters from its body, with nothing read in it. -/
inductive Fresh (attrs : List Attr) : Mode → Prop where
  | members (closing : String) : Fresh attrs (.members closing)
  | list (closing : String) : Fresh attrs (.list closing [])
  | dict : Fresh attrs (.dict [])
  | typeNames (rid : Option Text) : refIdAttr attrs = .ok rid → Fresh attrs (.typeNames rid [])
  | skipRef (rid : Option Text) (level : Nat) :
    refRefIdAttr attrs = .ok rid → Fresh attrs (.skipRef rid level)

/-- The id of the type names that a `TNRef` shares with an event, if the event
    ends one. -/
def Activity.sharedId : Activity → Event → Option Text
  | .object _ .body, .empty tag attrs =>
    if tag = "TNRef" then
      match refRefIdAttr attrs with
      | .ok rid => rid
      | .error _ => none
    else none
  | .object _ (.skipRef rid level), .stop _ => if level - 1 = 0 then rid else none
  | _, _ => none

/-- What an event can do to an activity: the move it makes, and the state of
    the decoder after it. -/
inductive Steps (p : Platform) (s : DecoderState) :
    Activity → Event → Move → DecoderState → Prop where
  | opened {a name tag attrs f s'} : NamedBy attrs name →
    openElement p name tag attrs s = .ok (f, s') → Steps p s a (.start tag attrs) (.push f) s'
  | received {a name tag attrs v s'} : NamedBy attrs name →
    parseEmpty tag attrs s = .ok (some v, s') →
    Steps p s a (.empty tag attrs) (.goto (receive name (some v) a)) s'
  | ignored {a e} : Steps p s a e (.goto a) s
  | leafText {tag parse text e t} : eventText e = .ok t →
    Steps p s (.leaf tag parse text) e (.goto (.leaf tag parse (text ++ t))) s
  | leafClosed {tag parse text v} : parse (decodePwshEscapes text) = .ok v →
    Steps p s (.leaf tag parse text) (.stop tag) (.pop (some v)) s
  | skipped {level level' value e} :
    Steps p s (.skip level value) e (.goto (.skip level' value)) s
  | skipClosed {level value t} : Steps p s (.skip level value) (.stop t) (.pop value) s
  | entered {ctx tag attrs mode} : Fresh attrs mode →
    Steps p s (.object ctx .body) (.start tag attrs) (.goto (.object ctx mode)) s
  | objectClosed {ctx s'} :
    keepReferenced ctx.refId (.object (exposeValue ctx.embedded ctx.obj)) s = .ok s' →
    Steps p s (.object ctx .body) (.stop "Obj")
      (.pop (some (.object (exposeValue ctx.embedded ctx.obj)))) s'
  | shared {ctx mode e rid} : Activity.sharedId (.object ctx mode) e = rid →
    Steps p s (.object ctx mode) e
      (.goto (.object { ctx with obj := sharedTypeNames rid s ctx.obj } .body)) s
  | refSkipped {ctx rid level level' e} :
    Steps p s (.object ctx (.skipRef rid level)) e (.goto (.object ctx (.skipRef rid level'))) s
  | membersClosed {ctx closing} :
    Steps p s (.object ctx (.members closing)) (.stop closing) (.goto (.object ctx .body)) s
  | listClosed {ctx closing items} :
    Steps p s (.object ctx (.list closing items)) (.stop closing)
      (.goto (.object { ctx with embedded := some (.list items) } .body)) s
  | dictClosed {ctx entries} :
    Steps p s (.object ctx (.dict entries)) (.stop "DCT")
      (.goto (.object { ctx with embedded := some (.dict entries) } .body)) s
  | entryOpened {ctx entries attrs} :
    Steps p s (.object ctx (.dict entries)) (.start "En" attrs)
      (.goto (.object ctx (.entry entries (.null, .null)))) s
  | entryClosed {ctx entries entry} :
    Steps p s (.object ctx (.entry entries entry)) (.stop "En")
      (.goto (.object ctx (.dict (entries ++ [entry])))) s
  | typeNameOpened {ctx rid names attrs} :
    Steps p s (.object ctx (.typeNames rid names)) (.start "T" attrs)
      (.goto (.object ctx (.typeName rid names []))) s
  | typeNameText {ctx rid names text e t} : eventText e = .ok t →
    Steps p s (.object ctx (.typeName rid names text)) e
      (.goto (.object ctx (.typeName rid names (text ++ t)))) s
  | typeNameClosed {ctx rid names text} :
    Steps p s (.object ctx (.typeName rid names text)) (.stop "T")
      (.goto (.object ctx (.typeNames rid (names ++ [decodePwshEscapes text])))) s
  | typeNamesClosed {ctx rid names} :
    Steps p s (.object ctx (.typeNames rid names)) (.stop "TN")
      (.goto (.object { ctx with obj := { ctx.obj with typeNames := names } } .body))
      (rememberTypeNames rid names s)

section Rules

variable {p : Platform} {s s' : DecoderState} {m : Move}

theorem steps_push (a : Activity) (name : Text) (tag : String) (attrs : List Attr)
    (hname : NamedBy attrs name) (h : pushElement p name tag attrs s = .ok (m, s')) :
    Steps p s a (.start tag attrs) m s' := by
  rw [pushElement, except_map_eq_ok] at h
  rcases h with ⟨⟨f, t⟩, hopen, h⟩
  cases h
  exact .opened hname hopen

theorem steps_pushNamed (a : Activity) (tag : String) (attrs : List Attr)
    (h : pushNamed p tag attrs s = .ok (m, s')) : Steps p s a (.start tag attrs) m s' := by
  rw [pushNamed] at h
  cases hname : nameAttr attrs with
  | error x =>
      rw [hname] at h
      cases h
  | ok name =>
      rw [hname] at h
      exact steps_push a _ tag attrs (Or.inr ⟨name, hname, rfl⟩) h

theorem steps_receiveEmpty (named : Bool) (a : Activity) (tag : String) (attrs : List Attr)
    (hstate : ∀ s', parseEmpty tag attrs s = .ok (none, s') → s' = s)
    (h : receiveEmpty named a tag attrs s = .ok (m, s')) :
    Steps p s a (.empty tag attrs) m s' := by
  rw [receiveEmpty] at h
  cases hempty : parseEmpty tag attrs s with
  | error x =>
      rw [hempty] at h
      cases h
  | ok r =>
      rcases r with ⟨v, t⟩
      cases v with
      | none =>
          rw [hempty] at h
          cases h
          rw [hstate _ hempty]
          exact .ignored
      | some v =>
          simp only [hempty] at h
          cases named with
          | false =>
              cases h
              exact .received (Or.inl rfl) hempty
          | true =>
              rw [if_pos rfl, except_map_eq_ok] at h
              rcases h with ⟨name, hname, h⟩
              cases h
              exact .received (Or.inr ⟨name, hname, rfl⟩) hempty

/-- A self-closed element without a value leaves the state alone. -/
theorem parseEmpty_none (tag : String) (attrs : List Attr)
    (h : parseEmpty tag attrs s = .ok (none, s')) : s' = s := by
  rcases parseEmpty_cases tag attrs s s' none h with
    ⟨_, hv, _⟩ | ⟨_, _, hv, _⟩ | ⟨_, hv, _⟩ | ⟨_, hv, _⟩ | ⟨_, rfl⟩
  · cases hv
  · cases hv
  · cases hv
  · cases hv
  · rfl

theorem steps_body (ctx : ObjCtx) (e : Event) (h : bodyStep p ctx s e = .ok (m, s')) :
    Steps p s (.object ctx .body) e m s' := by
  cases e with
  | start tag attrs =>
      simp only [bodyStep] at h
      -- The parts of an object are entered; any other tag is a value of its own.
      split_ifs at h
      · cases h
        exact .entered (.members tag)
      · rw [except_map_eq_ok] at h
        rcases h with ⟨rid, hrid, h⟩
        cases h
        exact .entered (.typeNames rid hrid)
      · rw [except_map_eq_ok] at h
        rcases h with ⟨rid, hrid, h⟩
        cases h
        exact .entered (.skipRef rid 1 hrid)
      · cases h
        exact .entered (.list tag)
      · cases h
        exact .entered .dict
      · exact steps_push _ [] tag attrs (Or.inl rfl) h
  | empty tag attrs =>
      simp only [bodyStep] at h
      -- Self-closed, only a reference to type names has an effect.
      split_ifs at h with htag
      · rw [except_map_eq_ok] at h
        rcases h with ⟨rid, hrid, h⟩
        cases h
        exact .shared (by simp only [Activity.sharedId, if_pos htag, hrid])
      · cases h
        exact .ignored
  | stop tag =>
      simp only [bodyStep] at h
      split_ifs at h with htag
      · rw [except_map_eq_ok] at h
        rcases h with ⟨t, hkeep, h⟩
        cases h
        rw [htag]
        exact .objectClosed hkeep
      · cases h
        exact .ignored
  | _ =>
      cases h
      exact .ignored

theorem steps_members (ctx : ObjCtx) (closing : String) (e : Event)
    (h : membersStep p ctx closing s e = .ok (m, s')) :
    Steps p s (.object ctx (.members closing)) e m s' := by
  cases e with
  | start tag attrs => exact steps_pushNamed _ tag attrs h
  | empty tag attrs =>
      simp only [membersStep] at h
      split_ifs at h with htag
      · rw [except_map_eq_ok] at h
        rcases h with ⟨name, hname, h⟩
        cases h
        cases name with
        | none => exact .ignored
        | some name =>
            refine .received (Or.inr ⟨some name, hname, rfl⟩) ?_
            rw [parseEmpty, if_pos htag]
      · exact steps_receiveEmpty true _ tag attrs (fun _ => parseEmpty_none tag attrs) h
  | stop tag =>
      simp only [membersStep] at h
      split_ifs at h with htag
      · cases h
        rw [htag]
        exact .membersClosed
      · cases h
        exact .ignored
  | _ =>
      cases h
      exact .ignored

theorem steps_list (ctx : ObjCtx) (closing : String) (items : List PsValue) (e : Event)
    (h : listStep p ctx closing items s e = .ok (m, s')) :
    Steps p s (.object ctx (.list closing items)) e m s' := by
  cases e with
  | start tag attrs => exact steps_push _ [] tag attrs (Or.inl rfl) h
  | empty tag attrs =>
      exact steps_receiveEmpty false _ tag attrs (fun _ => parseEmpty_none tag attrs) h
  | stop tag =>
      simp only [listStep] at h
      split_ifs at h with htag
      · cases h
        rw [htag]
        exact .listClosed
      · cases h
        exact .ignored
  | _ =>
      cases h
      exact .ignored

theorem steps_dict (ctx : ObjCtx) (entries : List (PsValue × PsValue)) (e : Event)
    (h : dictStep ctx entries s e = .ok (m, s')) :
    Steps p s (.object ctx (.dict entries)) e m s' := by
  cases e with
  | start tag attrs =>
      simp only [dictStep] at h
      split_ifs at h with htag
      · cases h
        rw [htag]
        exact .entryOpened
      · cases h
        exact .ignored
  | stop tag =>
      simp only [dictStep] at h
      split_ifs at h with htag
      · cases h
        rw [htag]
        exact .dictClosed
      · cases h
        exact .ignored
  | _ =>
      cases h
      exact .ignored

theorem steps_entry (ctx : ObjCtx) (entries : List (PsValue × PsValue))
    (entry : PsValue × PsValue) (e : Event)
    (h : entryStep p ctx entries entry s e = .ok (m, s')) :
    Steps p s (.object ctx (.entry entries entry)) e m s' := by
  cases e with
  | start tag attrs => exact steps_pushNamed _ tag attrs h
  | empty tag attrs =>
      exact steps_receiveEmpty true _ tag attrs (fun _ => parseEmpty_none tag attrs) h
  | stop tag =>
      simp only [entryStep] at h
      split_ifs at h with htag
      · cases h
        rw [htag]
        exact .entryClosed
      · cases h
        exact .ignored
  | _ =>
      cases h
      exact .ignored

theorem steps_typeNames (ctx : ObjCtx) (rid : Option Text) (names : List Text) (e : Event)
    (h : typeNamesStep ctx rid names s e = .ok (m, s')) :
    Steps p s (.object ctx (.typeNames rid names)) e m s' := by
  cases e with
  | start tag attrs =>
      simp only [typeNamesStep] at h
      split_ifs at h with htag
      · cases h
        rw [htag]
        exact .typeNameOpened
      · cases h
        exact .ignored
  | stop tag =>
      simp only [typeNamesStep] at h
      split_ifs at h with htag
      · cases h
        rw [htag]
        exact .typeNamesClosed
      · cases h
        exact .ignored
  | _ =>
      cases h
      exact .ignored

theorem steps_typeName (ctx : ObjCtx) (rid : Option Text) (names : List Text) (text : Text)
    (e : Event) (h : typeNameStep ctx rid names text s e = .ok (m, s')) :
    Steps p s (.object ctx (.typeName rid names text)) e m s' := by
  cases e with
  | stop tag =>
      simp only [typeNameStep] at h
      split_ifs at h with htag
      · cases h
        rw [htag]
        exact .typeNameClosed
      · cases h
        exact .ignored
  | start | empty | text | cdata | generalRef | other =>
      simp only [typeNameStep, except_map_eq_ok] at h
      rcases h with ⟨t, ht, h⟩
      cases h
      exact .typeNameText ht

theorem steps_skipRef (ctx : ObjCtx) (rid : Option Text) (level : Nat) (e : Event)
    (h : skipRefStep ctx rid level s e = .ok (m, s')) :
    Steps p s (.object ctx (.skipRef rid level)) e m s' := by
  cases e with
  | stop tag =>
      simp only [skipRefStep] at h
      split_ifs at h with hlevel
      · cases h
        exact .shared (if_pos hlevel)
      · cases h
        exact .refSkipped
  | _ =>
      cases h
      exact .refSkipped

theorem steps_leaf (tag : String) (parse : Text → Except PsrpError PsValue) (text : Text)
    (e : Event) (h : leafStep tag parse text s e = .ok (m, s')) :
    Steps p s (.leaf tag parse text) e m s' := by
  cases e with
  | stop t =>
      simp only [leafStep] at h
      split_ifs at h with htag
      · rw [except_map_eq_ok] at h
        rcases h with ⟨v, hparse, h⟩
        cases h
        rw [htag]
        exact .leafClosed hparse
      · cases h
        exact .ignored
  | start | empty | text | cdata | generalRef | other =>
      simp only [leafStep, except_map_eq_ok] at h
      rcases h with ⟨t, ht, h⟩
      cases h
      exact .leafText ht

theorem steps_skip (level : Nat) (value : Option PsValue) (e : Event)
    (h : skipStep level value s e = .ok (m, s')) : Steps p s (.skip level value) e m s' := by
  cases e with
  | stop t =>
      simp only [skipStep] at h
      split_ifs at h
      · cases h
        exact .skipClosed
      · cases h
        exact .skipped
  | _ =>
      cases h
      exact .skipped

/-- The rules cover every step of a frame. -/
theorem steps_of_step (a : Activity) (e : Event) (h : a.step p s e = .ok (m, s')) :
    Steps p s a e m s' := by
  cases a with
  | leaf tag parse text => exact steps_leaf tag parse text e h
  | skip level value => exact steps_skip level value e h
  | object ctx mode =>
      cases mode with
      | body => exact steps_body ctx e h
      | members closing => exact steps_members ctx closing e h
      | list closing items => exact steps_list ctx closing items e h
      | dict entries => exact steps_dict ctx entries e h
      | entry entries entry => exact steps_entry ctx entries entry e h
      | typeNames rid names => exact steps_typeNames ctx rid names e h
      | typeName rid names text => exact steps_typeName ctx rid names text e h
      | skipRef rid level => exact steps_skipRef ctx rid level e h

end Rules

/-- Opening an element counts one level, within the limit. -/
theorem openElement_depth (p : Platform) (name : Text) (tag : String) (attrs : List Attr)
    (s s' : DecoderState) (f : Frame) (h : openElement p name tag attrs s = .ok (f, s')) :
    s'.depth = s.depth + 1 ∧ s.depth < MAX_NESTING_DEPTH := by
  rcases openElement_cases p name tag attrs s s' f h with ⟨hlt, hcases⟩
  refine ⟨?_, hlt⟩
  rcases hcases with ⟨_, _, _, rfl⟩ | ⟨_, _, _, _, rfl⟩ | ⟨v, _, hres, _⟩ | ⟨_, _, _, _, rfl⟩
  · rfl
  · rfl
  · exact resolveRef_depth attrs 0 _ s' v hres
  · rfl

/-- The levels a move adds below the frame it starts from. -/
def Move.opens : Move → Nat
  | .push _ => 1
  | _ => 0

/-- No step changes the nesting counter but by opening an element. -/
theorem Steps.depth {p : Platform} {s s' : DecoderState} {a : Activity} {e : Event} {m : Move}
    (h : Steps p s a e m s') :
    s'.depth = s.depth + m.opens ∧ s.depth + m.opens ≤ max s.depth MAX_NESTING_DEPTH := by
  cases h with
  | opened _ hopen =>
      have hd := openElement_depth p _ _ _ s s' _ hopen
      exact ⟨hd.1, by simp only [Move.opens]; omega⟩
  | received _ hempty => exact ⟨parseEmpty_depth _ _ s s' _ hempty, Nat.le_max_left _ _⟩
  | objectClosed hkeep => exact ⟨keepReferenced_depth _ _ s s' hkeep, Nat.le_max_left _ _⟩
  | typeNamesClosed => exact ⟨rememberTypeNames_depth _ _ s, Nat.le_max_left _ _⟩
  | _ => exact ⟨rfl, Nat.le_max_left _ _⟩

/-- Runs of the machine that do not fail. -/
inductive Config.Reaches (p : Platform) : Config → List Event → Config → Prop where
  | refl (c : Config) : Reaches p c [] c
  | step {c c' c'' : Config} {e : Event} {es : List Event} :
    c.step p e = .ok c' → Reaches p c' es c'' → Reaches p c (e :: es) c''

theorem Config.Reaches.trans {p : Platform} {c d c' : Config} {es fs : List Event}
    (h : c.Reaches p es d) (h' : d.Reaches p fs c') : c.Reaches p (es ++ fs) c' := by
  induction h with
  | refl => exact h'
  | step hstep _ ih => exact .step hstep (ih h')

/-- A run over two parts of a document passes through the end of the first. -/
theorem Config.Reaches.split {p : Platform} {fs : List Event} (es : List Event) :
    ∀ {c c' : Config}, c.Reaches p (es ++ fs) c' → ∃ d, c.Reaches p es d ∧ d.Reaches p fs c' := by
  induction es with
  | nil => exact fun h => ⟨_, .refl _, h⟩
  | cons e es ih =>
      intro c c' h
      cases h with
      | step hstep hrest =>
          rcases ih hrest with ⟨d, hd, hfs⟩
          exact ⟨d, .step hstep hd, hfs⟩

/-- The nesting counter is the height of the stack, within the limit. -/
def Config.Counted (c : Config) : Prop :=
  c.state.depth = c.stack.length ∧ c.stack.length ≤ MAX_NESTING_DEPTH

theorem deliver_state (name : Text) (v : Option PsValue) (c : Config) :
    (deliver name v c).state = c.state := by
  rw [deliver]
  cases c.stack <;> rfl

theorem deliver_length (name : Text) (v : Option PsValue) (c : Config) :
    (deliver name v c).stack.length = c.stack.length := by
  rcases c with ⟨stack, s, out⟩
  cases stack <;> rfl

theorem Config.Counted.step {p : Platform} {c c' : Config} {e : Event} (hc : c.Counted)
    (h : c.step p e = .ok c') : c'.Counted := by
  rcases c with ⟨stack, s, out⟩
  rcases hc with ⟨hdepth, hmax⟩
  cases stack with
  | nil =>
      cases e with
      | start tag attrs =>
          simp only [Config.step, except_map_eq_ok] at h
          rcases h with ⟨⟨f, s'⟩, hopen, rfl⟩
          -- An element counts a level when it is opened, and only then.
          have hd := openElement_depth p [] tag attrs s s' f hopen
          simp only [List.length_nil] at hdepth
          exact ⟨by simp only [List.length_singleton]; omega, by
            simp only [List.length_singleton, MAX_NESTING_DEPTH]; omega⟩
      | empty tag attrs =>
          simp only [Config.step, except_map_eq_ok] at h
          rcases h with ⟨⟨v, s'⟩, hempty, rfl⟩
          exact ⟨(parseEmpty_depth tag attrs s s' v hempty).trans hdepth, hmax⟩
      | _ =>
          cases h
          exact ⟨hdepth, hmax⟩
  | cons f rest =>
      simp only [Config.step, except_map_eq_ok] at h
      rcases h with ⟨⟨m, s'⟩, hstep, rfl⟩
      have hd := (steps_of_step f.activity e hstep).depth
      simp only [List.length_cons] at hdepth hmax
      -- A move keeps the frames and the depth in step.
      cases m with
      | goto b => exact ⟨hd.1.trans hdepth, hmax⟩
      | push child =>
          simp only [Move.opens] at hd
          exact ⟨by simp only [Config.move, List.length_cons]; omega,
            by simp only [Config.move, List.length_cons]; omega⟩
      | pop v =>
          simp only [Move.opens, Nat.add_zero] at hd
          refine ⟨?_, ?_⟩
          · rw [Config.move, deliver_state, deliver_length]
            simp only []
            omega
          · rw [Config.move, deliver_length]
            simp only []
            omega

/-- The nesting counter is the height of the stack, at most 64, in every
    run. -/
theorem Config.Reaches.counted {p : Platform} {c c' : Config} {es : List Event}
    (h : Config.Reaches p c es c') (hc : c.Counted) : c'.Counted := by
  induction h with
  | refl => exact hc
  | step hstep _ ih => exact ih (hc.step hstep)

end Machine

end Psrp

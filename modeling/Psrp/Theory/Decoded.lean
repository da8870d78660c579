import Psrp.Theory.MachineRefinement

/-!
# What Is True of Every Decoded Value

Properties of values that the decoder establishes, by rules.

A property of decoded values is given per nesting level: `Q d` for a value
that an element at level `d` hands to what surrounds it, and `E d` for what
may stand bare in an object at level `d`. `Closed` lists the ways a value comes
about: a leaf, a self-closed element, a list, a dictionary, an object from its
members or from what stands bare in it, and a copy of an object that a
reference points to. A property closed under these holds of whatever the
decoder returns (`closed_parseClixml`); the machine, its stack and its modes
are dealt with here, once.

## Main definitions

* `Closed`: The rules of a property of decoded values.
* `Config.Holds`: The property, throughout a configuration.

## Theorems

* `Steps.holds`, `Config.Holds.step`: A step keeps it.
* `closed_parseClixml`: It holds of what is returned.
-/

namespace Psrp

namespace Machine

open Xml (Attr Event)

/-- The rules of a property of decoded values. -/
structure Closed (p : Platform) (Q E : Nat → PsValue → Prop) : Prop where
  leaf : ∀ d tag parse t v, leafParser p tag = some parse → parse t = .ok v → Q d v
  null : ∀ d, Q d .null
  emptyString : ∀ d, Q d (.string [])
  emptyScript : ∀ d, Q d (.scriptBlock [])
  /-- Any value may stand bare. -/
  bare : ∀ d v, Q d v → E d v
  list : ∀ d items, (∀ v ∈ items, Q d v) → E d (.list items)
  dict : ∀ d entries, (∀ e ∈ entries, Q d e.1 ∧ Q d e.2) → E d (.dict entries)
  object : ∀ d, d < MAX_NESTING_DEPTH → ∀ o : PsObject, o.toString = none →
    IndexMap.Keyed o.properties → (∀ q ∈ o.properties, Q (d + 1) q.2) → Q d (.object o)
  exposed : ∀ d, d < MAX_NESTING_DEPTH → ∀ typeNames v, E (d + 1) v →
    Q d (.object ⟨[(valueKey, v)], typeNames, none⟩)
  copied : ∀ d d' v, Q d' v → d + 1 + (measure v).2 ≤ MAX_NESTING_DEPTH → Q d v

section Holds

variable (Q E : Nat → PsValue → Prop)

/-- The property of an object under construction at level `d`. -/
structure ObjCtx.Holds (d : Nat) (ctx : ObjCtx) : Prop where
  toString : ctx.obj.toString = none
  keyed : IndexMap.Keyed ctx.obj.properties
  members : ∀ q ∈ ctx.obj.properties, Q d q.2
  embedded : ∀ v ∈ ctx.embedded, E d v

/-- The property of what a loop has read at level `d`. -/
def Mode.Holds (d : Nat) : Mode → Prop
  | .list _ items => ∀ v ∈ items, Q d v
  | .dict entries => ∀ e ∈ entries, Q d e.1 ∧ Q d e.2
  | .entry entries current =>
    (∀ e ∈ entries, Q d e.1 ∧ Q d e.2) ∧ Q d current.1 ∧ Q d current.2
  | _ => True

/-- The property of an activation at level `d + 1`. -/
def Activity.Holds (p : Platform) (d : Nat) : Activity → Prop
  | .leaf tag parse _ => leafParser p tag = some parse
  | .skip _ value => ∀ v ∈ value, Q d v
  | .object ctx mode => ctx.Holds Q E (d + 1) ∧ mode.Holds Q (d + 1)

/-- The property of a stack. -/
def StackHolds (p : Platform) : List Frame → Prop
  | [] => True
  | f :: rest => f.activity.Holds Q E p rest.length ∧ StackHolds p rest

/-- The property of a move from level `d + 1`. -/
def Move.Holds (p : Platform) (d : Nat) : Move → Prop
  | .goto b => b.Holds Q E p d
  | .push f => f.activity.Holds Q E p (d + 1)
  | .pop v => ∀ w ∈ v, Q d w

/-- The property of the objects kept for references. -/
def RefsHold (s : DecoderState) : Prop := ∀ e ∈ s.refs, ∃ d, Q d e.2

/-- The property throughout a configuration. -/
structure Config.Holds (p : Platform) (c : Config) : Prop where
  stack : StackHolds Q E p c.stack
  refs : RefsHold Q c.state
  out : ∀ v ∈ c.out, Q 0 v

end Holds

section Rules

variable {p : Platform} {Q E : Nat → PsValue → Prop} (hQ : Closed p Q E)

include hQ

omit hQ in
theorem objCtx_start_holds (d : Nat) (refId : Option Text) :
    ObjCtx.Holds Q E d ⟨refId, PsObject.new, none⟩ where
  toString := rfl
  keyed := List.nodup_nil
  members _ hq := absurd hq List.not_mem_nil
  embedded v hv := absurd hv (Option.not_mem_none v)

/-- A reference has the property at the level it is planted. -/
theorem Closed.resolveRef {attrs : List Attr} {level d : Nat} {s s' : DecoderState} {v : PsValue}
    (hrefs : RefsHold Q s) (hd : s.depth + level = d + 1)
    (h : resolveRef attrs level s = .ok (v, s')) : Q d v ∧ RefsHold Q s' := by
  rcases resolveRef_cases attrs level s s' v h with ⟨rfl, rfl⟩ | ⟨id, _, hget, hnest, hcharge⟩
  · exact ⟨hQ.null d, hrefs⟩
  · rcases hrefs _ (IndexMap.mem_of_get _ _ _ hget) with ⟨d', hv⟩
    refine ⟨hQ.copied d d' v hv ?_, ?_⟩
    · simp only [satAdd32, MAX_NESTING_DEPTH] at hnest ⊢
      omega
    · simp only [DecoderState.charge] at hcharge
      split_ifs at hcharge
      cases hcharge
      exact hrefs

/-- What a self-closed element is has the property. -/
theorem Closed.parseEmpty {tag : String} {attrs : List Attr} {d : Nat} {s s' : DecoderState}
    {v : Option PsValue} (hrefs : RefsHold Q s) (hd : s.depth = d)
    (h : parseEmpty tag attrs s = .ok (v, s')) : (∀ w ∈ v, Q d w) ∧ RefsHold Q s' := by
  -- Of the self-closed elements, a reference copies a value that holds already.
  rcases parseEmpty_cases tag attrs s s' v h with
    ⟨_, rfl, rfl⟩ | ⟨_, w, rfl, hres⟩ | ⟨_, rfl, rfl⟩ | ⟨_, rfl, rfl⟩ | ⟨rfl, rfl⟩
  · refine ⟨fun w hw => ?_, hrefs⟩
    cases hw
    exact hQ.null d
  · have hr := hQ.resolveRef (d := d) hrefs (by omega) hres
    refine ⟨fun u hu => ?_, hr.2⟩
    cases hu
    exact hr.1
  · refine ⟨fun w hw => ?_, hrefs⟩
    cases hw
    exact hQ.emptyString d
  · refine ⟨fun w hw => ?_, hrefs⟩
    cases hw
    exact hQ.emptyScript d
  · exact ⟨fun w hw => absurd hw (Option.not_mem_none w), hrefs⟩

/-- A frame that is opened has the property, at one level more. -/
theorem Closed.openElement {name : Text} {tag : String} {attrs : List Attr} {d : Nat}
    {s s' : DecoderState} {f : Frame} (hrefs : RefsHold Q s) (hd : s.depth = d)
    (h : openElement p name tag attrs s = .ok (f, s')) :
    f.activity.Holds Q E p d ∧ RefsHold Q s' := by
  rcases (openElement_cases p name tag attrs s s' f h).2 with
    ⟨parse, hparse, rfl, rfl⟩ | ⟨refId, _, _, rfl, rfl⟩ | ⟨v, _, hres, rfl⟩ | ⟨_, _, _, rfl, rfl⟩
  · exact ⟨hparse, hrefs⟩
  · exact ⟨⟨objCtx_start_holds (d + 1) refId, trivial⟩, hrefs⟩
  · have hr := hQ.resolveRef (d := d) (s := { s with depth := s.depth + 1 }) hrefs
      (by simp only []; omega) hres
    refine ⟨fun w hw => ?_, hr.2⟩
    cases hw
    exact hr.1
  · exact ⟨fun w hw => absurd hw (Option.not_mem_none w), hrefs⟩

omit hQ in
/-- A member is added. -/
theorem ObjCtx.Holds.with {d : Nat} {ctx : ObjCtx} (h : ctx.Holds Q E d) (name : Text)
    (v : PsValue) (hv : Q d v) : ObjCtx.Holds Q E d { ctx with obj := ctx.obj.with name v } where
  toString := h.toString
  keyed := IndexMap.keyed_insert _ _ _ h.keyed
  members q hq := by
    rcases IndexMap.mem_insert _ _ _ _ hq with rfl | hq
    · exact hv
    · exact h.members q hq
  embedded := h.embedded

omit hQ in
theorem ObjCtx.Holds.embed {d : Nat} {ctx : ObjCtx} (h : ctx.Holds Q E d) (v : Option PsValue)
    (hv : ∀ w ∈ v, E d w) : ObjCtx.Holds Q E d { ctx with embedded := v } where
  toString := h.toString
  keyed := h.keyed
  members := h.members
  embedded := hv

omit hQ in
theorem ObjCtx.Holds.withTypeNames {d : Nat} {ctx : ObjCtx} (h : ctx.Holds Q E d)
    (names : List Text) :
    ObjCtx.Holds Q E d { ctx with obj := { ctx.obj with typeNames := names } } where
  toString := h.toString
  keyed := h.keyed
  members := h.members
  embedded := h.embedded

omit hQ in
theorem ObjCtx.Holds.shared {d : Nat} {ctx : ObjCtx} (h : ctx.Holds Q E d) (rid : Option Text)
    (s : DecoderState) :
    ObjCtx.Holds Q E d { ctx with obj := sharedTypeNames rid s ctx.obj } := by
  rw [sharedTypeNames]
  cases rid.bind fun r => IndexMap.get r s.typeNames with
  | none => exact h
  | some names => exact h.withTypeNames names

/-- A delivered value keeps the property of what receives it. -/
theorem Closed.receive {d : Nat} {a : Activity} (name : Text) (v : Option PsValue)
    (ha : a.Holds Q E p d) (hv : ∀ w ∈ v, Q (d + 1) w) : (receive name v a).Holds Q E p d := by
  cases a with
  | leaf | skip => exact ha
  | object ctx mode =>
      rcases ha with ⟨hctx, hmode⟩
      cases mode with
      | body =>
          refine ⟨hctx.embed _ fun w hw => ?_, hmode⟩
          -- The first bare value stays.
          cases hembedded : ctx.embedded with
          | none =>
              rw [hembedded] at hw
              exact hQ.bare _ w (hv w hw)
          | some u =>
              rw [hembedded] at hw
              exact hctx.embedded w (hembedded ▸ hw)
      | members closing =>
          cases v with
          | none => exact ⟨hctx, hmode⟩
          | some v => exact ⟨hctx.with name v (hv v rfl), hmode⟩
      | list closing items =>
          refine ⟨hctx, fun w hw => ?_⟩
          rcases List.mem_append.mp hw with hw | hw
          · exact hmode w hw
          · exact hv w (Option.mem_toList.mp hw)
      | entry entries entry =>
          cases v with
          | none => exact ⟨hctx, hmode⟩
          | some v =>
              refine ⟨hctx, hmode.1, ?_⟩
              show Q _ (setEntry name v entry).1 ∧ Q _ (setEntry name v entry).2
              rw [setEntry]
              -- A key, a value, or neither.
              split_ifs
              · exact ⟨hv v rfl, hmode.2.2⟩
              · exact ⟨hmode.2.1, hv v rfl⟩
              · exact hmode.2
      | _ => exact ⟨hctx, hmode⟩

/-- The object that a frame delivers. -/
theorem Closed.closeObject {d : Nat} {ctx : ObjCtx} (hd : d < MAX_NESTING_DEPTH)
    (hctx : ctx.Holds Q E (d + 1)) : Q d (.object (exposeValue ctx.embedded ctx.obj)) := by
  cases hembedded : ctx.embedded with
  | none => exact hQ.object d hd _ hctx.toString hctx.keyed hctx.members
  | some v =>
      rw [exposeValue]
      split_ifs with hprops
      · rcases ctx with ⟨refId, ⟨props, typeNames, toString⟩, embedded⟩
        cases hprops
        rw [PsObject.with, show toString = none from hctx.toString]
        exact hQ.exposed d hd typeNames v (hctx.embedded v hembedded)
      · exact hQ.object d hd _ hctx.toString hctx.keyed hctx.members

omit hQ in
theorem refsHold_keepReferenced {d : Nat} {refId : Option Text} {v : PsValue} {s s' : DecoderState}
    (hv : Q d v) (hrefs : RefsHold Q s) (h : keepReferenced refId v s = .ok s') :
    RefsHold Q s' := by
  simp only [keepReferenced] at h
  split at h
  · cases h
    exact hrefs
  · rw [except_map_eq_ok] at h
    rcases h with ⟨t, hcharge, rfl⟩
    simp only [DecoderState.charge] at hcharge
    split_ifs at hcharge
    cases hcharge
    intro e he
    rcases IndexMap.mem_insert _ _ _ _ he with rfl | he
    · exact ⟨d, hv⟩
    · exact hrefs e he

omit hQ in
theorem refsHold_rememberTypeNames {rid : Option Text} {names : List Text} {s : DecoderState}
    (h : RefsHold Q s) : RefsHold Q (rememberTypeNames rid names s) := by
  cases rid <;> exact h

/-- A step keeps the property. -/
theorem Steps.holds {a : Activity} {e : Event} {m : Move} {s s' : DecoderState} {d : Nat}
    (h : Steps p s a e m s') (ha : a.Holds Q E p d) (hrefs : RefsHold Q s)
    (hd : s.depth = d + 1) (hmax : d < MAX_NESTING_DEPTH) :
    m.Holds Q E p d ∧ RefsHold Q s' := by
  -- Every value that is put anywhere was made by one of the rules.
  cases h with
  | opened _ hopen => exact hQ.openElement hrefs hd hopen
  | received _ hempty =>
      have hv := hQ.parseEmpty hrefs hd hempty
      exact ⟨hQ.receive _ _ ha hv.1, hv.2⟩
  | leafClosed hparse =>
      refine ⟨fun w hw => ?_, hrefs⟩
      cases hw
      exact hQ.leaf d _ _ _ _ ha hparse
  | entered hfresh =>
      refine ⟨⟨ha.1, ?_⟩, hrefs⟩
      cases hfresh with
      | list | dict => exact fun _ h => absurd h List.not_mem_nil
      | _ => trivial
  | objectClosed hkeep =>
      -- An object is complete: its parts were made by the rules.
      have hv := hQ.closeObject hmax ha.1
      refine ⟨fun w hw => ?_, refsHold_keepReferenced hv hrefs hkeep⟩
      cases hw
      exact hv
  | shared => exact ⟨⟨ha.1.shared _ _, trivial⟩, hrefs⟩
  | membersClosed => exact ⟨⟨ha.1, trivial⟩, hrefs⟩
  | listClosed =>
      refine ⟨⟨ha.1.embed _ fun w hw => ?_, trivial⟩, hrefs⟩
      cases hw
      exact hQ.list _ _ ha.2
  | dictClosed =>
      refine ⟨⟨ha.1.embed _ fun w hw => ?_, trivial⟩, hrefs⟩
      cases hw
      exact hQ.dict _ _ ha.2
  | entryOpened => exact ⟨⟨ha.1, ha.2, hQ.null _, hQ.null _⟩, hrefs⟩
  | entryClosed =>
      refine ⟨⟨ha.1, fun e he => ?_⟩, hrefs⟩
      rcases List.mem_append.mp he with he | he
      · exact ha.2.1 e he
      · rw [List.mem_singleton.mp he]
        exact ha.2.2
  | typeNamesClosed => exact ⟨⟨ha.1.withTypeNames _, trivial⟩, refsHold_rememberTypeNames hrefs⟩
  | ignored | leafText | skipped | skipClosed => exact ⟨ha, hrefs⟩
  | _ => exact ⟨⟨ha.1, trivial⟩, hrefs⟩

/-- A delivered value keeps the property of the configuration. -/
theorem Closed.deliver {c : Config} (name : Text) (v : Option PsValue) (hc : c.Holds Q E p)
    (hv : ∀ w ∈ v, Q c.stack.length w) : (deliver name v c).Holds Q E p := by
  rcases c with ⟨stack, s, out⟩
  cases stack with
  | nil =>
      refine ⟨trivial, hc.refs, fun w hw => ?_⟩
      rcases List.mem_append.mp hw with hw | hw
      · exact hc.out w hw
      · exact hv w (Option.mem_toList.mp hw)
  | cons f rest => exact ⟨⟨hQ.receive name v hc.stack.1 hv, hc.stack.2⟩, hc.refs, hc.out⟩

/-- A step of the machine keeps the property. -/
theorem Config.Holds.step {c c' : Config} {e : Event} (hc : c.Holds Q E p) (hn : c.Counted)
    (h : c.step p e = .ok c') : c'.Holds Q E p := by
  rcases c with ⟨stack, s, out⟩
  rcases hn with ⟨hdepth, hmax⟩
  cases stack with
  | nil =>
      cases e with
      | start tag attrs =>
          simp only [Config.step, except_map_eq_ok] at h
          rcases h with ⟨⟨f, s'⟩, hopen, rfl⟩
          have hf := hQ.openElement hc.refs hdepth hopen
          exact ⟨⟨hf.1, trivial⟩, hf.2, hc.out⟩
      | empty tag attrs =>
          simp only [Config.step, except_map_eq_ok] at h
          rcases h with ⟨⟨v, s'⟩, hempty, rfl⟩
          have hv := hQ.parseEmpty hc.refs hdepth hempty
          have hc' : Config.Holds Q E p ⟨[], s', out⟩ := ⟨trivial, hv.2, hc.out⟩
          exact hQ.deliver [] v hc' hv.1
      | _ =>
          cases h
          exact hc
  | cons f rest =>
      simp only [Config.step, except_map_eq_ok] at h
      rcases h with ⟨⟨m, s'⟩, hstep, rfl⟩
      simp only [List.length_cons] at hdepth hmax
      -- The innermost activity keeps its values, and hands a complete one down.
      have hm := (steps_of_step f.activity e hstep).holds hQ hc.stack.1 hc.refs hdepth (by omega)
      cases m with
      | goto b => exact ⟨⟨hm.1, hc.stack.2⟩, hm.2, hc.out⟩
      | push child => exact ⟨⟨hm.1, hc.stack⟩, hm.2, hc.out⟩
      | pop v =>
          have hc' : Config.Holds Q E p ⟨rest, { s' with depth := s'.depth - 1 }, out⟩ :=
            ⟨hc.stack.2, hm.2, hc.out⟩
          exact hQ.deliver f.name v hc' hm.1

/-- Only a skipped element is finished by the end of the document. -/
theorem Closed.finish {out vs : List PsValue} (hout : ∀ v ∈ out, Q 0 v) (rest : List Frame) :
    ∀ (name : Text) (a : Activity), a.Holds Q E p rest.length → StackHolds Q E p rest →
      finish out name a rest = .ok vs → ∀ v ∈ vs, Q 0 v := by
  -- At the end of the stream an open element counts as closed, if it may.
  have heof : ∀ (d : Nat) (a : Activity) (v : Option PsValue), a.Holds Q E p d →
      a.atEof = .ok v → ∀ w ∈ v, Q d w := by
    intro d a v ha h
    cases a with
    | leaf => cases h
    | skip level value =>
        cases h
        exact ha
    | object ctx mode => cases mode <;> cases h
  induction rest with
  | nil =>
      intro name a ha _ h
      rw [Machine.finish, except_map_eq_ok] at h
      rcases h with ⟨v, hv, rfl⟩
      intro w hw
      rcases List.mem_append.mp hw with hw | hw
      · exact hout w hw
      · exact heof 0 a v ha hv w (Option.mem_toList.mp hw)
  | cons f rest ih =>
      intro name a ha hrest h
      rw [Machine.finish] at h
      cases hv : a.atEof with
      | error x =>
          rw [hv] at h
          cases h
      | ok v =>
          rw [hv] at h
          exact ih f.name _ (hQ.receive name v hrest.1 (heof _ a v ha hv)) hrest.2 h

/-- A run of the machine returns values that have the property. -/
theorem Closed.run {ft : Option String} {vs : List PsValue} (es : List Event) :
    ∀ c : Config, c.Holds Q E p → c.Counted → c.run p ft es = .ok vs → ∀ v ∈ vs, Q 0 v := by
  induction es with
  | nil =>
      intro c hc _ h
      rcases c with ⟨stack, s, out⟩
      cases ft with
      | some msg => cases h
      | none =>
          cases stack with
          | nil =>
              cases h
              exact hc.out
          | cons f rest => exact hQ.finish hc.out rest f.name f.activity hc.stack.1 hc.stack.2 h
  | cons e es ih =>
      intro c hc hn h
      rw [Config.run] at h
      cases hstep : c.step p e with
      | error x =>
          rw [hstep] at h
          cases h
      | ok c' =>
          rw [hstep] at h
          exact ih c' (hc.step hQ hn hstep) (hn.step hstep) h

/-- A closed property holds of what the decoder returns. -/
theorem closed_parseClixml {xml : Text} {vs : List PsValue} (h : parseClixml p xml = .ok vs) :
    ∀ v ∈ vs, Q 0 v := by
  rw [parseClixml_eq_decode] at h
  have hstart : ∀ s : DecoderState, s.refs = [] → (Config.start s).Holds Q E p := fun s hs =>
    ⟨trivial, fun e he => absurd (hs ▸ he) List.not_mem_nil, fun v hv => absurd hv List.not_mem_nil⟩
  exact hQ.run _ _ (hstart _ rfl) (counted_start _ rfl) h

end Rules

end Machine

end Psrp

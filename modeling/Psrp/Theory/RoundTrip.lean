import Psrp.Theory.LeafRoundTrip
import Psrp.Theory.MachineRefinement

/-!
# Encode, Then Decode

What the decoder reads from the document of a value.

The machine is run over the events of the tree the encoder writes. `Reads`
says what one stretch of events does to it: within the nesting limit it ends
in a given configuration, and beyond the limit it fails as nested too deep.
The configuration is given up to the table of type names, which the encoder
fills and never uses.

Stretches compose (`Reads.append`), and an element is one level around what
is inside (`reads_object`). A value is read wherever values are read, at the
top level, in a list, as a member, as half of a dictionary entry or bare in an
object; what differs is where the value goes, and `deliver` says that. So one
induction over the value covers all positions.

## Main definitions

* `Config.exec`: The machine over events that do not end the document.
* `Reads`: What a stretch of events does.
* `Accepts`: Positions at which an element of a value is read.

## Theorems

* `reads_node`: A value is read as its normal form.
* `parseClixml_toClixml`: The round trip, and when it fails.
-/

namespace Psrp

namespace Machine

open Xml (Attr Event)

/-- The machine over events that do not end the document. -/
def Config.exec (p : Platform) : Config → List Event → Except PsrpError Config
  | c, [] => .ok c
  | c, e :: es => match c.step p e with
    | .error x => .error x
    | .ok c' => Config.exec p c' es

theorem exec_cons {p : Platform} {c c' : Config} {e : Event} (h : c.step p e = .ok c')
    (es : List Event) : c.exec p (e :: es) = c'.exec p es := by
  rw [Config.exec, h]

theorem exec_append (p : Platform) (es fs : List Event) :
    ∀ c : Config, c.exec p (es ++ fs) = match c.exec p es with
      | .ok c' => c'.exec p fs
      | .error x => .error x := by
  induction es with
  | nil => exact fun _ => rfl
  | cons e es ih =>
      intro c
      simp only [List.cons_append, Config.exec]
      cases c.step p e with
      | error x => rfl
      | ok c' => exact ih c'

theorem exec_eq_ok {p : Platform} {c c' : Config} {es : List Event}
    (h : c.Reaches p es c') : c.exec p es = .ok c' := by
  induction h with
  | refl => rfl
  | step hstep _ ih => rw [exec_cons hstep, ih]

theorem run_eq_exec (p : Platform) (ft : Option String) (es : List Event) :
    ∀ c : Config, c.run p ft es = match c.exec p es with
      | .ok c' => c'.run p ft []
      | .error x => .error x := by
  induction es with
  | nil => exact fun _ => rfl
  | cons e es ih =>
      intro c
      simp only [Config.run, Config.exec]
      cases c.step p e with
      | error x => rfl
      | ok c' => exact ih c'

/-- A configuration with another table of type names. -/
def Config.withTypeNames (c : Config) (tn : IndexMap Text (List Text)) : Config :=
  { c with state := { c.state with typeNames := tn } }

@[simp] theorem withTypeNames_depth (c : Config) (tn : IndexMap Text (List Text)) :
    (c.withTypeNames tn).state.depth = c.state.depth := rfl

@[simp] theorem withTypeNames_twice (c : Config) (tn tn' : IndexMap Text (List Text)) :
    (c.withTypeNames tn).withTypeNames tn' = c.withTypeNames tn' := rfl

/-- A frame pushed onto a configuration. -/
def Config.push (c : Config) (f : Frame) : Config :=
  { c with stack := f :: c.stack, state := { c.state with depth := c.state.depth + 1 } }

@[simp] theorem push_withTypeNames (c : Config) (f : Frame) (tn : IndexMap Text (List Text)) :
    (c.push f).withTypeNames tn = (c.withTypeNames tn).push f := rfl

@[simp] theorem push_depth (c : Config) (f : Frame) :
    (c.push f).state.depth = c.state.depth + 1 := rfl

/-- A step of the frame on top. -/
theorem step_push (p : Platform) (c : Config) (f : Frame) (e : Event) :
    (c.push f).step p e
      = (f.activity.step p { c.state with depth := c.state.depth + 1 } e).map fun (m, s) =>
          Config.move f.name c.stack f.activity c.out s m := rfl

/-- What a stretch of events does: within the nesting limit it ends in `c'`,
    up to type names, and beyond it fails. -/
def Reads (p : Platform) (c : Config) (es : List Event) (levels : Nat) (c' : Config) : Prop :=
  (c.state.depth + levels ≤ MAX_NESTING_DEPTH → ∃ tn, c.exec p es = .ok (c'.withTypeNames tn))
    ∧ (c.state.depth ≤ MAX_NESTING_DEPTH → MAX_NESTING_DEPTH < c.state.depth + levels →
      c.exec p es = .error nestedTooDeep)

theorem Reads.nil (p : Platform) (c : Config) : Reads p c [] 0 c :=
  ⟨fun _ => ⟨c.state.typeNames, rfl⟩, fun h h' => by omega⟩

/-- Events that count no level. -/
theorem Reads.of_exec (p : Platform) (c c' : Config) (es : List Event)
    (h : c.exec p es = .ok c') : Reads p c es 0 c' :=
  ⟨fun _ => ⟨c'.state.typeNames, h⟩, fun h1 h2 => by omega⟩

/-- The same, after type names were read. -/
theorem Reads.of_exec_typeNames (p : Platform) (c c' : Config) (es : List Event)
    (tn tn' : IndexMap Text (List Text))
    (h : (c.withTypeNames tn).exec p es = .ok (c'.withTypeNames tn')) :
    Reads p (c.withTypeNames tn) es 0 c' :=
  ⟨fun _ => ⟨tn', h⟩, fun h1 h2 => by omega⟩

theorem Reads.append {p : Platform} {c c' c'' : Config} {es fs : List Event} {l m : Nat}
    (h : Reads p c es l c') (hdepth : c'.state.depth = c.state.depth)
    (h' : ∀ tn, Reads p (c'.withTypeNames tn) fs m c'') : Reads p c (es ++ fs) (max l m) c'' := by
  refine ⟨fun hfits => ?_, fun hmax hdeep => ?_⟩
  · rcases h.1 (by omega) with ⟨tn, hexec⟩
    rcases (h' tn).1 (by rw [withTypeNames_depth]; omega) with ⟨tn', hexec'⟩
    exact ⟨tn', by rw [exec_append, hexec]; exact hexec'⟩
  · rw [exec_append]
    by_cases hl : c.state.depth + l ≤ MAX_NESTING_DEPTH
    · rcases h.1 hl with ⟨tn, hexec⟩
      rw [hexec]
      exact (h' tn).2 (by rw [withTypeNames_depth]; omega) (by rw [withTypeNames_depth]; omega)
    · rw [h.2 hmax (by omega)]

/-- The tags that have a meaning of their own in the body of an object. -/
def bodyTag (tag : String) : Bool :=
  tag ∈ ["MS", "Props", "TN", "TNRef", "LST", "IE", "QUE", "STK", "DCT"]

/-- Whether the element of a value with a name is read here, and its value
    delivered under that name. A null is self-closed, and ignored bare. -/
def Accepts (c : Config) (name : Option Text) (v : PsValue) : Prop :=
  match c.stack with
  | [] => name = none
  | f :: _ => match f.activity with
    | .object _ .body => name = none ∧ v ≠ .null
    | .object _ (.members _) => name ≠ none
    | .object _ (.list _ _) => name = none
    | .object _ (.entry _ _) => name ≠ none
    | _ => False

/-- The start tag of an element opens it. -/
theorem step_start (p : Platform) (c : Config) (name : Option Text) (v : PsValue) (tag : String)
    (attrs : List Attr) (h : Accepts c name v) (htag : bodyTag tag = false)
    (hname : nameAttr attrs = .ok name) :
    c.step p (.start tag attrs)
      = (openElement p (name.getD []) tag attrs c.state).map fun (f, s) =>
          { c with stack := f :: c.stack, state := s } := by
  rcases c with ⟨stack, s, out⟩
  cases stack with
  | nil =>
      rw [show name = none from h]
      rfl
  | cons f rest =>
      rcases f with ⟨fname, a⟩
      simp only [Config.step]
      cases a with
      | leaf | skip => cases h
      | object ctx mode =>
          cases mode with
          | body =>
              simp only [bodyTag, decide_eq_false_iff_not, List.mem_cons, List.not_mem_nil,
                or_false, not_or] at htag
              simp only [Activity.step, bodyStep, pushElement, htag, or_self, if_false,
                show name = none from h.1, Option.getD_none]
              cases openElement p [] tag attrs s <;> rfl
          | list closing items =>
              simp only [Activity.step, listStep, pushElement, show name = none from h,
                Option.getD_none]
              cases openElement p [] tag attrs s <;> rfl
          | members closing =>
              simp only [Activity.step, membersStep, pushNamed, hname, pushElement]
              cases openElement p (name.getD []) tag attrs s <;> rfl
          | entry entries entry =>
              simp only [Activity.step, entryStep, pushNamed, hname, pushElement]
              cases openElement p (name.getD []) tag attrs s <;> rfl
          | _ => cases h

/-- A self-closed null is delivered. -/
theorem step_nil (p : Platform) (c : Config) (name : Option Text) (attrs : List Attr)
    (h : Accepts c name .null) (hname : nameAttr attrs = .ok name) :
    c.step p (.empty "Nil" attrs) = .ok (deliver (name.getD []) (some .null) c) := by
  have hnil : ∀ s, parseEmpty "Nil" attrs s = .ok (some .null, s) := fun _ => rfl
  rcases c with ⟨stack, s, out⟩
  cases stack with
  | nil => rfl
  | cons f rest =>
      rcases f with ⟨fname, a⟩
      simp only [Config.step]
      cases a with
      | leaf | skip => cases h
      | object ctx mode =>
          cases mode with
          | body => exact absurd rfl h.2
          | list closing items => rfl
          | members closing =>
              simp only [Activity.step, membersStep, if_true, hname]
              cases name with
              | none => exact absurd rfl h
              | some n => rfl
          | entry entries entry =>
              simp only [Activity.step, entryStep, receiveEmpty, hnil, if_true, hname]
              rfl
          | _ => cases h

/-- Text events add up, in a frame that collects text. -/
theorem exec_textEvents (p : Platform) (f : Text → Config)
    (h : ∀ acc e u, eventText e = .ok u → (∀ t, e ≠ .stop t) → (∀ n as, e ≠ .start n as) →
      (f acc).step p e = .ok (f (acc ++ u))) (acc t : Text) :
    (f acc).exec p (Xml.textEvents t) = .ok (f (acc ++ t)) := by
  have hflush : ∀ acc run : Text, ∀ es : List Event,
      (f acc).exec p (Xml.flush run ++ es) = (f (acc ++ run)).exec p es := by
    intro acc run es
    rw [Xml.flush]
    split_ifs with hrun
    · rw [hrun, List.append_nil, List.nil_append]
    · simp only [List.cons_append, List.nil_append, Config.exec,
        h acc (.text run) run rfl (fun _ => Event.noConfusion) fun _ _ => Event.noConfusion]
  have hfrom : ∀ (t run acc : Text),
      (f acc).exec p (Xml.textEventsFrom run t) = .ok (f (acc ++ run ++ t)) := by
    intro t
    induction t with
    | nil =>
        intro run acc
        have hend := hflush acc run []
        rw [List.append_nil] at hend
        rw [Xml.textEventsFrom, hend, List.append_nil]
        rfl
    | cons c t ih =>
        intro run acc
        rw [Xml.textEventsFrom]
        cases hent : Xml.entityOf c with
        | none =>
            simp only []
            rw [ih (run ++ [c]) acc]
            simp only [List.append_assoc, List.cons_append, List.nil_append]
        | some name =>
            have href : eventText (.generalRef name.toList (.ok none)) = .ok [c] := by
              simp only [eventText, Xml.resolve_entityOf c name hent]
            simp only [hflush, Config.exec,
              h (acc ++ run) _ [c] href (fun _ => Event.noConfusion) fun _ _ => Event.noConfusion]
            rw [ih [] (acc ++ run ++ [c])]
            simp only [List.append_assoc, List.cons_append, List.nil_append]
  have hall := hfrom t [] acc
  rwa [List.append_nil] at hall

theorem nameAttr_nameAttrs (name : Option Text) (rest : List (String × Text))
    (h : ∀ q ∈ rest, q.1 ≠ "N") :
    nameAttr (Xml.readAttrs (nameAttrs name ++ rest)) = .ok name := by
  have hrest : attrValue "N" (Xml.readAttrs rest) = .ok none := by
    induction rest with
    | nil => rfl
    | cons q rest ih =>
        have hq := h q (List.mem_cons_self ..)
        simp only [Xml.readAttrs, List.map_cons, attrValue, if_neg hq]
        exact ih fun w hw => h w (List.mem_cons_of_mem _ hw)
  cases name with
  | none =>
      simp only [nameAttrs, List.nil_append, nameAttr, hrest]
      rfl
  | some n =>
      simp only [nameAttr, nameAttrs, Xml.readAttrs, List.cons_append, List.map_cons, attrValue,
        if_true, Except.map, Option.map_some, decodePwshEscapes_pwshEscape]

theorem refIdAttr_obj (name : Option Text) (id : Nat) :
    refIdAttr (Xml.readAttrs (nameAttrs name ++ [("RefId", intText id)]))
      = .ok (some (intText id)) := by
  cases name with
  | none => rfl
  | some n => rfl

/-- The element on top is read with one level for itself: the events inside
    take its frame from `a` to `b`, and the end tag pops that. -/
theorem Reads.element {p : Platform} {c : Config} {name : Option Text} {v : PsValue}
    {w : Option PsValue} {tag : String} {attrs : List Attr} {a b : Activity} {es : List Event} {l : Nat}
    (h : Accepts c name v) (htag : bodyTag tag = false) (hname : nameAttr attrs = .ok name)
    (hopen : c.state.depth < MAX_NESTING_DEPTH →
      openElement p (name.getD []) tag attrs c.state
        = .ok (⟨name.getD [], a⟩, { c.state with depth := c.state.depth + 1 }))
    (hbody : Reads p (c.push ⟨name.getD [], a⟩) es l (c.push ⟨name.getD [], b⟩))
    (hclose : ∀ s : DecoderState, s.referenced = c.state.referenced →
      b.step p s (.stop tag) = .ok (.pop w, s)) :
    Reads p c (.start tag attrs :: (es ++ [.stop tag])) (l + 1)
      (deliver (name.getD []) w c) := by
  have hstart := step_start p c name v tag attrs h htag hname
  refine ⟨fun hfits => ?_, fun hmax hdeep => ?_⟩
  · rcases hbody.1 (by rw [push_depth]; omega) with ⟨tn, hexec⟩
    rw [hopen (by omega)] at hstart
    refine ⟨tn, ?_⟩
    rw [Config.exec, hstart]
    show Config.exec p (c.push ⟨name.getD [], a⟩) (es ++ [.stop tag]) = _
    rw [exec_append, hexec]
    have hpop := hclose { (c.withTypeNames tn).state with depth := c.state.depth + 1 } rfl
    simp only [Config.exec, push_withTypeNames]
    rw [step_push]
    simp only [withTypeNames_depth, hpop]
    rcases c with ⟨stack, s, out⟩
    cases stack <;> rfl
  · rw [Config.exec, hstart]
    by_cases hroom : c.state.depth < MAX_NESTING_DEPTH
    · rw [hopen hroom]
      show Config.exec p (c.push ⟨name.getD [], a⟩) (es ++ [.stop tag]) = _
      rw [exec_append, hbody.2 (by rw [push_depth]; omega) (by rw [push_depth]; omega)]
    · rw [openElement, if_pos (by omega)]
      rfl

/-- A leaf is read as its normal form. -/
theorem reads_leaf {p : Platform} (hp : p.Lawful) (c : Config) (name : Option Text) (v : PsValue)
    (hv : v.isContainer = false) (h : Accepts c name v) :
    Reads p c (leafNode p v name).events (PsValue.nest v)
      (deliver (name.getD []) (some (PsValue.norm v)) c) := by
  have hname : nameAttr (Xml.readAttrs (nameAttrs name)) = .ok name := by
    have hn := nameAttr_nameAttrs name [] fun _ hq => absurd hq List.not_mem_nil
    rwa [List.append_nil] at hn
  rcases simpleElement_some (p := p) v hv with ⟨⟨tag, body, selfClose⟩, hsimple⟩
  cases selfClose with
  | true =>
      -- Null is the one leaf written as a self-closed element.
      rcases simpleElement_closed v tag body hsimple with ⟨rfl, rfl⟩
      refine Reads.of_exec p c _ _ ?_
      simp only [leafNode, hsimple, Xml.Node.events, Config.exec, step_nil p c name _ h hname]
      rfl
  | false =>
      -- The other leaves are text, which the parser of the tag reads back.
      rcases leaf_parses hp v tag body hsimple with ⟨parse, hparser, hparse⟩
      have htag : bodyTag tag = false := by
        cases v <;> cases hsimple <;> decide
      have hnest : PsValue.nest v = 0 + 1 := by
        cases v <;> first
          | rfl
          | cases hsimple
      have hevents : (leafNode p v name).events
          = .start tag (Xml.readAttrs (nameAttrs name))
              :: (Xml.textEvents (leafContent p v) ++ [.stop tag]) := by
        simp only [leafNode, hsimple, Xml.Node.events, Xml.eventsList, List.append_nil]
      rw [hevents, hnest]
      refine Reads.element (a := .leaf tag parse []) (b := .leaf tag parse (leafContent p v)) h htag
        hname (fun hroom => ?_) (Reads.of_exec p _ _ _ ?_) fun s _ => ?_
      · rw [openElement, if_neg (by omega)]
        simp only [hparser]
      · refine exec_textEvents p (fun t => c.push ⟨name.getD [], .leaf tag parse t⟩) ?_ [] _
        intro acc e u hu hstop hstart
        rw [step_push]
        cases e with
        | stop t => exact absurd rfl (hstop t)
        | start n as => exact absurd rfl (hstart n as)
        | _ =>
            simp only [Activity.step, leafStep, hu]
            rfl
      · simp only [Activity.step, leafStep, if_true, hparse]
        rfl

/-- The body of an object takes its frame from an empty object to a finished
    one, and the object is delivered. -/
theorem Reads.object {p : Platform} {c : Config} {name : Option Text} {v : PsValue} {id : Nat}
    {es : List Event} {l : Nat} {obj : PsObject} {embedded : Option PsValue}
    (h : Accepts c name v) (href : c.state.referenced = [])
    (hbody : Reads p
      (c.push ⟨name.getD [], .object ⟨some (intText id), PsObject.new, none⟩ .body⟩) es l
      (c.push ⟨name.getD [], .object ⟨some (intText id), obj, embedded⟩ .body⟩)) :
    Reads p c (.start "Obj" (Xml.readAttrs (nameAttrs name ++ [("RefId", intText id)]))
        :: (es ++ [.stop "Obj"])) (l + 1)
      (deliver (name.getD []) (some (.object (exposeValue embedded obj))) c) := by
  have hname : nameAttr (Xml.readAttrs (nameAttrs name ++ [("RefId", intText id)])) = .ok name :=
    nameAttr_nameAttrs name _ fun q hq => by
      rw [List.mem_singleton.mp hq]
      exact by simp only [ne_eq, String.reduceEq, not_false_eq_true]
  refine Reads.element h (by decide) hname (fun hroom => ?_) hbody fun s hs => ?_
  · rw [openElement, if_neg (by omega)]
    simp only [show leafParser p "Obj" = none from rfl, if_true, refIdAttr_obj]
    rfl
  · have hkeep : ∀ v, keepReferenced (some (intText id)) v s = .ok s := by
      intro v
      simp only [keepReferenced, hs, href, List.not_mem_nil, decide_false]
      rfl
    simp only [Activity.step, bodyStep, if_true, hkeep]
    rfl

/-- Values are read wherever elements are. -/
def ReadsValue (p : Platform) (v : PsValue) : Prop :=
  ∀ (c : Config) (name : Option Text) (id : Nat), Accepts c name v → c.state.referenced = [] →
    Reads p c (node p v name id).1.events (PsValue.nest v)
      (deliver (name.getD []) (some (PsValue.norm v)) c)

/-- A configuration with an object on top. -/
def Config.inObject (c : Config) (name : Text) (ctx : ObjCtx) (mode : Mode) : Config :=
  c.push ⟨name, .object ctx mode⟩

/-- The items of a list, one after the other. -/
theorem reads_items {p : Platform} (items : List PsValue) (h : ∀ v ∈ items, ReadsValue p v) :
    ∀ (c : Config) (fname : Text) (ctx : ObjCtx) (closing : String) (read : List PsValue)
      (id : Nat), c.state.referenced = [] →
      Reads p (c.inObject fname ctx (.list closing read))
        (Xml.eventsList (itemNodes p items id).1) (PsValue.nestItems items)
        (c.inObject fname ctx (.list closing (read ++ PsValue.normItems items))) := by
  induction items with
  | nil =>
      intro c fname ctx closing read id _
      simp only [PsValue.normItems, List.append_nil]
      exact Reads.nil p _
  | cons v vs ih =>
      intro c fname ctx closing read id href
      have hv : Reads p (c.inObject fname ctx (.list closing read)) _ _
          (c.inObject fname ctx (.list closing (read ++ [PsValue.norm v]))) :=
        h v (List.mem_cons_self ..) _ none id rfl href
      have hrest := fun tn => ih (fun w hw => h w (List.mem_cons_of_mem _ hw))
        (c.withTypeNames tn) fname ctx closing (read ++ [PsValue.norm v]) (node p v none id).2 href
      simp only [List.append_assoc] at hrest
      exact Reads.append hv rfl hrest

/-- An entry opens, its key is read, its value is read, and it closes. -/
theorem reads_entry {p : Platform} (k v : PsValue) (hk : ReadsValue p k) (hv : ReadsValue p v)
    (c : Config) (fname : Text) (ctx : ObjCtx) (read : List (PsValue × PsValue)) (id : Nat)
    (href : c.state.referenced = []) :
    Reads p (c.inObject fname ctx (.dict read))
      (.start "En" [] :: ((node p k (some "Key".toList) id).1.events
        ++ (node p v (some "Value".toList) (node p k (some "Key".toList) id).2).1.events
        ++ [.stop "En"]))
      (max (PsValue.nest k) (PsValue.nest v))
      (c.inObject fname ctx (.dict (read ++ [(PsValue.norm k, PsValue.norm v)]))) := by
  have hopen : Reads p (c.inObject fname ctx (.dict read)) [.start "En" []] 0
      (c.inObject fname ctx (.entry read (.null, .null))) := Reads.of_exec p _ _ _ rfl
  have hkey : ∀ tn, Reads p ((c.inObject fname ctx (.entry read (.null, .null))).withTypeNames tn)
      _ _ (c.inObject fname ctx (.entry read (PsValue.norm k, .null))) :=
    fun tn => hk _ (some "Key".toList) id (Option.some_ne_none _) href
  have hvalue : ∀ tn, Reads p
      ((c.inObject fname ctx (.entry read (PsValue.norm k, .null))).withTypeNames tn)
      _ _ (c.inObject fname ctx (.entry read (PsValue.norm k, PsValue.norm v))) :=
    fun tn => hv _ (some "Value".toList) (node p k (some "Key".toList) id).2
      (Option.some_ne_none _) href
  have hclose : ∀ tn, Reads p
      ((c.inObject fname ctx (.entry read (PsValue.norm k, PsValue.norm v))).withTypeNames tn)
      [.stop "En"] 0
      (c.inObject fname ctx (.dict (read ++ [(PsValue.norm k, PsValue.norm v)]))) :=
    fun tn => Reads.of_exec_typeNames p _ _ _ tn tn rfl
  have hall := Reads.append (Reads.append (Reads.append hopen rfl hkey) rfl hvalue) rfl hclose
  simpa only [List.cons_append, List.nil_append, Nat.zero_max, Nat.max_zero] using hall

/-- The entries of a dictionary, one after the other. -/
theorem reads_entries {p : Platform} (entries : List (PsValue × PsValue))
    (h : ∀ e ∈ entries, ReadsValue p e.1 ∧ ReadsValue p e.2) :
    ∀ (c : Config) (fname : Text) (ctx : ObjCtx) (read : List (PsValue × PsValue)) (id : Nat),
      c.state.referenced = [] →
      Reads p (c.inObject fname ctx (.dict read))
        (Xml.eventsList (entryNodes p entries id).1) (PsValue.nestEntries entries)
        (c.inObject fname ctx (.dict (read ++ PsValue.normEntries entries))) := by
  induction entries with
  | nil =>
      intro c fname ctx read id _
      simp only [PsValue.normEntries, List.append_nil]
      exact Reads.nil p _
  | cons e es ih =>
      rcases e with ⟨k, v⟩
      intro c fname ctx read id href
      have he := h (k, v) (List.mem_cons_self ..)
      have hentry := reads_entry k v he.1 he.2 c fname ctx read id href
      have hrest : ∀ tn, Reads p ((c.inObject fname ctx
          (.dict (read ++ [(PsValue.norm k, PsValue.norm v)]))).withTypeNames tn) _ _
          (c.inObject fname ctx
            (.dict (read ++ [(PsValue.norm k, PsValue.norm v)] ++ PsValue.normEntries es))) :=
        fun tn => ih (fun w hw => h w (List.mem_cons_of_mem _ hw)) (c.withTypeNames tn)
          fname ctx (read ++ [(PsValue.norm k, PsValue.norm v)])
          (node p v (some "Value".toList) (node p k (some "Key".toList) id).2).2 href
      simp only [List.append_assoc] at hrest
      have hall := Reads.append hentry rfl hrest
      simp only [entryNodes, Xml.eventsList, Xml.Node.events, List.append_nil, Xml.readAttrs,
        List.map_nil]
      exact hall

/-- A list standing in the body of an object. -/
theorem reads_listBody {p : Platform} (items : List PsValue) (h : ∀ v ∈ items, ReadsValue p v)
    (c : Config) (fname : Text) (ctx : ObjCtx) (id : Nat) (href : c.state.referenced = []) :
    Reads p (c.inObject fname ctx .body)
      (Xml.Node.events (.element "LST" [] (itemNodes p items id).1)) (PsValue.nestItems items)
      (c.inObject fname { ctx with embedded := some (.list (PsValue.normItems items)) } .body) := by
  have hopen : Reads p (c.inObject fname ctx .body) [.start "LST" []] 0
      (c.inObject fname ctx (.list "LST" [])) := Reads.of_exec p _ _ _ rfl
  have hitems : ∀ tn, Reads p ((c.inObject fname ctx (.list "LST" [])).withTypeNames tn) _ _
      (c.inObject fname ctx (.list "LST" (PsValue.normItems items))) :=
    fun tn => reads_items items h (c.withTypeNames tn) fname ctx "LST" [] id href
  have hclose : ∀ tn, Reads p
      ((c.inObject fname ctx (.list "LST" (PsValue.normItems items))).withTypeNames tn)
      [.stop "LST"] 0
      (c.inObject fname { ctx with embedded := some (.list (PsValue.normItems items)) } .body) :=
    fun tn => Reads.of_exec_typeNames p _ _ _ tn tn rfl
  have hall := Reads.append (Reads.append hopen rfl hitems) rfl hclose
  simpa only [Xml.Node.events, Xml.readAttrs, List.map_nil, List.cons_append, List.nil_append,
    Nat.zero_max, Nat.max_zero] using hall

/-- A dictionary standing in the body of an object. -/
theorem reads_dictBody {p : Platform} (entries : List (PsValue × PsValue))
    (h : ∀ e ∈ entries, ReadsValue p e.1 ∧ ReadsValue p e.2)
    (c : Config) (fname : Text) (ctx : ObjCtx) (id : Nat) (href : c.state.referenced = []) :
    Reads p (c.inObject fname ctx .body)
      (Xml.Node.events (.element "DCT" [] (entryNodes p entries id).1))
      (PsValue.nestEntries entries)
      (c.inObject fname { ctx with embedded := some (.dict (PsValue.normEntries entries)) }
        .body) := by
  have hopen : Reads p (c.inObject fname ctx .body) [.start "DCT" []] 0
      (c.inObject fname ctx (.dict [])) := Reads.of_exec p _ _ _ rfl
  have hentries : ∀ tn, Reads p ((c.inObject fname ctx (.dict [])).withTypeNames tn) _ _
      (c.inObject fname ctx (.dict (PsValue.normEntries entries))) :=
    fun tn => reads_entries entries h (c.withTypeNames tn) fname ctx [] id href
  have hclose : ∀ tn, Reads p
      ((c.inObject fname ctx (.dict (PsValue.normEntries entries))).withTypeNames tn)
      [.stop "DCT"] 0
      (c.inObject fname { ctx with embedded := some (.dict (PsValue.normEntries entries)) }
        .body) :=
    fun tn => Reads.of_exec_typeNames p _ _ _ tn tn rfl
  have hall := Reads.append (Reads.append hopen rfl hentries) rfl hclose
  simpa only [Xml.Node.events, Xml.readAttrs, List.map_nil, List.cons_append, List.nil_append,
    Nat.zero_max, Nat.max_zero] using hall

/-- The type names of an object are read and remembered. -/
theorem exec_typeNameNodes (p : Platform) (names : List Text) :
    ∀ (c : Config) (fname : Text) (ctx : ObjCtx) (rid : Option Text) (read : List Text),
      (c.inObject fname ctx (.typeNames rid read)).exec p
        (Xml.eventsList (names.map fun tn => .element "T" [] [.text (pwshEscape false tn)]))
        = .ok (c.inObject fname ctx (.typeNames rid (read ++ names))) := by
  induction names with
  | nil =>
      intro c fname ctx rid read
      rw [List.append_nil]
      rfl
  | cons tn names ih =>
      intro c fname ctx rid read
      have htext : ∀ acc t, (c.inObject fname ctx (.typeName rid read acc)).exec p
          (Xml.textEvents t) = .ok (c.inObject fname ctx (.typeName rid read (acc ++ t))) := by
        refine exec_textEvents p (fun t => c.inObject fname ctx (.typeName rid read t)) ?_
        intro acc e u hu hstop hstart
        rw [Config.inObject, step_push]
        cases e with
        | stop t => exact absurd rfl (hstop t)
        | start n as => exact absurd rfl (hstart n as)
        | _ =>
            simp only [Activity.step, typeNameStep, hu]
            rfl
      have hrest := ih c fname ctx rid (read ++ [tn])
      rw [List.append_assoc] at hrest
      simp only [List.map_cons, Xml.eventsList, Xml.Node.events, List.append_nil,
        List.cons_append, List.append_assoc]
      rw [Config.exec]
      show (c.inObject fname ctx (.typeName rid read [])).exec p _ = _
      rw [exec_append, htext [] (pwshEscape false tn)]
      simp only [List.nil_append, Config.exec]
      rw [Config.inObject, step_push]
      simp only [Activity.step, typeNameStep, if_true, decodePwshEscapes_pwshEscape]
      exact hrest

theorem reads_typeNames (p : Platform) (names : List Text) (c : Config) (fname : Text)
    (ctx : ObjCtx) (id : Nat) (hctx : ctx.obj.typeNames = []) :
    Reads p (c.inObject fname ctx .body) (Xml.eventsList (typeNamesNodes names id)) 0
      (c.inObject fname { ctx with obj := { ctx.obj with typeNames := names } } .body) := by
  rw [typeNamesNodes]
  split_ifs with hnames
  · rw [hnames, ← hctx]
    exact Reads.nil p _
  · have hopen : Reads p (c.inObject fname ctx .body)
        [.start "TN" (Xml.readAttrs [("RefId", intText id)])] 0
        (c.inObject fname ctx (.typeNames (some (intText id)) [])) := Reads.of_exec p _ _ _ rfl
    have hread : ∀ tn, Reads p
        ((c.inObject fname ctx (.typeNames (some (intText id)) [])).withTypeNames tn) _ 0
        (c.inObject fname ctx (.typeNames (some (intText id)) names)) :=
      fun tn => Reads.of_exec_typeNames p _ _ _ tn tn
        (exec_typeNameNodes p names (c.withTypeNames tn) fname ctx (some (intText id)) [])
    have hclose : ∀ tn, Reads p
        ((c.inObject fname ctx (.typeNames (some (intText id)) names)).withTypeNames tn)
        [.stop "TN"] 0
        (c.inObject fname { ctx with obj := { ctx.obj with typeNames := names } } .body) :=
      fun tn => Reads.of_exec_typeNames p _ _ _ tn (IndexMap.insert (intText id) names tn) rfl
    have hall := Reads.append (Reads.append hopen rfl hread) rfl hclose
    simpa only [Xml.eventsList, Xml.Node.events, List.cons_append, List.nil_append,
      List.append_nil, Nat.max_self] using hall

/-- The text of an object is skipped, one level down. -/
theorem reads_toString (p : Platform) (toString : Option Text) (c : Config) (fname : Text)
    (ctx : ObjCtx) :
    Reads p (c.inObject fname ctx .body) (Xml.eventsList (toStringNodes toString))
      (if toString.isSome then 1 else 0) (c.inObject fname ctx .body) := by
  cases toString with
  | none => exact Reads.nil p _
  | some ts =>
      have hevents : Xml.eventsList (toStringNodes (some ts))
          = .start "ToString" [] :: (Xml.textEvents (pwshEscape false ts) ++ [.stop "ToString"]) := by
        simp only [toStringNodes, Xml.eventsList, Xml.Node.events, Xml.readAttrs, List.map_nil,
          List.append_nil]
      have haccepts : Accepts (c.inObject fname ctx .body) none (.string []) :=
        ⟨rfl, PsValue.noConfusion⟩
      -- The text inside is skipped,
      have hskip : Reads p ((c.inObject fname ctx .body).push ⟨[], .skip 1 none⟩)
          (Xml.textEvents (pwshEscape false ts)) 0
          ((c.inObject fname ctx .body).push ⟨[], .skip 1 none⟩) := by
        refine Reads.of_exec p _ _ _ ?_
        refine exec_textEvents p
          (fun _ => (c.inObject fname ctx .body).push ⟨[], .skip 1 none⟩) ?_ [] _
        intro acc e u hu hstop hstart
        cases e with
        | stop t => exact absurd rfl (hstop t)
        | start n as => exact absurd rfl (hstart n as)
        | _ => rfl
      -- and its element counts a level all the same.
      have hopen : (c.inObject fname ctx .body).state.depth < MAX_NESTING_DEPTH →
          openElement p [] "ToString" [] (c.inObject fname ctx .body).state
            = .ok (⟨[], .skip 1 none⟩, { (c.inObject fname ctx .body).state with
              depth := (c.inObject fname ctx .body).state.depth + 1 }) := by
        intro hroom
        rw [openElement, if_neg (by omega)]
        rfl
      have hclose : ∀ s : DecoderState,
          s.referenced = (c.inObject fname ctx .body).state.referenced →
          Activity.step p s (.skip 1 none) (.stop "ToString") = .ok (.pop none, s) :=
        fun s _ => rfl
      -- A skipped element has no value, and the object is as before.
      have hdeliver : deliver [] none (c.inObject fname ctx .body)
          = c.inObject fname ctx .body := by
        rcases ctx with ⟨refId, obj, embedded⟩
        cases embedded <;> rfl
      have hall := Reads.element haccepts rfl rfl hopen hskip hclose
      rw [show Option.getD none [] = ([] : Text) from rfl, hdeliver] at hall
      rw [hevents]
      exact hall

/-- What stands directly in a container is read, too. -/
def ReadsBelow (p : Platform) : PsValue → Prop
  | .list items => ∀ v ∈ items, ReadsValue p v
  | .dict entries => ∀ e ∈ entries, ReadsValue p e.1 ∧ ReadsValue p e.2
  | _ => True

/-- What stands bare in an object is read into it. -/
theorem reads_value {p : Platform} (props : List (Text × PsValue))
    (h : ∀ q ∈ props, ReadsValue p q.2 ∧ ReadsBelow p q.2)
    (c : Config) (fname : Text) (ctx : ObjCtx) (id : Nat) (href : c.state.referenced = [])
    (hctx : ctx.embedded = none) :
    Reads p (c.inObject fname ctx .body) (Xml.eventsList (valueNodes p props id).1)
      (PsValue.nestValue props)
      (c.inObject fname { ctx with embedded := PsValue.normValue props } .body) := by
  induction props with
  | nil =>
      rw [PsValue.normValue, ← hctx]
      exact Reads.nil p _
  | cons q ps ih =>
      rcases q with ⟨k, v⟩
      have hq := h (k, v) (List.mem_cons_self ..)
      have hrest := ih fun w hw => h w (List.mem_cons_of_mem _ hw)
      by_cases hk : k = valueKey
      · -- A value other than a container is an element of the body.
        have helement : v ≠ .null → Reads p (c.inObject fname ctx .body)
            (node p v none id).1.events (PsValue.nest v)
            (c.inObject fname { ctx with embedded := some (PsValue.norm v) } .body) := by
          intro hv
          have hread := hq.1 (c.inObject fname ctx .body) none id ⟨rfl, hv⟩ href
          have hdeliver : deliver [] (some (PsValue.norm v)) (c.inObject fname ctx .body)
              = c.inObject fname { ctx with embedded := some (PsValue.norm v) } .body := by
            rcases ctx with ⟨refId, obj, embedded⟩
            cases hctx
            rfl
          rw [← hdeliver]
          exact hread
        -- A container is unfolded into the body of the object, and a null adds nothing.
        cases v with
        | null =>
            simp only [valueNodes, PsValue.nestValue, PsValue.normValue, if_pos hk]
            rw [← hctx]
            exact Reads.of_exec p _ _ _ rfl
        | list items =>
            simp only [valueNodes, PsValue.nestValue, PsValue.normValue, if_pos hk, Xml.eventsList,
              List.append_nil]
            exact reads_listBody items hq.2 c fname ctx id href
        | dict entries =>
            simp only [valueNodes, PsValue.nestValue, PsValue.normValue, if_pos hk, Xml.eventsList,
              List.append_nil]
            exact reads_dictBody entries hq.2 c fname ctx id href
        | _ =>
            simp only [valueNodes, PsValue.nestValue, PsValue.normValue, if_pos hk, Xml.eventsList,
              List.append_nil]
            exact helement PsValue.noConfusion
      · -- Other properties are not part of the body.
        cases v <;>
          simp only [valueNodes, PsValue.nestValue, PsValue.normValue, if_neg hk] <;>
          exact hrest

/-- The members of an object are read into it, in order: their names are
    distinct. -/
theorem reads_memberNodes {p : Platform} (props : List (Text × PsValue))
    (h : ∀ q ∈ props, ReadsValue p q.2) :
    ∀ (c : Config) (fname : Text) (ctx : ObjCtx) (id : Nat), c.state.referenced = [] →
      IndexMap.Keyed (ctx.obj.properties ++ PsValue.normMembers props) →
      Reads p (c.inObject fname ctx (.members "MS"))
        (Xml.eventsList (memberNodes p props id).1) (PsValue.nestMembers props)
        (c.inObject fname { ctx with obj := { ctx.obj with
          properties := ctx.obj.properties ++ PsValue.normMembers props } } (.members "MS")) := by
  induction props with
  | nil =>
      intro c fname ctx id _ _
      simp only [PsValue.normMembers, List.append_nil]
      exact Reads.nil p _
  | cons q ps ih =>
      rcases q with ⟨k, v⟩
      intro c fname ctx id href hkeyed
      have hrest := ih fun w hw => h w (List.mem_cons_of_mem _ hw)
      by_cases hk : k = valueKey
      · simp only [memberNodes, PsValue.nestMembers, PsValue.normMembers, if_pos hk] at hkeyed ⊢
        exact hrest c fname ctx id href hkeyed
      · simp only [memberNodes, PsValue.nestMembers, PsValue.normMembers, if_neg hk] at hkeyed ⊢
        -- The keys are distinct, so the property goes to the end.
        have hnew : k ∉ ctx.obj.properties.map Prod.fst := by
          rw [IndexMap.Keyed, List.map_append, List.map_cons] at hkeyed
          intro hmem
          exact (List.nodup_append.mp hkeyed).2.2 k hmem k (List.mem_cons_self ..) rfl
        have hinsert : ctx.obj.with k (PsValue.norm v)
            = { ctx.obj with properties := ctx.obj.properties ++ [(k, PsValue.norm v)] } := by
          rw [PsObject.with, IndexMap.insert_of_not_mem k _ _ hnew]
        have hread : Reads p (c.inObject fname ctx (.members "MS"))
            (node p v (some k) id).1.events (PsValue.nest v)
            (c.inObject fname { ctx with obj := { ctx.obj with
              properties := ctx.obj.properties ++ [(k, PsValue.norm v)] } } (.members "MS")) := by
          have hmember := h (k, v) (List.mem_cons_self ..) (c.inObject fname ctx (.members "MS"))
            (some k) id (Option.some_ne_none _) href
          rw [← hinsert]
          exact hmember
        -- The rest is read with this property in place, whatever type names were kept
        -- meanwhile.
        have hmore : ∀ tn, Reads p ((c.inObject fname { ctx with obj := { ctx.obj with
              properties := ctx.obj.properties ++ [(k, PsValue.norm v)] } }
                (.members "MS")).withTypeNames tn) _ _
            (c.inObject fname { ctx with obj := { ctx.obj with properties :=
              ctx.obj.properties ++ [(k, PsValue.norm v)] ++ PsValue.normMembers ps } }
                (.members "MS")) :=
          fun tn => hrest (c.withTypeNames tn) fname _ (node p v (some k) id).2 href
            (by rw [List.append_assoc]; exact hkeyed)
        simp only [List.append_assoc] at hmore
        exact Reads.append hread rfl hmore

theorem reads_members {p : Platform} (props : List (Text × PsValue))
    (h : ∀ q ∈ props, ReadsValue p q.2) (c : Config) (fname : Text) (ctx : ObjCtx) (id : Nat)
    (href : c.state.referenced = []) (hctx : ctx.obj.properties = [])
    (hkeyed : IndexMap.Keyed props) :
    Reads p (c.inObject fname ctx .body)
      (Xml.eventsList (membersNodes props (memberNodes p props id).1)) (PsValue.nestMembers props)
      (c.inObject fname { ctx with obj := { ctx.obj with
        properties := PsValue.normMembers props } } .body) := by
  by_cases honly : PsValue.onlyValue props = true
  · have hnone := PsValue.members_of_onlyValue props honly
    have hnodes : membersNodes props (memberNodes p props id).1 = [] := if_pos honly
    rw [hnodes, hnone.1, hnone.2, ← hctx]
    exact Reads.nil p _
  · have hnodes : membersNodes props (memberNodes p props id).1
        = [.element "MS" [] (memberNodes p props id).1] := if_neg honly
    rcases ctx with ⟨refId, ⟨properties, typeNames, toString⟩, embedded⟩
    cases hctx
    have hopen : Reads p (c.inObject fname ⟨refId, ⟨[], typeNames, toString⟩, embedded⟩ .body)
        [.start "MS" []] 0
        (c.inObject fname ⟨refId, ⟨[], typeNames, toString⟩, embedded⟩ (.members "MS")) :=
      Reads.of_exec p _ _ _ rfl
    have hread : ∀ tn, Reads p
        ((c.inObject fname ⟨refId, ⟨[], typeNames, toString⟩, embedded⟩
          (.members "MS")).withTypeNames tn) _ _
        (c.inObject fname ⟨refId, ⟨PsValue.normMembers props, typeNames, toString⟩, embedded⟩
          (.members "MS")) :=
      fun tn => reads_memberNodes props h (c.withTypeNames tn) fname
        ⟨refId, ⟨[], typeNames, toString⟩, embedded⟩ id href
        (PsValue.keyed_normMembers props hkeyed)
    have hclose : ∀ tn, Reads p
        ((c.inObject fname ⟨refId, ⟨PsValue.normMembers props, typeNames, toString⟩, embedded⟩
          (.members "MS")).withTypeNames tn) [.stop "MS"] 0
        (c.inObject fname ⟨refId, ⟨PsValue.normMembers props, typeNames, toString⟩, embedded⟩
          .body) :=
      fun tn => Reads.of_exec_typeNames p _ _ _ tn tn rfl
    have hall := Reads.append (Reads.append hopen rfl hread) rfl hclose
    rw [hnodes]
    simpa only [Xml.eventsList, Xml.Node.events, Xml.readAttrs, List.map_nil, List.cons_append,
      List.nil_append, List.append_nil, Nat.zero_max, Nat.max_zero] using hall

/-- The parts of an object, in the order they are written. -/
theorem reads_object {p : Platform} (o : PsObject)
    (h : ∀ q ∈ o.properties, ReadsValue p q.2 ∧ ReadsBelow p q.2)
    (hkeyed : IndexMap.Keyed o.properties) : ReadsValue p (.object o) := by
  rcases o with ⟨props, typeNames, toString⟩
  intro c name id haccepts href
  let refId := some (intText id)
  let body := fun (obj : PsObject) embedded =>
    c.inObject (name.getD []) ⟨refId, obj, embedded⟩ .body
  let embedded := PsValue.normValue props
  let id' := typeNamesNext typeNames (nextRefId id)
  have htypeNames : Reads p (body PsObject.new none)
      (Xml.eventsList (typeNamesNodes typeNames (nextRefId id))) 0
      (body ⟨[], typeNames, none⟩ none) :=
    reads_typeNames p typeNames c (name.getD []) ⟨refId, PsObject.new, none⟩ (nextRefId id) rfl
  have htoString : ∀ tn, Reads p ((body ⟨[], typeNames, none⟩ none).withTypeNames tn)
      (Xml.eventsList (toStringNodes toString)) (if toString.isSome then 1 else 0)
      (body ⟨[], typeNames, none⟩ none) :=
    fun tn => reads_toString p toString (c.withTypeNames tn) _ _
  have hvalue : ∀ tn, Reads p ((body ⟨[], typeNames, none⟩ none).withTypeNames tn)
      (Xml.eventsList (valueNodes p props id').1) (PsValue.nestValue props)
      (body ⟨[], typeNames, none⟩ embedded) :=
    fun tn => reads_value props h (c.withTypeNames tn) _ _ id' href rfl
  have hmembers : ∀ tn, Reads p ((body ⟨[], typeNames, none⟩ embedded).withTypeNames tn)
      (Xml.eventsList (membersNodes props (memberNodes p props (valueNodes p props id').2).1))
      (PsValue.nestMembers props)
      (body ⟨PsValue.normMembers props, typeNames, none⟩ embedded) :=
    fun tn => reads_members props (fun q hq => (h q hq).1) (c.withTypeNames tn) _ _ _ href rfl
      hkeyed
  have hall := ((htypeNames.append rfl htoString).append rfl hvalue).append rfl hmembers
  have hobject := Reads.object haccepts href hall
  rw [PsValue.norm_object, PsValue.nest, node]
  simpa only [objNode, Xml.Node.events, Xml.eventsList_append, Nat.zero_max] using hobject

/-- A value is read as its normal form, at every position. -/
theorem reads_node {p : Platform} (hp : p.Lawful) (v : PsValue) (hv : v.Valid) :
    ReadsValue p v := by
  suffices hboth : v.Valid → ReadsValue p v ∧ ReadsBelow p v from (hboth hv).1
  clear hv
  induction v using PsValue.induction with
  | leaf v hleaf =>
      intro _
      refine ⟨fun c name id haccepts _ => ?_, by cases v <;> trivial⟩
      rw [node_leaf v hleaf]
      exact reads_leaf hp c name v hleaf haccepts
  | list items ih =>
      intro hv
      have hitems : ∀ v ∈ items, ReadsValue p v :=
        fun v hmem => (ih v hmem ((PsValue.valid_list items).mp hv v hmem)).1
      refine ⟨fun c name id haccepts href => ?_, hitems⟩
      have hbody := reads_listBody items hitems c (name.getD [])
        ⟨some (intText id), PsObject.new, none⟩ (nextRefId id) href
      have hobject := Reads.object haccepts href hbody
      simp only [node, objNode, Xml.Node.events, Xml.eventsList, List.append_nil]
      simp only [Xml.Node.events] at hobject
      exact hobject
  | dict entries ih =>
      intro hv
      have hentries : ∀ e ∈ entries, ReadsValue p e.1 ∧ ReadsValue p e.2 := fun e hmem =>
        ⟨((ih e hmem).1 ((PsValue.valid_dict entries).mp hv e hmem).1).1,
          ((ih e hmem).2 ((PsValue.valid_dict entries).mp hv e hmem).2).1⟩
      refine ⟨fun c name id haccepts href => ?_, hentries⟩
      have hbody := reads_dictBody entries hentries c (name.getD [])
        ⟨some (intText id), PsObject.new, none⟩ (nextRefId id) href
      have hobject := Reads.object haccepts href hbody
      simp only [node, objNode, Xml.Node.events, Xml.eventsList, List.append_nil]
      simp only [Xml.Node.events] at hobject
      exact hobject
  | object o ih =>
      intro hv
      have hvalid := (PsValue.valid_object o).mp hv
      exact ⟨reads_object o (fun q hq => ih q hq (hvalid.2 q hq)) hvalid.1, trivial⟩

/-- A document that is one element is clean: it begins with a tag. -/
theorem cleanDocument_render (n : Xml.Node) (h : n.isText = false) :
    cleanDocument n.render = n.render := by
  rcases Xml.render_eq_cons n h with ⟨t, ht⟩
  have hmark : decide ('<' = Char.ofNat 0xFEFF) = false := by decide
  have hspace : Text.isWhitespace '<' = false := by decide
  rw [ht, cleanDocument, List.dropWhile_cons, hmark, if_neg Bool.false_ne_true, Text.trimStart,
    List.dropWhile_cons, hspace, if_neg Bool.false_ne_true]

/-- A document that is one element is decoded by running the machine over the
    events of its tree. -/
theorem parseClixml_render {p : Platform} (hp : p.Lawful) (n : Xml.Node) (htext : n.isText = false)
    (hplain : n.plain = true) :
    parseClixml p n.render
      = (Config.start (initialState n.events (Text.utf8Len n.render))).run p none n.events := by
  rw [parseClixml_eq_decode, decode, cleanDocument_render n htext,
    hp.read.read_render n htext hplain]

/-- No object is kept while the document of a value is decoded. -/
theorem referencedIds_toClixml {p : Platform} (hp : p.Lawful) (v : PsValue) :
    referencedIds (node p v none 0).1.events = [] := by
  rw [referencedIds, List.filterMap_eq_nil_iff]
  intro e he
  have hopens := opens_toClixml hp v e he
  cases e with
  | start tag attrs | empty tag attrs =>
      have htag : tag ≠ "Ref" := fun h => hopens (congrArg some h)
      simp only [if_neg htag]
  | _ => rfl

/-- Decoding what was encoded: the normal form within the nesting limit, an
    error beyond it. -/
theorem parseClixml_toClixml {p : Platform} (hp : p.Lawful) (v : PsValue) (hv : v.Valid) :
    parseClixml p (toClixml p v)
      = if v.nest ≤ MAX_NESTING_DEPTH then .ok [v.norm] else .error nestedTooDeep := by
  have hreadable := readable_node hp v none 0
  have href : (initialState (node p v none 0).1.events
      (Text.utf8Len (node p v none 0).1.render)).referenced = [] := referencedIds_toClixml hp v
  have hreads := reads_node hp v hv (Config.start (initialState (node p v none 0).1.events
    (Text.utf8Len (node p v none 0).1.render))) none 0 rfl href
  rw [toClixml_eq hp v, parseClixml_render hp _ hreadable.2.1 hreadable.1, run_eq_exec]
  split_ifs with hnest
  · rcases hreads.1 (by simpa only [Config.start, initialState, Nat.zero_add] using hnest) with
      ⟨tn, hexec⟩
    rw [hexec]
    rfl
  · rw [hreads.2 (Nat.zero_le _) (by
      simpa only [Config.start, initialState, Nat.zero_add, Nat.not_le] using hnest)]

end Machine

open PsValue (nest nestItems nestEntries nestValue nestMembers)

/-- The elements that count a level: objects, leaves and `ToString`. -/
def countsLevel (tag : String) : Bool := tag ∉ ["LST", "DCT", "En", "MS", "TN", "T"]

/-- The tree of a value nests as deep as `nest` says. -/
def Nests (p : Platform) (v : PsValue) : Prop :=
  ∀ name id, (node p v name id).1.levels countsLevel = nest v

section Nesting

variable {p : Platform}

theorem levels_leaf (v : PsValue) (hv : v.isContainer = false) (name : Option Text) :
    (leafNode p v name).levels countsLevel = nest v := by
  cases v with
  | list | dict | object => cases hv
  | _ => rfl

theorem levels_items (items : List PsValue) (h : ∀ v ∈ items, Nests p v) (id : Nat) :
    Xml.levelsList countsLevel (itemNodes p items id).1 = nestItems items := by
  induction items generalizing id with
  | nil => rfl
  | cons v vs ih =>
      simp only [itemNodes, Xml.levelsList, nestItems, h v (List.mem_cons_self ..) none id,
        ih fun w hw => h w (List.mem_cons_of_mem _ hw)]

theorem levels_entries (entries : List (PsValue × PsValue))
    (h : ∀ e ∈ entries, Nests p e.1 ∧ Nests p e.2) (id : Nat) :
    Xml.levelsList countsLevel (entryNodes p entries id).1 = nestEntries entries := by
  induction entries generalizing id with
  | nil => rfl
  | cons e es ih =>
      rcases e with ⟨k, v⟩
      have he := h (k, v) (List.mem_cons_self ..)
      have hen : countsLevel "En" = false := by decide
      simp only [entryNodes, Xml.levelsList, Xml.Node.levels, nestEntries, he.1 _ _, he.2 _ _, hen,
        ih fun w hw => h w (List.mem_cons_of_mem _ hw), Bool.false_eq_true, if_false, Nat.add_zero,
        Nat.max_zero]

theorem levels_members (props : List (Text × PsValue)) (h : ∀ q ∈ props, Nests p q.2)
    (id : Nat) : Xml.levelsList countsLevel (memberNodes p props id).1 = nestMembers props := by
  induction props generalizing id with
  | nil => rfl
  | cons q ps ih =>
      rcases q with ⟨k, v⟩
      have hrest := ih fun w hw => h w (List.mem_cons_of_mem _ hw)
      by_cases hk : k = valueKey
      · simp only [memberNodes, nestMembers, if_pos hk, hrest]
      · simp only [memberNodes, nestMembers, if_neg hk, Xml.levelsList, hrest,
          h (k, v) (List.mem_cons_self ..) (some k) id]

/-- What stands directly in a container nests, too. -/
def NestsBelow (p : Platform) : PsValue → Prop
  | .list items => ∀ v ∈ items, Nests p v
  | .dict entries => ∀ e ∈ entries, Nests p e.1 ∧ Nests p e.2
  | _ => True

theorem levels_value (props : List (Text × PsValue))
    (h : ∀ q ∈ props, Nests p q.2 ∧ NestsBelow p q.2) (id : Nat) :
    Xml.levelsList countsLevel (valueNodes p props id).1 = nestValue props := by
  induction props with
  | nil => rfl
  | cons q ps ih =>
      rcases q with ⟨k, v⟩
      have hq := h (k, v) (List.mem_cons_self ..)
      have hrest := ih fun w hw => h w (List.mem_cons_of_mem _ hw)
      have hlst : countsLevel "LST" = false := by decide
      have hdct : countsLevel "DCT" = false := by decide
      by_cases hk : k = valueKey
      · cases v with
        | list items =>
            simp only [valueNodes, nestValue, if_pos hk, Xml.levelsList, Xml.Node.levels, hlst,
              levels_items items hq.2, Bool.false_eq_true, if_false, Nat.add_zero, Nat.max_zero]
        | dict entries =>
            simp only [valueNodes, nestValue, if_pos hk, Xml.levelsList, Xml.Node.levels, hdct,
              levels_entries entries hq.2, Bool.false_eq_true, if_false, Nat.add_zero,
              Nat.max_zero]
        | _ =>
            simp only [valueNodes, nestValue, if_pos hk, Xml.levelsList, hq.1 none id,
              Nat.max_zero]
      · cases v <;> simp only [valueNodes, nestValue, if_neg hk] <;> exact hrest

theorem levels_typeNames (typeNames : List Text) (id : Nat) :
    Xml.levelsList countsLevel (typeNamesNodes typeNames id) = 0 := by
  have ht : ∀ names : List Text, Xml.levelsList countsLevel
      (names.map fun tn => .element "T" [] [.text (pwshEscape false tn)]) = 0 := by
    intro names
    induction names with
    | nil => rfl
    | cons tn names ih => rw [List.map_cons, Xml.levelsList, ih]; rfl
  rw [typeNamesNodes]
  split_ifs
  · rfl
  · rw [Xml.levelsList, Xml.Node.levels, ht]
    rfl

/-- The document of a value nests as deep as `nest` says. -/
theorem levels_node (v : PsValue) : Nests p v := by
  suffices hboth : Nests p v ∧ NestsBelow p v from hboth.1
  have hobj : countsLevel "Obj" = true := by decide
  -- What counts as a level is the element of an object; the tags inside it do not count.
  induction v using PsValue.induction with
  | leaf v hleaf =>
      refine ⟨fun name id => ?_, by cases v <;> trivial⟩
      rw [node_leaf v hleaf]
      exact levels_leaf v hleaf name
  | list items ih =>
      have hitems : ∀ v ∈ items, Nests p v := fun v hv => (ih v hv).1
      refine ⟨fun name id => ?_, hitems⟩
      have hlst : countsLevel "LST" = false := by decide
      simp only [node, objNode, Xml.Node.levels, Xml.levelsList, levels_items items hitems, hlst,
        hobj, nest, Bool.false_eq_true, if_false, if_true, Nat.add_zero, Nat.max_zero]
  | dict entries ih =>
      have hentries : ∀ e ∈ entries, Nests p e.1 ∧ Nests p e.2 :=
        fun e he => ⟨(ih e he).1.1, (ih e he).2.1⟩
      refine ⟨fun name id => ?_, hentries⟩
      have hdct : countsLevel "DCT" = false := by decide
      simp only [node, objNode, Xml.Node.levels, Xml.levelsList, levels_entries entries hentries,
        hdct, hobj, nest, Bool.false_eq_true, if_false, if_true, Nat.add_zero, Nat.max_zero]
  | object o ih =>
      rcases o with ⟨props, typeNames, toString⟩
      refine ⟨fun name id => ?_, trivial⟩
      have htext : Xml.levelsList countsLevel (toStringNodes toString)
          = if toString.isSome then 1 else 0 := by
        cases toString <;> rfl
      -- The members are written only if there is more than the bare value.
      have hmembers : ∀ id, Xml.levelsList countsLevel
          (membersNodes props (memberNodes p props id).1) = nestMembers props := by
        intro id
        have hms : countsLevel "MS" = false := by decide
        have hms' := levels_members props (fun q hq => (ih q hq).1) id
        by_cases honly : PsValue.onlyValue props = true
        · rw [show membersNodes props (memberNodes p props id).1 = [] from if_pos honly,
            (PsValue.members_of_onlyValue props honly).2]
          rfl
        · rw [show membersNodes props (memberNodes p props id).1
            = [.element "MS" [] (memberNodes p props id).1] from if_neg honly]
          simp only [Xml.levelsList, Xml.Node.levels, hms, hms', Bool.false_eq_true, if_false,
            Nat.add_zero, Nat.max_zero]
      simp only [node, objNode, Xml.Node.levels, Xml.levelsList_append, levels_typeNames, htext,
        levels_value props ih, hmembers, hobj, nest, if_true, Nat.zero_max]

end Nesting

/-- Encoding and decoding is one idempotent normalisation, of every value
    whose document nests within the limit; beyond it decoding fails. -/
theorem clixml_round_trip (p : Platform) (hp : p.Lawful) (v : PsValue) (hv : v.Valid) :
    ∃ doc : Xml.Node, toClixml p v = doc.render ∧ doc.levels countsLevel = v.nest
      ∧ (v.nest ≤ MAX_NESTING_DEPTH → parseClixml p (toClixml p v) = .ok [v.norm])
      ∧ (MAX_NESTING_DEPTH < v.nest → parseClixml p (toClixml p v) = .error nestedTooDeep)
      ∧ v.norm.norm = v.norm := by
  have hparse := Machine.parseClixml_toClixml hp v hv
  refine ⟨(node p v none 0).1, toClixml_eq hp v, levels_node v none 0, fun h => ?_, fun h => ?_,
    PsValue.norm_norm v⟩
  · rw [hparse, if_pos h]
  · rw [hparse, if_neg (by omega)]

/-- A list beside a text comes back inside an object. -/
theorem clixml_round_trip_list :
    ∃ doc : Xml.Node, toClixml Platform.basic (.list [.string "_x".toList, .null]) = doc.render
      ∧ doc.levels countsLevel = 2
      ∧ (2 ≤ MAX_NESTING_DEPTH →
        parseClixml Platform.basic (toClixml Platform.basic (.list [.string "_x".toList, .null]))
          = .ok [.object ⟨[(valueKey, .list [.string "_x".toList, .null])], [], none⟩])
      ∧ (MAX_NESTING_DEPTH < 2 →
        parseClixml Platform.basic (toClixml Platform.basic (.list [.string "_x".toList, .null]))
          = .error nestedTooDeep)
      ∧ PsValue.norm (.object ⟨[(valueKey, .list [.string "_x".toList, .null])], [], none⟩)
        = .object ⟨[(valueKey, .list [.string "_x".toList, .null])], [], none⟩ :=
  clixml_round_trip Platform.basic Platform.basic_lawful (.list [.string "_x".toList, .null])
    ((PsValue.valid_list _).mpr (by
      intro v hv
      rcases List.mem_cons.mp hv with rfl | hv
      · trivial
      · rw [List.mem_singleton.mp hv]
        trivial))

end Psrp

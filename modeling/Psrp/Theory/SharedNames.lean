import Psrp.Theory.RefIds

/-!
# Objects That Share Their Type Names

What the decoder reads from a document in which objects share type names.

The encoder writes the type names of every object, and points to none. A
document that is put together by hand may write a block of names once and
point to it from the other objects of the type. `Shares` says what such a
document is: parts that the encoder would write, objects that point to a block
written before, and objects whose items or members are themselves such
documents. Which blocks stand before a part, and which after it, is part of
the relation.

Sharing is not visible. A document of a value in which names are shared is read as the encoder's
document of it is: as its normal form within the nesting limit, and as nested
too deep beyond it (`takes_shares`). The induction is over the derivation, and
carries the table of type names, as `Reads` cannot: what a part is read as
depends on the blocks before it (`Takes`).

## Main definitions

* `Knows`: What the table of type names holds.
* `Takes`: What a stretch of events does that relies on the table.
* `Shares`: A document of a value in which type names are shared.

## Theorems

* `takes_shares`: Such a document is read as the value.
* `parseClixml_shares`: The same of a whole document.
-/

namespace Psrp

open Xml (Attr Event Node eventsList)

/-- Blocks of type names, by id. -/
abbrev Blocks := List (Nat × List Text)

/-- The table of type names holds some blocks. -/
def Knows (T : Blocks) (tn : IndexMap Text (List Text)) : Prop :=
  ∀ b ∈ T, IndexMap.get (intText b.1) tn = some b.2

/-- No block has one of the ids from one to the one before another, which are
    distinct. -/
def Older (T : Blocks) (id next : Nat) : Prop := next < lastId ∧ ∀ b ∈ T, b.1 < id ∨ next ≤ b.1

/-- The block that an object points to. -/
def typeNamesRef (id : Nat) : Node := .empty "TNRef" [("RefId", intText id)]

/-- The attributes of an object, in either order. -/
inductive ObjAttrs (name : Option Text) (id : Nat) : List (String × Text) → Prop
  | nameFirst : ObjAttrs name id (nameAttrs name ++ [("RefId", intText id)])
  | idFirst : ObjAttrs name id (("RefId", intText id) :: nameAttrs name)

mutual

/-- A tree writes a value under a name: after the blocks of `T`, and those of
    `T'` are written then. -/
inductive Shares (p : Platform) : Blocks → PsValue → Option Text → Node → Blocks → Prop
  | plain {T v name id} : v.Valid → Older T id (node p v name id).2 →
    Shares p T v name (node p v name id).1 T
  /-- The names of an object are a block that others may point to. -/
  | block {T o name id} : PsValue.Valid (.object o) → o.typeNames ≠ [] →
    Older T id (node p (.object o) name id).2 →
    Shares p T (.object o) name (node p (.object o) name id).1 ((nextRefId id, o.typeNames) :: T)
  /-- Only the names are shared: what is in the object is plain. -/
  | shared {T o name id tnId attrs vs ms} : PsValue.Valid (.object o) → (tnId, o.typeNames) ∈ T →
    ObjAttrs name id attrs → valueNodes p o.properties (nextRefId id) = vs →
    memberNodes p o.properties vs.2 = ms → Older T (nextRefId id) ms.2 →
    Shares p T (.object o) name (.element "Obj" attrs
      (typeNamesRef tnId :: (toStringNodes o.toString ++ vs.1 ++ membersNodes o.properties ms.1))) T
  /-- A list of such documents, with names of its own. -/
  | list {T T' typeNames items name id tnId attrs ns} : typeNames ≠ [] →
    (∀ b ∈ T, b.1 ≠ tnId) → ObjAttrs name id attrs →
    SharesItems p ((tnId, typeNames) :: T) items ns T' →
    Shares p T (.object ⟨[(valueKey, .list items)], typeNames, none⟩) name
      (.element "Obj" attrs (typeNamesNodes typeNames tnId ++ [.element "LST" [] ns])) T'
  /-- An object without type names, whose members are such documents. -/
  | members {T T' props name id attrs ns} : IndexMap.Keyed props →
      (∀ q ∈ props, q.1 ≠ valueKey) → ObjAttrs name id attrs →
    SharesMembers p T props ns T' →
    Shares p T (.object ⟨props, [], none⟩) name (.element "Obj" attrs [.element "MS" [] ns]) T'

/-- Trees write the items of a list. -/
inductive SharesItems (p : Platform) : Blocks → List PsValue → List Node → Blocks → Prop
  | nil {T} : SharesItems p T [] [] T
  | cons {T T' T'' v vs n ns} : Shares p T v none n T' → SharesItems p T' vs ns T'' →
    SharesItems p T (v :: vs) (n :: ns) T''

/-- Trees write the members of an object. -/
inductive SharesMembers (p : Platform) :
    Blocks → List (Text × PsValue) → List Node → Blocks → Prop
  | nil {T} : SharesMembers p T [] [] T
  | cons {T T' T'' k v props n ns} : Shares p T v (some k) n T' →
    SharesMembers p T' props ns T'' → SharesMembers p T ((k, v) :: props) (n :: ns) T''

end

/-- Members that are not the synthetic one put nothing bare in their object. -/
theorem PsValue.value_of_members (props : List (Text × PsValue))
    (h : ∀ q ∈ props, q.1 ≠ valueKey) : normValue props = none ∧ nestValue props = 0 := by
  induction props with
  | nil => exact ⟨rfl, rfl⟩
  | cons q ps ih =>
      rcases q with ⟨k, v⟩
      have hk : k ≠ valueKey := h (k, v) (List.mem_cons_self ..)
      have hrest := ih fun w hw => h w (List.mem_cons_of_mem _ hw)
      cases v <;> simp only [normValue, nestValue, if_neg hk] <;> exact hrest

namespace Machine

variable {p : Platform} {T T' T'' : Blocks} {c c' c'' : Config}

/-- What a stretch of events does that relies on some blocks: within the
    nesting limit it ends in `c'` with other blocks, and beyond it fails. -/
def Takes (p : Platform) (T : Blocks) (c : Config) (es : List Event) (levels : Nat) (T' : Blocks)
    (c' : Config) : Prop :=
  Knows T c.state.typeNames →
    (c.state.depth + levels ≤ MAX_NESTING_DEPTH →
      ∃ tn, Knows T' tn ∧ c.exec p es = .ok (c'.withTypeNames tn))
    ∧ (c.state.depth ≤ MAX_NESTING_DEPTH → MAX_NESTING_DEPTH < c.state.depth + levels →
      c.exec p es = .error nestedTooDeep)

theorem Takes.nil : Takes p T c [] 0 T c :=
  fun hT => ⟨fun _ => ⟨c.state.typeNames, hT, rfl⟩, fun h h' => by omega⟩

/-- Events that count no level. -/
theorem Takes.of_exec {es : List Event} (tn : IndexMap Text (List Text))
    (hT : Knows T c.state.typeNames → Knows T' tn)
    (h : Knows T c.state.typeNames → c.exec p es = .ok (c'.withTypeNames tn)) :
    Takes p T c es 0 T' c' :=
  fun hc => ⟨fun _ => ⟨tn, hT hc, h hc⟩, fun h1 h2 => by omega⟩

theorem Takes.append {es fs : List Event} {l m : Nat} (h : Takes p T c es l T' c')
    (hdepth : c'.state.depth = c.state.depth)
    (h' : ∀ tn, Takes p T' (c'.withTypeNames tn) fs m T'' c'') :
    Takes p T c (es ++ fs) (max l m) T'' c'' := by
  intro hT
  refine ⟨fun hfits => ?_, fun hmax hdeep => ?_⟩
  · rcases (h hT).1 (by omega) with ⟨tn, hT', hexec⟩
    rcases (h' tn hT').1 (by rw [withTypeNames_depth]; omega) with ⟨tn', hT'', hexec'⟩
    exact ⟨tn', hT'', by rw [exec_append, hexec]; exact hexec'⟩
  · rw [exec_append]
    by_cases hl : c.state.depth + l ≤ MAX_NESTING_DEPTH
    · rcases (h hT).1 hl with ⟨tn, hT', hexec⟩
      rw [hexec]
      exact (h' tn hT').2 (by rw [withTypeNames_depth]; omega) (by rw [withTypeNames_depth]; omega)
    · rw [(h hT).2 hmax (by omega)]

/-- What relies on no block leaves those alone whose ids it does not take. -/
theorem Reads.takes {es : List Event} {l : Nat} (h : Reads p c es l c')
    (hspares : ∀ b ∈ T, c.Spares (intText b.1)) (hids : ∀ b ∈ T, intText b.1 ∉ takenIds es) :
    Takes p T c es l T c' := by
  intro hT
  refine ⟨fun hfits => ?_, h.2⟩
  rcases h.1 hfits with ⟨tn, hexec⟩
  refine ⟨tn, fun b hb => ?_, hexec⟩
  have hkept := exec_spares es (hids b hb) (hspares b hb) hexec
  exact hkept.trans (hT b hb)

theorem refIdAttr_of_objAttrs {name : Option Text} {id : Nat} {attrs : List (String × Text)}
    (h : ObjAttrs name id attrs) : refIdAttr (Xml.readAttrs attrs) = .ok (some (intText id)) := by
  cases h with
  | nameFirst => exact refIdAttr_obj name id
  | idFirst => rfl

/-- An object, with what is in it, is one level around what is in it. The end
    of the object keeps the table. -/
theorem Takes.object {name : Option Text} {id : Nat} {attrs : List (String × Text)}
    {es : List Event} {l : Nat} {obj : PsObject} {embedded : Option PsValue}
    (hattrs : ObjAttrs name id attrs) (haccepts : Accepts c name (.object obj))
    (href : c.state.referenced = [])
    (hbody : Takes p T
      (c.inObject (name.getD []) ⟨some (intText id), PsObject.new, none⟩ .body) es l T'
      (c.inObject (name.getD []) ⟨some (intText id), obj, embedded⟩ .body)) :
    Takes p T c (.start "Obj" (Xml.readAttrs attrs) :: (es ++ [.stop "Obj"])) (l + 1) T'
      (deliver (name.getD []) (some (.object (exposeValue embedded obj))) c) := by
  intro hT
  -- The name is read whichever of the two attributes comes first.
  have hname : nameAttr (Xml.readAttrs attrs) = .ok name := by
    cases hattrs with
    | nameFirst =>
        refine nameAttr_nameAttrs name _ fun q hq => ?_
        rw [List.mem_singleton.mp hq]
        exact by simp only [ne_eq, String.reduceEq, not_false_eq_true]
    | idFirst =>
        have hrest := nameAttr_nameAttrs name [] fun _ hq => absurd hq List.not_mem_nil
        rw [List.append_nil] at hrest
        exact hrest
  have hid := refIdAttr_of_objAttrs hattrs
  have hstart := step_start p c name _ "Obj" _ haccepts (by decide) hname
  -- With room for a level the object is opened under its id,
  have hopen : c.state.depth < MAX_NESTING_DEPTH →
      c.step p (.start "Obj" (Xml.readAttrs attrs))
        = .ok (c.inObject (name.getD []) ⟨some (intText id), PsObject.new, none⟩ .body) := by
    intro hroom
    rw [hstart, openElement, if_neg (by omega)]
    simp only [show leafParser p "Obj" = none from rfl, if_true, hid]
    rfl
  refine ⟨fun hfits => ?_, fun hmax hdeep => ?_⟩
  · rcases (hbody hT).1 (by rw [Config.inObject, push_depth]; omega) with ⟨tn, hT', hexec⟩
    refine ⟨tn, hT', ?_⟩
    rw [exec_cons (hopen (by omega)), exec_append, hexec]
    -- Nothing refers to objects, so this one is not kept.
    have hkeep : ∀ v, keepReferenced (some (intText id)) v
        { (c.withTypeNames tn).state with depth := c.state.depth + 1 }
          = .ok { (c.withTypeNames tn).state with depth := c.state.depth + 1 } := by
      intro v
      simp only [keepReferenced, Config.withTypeNames, href, List.not_mem_nil, decide_false]
      rfl
    simp only [Config.exec, Config.inObject, push_withTypeNames]
    rw [step_push]
    simp only [withTypeNames_depth, Activity.step, bodyStep, if_true, hkeep]
    rcases c with ⟨stack, s, out⟩
    cases stack <;> rfl
  · -- and without, it is refused, here or inside.
    by_cases hroom : c.state.depth < MAX_NESTING_DEPTH
    · rw [exec_cons (hopen hroom), exec_append,
        (hbody hT).2 (by rw [Config.inObject, push_depth]; omega)
          (by rw [Config.inObject, push_depth]; omega)]
    · rw [Config.exec, hstart, openElement, if_pos (by omega)]
      rfl

/-- Where no object is kept for references, and no block is being read. -/
structure Calm (c : Config) : Prop where
  unreferenced : c.state.referenced = []
  unnaming : ∀ f ∈ c.stack, f.activity.naming = none

theorem Calm.spares (h : Calm c) (k : Text) : c.Spares k := by
  intro f hf
  rw [h.unnaming f hf]
  exact fun heq => by cases heq

theorem Calm.withTypeNames (h : Calm c) (tn : IndexMap Text (List Text)) :
    Calm (c.withTypeNames tn) := ⟨h.unreferenced, h.unnaming⟩

theorem Calm.inObject (h : Calm c) (fname : Text) (ctx : ObjCtx) {mode : Mode}
    (hmode : (Activity.object ctx mode).naming = none) : Calm (c.inObject fname ctx mode) :=
  ⟨h.unreferenced, List.forall_mem_cons.mpr ⟨hmode, h.unnaming⟩⟩

/-- What accepts a null is no body, and accepts any value. -/
theorem accepts_of_null {name : Option Text} (h : Accepts c name .null) (v : PsValue) :
    Accepts c name v := by
  rcases c with ⟨stack, s, out⟩
  cases stack with
  | nil => exact h
  | cons f rest =>
      rcases f with ⟨fname, a⟩
      cases a with
      | leaf | skip => cases h
      | object ctx mode =>
          cases mode with
          | body => exact absurd rfl h.2
          | _ => exact h

theorem not_mem_takenIds {id next : Nat} {es : List Event} (holder : Older T id next)
    (h : Numbers id next es) : ∀ b ∈ T, intText b.1 ∉ takenIds es := by
  intro b hb hmem
  rw [(h.ids holder.1).2, mem_idRange] at hmem
  have hold := holder.2 b hb
  omega

/-- A block is read into its object, and kept. -/
theorem takes_typeNames {names : List Text} (hnames : names ≠ []) {fname : Text} {ctx : ObjCtx}
    {id : Nat} (hid : ∀ b ∈ T, b.1 ≠ id) :
    Takes p T (c.inObject fname ctx .body) (eventsList (typeNamesNodes names id)) 0
      ((id, names) :: T)
      (c.inObject fname { ctx with obj := { ctx.obj with typeNames := names } } .body) := by
  refine Takes.of_exec (IndexMap.insert (intText id) names c.state.typeNames)
    (fun hT b hb => ?_) fun _ => ?_
  · rw [IndexMap.get_insert]
    rcases List.mem_cons.mp hb with rfl | hb
    · exact if_pos rfl
    · rw [if_neg fun heq => hid b hb (intText_inj heq).symm]
      exact hT b hb
  · rw [typeNamesNodes, if_neg hnames]
    simp only [Xml.eventsList, Node.events, List.append_nil]
    rw [Config.exec]
    show (c.inObject fname ctx (.typeNames (some (intText id)) [])).exec p _ = _
    rw [exec_append, exec_typeNameNodes]
    rfl

/-- Names that are pointed to are those of the block. -/
theorem takes_typeNamesRef {names : List Text} {id : Nat} (hid : (id, names) ∈ T) {fname : Text}
    {ctx : ObjCtx} :
    Takes p T (c.inObject fname ctx .body) (typeNamesRef id).events 0 T
      (c.inObject fname { ctx with obj := { ctx.obj with typeNames := names } } .body) := by
  refine Takes.of_exec c.state.typeNames (fun hT => hT) fun hT => ?_
  have hget : IndexMap.get (intText id) c.state.typeNames = some names := hT (id, names) hid
  have hshared : ∀ obj, sharedTypeNames (some (intText id))
      { c.state with depth := c.state.depth + 1 } obj = { obj with typeNames := names } := by
    intro obj
    simp only [sharedTypeNames, Option.bind_some, hget]
  rw [typeNamesRef, Node.events, Config.exec, Config.inObject, step_push]
  simp only [Activity.step, bodyStep, if_true]
  rw [show refRefIdAttr (Xml.readAttrs [("RefId", intText id)]) = .ok (some (intText id)) from rfl]
  simp only [Except.map, hshared]
  rfl

/-- The members of an object, after some, with the names that are free. -/
theorem insert_member {o : PsObject} {k : Text} {v : PsValue} {rest : List (Text × PsValue)}
    (h : IndexMap.Keyed (o.properties ++ (k, v) :: rest)) (w : PsValue) :
    o.with k w = { o with properties := o.properties ++ [(k, w)] } := by
  have hnew : k ∉ o.properties.map Prod.fst := by
    rw [IndexMap.Keyed, List.map_append, List.map_cons] at h
    intro hmem
    exact (List.nodup_append.mp h).2.2 k hmem k (List.mem_cons_self ..) rfl
  rw [PsObject.with, IndexMap.insert_of_not_mem k _ _ hnew]

section Lawful

variable (hp : p.Lawful)

include hp

/-- What is in an object after its type names, when all of it is plain. -/
theorem takes_contents {props : List (Text × PsValue)} {typeNames : List Text}
    {toString : Option Text} (hvalid : PsValue.Valid (.object ⟨props, typeNames, toString⟩))
    {id : Nat} {vs ms : List Node × Nat} (hvs : valueNodes p props id = vs)
    (hms : memberNodes p props vs.2 = ms) (holder : Older T id ms.2) (hc : Calm c) (fname : Text)
    (refId : Option Text) :
    Takes p T (c.inObject fname ⟨refId, ⟨[], typeNames, none⟩, none⟩ .body)
      (eventsList (toStringNodes toString ++ vs.1 ++ membersNodes props ms.1))
      (max (max (if toString.isSome then 1 else 0) (PsValue.nestValue props))
        (PsValue.nestMembers props)) T
      (c.inObject fname ⟨refId, ⟨PsValue.normMembers props, typeNames, none⟩,
        PsValue.normValue props⟩ .body) := by
  subst hvs hms
  have hprops := (PsValue.valid_object _).mp hvalid
  -- Every property is read back by itself, and so are the parts of a container.
  have hreads : ∀ q ∈ props, ReadsValue p q.2 ∧ ReadsBelow p q.2 := by
    intro q hq
    have hq' := hprops.2 q hq
    refine ⟨reads_node hp q.2 hq', ?_⟩
    cases hv : q.2 with
    | list items =>
        rw [hv] at hq'
        exact fun v hmem => reads_node hp v ((PsValue.valid_list items).mp hq' v hmem)
    | dict entries =>
        rw [hv] at hq'
        have hentries := (PsValue.valid_dict entries).mp hq'
        exact fun e hmem => ⟨reads_node hp e.1 (hentries e hmem).1,
          reads_node hp e.2 (hentries e hmem).2⟩
    | _ => trivial
  let body := fun (props : List (Text × PsValue)) embedded =>
    c.inObject fname ⟨refId, ⟨props, typeNames, none⟩, embedded⟩ .body
  -- The body in the order it is written: the text, the bare value, the members.
  have htoString : Reads p (body [] none) _ _ (body [] none) :=
    reads_toString p toString c fname _
  have hvalue : ∀ tn, Reads p ((body [] none).withTypeNames tn) _ _
      (body [] (PsValue.normValue props)) :=
    fun tn => reads_value props hreads (c.withTypeNames tn) fname _ id hc.unreferenced rfl
  have hmembers : ∀ tn, Reads p ((body [] (PsValue.normValue props)).withTypeNames tn) _ _
      (body (PsValue.normMembers props) (PsValue.normValue props)) :=
    fun tn => reads_members props (fun q hq => (hreads q hq).1) (c.withTypeNames tn) fname _
      (valueNodes p props id).2 hc.unreferenced rfl hprops.1
  have hall := Reads.append (Reads.append htoString rfl hvalue) rfl hmembers
  rw [← Xml.eventsList_append, ← Xml.eventsList_append] at hall
  exact hall.takes (fun b _ => (hc.inObject fname _ rfl).spares _)
    (not_mem_takenIds holder (numbers_contents props toString id))

/-- A part that the encoder would write, and that others do not point to. -/
theorem takes_plain {v : PsValue} (hv : v.Valid) {name : Option Text} {id : Nat}
    (holder : Older T id (node p v name id).2) (haccepts : Accepts c name .null) (hc : Calm c) :
    Takes p T c (node p v name id).1.events (PsValue.nest v) T
      (deliver (name.getD []) (some (PsValue.norm v)) c) :=
  (reads_node hp v hv c name id (accepts_of_null haccepts v) hc.unreferenced).takes
    (fun _ _ => hc.spares _) (not_mem_takenIds holder (numbers_node v name id))

/-- An object is read: its names somehow, and then what is in it. -/
theorem takes_named {props : List (Text × PsValue)} {typeNames : List Text}
    {toString : Option Text} (hvalid : PsValue.Valid (.object ⟨props, typeNames, toString⟩))
    {name : Option Text} {id next : Nat} {attrs : List (String × Text)} {tns : List Node}
    {vs ms : List Node × Nat} (hattrs : ObjAttrs name id attrs) (hvs : valueNodes p props next = vs)
    (hms : memberNodes p props vs.2 = ms) (holder : Older T' next ms.2)
    (haccepts : Accepts c name .null) (hc : Calm c)
    (htns : ∀ fname refId, Takes p T (c.inObject fname ⟨refId, PsObject.new, none⟩ .body)
      (eventsList tns) 0 T' (c.inObject fname ⟨refId, ⟨[], typeNames, none⟩, none⟩ .body)) :
    Takes p T c (Node.element "Obj" attrs (tns
        ++ (toStringNodes toString ++ vs.1 ++ membersNodes props ms.1))).events
      (PsValue.nest (.object ⟨props, typeNames, toString⟩)) T'
      (deliver (name.getD []) (some (PsValue.norm (.object ⟨props, typeNames, toString⟩))) c) := by
  let body := fun (props : List (Text × PsValue)) embedded =>
    c.inObject (name.getD []) ⟨some (intText id), ⟨props, typeNames, none⟩, embedded⟩ .body
  have hcontents : ∀ tn, Takes p T' ((body [] none).withTypeNames tn) _ _ T'
      (body (PsValue.normMembers props) (PsValue.normValue props)) :=
    fun tn => takes_contents hp hvalid hvs hms holder (hc.withTypeNames tn) (name.getD [])
      (some (intText id))
  have hbody := (htns (name.getD []) (some (intText id))).append rfl hcontents
  have hobject := Takes.object hattrs (accepts_of_null haccepts _) hc.unreferenced hbody
  rw [PsValue.norm_object, PsValue.nest]
  simp only [Node.events, Xml.eventsList_append, Nat.zero_max] at hobject ⊢
  exact hobject

/-- An object whose names are a block is read, and the block is kept. -/
theorem takes_block {o : PsObject} (hv : PsValue.Valid (.object o)) (hnames : o.typeNames ≠ [])
    {name : Option Text} {id : Nat} (holder : Older T id (node p (.object o) name id).2)
    (haccepts : Accepts c name .null) (hc : Calm c) :
    Takes p T c (node p (.object o) name id).1.events (PsValue.nest (.object o))
      ((nextRefId id, o.typeNames) :: T)
      (deliver (name.getD []) (some (PsValue.norm (.object o))) c) := by
  rcases o with ⟨props, typeNames, toString⟩
  have hnext : typeNamesNext typeNames (nextRefId id) = nextRefId (nextRefId id) := if_neg hnames
  simp only [node, hnext] at holder
  have hlt := holder.1
  -- The ids of the contents come after that of the block.
  have hle := ((numbers_contents (p := p) props toString (nextRefId (nextRefId id))).ids hlt).1
  have hid' : nextRefId (nextRefId id) = nextRefId id + 1 := nextRefId_of_lt (by omega)
  have hid : nextRefId id = id + 1 := nextRefId_of_lt (by omega)
  have hfresh : ∀ b ∈ T, b.1 ≠ nextRefId id := by
    intro b hb
    have hb' := holder.2 b hb
    omega
  have holder' : Older ((nextRefId id, typeNames) :: T) (nextRefId (nextRefId id))
      (memberNodes p props (valueNodes p props (nextRefId (nextRefId id))).2).2 := by
    refine ⟨hlt, fun b hb => ?_⟩
    rcases List.mem_cons.mp hb with rfl | hb
    · exact Or.inl (by simp only []; omega)
    · have hb' := holder.2 b hb
      omega
  have hattrs : ObjAttrs name id (nameAttrs name ++ [("RefId", intText id)]) := .nameFirst
  have hobject := takes_named hp hv hattrs rfl rfl holder' haccepts hc
    fun _ _ => takes_typeNames hnames hfresh
  simp only [node, objNode, hnext, List.append_assoc] at hobject ⊢
  exact hobject

/-- An object that points to a block is read with the names of the block. -/
theorem takes_shared {o : PsObject} (hv : PsValue.Valid (.object o)) {tnId : Nat}
    (htn : (tnId, o.typeNames) ∈ T) {name : Option Text} {id : Nat} {attrs : List (String × Text)}
    (hattrs : ObjAttrs name id attrs) {vs ms : List Node × Nat}
    (hvs : valueNodes p o.properties (nextRefId id) = vs)
    (hms : memberNodes p o.properties vs.2 = ms) (holder : Older T (nextRefId id) ms.2)
    (haccepts : Accepts c name .null) (hc : Calm c) :
    Takes p T c (Node.element "Obj" attrs (typeNamesRef tnId
        :: (toStringNodes o.toString ++ vs.1 ++ membersNodes o.properties ms.1))).events
      (PsValue.nest (.object o)) T
      (deliver (name.getD []) (some (PsValue.norm (.object o))) c) := by
  have href : ∀ fname refId, Takes p T (c.inObject fname ⟨refId, PsObject.new, none⟩ .body)
      (eventsList [typeNamesRef tnId]) 0 T
      (c.inObject fname ⟨refId, ⟨[], o.typeNames, none⟩, none⟩ .body) := by
    intro fname refId
    rw [Xml.eventsList, Xml.eventsList, List.append_nil]
    exact takes_typeNamesRef htn
  exact takes_named hp hv hattrs hvs hms holder haccepts hc href

omit hp

/-- A document is read as a value, at every place. -/
def TakesValue (p : Platform) (T : Blocks) (v : PsValue) (name : Option Text) (n : Node)
    (T' : Blocks) : Prop :=
  ∀ c : Config, Accepts c name .null → Calm c →
    Takes p T c n.events (PsValue.nest v) T' (deliver (name.getD []) (some (PsValue.norm v)) c)

def TakesItems (p : Platform) (T : Blocks) (items : List PsValue) (ns : List Node)
    (T' : Blocks) : Prop :=
  ∀ (c : Config) (fname : Text) (ctx : ObjCtx) (closing : String) (read : List PsValue), Calm c →
    Takes p T (c.inObject fname ctx (.list closing read)) (eventsList ns)
      (PsValue.nestItems items) T'
      (c.inObject fname ctx (.list closing (read ++ PsValue.normItems items)))

def TakesMembers (p : Platform) (T : Blocks) (props : List (Text × PsValue)) (ns : List Node)
    (T' : Blocks) : Prop :=
  (∀ q ∈ props, q.1 ≠ valueKey) → ∀ (c : Config) (fname : Text) (ctx : ObjCtx), Calm c →
    IndexMap.Keyed (ctx.obj.properties ++ props) →
    Takes p T (c.inObject fname ctx (.members "MS")) (eventsList ns)
      (PsValue.nestMembers props) T'
      (c.inObject fname { ctx with obj := { ctx.obj with
        properties := ctx.obj.properties ++ PsValue.normMembers props } } (.members "MS"))

theorem TakesItems.nil : TakesItems p T [] [] T := by
  intro c fname ctx closing read _
  rw [PsValue.normItems, List.append_nil]
  exact .nil

theorem TakesItems.cons {v : PsValue} {vs : List PsValue} {n : Node} {ns : List Node}
    (h : TakesValue p T v none n T') (hrest : TakesItems p T' vs ns T'') :
    TakesItems p T (v :: vs) (n :: ns) T'' := by
  intro c fname ctx closing read hc
  have hfirst : Takes p T (c.inObject fname ctx (.list closing read)) _ _ T'
      (c.inObject fname ctx (.list closing (read ++ [PsValue.norm v]))) :=
    h _ rfl (hc.inObject fname ctx rfl)
  have hmore : ∀ tn, Takes p T'
      ((c.inObject fname ctx (.list closing (read ++ [PsValue.norm v]))).withTypeNames tn) _ _
      T'' (c.inObject fname ctx
        (.list closing (read ++ [PsValue.norm v] ++ PsValue.normItems vs))) :=
    fun tn => hrest (c.withTypeNames tn) fname ctx closing _ (hc.withTypeNames tn)
  simp only [List.append_assoc] at hmore
  exact hfirst.append rfl hmore

theorem TakesMembers.nil : TakesMembers p T [] [] T := by
  intro _ c fname ctx _ _
  simp only [PsValue.normMembers, List.append_nil]
  exact .nil

theorem TakesMembers.cons {k : Text} {v : PsValue} {props : List (Text × PsValue)} {n : Node}
    {ns : List Node} (h : TakesValue p T v (some k) n T') (hrest : TakesMembers p T' props ns T'') :
    TakesMembers p T ((k, v) :: props) (n :: ns) T'' := by
  intro hvalue c fname ctx hc hkeyed
  have hk : k ≠ valueKey := hvalue (k, v) (List.mem_cons_self ..)
  have hfirst : Takes p T (c.inObject fname ctx (.members "MS")) _ _ T'
      (c.inObject fname { ctx with obj := ctx.obj.with k (PsValue.norm v) } (.members "MS")) :=
    h _ (Option.some_ne_none _) (hc.inObject fname ctx rfl)
  have hkeyed' : IndexMap.Keyed (ctx.obj.properties ++ [(k, PsValue.norm v)] ++ props) := by
    simpa only [IndexMap.Keyed, List.append_assoc, List.map_append, List.map_cons,
      List.cons_append, List.nil_append] using hkeyed
  rw [insert_member hkeyed] at hfirst
  have hmore : ∀ tn, Takes p T' ((c.inObject fname { ctx with obj := { ctx.obj with
        properties := ctx.obj.properties ++ [(k, PsValue.norm v)] } }
          (.members "MS")).withTypeNames tn) _ _ T''
      (c.inObject fname { ctx with obj := { ctx.obj with properties :=
        ctx.obj.properties ++ [(k, PsValue.norm v)] ++ PsValue.normMembers props } }
          (.members "MS")) :=
    fun tn => hrest (fun q hq => hvalue q (List.mem_cons_of_mem _ hq)) (c.withTypeNames tn)
      fname _ (hc.withTypeNames tn) hkeyed'
  simp only [PsValue.nestMembers, PsValue.normMembers, if_neg hk]
  simp only [List.append_assoc] at hmore
  exact hfirst.append rfl hmore

/-- A list in an object, with names of its own. -/
theorem takes_list {typeNames : List Text} {items : List PsValue} {name : Option Text}
    {id tnId : Nat} {attrs : List (String × Text)} {ns : List Node} (hnames : typeNames ≠ [])
    (hfresh : ∀ b ∈ T, b.1 ≠ tnId) (hattrs : ObjAttrs name id attrs)
    (hitems : TakesItems p ((tnId, typeNames) :: T) items ns T') :
    TakesValue p T (.object ⟨[(valueKey, .list items)], typeNames, none⟩) name
      (.element "Obj" attrs (typeNamesNodes typeNames tnId ++ [.element "LST" [] ns])) T' := by
  intro c haccepts hc
  let body := fun (typeNames : List Text) embedded mode => c.inObject (name.getD [])
    ⟨some (intText id), ⟨[], typeNames, none⟩, embedded⟩ mode
  have hblock : Takes p T (body [] none .body) _ 0 ((tnId, typeNames) :: T)
      (body typeNames none .body) := takes_typeNames hnames hfresh
  have hopen : ∀ tn, Takes p ((tnId, typeNames) :: T)
      ((body typeNames none .body).withTypeNames tn) [.start "LST" []] 0
      ((tnId, typeNames) :: T) (body typeNames none (.list "LST" [])) :=
    fun tn => Takes.of_exec tn (fun hT => hT) fun _ => rfl
  have hread : ∀ tn, Takes p ((tnId, typeNames) :: T)
      ((body typeNames none (.list "LST" [])).withTypeNames tn) _ _ T'
      (body typeNames none (.list "LST" ([] ++ PsValue.normItems items))) :=
    fun tn => hitems (c.withTypeNames tn) _ _ _ [] (hc.withTypeNames tn)
  have hclose : ∀ tn, Takes p T'
      ((body typeNames none (.list "LST" (PsValue.normItems items))).withTypeNames tn)
      [.stop "LST"] 0 T' (body typeNames (some (.list (PsValue.normItems items))) .body) :=
    fun tn => Takes.of_exec tn (fun hT => hT) fun _ => rfl
  have hall := Takes.object hattrs (accepts_of_null haccepts _) hc.unreferenced
    (((hblock.append rfl hopen).append rfl hread).append rfl hclose)
  have hnest : PsValue.nest (.object ⟨[(valueKey, .list items)], typeNames, none⟩)
      = PsValue.nestItems items + 1 := by
    simp only [PsValue.nest, PsValue.nestValue, PsValue.nestMembers, if_true, Option.isSome_none,
      Bool.false_eq_true, if_false, Nat.zero_max, Nat.max_zero]
  rw [hnest, PsValue.norm_object]
  simp only [Node.events, Xml.eventsList_append, Xml.eventsList, Xml.readAttrs, List.map_nil,
    List.append_nil, List.append_assoc, List.cons_append, List.nil_append, Nat.zero_max,
    Nat.max_zero] at hall ⊢
  exact hall

/-- An object without type names. -/
theorem takes_members {props : List (Text × PsValue)} {name : Option Text} {id : Nat}
    {attrs : List (String × Text)} {ns : List Node} (hkeyed : IndexMap.Keyed props)
    (hnames : ∀ q ∈ props, q.1 ≠ valueKey) (hattrs : ObjAttrs name id attrs)
    (hmembers : TakesMembers p T props ns T') :
    TakesValue p T (.object ⟨props, [], none⟩) name
      (.element "Obj" attrs [.element "MS" [] ns]) T' := by
  intro c haccepts hc
  let body := fun (props : List (Text × PsValue)) mode => c.inObject (name.getD [])
    ⟨some (intText id), ⟨props, [], none⟩, none⟩ mode
  have hopen : Takes p T (body [] .body) [.start "MS" []] 0 T (body [] (.members "MS")) :=
    Takes.of_exec c.state.typeNames (fun hT => hT) fun _ => rfl
  have hread : ∀ tn, Takes p T ((body [] (.members "MS")).withTypeNames tn) _ _ T'
      (body ([] ++ PsValue.normMembers props) (.members "MS")) :=
    fun tn => hmembers hnames (c.withTypeNames tn) _ _ (hc.withTypeNames tn) hkeyed
  have hclose : ∀ tn, Takes p T'
      ((body (PsValue.normMembers props) (.members "MS")).withTypeNames tn)
      [.stop "MS"] 0 T' (body (PsValue.normMembers props) .body) :=
    fun tn => Takes.of_exec tn (fun hT => hT) fun _ => rfl
  have hall := Takes.object hattrs (accepts_of_null haccepts _) hc.unreferenced
    ((hopen.append rfl hread).append rfl hclose)
  have hvalue := PsValue.value_of_members props hnames
  rw [PsValue.norm_object, PsValue.nest, hvalue.1, hvalue.2]
  simp only [Node.events, Xml.eventsList, Xml.readAttrs, List.map_nil, List.append_nil,
    List.append_assoc, List.cons_append, List.nil_append, Nat.zero_max, Nat.max_zero,
    Option.isSome_none, Bool.false_eq_true, if_false] at hall ⊢
  exact hall

include hp

/-- A document in which type names are shared is read as its value. -/
theorem takes_shares {v : PsValue} {name : Option Text} {n : Node}
    (h : Shares p T v name n T') : TakesValue p T v name n T' :=
  h.rec (motive_1 := fun T v name n T' _ => TakesValue p T v name n T')
    (motive_2 := fun T items ns T' _ => TakesItems p T items ns T')
    (motive_3 := fun T props ns T' _ => TakesMembers p T props ns T')
    (fun hv holder _ haccepts hc => takes_plain hp hv holder haccepts hc)
    (fun hv hnames holder _ haccepts hc => takes_block hp hv hnames holder haccepts hc)
    (fun hv htn hattrs hvs hms holder _ haccepts hc =>
      takes_shared hp hv htn hattrs hvs hms holder haccepts hc)
    (fun hnames hfresh hattrs _ hitems => takes_list hnames hfresh hattrs hitems)
    (fun hkeyed hnames hattrs _ hmembers => takes_members hkeyed hnames hattrs hmembers)
    .nil (fun _ _ h hrest => TakesItems.cons h hrest)
    .nil (fun _ _ h hrest => TakesMembers.cons h hrest)

end Lawful

end Machine

section Documents

variable {p : Platform} {T T' : Blocks}

theorem plainAttrs_of_objAttrs {name : Option Text} {id : Nat} {attrs : List (String × Text)}
    (h : ObjAttrs name id attrs) : Xml.plainAttrs attrs = true := by
  cases h with
  | nameFirst => exact plainAttrs_obj name id
  | idFirst =>
      have hid := plainAttrs_refId id
      cases name with
      | none => exact hid
      | some n =>
          have hname := plainAttrs_nameAttrs (some n)
          simp only [Xml.plainAttrs, nameAttrs, Bool.and_eq_true, List.all_cons,
            List.all_nil] at hname hid ⊢
          refine ⟨?_, hid.2.1, hname.2⟩
          simp only [List.map_cons, List.map_nil]
          decide

/-- An object is readable if everything in it is. -/
theorem readable_obj {name : Option Text} {id : Nat} {attrs : List (String × Text)}
    {children : List Node} (hattrs : ObjAttrs name id attrs) (h : ∀ n ∈ children, Readable n) :
    Readable (.element "Obj" attrs children) :=
  readable_element "Obj" attrs children (by decide) (by decide) (plainAttrs_of_objAttrs hattrs) h

theorem readable_typeNamesRef (id : Nat) : Readable (typeNamesRef id) := by
  refine ⟨?_, rfl, rfl⟩
  rw [typeNamesRef, Node.plain, plainAttrs_refId]
  decide

theorem readable_contents (hp : p.Lawful) (props : List (Text × PsValue)) (toString : Option Text)
    {id id' : Nat} : ∀ n ∈ toStringNodes toString ++ (valueNodes p props id).1
      ++ membersNodes props (memberNodes p props id').1, Readable n := by
  intro n hn
  rcases List.mem_append.mp hn with hn | hn
  · rcases List.mem_append.mp hn with hn | hn
    · exact readable_toString toString n hn
    · refine readable_value props (fun q _ => ⟨readable_node hp q.2, ?_⟩) id n hn
      cases q.2 with
      | list items => exact fun v _ => readable_node hp v
      | dict entries => exact fun e _ => ⟨readable_node hp e.1, readable_node hp e.2⟩
      | _ => trivial
  · unfold membersNodes at hn
    split_ifs at hn
    · exact absurd hn List.not_mem_nil
    · rw [List.mem_singleton.mp hn]
      exact readable_element "MS" [] _ (by decide) (by decide) rfl
        (readable_members props (fun q _ => readable_node hp q.2) _)

/-- A document in which type names are shared is readable. -/
theorem Shares.readable (hp : p.Lawful) {v : PsValue} {name : Option Text} {n : Node}
    (h : Shares p T v name n T') : Readable n := by
  refine h.rec (motive_1 := fun _ _ _ n _ _ => Readable n)
    (motive_2 := fun _ _ ns _ _ => ∀ n ∈ ns, Readable n)
    (motive_3 := fun _ _ ns _ _ => ∀ n ∈ ns, Readable n) ?_ ?_ ?_ ?_ ?_ ?_ ?_ ?_ ?_
  · intro _ v name id _ _
    exact readable_node hp v name id
  · intro _ o name id _ _ _
    exact readable_node hp (.object o) name id
  · intro _ o name id tnId attrs vs ms _ _ hattrs hvs hms _
    subst hvs hms
    refine readable_obj hattrs (List.forall_mem_cons.mpr ⟨readable_typeNamesRef tnId, ?_⟩)
    exact readable_contents hp o.properties o.toString
  · intro _ _ typeNames items name id tnId attrs ns _ _ hattrs _ hns
    refine readable_obj hattrs fun n hn => ?_
    rcases List.mem_append.mp hn with hn | hn
    · exact readable_typeNames typeNames tnId n hn
    · rw [List.mem_singleton.mp hn]
      exact readable_element "LST" [] ns (by decide) (by decide) rfl hns
  · intro _ _ props name id attrs ns _ _ hattrs _ hns
    refine readable_obj hattrs fun n hn => ?_
    rw [List.mem_singleton.mp hn]
    exact readable_element "MS" [] ns (by decide) (by decide) rfl hns
  · exact fun n hn => absurd hn List.not_mem_nil
  · exact fun _ _ hn hns => List.forall_mem_cons.mpr ⟨hn, hns⟩
  · exact fun n hn => absurd hn List.not_mem_nil
  · exact fun _ _ hn hns => List.forall_mem_cons.mpr ⟨hn, hns⟩

/-- What has a document is a value of the program. -/
theorem Shares.valid {v : PsValue} {name : Option Text} {n : Node} (h : Shares p T v name n T') :
    v.Valid := by
  refine h.rec (motive_1 := fun _ v _ _ _ _ => v.Valid)
    (motive_2 := fun _ items _ _ _ => ∀ v ∈ items, v.Valid)
    (motive_3 := fun _ props _ _ _ => ∀ q ∈ props, q.2.Valid) ?_ ?_ ?_ ?_ ?_ ?_ ?_ ?_ ?_
  · exact fun hv _ => hv
  · exact fun hv _ _ => hv
  · exact fun hv _ _ _ _ _ => hv
  · intro _ _ typeNames items name id tnId attrs ns _ _ _ _ hitems
    refine (PsValue.valid_object _).mpr ⟨List.nodup_singleton _, fun q hq => ?_⟩
    rw [List.mem_singleton.mp hq]
    exact (PsValue.valid_list items).mpr hitems
  · intro _ _ props name id attrs ns hkeyed _ _ _ hprops
    exact (PsValue.valid_object _).mpr ⟨hkeyed, hprops⟩
  · exact fun v hv => absurd hv List.not_mem_nil
  · exact fun _ _ hv hvs => List.forall_mem_cons.mpr ⟨hv, hvs⟩
  · exact fun q hq => absurd hq List.not_mem_nil
  · exact fun _ _ hv hvs => List.forall_mem_cons.mpr ⟨hv, hvs⟩

/-- A readable document refers to no object. -/
theorem referencedIds_of_readable {n : Node} (h : Readable n) : referencedIds n.events = [] := by
  refine referencedIds_noRefs fun e he hopens => ?_
  have hall := Xml.events_all (· ≠ "Ref") n h.2.2 e he "Ref" hopens
  exact of_decide_eq_true hall rfl

/-- Sharing type names is not visible: the document is decoded as the one that
    the encoder would write. -/
theorem parseClixml_shares (hp : p.Lawful) {v : PsValue} {n : Node}
    (h : Shares p [] v none n T') :
    parseClixml p n.render
      = if v.nest ≤ MAX_NESTING_DEPTH then .ok [v.norm] else .error nestedTooDeep := by
  have hreadable := h.readable hp
  let start := Machine.Config.start (initialState n.events (Text.utf8Len n.render))
  have hcalm : Machine.Calm start :=
    ⟨referencedIds_of_readable hreadable, fun f hf => absurd hf List.not_mem_nil⟩
  have htakes := Machine.takes_shares hp h start rfl hcalm fun b hb => absurd hb List.not_mem_nil
  rw [Machine.parseClixml_render hp n hreadable.2.1 hreadable.1, Machine.run_eq_exec]
  split_ifs with hnest
  · rcases htakes.1 (by show 0 + _ ≤ _; omega) with ⟨tn, _, hexec⟩
    rw [hexec]
    rfl
  · rw [htakes.2 (Nat.zero_le _) (by show _ < 0 + _; omega)]

theorem parseClixml_shares_eq (hp : p.Lawful) {v : PsValue} {n : Node}
    (h : Shares p [] v none n T') : parseClixml p n.render = parseClixml p (toClixml p v) := by
  rw [parseClixml_shares hp h, Machine.parseClixml_toClixml hp v h.valid]

end Documents

end Psrp

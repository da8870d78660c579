import Psrp.Theory.References
import Psrp.Theory.RoundTrip

/-!
# The Ids of a Document

Which ids the encoder takes, and what an id is good for.

The encoder numbers the objects and the blocks of type names of a document one
after the other. The ids of the events of a value, in document order, are an
interval: from the id the encoder was at to the id it goes on with. So no two
are the same, as long as the allocator has not come to its last id, where it
stays (`numbers_node`).

The decoder keeps type names under the id of their block. Only the end of a
block changes what is kept, and only under its own id: a stretch of events
leaves the names alone that are kept under an id it does not take
(`exec_spares`).

## Main definitions

* `takenIds`: The ids that start tags take.
* `Numbers`: A stretch of events takes an interval of ids.
* `Activity.naming`: The id of the block that is being read.

## Theorems

* `numbers_node`: The ids of a value are an interval.
* `exec_spares`: Names under other ids stay.
-/

namespace Psrp

open Xml (Attr Event eventsList)

/-- The id that an event takes. -/
def takenId : Event → Option Text
  | .start _ attrs => match refIdAttr attrs with
    | .ok id => id
    | .error _ => none
  | _ => none

/-- The ids that events take. -/
def takenIds (es : List Event) : List Text := es.filterMap takenId

@[simp] theorem takenIds_append (es fs : List Event) :
    takenIds (es ++ fs) = takenIds es ++ takenIds fs := List.filterMap_append ..

@[simp] theorem takenIds_nil : takenIds [] = [] := rfl

/-- Character data takes no id. -/
@[simp] theorem takenIds_textEvents (t : Text) : takenIds (Xml.textEvents t) = [] := by
  have hflush : ∀ run, takenIds (Xml.flush run) = [] := by
    intro run
    unfold Xml.flush
    split_ifs <;> rfl
  have hfrom : ∀ t run : Text, takenIds (Xml.textEventsFrom run t) = [] := by
    intro t
    induction t with
    | nil => exact hflush
    | cons c t ih =>
        intro run
        unfold Xml.textEventsFrom
        cases Xml.entityOf c with
        | none => exact ih _
        | some name =>
            simp only [takenIds_append, hflush, List.nil_append]
            exact ih []
  exact hfrom t []

theorem takenIds_stop (es : List Event) (tag : String) :
    takenIds (es ++ [.stop tag]) = takenIds es := by
  rw [takenIds_append]
  exact List.append_nil _

/-- An element without an id takes those of its children. -/
theorem takenIds_element (tag : String) (children : List Xml.Node) :
    takenIds (Xml.Node.events (.element tag [] children)) = takenIds (eventsList children) :=
  takenIds_stop _ tag

theorem takenIds_text (tag : String) (t : Text) :
    takenIds (Xml.Node.events (.element tag [] [.text t])) = [] := by
  rw [takenIds_element, Xml.eventsList, takenIds_append, Xml.Node.events, takenIds_textEvents]
  rfl

/-- The last id, where the allocator stays. -/
def lastId : Nat := 2 ^ 32 - 1

theorem nextRefId_of_lt {id : Nat} (h : nextRefId id < lastId) : nextRefId id = id + 1 := by
  simp only [nextRefId, lastId] at h ⊢
  omega

/-- The ids from one to the one before another. -/
def idRange (id next : Nat) : List Text := (List.range' id (next - id)).map fun n : Nat => intText n

theorem idRange_append {a b c : Nat} (hab : a ≤ b) (hbc : b ≤ c) :
    idRange a b ++ idRange b c = idRange a c := by
  have hranges : List.range' a (b - a) ++ List.range' (a + 1 * (b - a)) (c - b)
      = List.range' a (b - a + (c - b)) := List.range'_append
  rw [show a + 1 * (b - a) = b by omega, show b - a + (c - b) = c - a by omega] at hranges
  rw [idRange, idRange, idRange, ← List.map_append, hranges]

theorem idRange_succ (a : Nat) : idRange a (a + 1) = [intText a] := by
  rw [idRange, Nat.add_sub_cancel_left]
  rfl

/-- Decimal forms are distinct. -/
theorem intText_inj {m n : Nat} (h : intText m = intText n) : m = n := by
  have hread : ∀ k : Nat, k ≤ m + n → parseInt 0 (m + n) (intText k) = .ok (k : Int) :=
    fun k hk => parseInt_intText _ _ _ (Int.le_refl _) (by omega) (by omega) (by omega)
  have hm := hread m (by omega)
  rw [h, hread n (by omega)] at hm
  cases hm
  rfl

theorem mem_idRange {a b n : Nat} : intText n ∈ idRange a b ↔ a ≤ n ∧ n < b := by
  constructor
  · intro h
    rcases List.mem_map.mp h with ⟨k, hk, heq⟩
    have hkn := intText_inj heq
    rw [List.mem_range'_1] at hk
    omega
  · intro h
    refine List.mem_map.mpr ⟨n, ?_, rfl⟩
    rw [List.mem_range'_1]
    omega

theorem nodup_idRange (a b : Nat) : (idRange a b).Nodup := by
  refine List.Nodup.map_on ?_ List.nodup_range'
  intro m _ n _ h
  exact intText_inj h

/-- Events take the ids from one to the one before another, in order. When the
    allocator has come to its last id, they took more. -/
structure Numbers (id next : Nat) (es : List Event) : Prop where
  count : next ≤ id + (takenIds es).length
  ids : next < lastId → id ≤ next ∧ takenIds es = idRange id next

theorem Numbers.of_none {id : Nat} {es : List Event} (h : takenIds es = []) :
    Numbers id id es where
  count := Nat.le_add_right _ _
  ids := by
    intro _
    refine ⟨Nat.le_refl _, ?_⟩
    rw [h, idRange, Nat.sub_self]
    rfl

theorem Numbers.append {a b c : Nat} {es fs : List Event} (h : Numbers a b es)
    (h' : Numbers b c fs) : Numbers a c (es ++ fs) where
  count := by
    have hes := h.count
    have hfs := h'.count
    rw [takenIds_append, List.length_append]
    omega
  ids := by
    intro hc
    rcases h'.ids hc with ⟨hbc, hfs⟩
    rcases h.ids (by omega) with ⟨hab, hes⟩
    refine ⟨by omega, ?_⟩
    rw [takenIds_append, hes, hfs, idRange_append hab hbc]

theorem Numbers.of_same {id next : Nat} {es fs : List Event} (h : Numbers id next es)
    (hsame : takenIds fs = takenIds es) : Numbers id next fs := by
  refine ⟨?_, ?_⟩
  · rw [hsame]
    exact h.count
  · rw [hsame]
    exact h.ids

/-- An element with an id takes it, and then those of its children. -/
theorem takenIds_cons {id : Nat} {tag : String} {attrs : List (String × Text)}
    (hid : refIdAttr (Xml.readAttrs attrs) = .ok (some (intText id))) (children : List Xml.Node) :
    takenIds (Xml.Node.events (.element tag attrs children))
      = intText id :: takenIds (eventsList children) := by
  have hown : takenIds [.start tag (Xml.readAttrs attrs)] = [intText id] := by
    unfold takenIds
    rw [List.filterMap_cons, takenId, hid]
    rfl
  rw [Xml.Node.events, ← List.singleton_append, takenIds_append, takenIds_stop, hown]
  rfl

theorem idRange_cons {a b : Nat} (h : a < b) : idRange a b = intText a :: idRange (a + 1) b := by
  rw [← idRange_append (Nat.le_succ a) h, idRange_succ]
  rfl

theorem Numbers.element {id next : Nat} {tag : String} {attrs : List (String × Text)}
    {children : List Xml.Node} (hid : refIdAttr (Xml.readAttrs attrs) = .ok (some (intText id)))
    (h : Numbers (nextRefId id) next (eventsList children)) :
    Numbers id next (Xml.Node.events (.element tag attrs children)) := by
  have hcount := h.count
  have hmin : nextRefId id ≤ id + 1 := Nat.min_le_left _ _
  refine ⟨by rw [takenIds_cons hid, List.length_cons]; omega, fun hnext => ?_⟩
  rcases h.ids hnext with ⟨hle, hchildren⟩
  have hsucc : nextRefId id = id + 1 := nextRefId_of_lt (by omega)
  rw [hsucc] at hle hchildren
  have hrange : idRange id next = intText id :: idRange (id + 1) next := idRange_cons hle
  refine ⟨by omega, ?_⟩
  rw [takenIds_cons hid, hchildren, hrange]

theorem numbers_obj {name : Option Text} {id next : Nat} {children : List Xml.Node}
    (h : Numbers (nextRefId id) next (eventsList children)) :
    Numbers id next (objNode name id children).events :=
  .element (Machine.refIdAttr_obj name id) h

section Values

variable {p : Platform}

theorem numbers_leaf (v : PsValue) (hv : v.isContainer = false) (name : Option Text) (id : Nat) :
    Numbers id id (leafNode p v name).events := by
  refine .of_none ?_
  rcases simpleElement_some (p := p) v hv with ⟨⟨tag, body, selfClose⟩, hsimple⟩
  -- The one attribute of a leaf is its name.
  have hattrs : refIdAttr (Xml.readAttrs (nameAttrs name)) = .ok none := by
    cases name <;> rfl
  cases selfClose with
  | true =>
      simp only [leafNode, hsimple]
      rfl
  | false =>
      simp only [leafNode, hsimple, Xml.Node.events, Xml.eventsList, List.append_nil]
      rw [← List.singleton_append, takenIds_append, takenIds_stop, takenIds_textEvents]
      unfold takenIds
      rw [List.filterMap_cons, takenId, hattrs]
      rfl

theorem takenIds_names (names : List Text) : takenIds (eventsList
    (names.map fun tn => .element "T" [] [.text (pwshEscape false tn)])) = [] := by
  induction names with
  | nil => rfl
  | cons tn names ih =>
      rw [List.map_cons, Xml.eventsList, takenIds_append, takenIds_text, ih]
      rfl

/-- A block takes one id. -/
theorem takenIds_typeNames {typeNames : List Text} (h : typeNames ≠ []) (id : Nat) :
    takenIds (eventsList (typeNamesNodes typeNames id)) = [intText id] := by
  rw [typeNamesNodes, if_neg h, Xml.eventsList, Xml.eventsList, List.append_nil,
    takenIds_cons rfl, takenIds_names]

theorem numbers_typeNames (typeNames : List Text) (id : Nat) :
    Numbers id (typeNamesNext typeNames id) (eventsList (typeNamesNodes typeNames id)) := by
  unfold typeNamesNext typeNamesNodes
  by_cases hempty : typeNames = []
  · rw [if_pos hempty, if_pos hempty]
    exact .of_none rfl
  · rw [if_neg hempty, if_neg hempty, Xml.eventsList, Xml.eventsList, List.append_nil]
    exact .element rfl (.of_none (takenIds_names typeNames))

theorem numbers_toString (toString : Option Text) (id : Nat) :
    Numbers id id (eventsList (toStringNodes toString)) := by
  refine .of_none ?_
  cases toString with
  | none => rfl
  | some ts =>
      rw [toStringNodes, Xml.eventsList, takenIds_append, takenIds_text]
      rfl

/-- The encoder numbers a value from any id. -/
def NumbersValue (p : Platform) (v : PsValue) : Prop :=
  ∀ name id, Numbers id (node p v name id).2 (node p v name id).1.events

theorem numbers_items (items : List PsValue) (h : ∀ v ∈ items, NumbersValue p v) (id : Nat) :
    Numbers id (itemNodes p items id).2 (eventsList (itemNodes p items id).1) := by
  induction items generalizing id with
  | nil => exact .of_none rfl
  | cons v vs ih =>
      exact (h v (List.mem_cons_self ..) none id).append
        (ih (fun w hw => h w (List.mem_cons_of_mem _ hw)) _)

theorem numbers_entries (entries : List (PsValue × PsValue))
    (h : ∀ e ∈ entries, NumbersValue p e.1 ∧ NumbersValue p e.2) (id : Nat) :
    Numbers id (entryNodes p entries id).2 (eventsList (entryNodes p entries id).1) := by
  induction entries generalizing id with
  | nil => exact .of_none rfl
  | cons e es ih =>
      rcases e with ⟨k, v⟩
      have he := h (k, v) (List.mem_cons_self ..)
      have hrest := ih (fun w hw => h w (List.mem_cons_of_mem _ hw))
        (node p v (some "Value".toList) (node p k (some "Key".toList) id).2).2
      have hentry := (he.1 (some "Key".toList) id).append
        (he.2 (some "Value".toList) (node p k (some "Key".toList) id).2)
      refine (hentry.append hrest).of_same ?_
      simp only [entryNodes, Xml.eventsList, takenIds_append, takenIds_element, List.append_nil]

theorem numbers_members (props : List (Text × PsValue)) (h : ∀ q ∈ props, NumbersValue p q.2)
    (id : Nat) : Numbers id (memberNodes p props id).2 (eventsList (memberNodes p props id).1) := by
  induction props generalizing id with
  | nil => exact .of_none rfl
  | cons q ps ih =>
      rcases q with ⟨k, v⟩
      have hrest := ih fun w hw => h w (List.mem_cons_of_mem _ hw)
      unfold memberNodes
      by_cases hk : k = valueKey
      · rw [if_pos hk]
        exact hrest id
      · rw [if_neg hk]
        exact (h (k, v) (List.mem_cons_self ..) (some k) id).append (hrest _)

/-- What stands directly in a container is numbered, too. -/
def NumbersBelow (p : Platform) : PsValue → Prop
  | .list items => ∀ v ∈ items, NumbersValue p v
  | .dict entries => ∀ e ∈ entries, NumbersValue p e.1 ∧ NumbersValue p e.2
  | _ => True

theorem numbers_value (props : List (Text × PsValue))
    (h : ∀ q ∈ props, NumbersValue p q.2 ∧ NumbersBelow p q.2) (id : Nat) :
    Numbers id (valueNodes p props id).2 (eventsList (valueNodes p props id).1) := by
  induction props with
  | nil => exact .of_none rfl
  | cons q ps ih =>
      rcases q with ⟨k, v⟩
      have hq := h (k, v) (List.mem_cons_self ..)
      have hrest := ih fun w hw => h w (List.mem_cons_of_mem _ hw)
      by_cases hk : k = valueKey
      · cases v with
        | list items =>
            simp only [valueNodes, if_pos hk, Xml.eventsList, List.append_nil]
            exact (numbers_items items hq.2 id).of_same (takenIds_element ..)
        | dict entries =>
            simp only [valueNodes, if_pos hk, Xml.eventsList, List.append_nil]
            exact (numbers_entries entries hq.2 id).of_same (takenIds_element ..)
        | _ =>
            simp only [valueNodes, if_pos hk, Xml.eventsList, List.append_nil]
            exact hq.1 none id
      · cases v <;> simp only [valueNodes, if_neg hk] <;> exact hrest

theorem numbers_membersNodes (props : List (Text × PsValue))
    (h : ∀ q ∈ props, NumbersValue p q.2) (id : Nat) :
    Numbers id (memberNodes p props id).2
      (eventsList (membersNodes props (memberNodes p props id).1)) := by
  have hmembers := numbers_members props h id
  unfold membersNodes
  split_ifs with hall
  · rw [memberNodes_eq_nil props id hall]
    exact .of_none rfl
  · refine hmembers.of_same ?_
    rw [Xml.eventsList, Xml.eventsList, List.append_nil, takenIds_element]

/-- The ids of a value are an interval: those that the encoder took for it. -/
theorem numbers_node (v : PsValue) : NumbersValue p v := by
  suffices hboth : NumbersValue p v ∧ NumbersBelow p v from hboth.1
  induction v using PsValue.induction with
  | leaf v hleaf =>
      refine ⟨fun name id => ?_, by cases v <;> trivial⟩
      rw [node_leaf v hleaf]
      exact numbers_leaf v hleaf name id
  | list items ih =>
      have hitems : ∀ v ∈ items, NumbersValue p v := fun v hv => (ih v hv).1
      refine ⟨fun name id => numbers_obj ((numbers_items items hitems _).of_same ?_), hitems⟩
      rw [Xml.eventsList, Xml.eventsList, List.append_nil, takenIds_element]
  | dict entries ih =>
      have hentries : ∀ e ∈ entries, NumbersValue p e.1 ∧ NumbersValue p e.2 :=
        fun e he => ⟨(ih e he).1.1, (ih e he).2.1⟩
      refine ⟨fun name id => numbers_obj ((numbers_entries entries hentries _).of_same ?_),
        hentries⟩
      rw [Xml.eventsList, Xml.eventsList, List.append_nil, takenIds_element]
  | object o ih =>
      rcases o with ⟨props, typeNames, toString⟩
      refine ⟨fun name id => numbers_obj ?_, trivial⟩
      simp only [Xml.eventsList_append]
      exact (((numbers_typeNames typeNames _).append (numbers_toString toString _)).append
        (numbers_value props ih _)).append (numbers_membersNodes props (fun q hq => (ih q hq).1) _)

theorem numbersBelow (v : PsValue) : NumbersBelow p v := by
  cases v with
  | list items => exact fun v _ => numbers_node v
  | dict entries => exact fun e _ => ⟨numbers_node e.1, numbers_node e.2⟩
  | _ => trivial

/-- What is in an object after its type names is numbered. -/
theorem numbers_contents (props : List (Text × PsValue)) (toString : Option Text) (id : Nat) :
    Numbers id (memberNodes p props (valueNodes p props id).2).2
      (eventsList (toStringNodes toString ++ (valueNodes p props id).1
        ++ membersNodes props (memberNodes p props (valueNodes p props id).2).1)) := by
  simp only [Xml.eventsList_append]
  exact ((numbers_toString toString id).append (numbers_value props
    (fun q _ => ⟨numbers_node q.2, numbersBelow q.2⟩) id)).append
      (numbers_membersNodes props (fun q _ => numbers_node q.2) _)

end Values

namespace Machine

variable {p : Platform} {c c' : Config} {k : Text}

/-- The id of the block of type names that an activity is reading. -/
def Activity.naming : Activity → Option Text
  | .object _ (.typeNames rid _) => rid
  | .object _ (.typeName rid _ _) => rid
  | _ => none

/-- No block is being read that has this id. -/
def Config.Spares (k : Text) (c : Config) : Prop := ∀ f ∈ c.stack, f.activity.naming ≠ some k

/-- The same of what a step makes of the frame on top. -/
def Move.Spares (k : Text) : Move → Prop
  | .goto b => b.naming ≠ some k
  | .push f => f.activity.naming ≠ some k
  | .pop _ => True

@[simp] theorem receive_naming (name : Text) (v : Option PsValue) (a : Activity) :
    (receive name v a).naming = a.naming := by
  cases a with
  | leaf | skip => rfl
  | object ctx mode => cases mode <;> cases v <;> rfl

theorem resolveRef_typeNames {attrs : List Attr} {level : Nat} {s s' : DecoderState} {v : PsValue}
    (h : resolveRef attrs level s = .ok (v, s')) : s'.typeNames = s.typeNames := by
  rcases resolveRef_cases attrs level s s' v h with ⟨_, rfl⟩ | ⟨_, _, _, _, hcharge⟩
  · rfl
  · rw [charge_fields hcharge]

theorem parseEmpty_typeNames {tag : String} {attrs : List Attr} {s s' : DecoderState}
    {v : Option PsValue} (h : parseEmpty tag attrs s = .ok (v, s')) :
    s'.typeNames = s.typeNames := by
  unfold parseEmpty at h
  split_ifs at h
  · cases h
    rfl
  · rw [except_map_eq_ok] at h
    rcases h with ⟨⟨w, t⟩, hres, h⟩
    cases h
    exact resolveRef_typeNames hres
  · cases h
    rfl
  · cases h
    rfl
  · cases h
    rfl

theorem openElement_typeNames {name : Text} {tag : String} {attrs : List Attr}
    {s s' : DecoderState} {f : Frame} (h : openElement p name tag attrs s = .ok (f, s')) :
    s'.typeNames = s.typeNames ∧ f.activity.naming = none := by
  rcases (openElement_cases p name tag attrs s s' f h).2 with
    ⟨_, _, rfl, rfl⟩ | ⟨_, _, _, rfl, rfl⟩ | ⟨_, _, hres, rfl⟩ | ⟨_, _, _, rfl, rfl⟩
  · exact ⟨rfl, rfl⟩
  · exact ⟨rfl, rfl⟩
  · exact ⟨(resolveRef_typeNames hres).trans rfl, rfl⟩
  · exact ⟨rfl, rfl⟩

/-- Only the end of a block changes what is kept, under the id of the block. -/
theorem Steps.spares {s s' : DecoderState} {a : Activity} {e : Event} {m : Move}
    (h : Steps p s a e m s') (ha : a.naming ≠ some k) (he : takenId e ≠ some k) :
    m.Spares k ∧ IndexMap.get k s'.typeNames = IndexMap.get k s.typeNames := by
  have hnone : (none : Option Text) ≠ some k := fun heq => by cases heq
  -- The names under an id are set when a list of names of that id ends.
  cases h with
  | opened _ hopen =>
      have hopened := openElement_typeNames hopen
      exact ⟨by rw [Move.Spares, hopened.2]; exact hnone, by rw [hopened.1]⟩
  | received _ hempty =>
      refine ⟨?_, by rw [parseEmpty_typeNames hempty]⟩
      rw [Move.Spares, receive_naming]
      exact ha
  | ignored => exact ⟨ha, rfl⟩
  | entered hfresh =>
      refine ⟨?_, rfl⟩
      cases hfresh with
      | typeNames rid hrid =>
          intro heq
          rw [takenId, hrid] at he
          exact he heq
      | _ => exact hnone
  | objectClosed hkeep =>
      refine ⟨trivial, ?_⟩
      rcases keepReferenced_cases _ _ _ with ⟨_, _, _, _, hkept⟩ | ⟨_, hkept⟩ | ⟨hkept, _⟩
      · rw [hkept] at hkeep
        cases hkeep
        rfl
      · rw [hkept] at hkeep
        cases hkeep
        rfl
      · rw [hkept] at hkeep
        cases hkeep
  | typeNameOpened => exact ⟨ha, rfl⟩
  | typeNameText => exact ⟨ha, rfl⟩
  | typeNameClosed => exact ⟨ha, rfl⟩
  | @typeNamesClosed ctx rid names =>
      refine ⟨hnone, ?_⟩
      cases rid with
      | none => rfl
      | some id =>
          -- This list has another id.
          have hne : id ≠ k := fun heq => ha (congrArg some heq)
          show IndexMap.get k (IndexMap.insert id names s.typeNames) = _
          rw [IndexMap.get_insert, if_neg hne]
  | leafClosed => exact ⟨trivial, rfl⟩
  | skipClosed => exact ⟨trivial, rfl⟩
  | _ => exact ⟨hnone, rfl⟩

/-- A delivered value opens no block. -/
theorem deliver_spares (name : Text) (v : Option PsValue) (h : c.Spares k) :
    (deliver name v c).Spares k := by
  rcases c with ⟨stack, s, out⟩
  cases stack with
  | nil => exact h
  | cons f rest =>
      intro g hg
      rcases List.mem_cons.mp hg with rfl | hg
      · simp only [receive_naming]
        exact h f (List.mem_cons_self ..)
      · exact h g (List.mem_cons_of_mem _ hg)

theorem step_spares {e : Event} (hc : c.Spares k) (he : takenId e ≠ some k)
    (h : c.step p e = .ok c') :
    c'.Spares k ∧ IndexMap.get k c'.state.typeNames = IndexMap.get k c.state.typeNames := by
  rcases c with ⟨stack, s, out⟩
  cases stack with
  | nil =>
      cases e with
      | start tag attrs =>
          simp only [Config.step, except_map_eq_ok] at h
          rcases h with ⟨⟨f, s'⟩, hopen, rfl⟩
          have hopened := openElement_typeNames hopen
          refine ⟨fun g hg => ?_, by rw [hopened.1]⟩
          rw [List.mem_singleton.mp hg, hopened.2]
          exact fun heq => by cases heq
      | empty tag attrs =>
          simp only [Config.step, except_map_eq_ok] at h
          rcases h with ⟨⟨v, s'⟩, hempty, rfl⟩
          exact ⟨hc, by rw [parseEmpty_typeNames hempty]⟩
      | _ =>
          cases h
          exact ⟨hc, rfl⟩
  | cons f rest =>
      simp only [Config.step, except_map_eq_ok] at h
      rcases h with ⟨⟨m, s'⟩, hstep, rfl⟩
      have hf := hc f (List.mem_cons_self ..)
      have hrest : ∀ g ∈ rest, g.activity.naming ≠ some k :=
        fun g hg => hc g (List.mem_cons_of_mem _ hg)
      -- Only the innermost activity can name anything.
      rcases (steps_of_step f.activity e hstep).spares hf he with ⟨hm, hkept⟩
      cases m with
      | goto b => exact ⟨List.forall_mem_cons.mpr ⟨hm, hrest⟩, hkept⟩
      | push child =>
          exact ⟨List.forall_mem_cons.mpr ⟨hm, List.forall_mem_cons.mpr ⟨hf, hrest⟩⟩, hkept⟩
      | pop v =>
          refine ⟨deliver_spares f.name v hrest, ?_⟩
          rw [Config.move, deliver_state]
          exact hkept

/-- Events leave alone what is kept under an id that they do not take. -/
theorem exec_spares (es : List Event) (hes : k ∉ takenIds es) (hc : c.Spares k)
    (h : c.exec p es = .ok c') :
    IndexMap.get k c'.state.typeNames = IndexMap.get k c.state.typeNames := by
  induction es generalizing c with
  | nil =>
      cases h
      rfl
  | cons e es ih =>
      -- None of the events takes the id.
      have he : takenId e ≠ some k := by
        intro heq
        refine hes (List.mem_filterMap.mpr ⟨e, List.mem_cons_self .., heq⟩)
      have hrest : k ∉ takenIds es := by
        intro hmem
        rcases List.mem_filterMap.mp hmem with ⟨e', he', heq⟩
        exact hes (List.mem_filterMap.mpr ⟨e', List.mem_cons_of_mem _ he', heq⟩)
      unfold Config.exec at h
      cases hstep : c.step p e with
      | error x =>
          rw [hstep] at h
          cases h
      | ok d =>
          rw [hstep] at h
          have hd := step_spares hc he hstep
          rw [ih hrest hd.1 h, hd.2]

end Machine

end Psrp

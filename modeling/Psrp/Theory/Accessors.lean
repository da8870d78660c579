import Psrp.Core.Host
import Psrp.Core.Metadata
import Psrp.Core.Records
import Psrp.Theory.RoundTrip

/-!
# Accessors on Received Values

Whether a typed accessor answers alike on a value and on what comes of it
over the wire.

Four accessors look for a bare list: the tags of an information record, the
parameters of a command, and the choices and the fields of a host call. No
received value holds a bare list except under the synthetic property, so on
the wire side all four find nothing (`norm_ne_list`). They agree with the
value in memory exactly where that has nothing to find either.

## Main definitions

* `ListHolds`: A bare list with something an accessor picks up.
* `tagsOf`, `parametersOf`: What two of the accessors answer.
* `HostRequest`, `recorder`: A host that records what it is asked.

## Theorems

* `get_norm`: The properties of a received object.
* `accessors_agree_iff`: When the accessors agree.
* `accessors_disagree`: They do not always.
-/

namespace Psrp

open PsValue

/-- A bare list with an item that an accessor picks up. -/
def ListHolds (pick : PsValue → Bool) : Option PsValue → Prop
  | some (.list items) => ∃ v ∈ items, pick v = true
  | _ => False

/-- What a bare list yields to an accessor. -/
def listItems {α : Type} (read : PsValue → Option α) : Option PsValue → List α
  | some (.list items) => items.filterMap read
  | _ => []

/-- The tags of an information record, if the value is one. -/
def tagsOf (v : PsValue) : Option (List Text) :=
  (InformationRecord.fromPsObject v).map InformationRecord.tags

/-- The parameters of a command, if the value is one. -/
def parametersOf (v : PsValue) : Option (List ParameterMetadata) :=
  (CommandMetadata.fromPsObject v).map CommandMetadata.parameters

/-- What a host is asked that carries a list. -/
inductive HostRequest where
  | promptForChoice (choices : List (Text × Text))
  | prompt (fields : List Text)

/-- A host that records what it is asked and then rejects it. -/
def recorder : PsHost (StateM (List HostRequest)) where
  promptForChoice _ _ choices _ := do
    modify (· ++ [.promptForChoice choices])
    return .error (defaultRejection .promptForChoice)
  prompt _ _ fields := do
    modify (· ++ [.prompt fields])
    return .error (defaultRejection .prompt)

/-- What the host is asked when a call is dispatched. -/
def requests (mi : HostMethodId) (mp : List PsValue) : List HostRequest :=
  (StateT.run (dispatchHostCall recorder mi mp) []).2

theorem requests_promptForChoice (mp : List PsValue) :
    requests .promptForChoice mp = [.promptForChoice (choiceArguments mp)] := rfl

theorem requests_prompt (mp : List PsValue) :
    requests .prompt mp = [.prompt (fieldArguments mp)] := rfl

/-- A normal form is not a bare list. -/
theorem norm_ne_list (v : PsValue) (items : List PsValue) : v.norm ≠ .list items := by
  intro h
  cases v with
  | object o =>
      rcases o with ⟨props, typeNames, toString⟩
      cases h
  | _ => cases h

theorem listItems_norm {α : Type} (read : PsValue → Option α) (v : Option PsValue) :
    listItems read (v.map PsValue.norm) = [] := by
  cases v with
  | none => rfl
  | some v =>
      rw [Option.map_some]
      cases hn : v.norm with
      | list items => exact absurd hn (norm_ne_list v items)
      | _ => rfl

/-- A list yields nothing exactly when it holds nothing that is picked up. -/
theorem listItems_eq_nil {α : Type} (read : PsValue → Option α) (v : Option PsValue) :
    listItems read v = [] ↔ ¬ ListHolds (fun w => (read w).isSome) v := by
  unfold listItems ListHolds
  split
  next items =>
    rw [List.filterMap_eq_nil_iff]
    constructor
    · rintro hnone ⟨w, hw, hsome⟩
      simp only [hnone w hw, Option.isSome_none, Bool.false_eq_true] at hsome
    · intro hno w hw
      by_cases hsome : (read w).isSome = true
      · exact absurd ⟨w, hw, hsome⟩ hno
      · rwa [Option.isSome_iff_ne_none, not_not] at hsome
  next => exact iff_of_true rfl not_false

/-- A member is found where it was, normalised. -/
theorem get_normMembers (props : IndexMap Text PsValue) (k : Text) (hk : k ≠ valueKey) :
    IndexMap.get k (normMembers props) = (IndexMap.get k props).map PsValue.norm := by
  induction props with
  | nil => rfl
  | cons q ps ih =>
      rcases q with ⟨l, v⟩
      rw [normMembers, IndexMap.get]
      by_cases hl : l = valueKey
      · rw [if_pos hl, ih, if_neg fun h => hk (h.symm.trans hl)]
      · rw [if_neg hl, IndexMap.get, ih]
        split_ifs <;> rfl

/-- The properties of a received object are those sent, normalised, but for
    the synthetic one. -/
theorem get_norm (o : PsObject) (k : Text) (hk : k ≠ valueKey) :
    ∃ o' : PsObject, (PsValue.object o).norm = .object o'
      ∧ o'.get k = (o.get k).map PsValue.norm := by
  rcases o with ⟨props, typeNames, toString⟩
  rw [norm_object]
  refine ⟨_, rfl, ?_⟩
  have hmembers := get_normMembers props k hk
  unfold exposeValue
  split
  next _ v _ =>
    -- What stands bare replaces the members only when there are none.
    by_cases hnil : normMembers props = []
    · rw [if_pos hnil]
      have hinsert := IndexMap.get_insert valueKey k v (normMembers props)
      rw [if_neg (Ne.symm hk), hmembers] at hinsert
      exact hinsert
    · rw [if_neg hnil]
      exact hmembers
  next => exact hmembers

/-- The tags are what the list under `Tags` yields. -/
theorem tagsOf_object (o : PsObject) :
    tagsOf (.object o) = some (listItems PsValue.asStr (o.get "Tags".toList)) := by
  unfold tagsOf InformationRecord.fromPsObject listItems
  rfl

theorem parametersOf_object (o : PsObject) : parametersOf (.object o)
    = some (listItems ParameterMetadata.fromPsValue (o.get "Parameters".toList)) := by
  unfold parametersOf CommandMetadata.fromPsObject listItems
  rfl

/-- A list or a dictionary that stands by itself. -/
def IsBare : PsValue → Prop
  | .list _ | .dict _ => True
  | _ => False

/-- A property of a value, if it is an object that has it. -/
def property (v : PsValue) (name : String) : Option PsValue :=
  (asObject v).bind fun o => o.get name.toList

theorem isSome_fromPsValue (v : PsValue) :
    (ParameterMetadata.fromPsValue v).isSome = v.properties.isSome := by
  cases v <;> rfl

/-- An accessor that reads a list under a property agrees on a value and its
    normal form when the value is not bare and the list has nothing for it. -/
theorem agree_iff {α : Type} (accessor : PsValue → Option (List α)) (read : PsValue → Option α)
    (name : String) (hname : name.toList ≠ valueKey)
    (hobject : ∀ o : PsObject, accessor (.object o) = some (listItems read (o.get name.toList)))
    (hbare : ∀ v, IsBare v → accessor v = none)
    (hleaf : ∀ v, v.isContainer = false → accessor v.norm = accessor v) (v : PsValue) :
    accessor v.norm = accessor v
      ↔ ¬ IsBare v ∧ ¬ ListHolds (fun w => (read w).isSome) (property v name) := by
  have hdiffer : ∀ w : PsValue, (∃ o : PsObject, w.norm = .object o) → IsBare w →
      (accessor w.norm = accessor w
        ↔ ¬ IsBare w ∧ ¬ ListHolds (fun w => (read w).isSome) (property w name)) := by
    rintro w ⟨o, ho⟩ hw
    rw [ho, hobject, hbare w hw]
    exact iff_of_false (fun h => by cases h) (fun h => h.1 hw)
  cases v with
  | list items => exact hdiffer _ ⟨_, rfl⟩ trivial
  | dict entries => exact hdiffer _ ⟨_, rfl⟩ trivial
  | object o =>
      rcases get_norm o name.toList hname with ⟨o', ho', hget⟩
      rw [ho', hobject, hobject, hget, listItems_norm, Option.some.injEq, eq_comm,
        listItems_eq_nil]
      exact ⟨fun h => ⟨not_false, h⟩, fun h => h.2⟩
  | _ => exact iff_of_true (hleaf _ rfl) ⟨not_false, not_false⟩

theorem tagsOf_agree (v : PsValue) : tagsOf v.norm = tagsOf v
    ↔ ¬ IsBare v ∧ ¬ ListHolds (fun w => w.asStr.isSome) (property v "Tags") := by
  refine agree_iff tagsOf PsValue.asStr "Tags" (by decide) tagsOf_object ?_ ?_ v
  · intro v hv
    cases v with
    | list | dict => rfl
    | _ => cases hv
  · intro v hv
    cases v with
    | list | dict | object => cases hv
    | _ => rfl

theorem parametersOf_agree (v : PsValue) : parametersOf v.norm = parametersOf v
    ↔ ¬ IsBare v ∧ ¬ ListHolds (fun w => w.properties.isSome) (property v "Parameters") := by
  simp only [← isSome_fromPsValue]
  refine agree_iff parametersOf ParameterMetadata.fromPsValue "Parameters" (by decide)
    parametersOf_object ?_ ?_ v
  · intro v hv
    cases v with
    | list | dict => rfl
    | _ => cases hv
  · intro v hv
    cases v with
    | list | dict | object => cases hv
    | _ => rfl

/-- What a value is received as, when it is the only one of its document. -/
def Received (p : Platform) (v w : PsValue) : Prop := parseClixml p (toClixml p v) = .ok [w]

theorem received_norm {p : Platform} (hp : p.Lawful) {v w : PsValue} (hv : v.Valid)
    (h : Received p v w) : w = v.norm := by
  rw [Received, Machine.parseClixml_toClixml hp v hv] at h
  split_ifs at h
  exact (List.cons.inj (Except.ok.inj h)).1.symm

theorem received_map {p : Platform} (hp : p.Lawful) {mp mp' : List PsValue}
    (hv : ∀ v ∈ mp, v.Valid) (h : List.Forall₂ (Received p) mp mp') :
    mp' = mp.map PsValue.norm := by
  induction h with
  | nil => rfl
  | cons hvw _ ih =>
      rw [List.map_cons, received_norm hp (hv _ (List.mem_cons_self ..)) hvw,
        ih fun u hu => hv u (List.mem_cons_of_mem _ hu)]

/-- What an accessor picks up from the third argument of a received call is
    nothing. -/
theorem argument_agree {α : Type} (read : PsValue → Option α) (mp : List PsValue) :
    listItems read (mp.map PsValue.norm)[2]? = listItems read mp[2]?
      ↔ ¬ ListHolds (fun w => (read w).isSome) mp[2]? := by
  rw [List.getElem?_map, listItems_norm, eq_comm, listItems_eq_nil]

/-- The accessors agree on a value and on what is received of it exactly when
    the value is no bare container and the list they look for is not there
    bare with something in it for them. -/
theorem accessors_agree_iff (p : Platform) (hp : p.Lawful) :
    (∀ v w : PsValue, v.Valid → Received p v w →
      (tagsOf w = tagsOf v
        ↔ ¬ IsBare v ∧ ¬ ListHolds (fun u => u.asStr.isSome) (property v "Tags"))
      ∧ (parametersOf w = parametersOf v
        ↔ ¬ IsBare v ∧ ¬ ListHolds (fun u => u.properties.isSome) (property v "Parameters")))
    ∧ ∀ mp mp' : List PsValue, (∀ v ∈ mp, v.Valid) →
      List.Forall₂ (Received p) mp mp' →
      (requests .promptForChoice mp' = requests .promptForChoice mp
        ↔ ¬ ListHolds (fun u => u.properties.isSome) mp[2]?)
      ∧ (requests .prompt mp' = requests .prompt mp
        ↔ ¬ ListHolds (fun u => u.asStr.isSome) mp[2]?) := by
  refine ⟨fun v w hv hw => ?_, fun mp mp' hv hmp => ?_⟩
  · rw [received_norm hp hv hw]
    exact ⟨tagsOf_agree v, parametersOf_agree v⟩
  · -- The same for the arguments of a call, one by one.
    rw [received_map hp hv hmp, requests_promptForChoice, requests_promptForChoice,
      requests_prompt, requests_prompt]
    simp only [List.cons.injEq, HostRequest.promptForChoice.injEq, HostRequest.prompt.injEq,
      and_true]
    refine ⟨?_, argument_agree PsValue.asStr mp⟩
    have hchoices := argument_agree (fun v => v.properties.map fun p =>
      (textProperty p "Label", textProperty p "HelpMessage")) mp
    simp only [Option.isSome_map] at hchoices
    exact hchoices

/-- Within the limit a value is received as its normal form. -/
theorem received_of_nest {p : Platform} (hp : p.Lawful) {v : PsValue} (hv : v.Valid)
    (hn : v.nest ≤ MAX_NESTING_DEPTH) : Received p v v.norm := by
  rw [Received, Machine.parseClixml_toClixml hp v hv, if_pos hn]

/-- The host of a received call is offered no choices where the same call in
    memory offers two. -/
theorem accessors_agree_iff_choices :
    let choice : PsValue := .object (PsObject.new.with "Label".toList (.string "Yes".toList))
    requests .promptForChoice ([.null, .null, .list [choice]].map PsValue.norm)
      ≠ requests .promptForChoice [.null, .null, .list [choice]] := by
  intro choice
  have hvalid : ∀ v ∈ [PsValue.null, .null, .list [choice]], v.Valid := by
    intro v hv
    simp only [List.mem_cons, List.not_mem_nil, or_false] at hv
    rcases hv with rfl | rfl | rfl
    · trivial
    · trivial
    · exact ⟨⟨by decide, trivial, trivial⟩, trivial⟩
  have hreceived : ∀ v ∈ [PsValue.null, .null, .list [choice]],
      Received Platform.basic v v.norm := by
    intro v hv
    refine received_of_nest Platform.basic_lawful (hvalid v hv) ?_
    simp only [List.mem_cons, List.not_mem_nil, or_false] at hv
    rcases hv with rfl | rfl | rfl <;> decide
  have hiff := ((accessors_agree_iff Platform.basic Platform.basic_lawful).2
    [.null, .null, .list [choice]] _ hvalid
    (List.forall₂_map_right_iff.mpr (List.forall₂_same.mpr hreceived))).1
  exact fun h => hiff.mp h ⟨choice, List.mem_singleton_self _, rfl⟩

/-- Each accessor misses on the wire what it finds in memory. -/
theorem accessors_disagree :
    let tagged : PsValue := .object (PsObject.new.with "Tags".toList (.list [.string ['a']]))
    let item : PsValue := .object (PsObject.new.with "Name".toList (.string ['a']))
    let command : PsValue := .object (PsObject.new.with "Parameters".toList (.list [item]))
    (Received Platform.basic tagged tagged.norm ∧ tagsOf tagged = some [['a']]
      ∧ tagsOf tagged.norm = some [])
    ∧ (Received Platform.basic command command.norm ∧ parametersOf command ≠ some []
      ∧ parametersOf command.norm = some [])
    ∧ (Received Platform.basic (.list [item]) (PsValue.list [item]).norm
      ∧ choiceArguments [.null, .null, .list [item]] = [([], [])]
      ∧ choiceArguments [.null, .null, (PsValue.list [item]).norm] = [])
    ∧ Received Platform.basic (.list [.string ['a']]) (PsValue.list [.string ['a']]).norm
      ∧ fieldArguments [.null, .null, .list [.string ['a']]] = [['a']]
      ∧ fieldArguments [.null, .null, (PsValue.list [.string ['a']]).norm] = [] := by
  have hreceived : ∀ v : PsValue, v.Valid → v.nest ≤ MAX_NESTING_DEPTH →
      Received Platform.basic v v.norm := fun v => received_of_nest Platform.basic_lawful
  refine ⟨⟨hreceived _ ⟨by decide, ⟨trivial, trivial⟩, trivial⟩ (by decide), rfl, rfl⟩,
    ⟨hreceived _ ⟨by decide, ⟨⟨by decide, trivial, trivial⟩, trivial⟩, trivial⟩ (by decide), ?_,
      rfl⟩,
    ⟨hreceived _ ⟨⟨by decide, trivial, trivial⟩, trivial⟩ (by decide), rfl, rfl⟩,
    hreceived _ ⟨trivial, trivial⟩ (by decide), rfl, rfl⟩
  exact fun h => by cases h

end Psrp

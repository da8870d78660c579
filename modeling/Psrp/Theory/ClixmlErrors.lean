import Psrp.Core.Decode

/-!
# What the Decoder Fails With

A document that cannot be decoded fails with an error of the codec and with no
other. Whoever decodes a message and passes the error on can therefore tell it
from the errors that end a pipeline.

The proof goes the way of the decoder: one lemma for each of its loops, and
for an element the recursion on the nesting still allowed.

## Main definitions

* `IsClixml`: The errors of the codec.

## Theorems

* `parseClixml_raises`: The decoder fails with nothing else.
-/

namespace Psrp

open Xml (Attr Event)
open Pull (Raises)

/-- An error of the codec. -/
def IsClixml (e : PsrpError) : Prop := ∃ m, e = .clixml m

theorem isClixml (m : String) : IsClixml (clixmlError m) := ⟨_, rfl⟩

/-- What is mapped to an error was one. -/
theorem error_of_map {α β : Type} {r : Except PsrpError α} {f : α → β} {e : PsrpError}
    (h : r.map f = .error e) : r = .error e := by
  cases r with
  | ok a => cases h
  | error e' =>
      cases h
      rfl

section Parts

variable {e : PsrpError}

/-- An attribute that cannot be read. -/
theorem attrValue_raises {key : String} {attrs : List Attr} (h : attrValue key attrs = .error e) :
    IsClixml e := by
  induction attrs with
  | nil => cases h
  | cons a rest ih =>
      rw [attrValue] at h
      by_cases hkey : a.key = key
      · rw [if_pos hkey] at h
        cases hvalue : a.value with
        | ok v =>
            rw [hvalue] at h
            cases h
        | error m =>
            rw [hvalue] at h
            cases h
            exact isClixml m
      · rw [if_neg hkey] at h
        exact ih h

theorem nameAttr_raises {attrs : List Attr} (h : nameAttr attrs = .error e) : IsClixml e :=
  attrValue_raises (error_of_map h)

/-- Too much was materialized. -/
theorem charge_raises {s : DecoderState} {weight : Nat} (h : s.charge weight = .error e) :
    IsClixml e := by
  unfold DecoderState.charge at h
  simp only at h
  split at h
  · cases h
    exact isClixml _
  · cases h

/-- A reference without an id, to nothing, or one that costs too much. -/
theorem resolveRef_raises {attrs : List Attr} {level : Nat} {s : DecoderState}
    (h : resolveRef attrs level s = .error e) : IsClixml e := by
  unfold resolveRef at h
  cases hid : refRefIdAttr attrs with
  | error e' =>
      rw [hid] at h
      cases h
      exact attrValue_raises hid
  | ok id =>
      rw [hid] at h
      simp only [bind, Except.bind] at h
      split at h
      · cases h
      · next target _ =>
        split at h
        · cases h
          exact isClixml _
        · cases hcharge : s.charge (measure target).1 with
          | error e' =>
              rw [hcharge] at h
              cases h
              exact charge_raises hcharge
          | ok s' =>
              rw [hcharge] at h
              cases h

/-- What a self-closed element fails with. -/
theorem parseEmpty_raises {tag : String} {attrs : List Attr} {s : DecoderState}
    (h : parseEmpty tag attrs s = .error e) : IsClixml e := by
  unfold parseEmpty at h
  split at h
  · cases h
  · split at h
    · exact resolveRef_raises (error_of_map h)
    · split at h
      · cases h
      · split at h <;> cases h

/-- A number that is none, or out of range. -/
theorem parseIntLeaf_raises {lo hi : Int} {closing : String} {wrap : Int → PsValue} {text : Text}
    (h : parseIntLeaf lo hi closing wrap text = .error e) : IsClixml e := by
  have h := error_of_map h
  unfold parseIntText at h
  split at h
  · cases h
  · cases h
    exact isClixml _

/-- Every scalar names its own fault. -/
theorem leafParser_raises {p : Platform} {tag : String} {parse : Text → Except PsrpError PsValue}
    {text : Text} (hparse : leafParser p tag = some parse) (h : parse text = .error e) :
    IsClixml e := by
  unfold leafParser at hparse
  split at hparse
  -- An integer of some width, a text taken as it is, and the parsers of their own.
  all_goals cases hparse
  all_goals first
    | exact parseIntLeaf_raises h
    | cases h
    | skip
  · have h := error_of_map h
    unfold parseBool at h
    simp only at h
    split at h
    · cases h
    · split at h
      · cases h
      · cases h
        exact isClixml _
  all_goals
    simp only at h
    split at h
    · cases h
    · cases h
      exact isClixml _

/-- Only the budget keeps a value from being remembered. -/
theorem keepReferenced_raises {refId : Option Text} {value : PsValue} {s : DecoderState}
    (h : keepReferenced refId value s = .error e) : IsClixml e := by
  unfold keepReferenced at h
  split at h
  · cases h
  · exact charge_raises (error_of_map h)

/-- Character data fails where a reference in it is unknown. -/
theorem eventText_raises {ev : Event} (h : eventText ev = .error e) : IsClixml e := by
  unfold eventText at h
  split at h
  · cases h
  · split at h
    · cases h
      exact isClixml _
    · cases h
    · split at h
      · cases h
      · cases h
        exact isClixml _
  · cases h
  · cases h

end Parts

section Loops

/-- The text of an element, up to its end tag. -/
theorem readText_raises (closing : String) : Raises IsClixml (readText closing) := by
  refine Raises.bind (Raises.loop isClixml (fun out ev => ?_) (fun _ => Raises.throw (isClixml _)) [])
    fun _ => Raises.pure _
  cases ev with
  | stop tag => exact Raises.pure _
  | _ => exact Raises.bind (Raises.lift fun _ => eventText_raises) fun _ => Raises.pure _

theorem skipToEnd_raises : Raises IsClixml skipToEnd := by
  refine Raises.loop isClixml (fun depth ev => ?_) (fun _ => Raises.pure _) 1
  cases ev <;> exact Raises.pure _

/-- A loop fails where the document ends in it. -/
theorem parseTypeNames_raises : Raises IsClixml parseTypeNames := by
  refine Raises.loop isClixml (fun out ev => ?_) (fun _ => Raises.throw (isClixml _)) []
  cases ev with
  | start tag attrs =>
      unfold typeNamesTurn
      by_cases htag : tag = "T"
      · simp only [if_pos htag]
        exact Raises.bind (readText_raises "T") fun _ => Raises.pure _
      · simp only [if_neg htag]
        exact Raises.pure _
  | _ => exact Raises.pure _

theorem nameAttr_lift_raises (attrs : List Attr) :
    Raises IsClixml (Pull.lift (nameAttr attrs) : Decode (Option Text)) :=
  Raises.lift fun _ => nameAttr_raises

theorem refIdAttr_lift_raises (attrs : List Attr) :
    Raises IsClixml (Pull.lift (refIdAttr attrs) : Decode (Option Text)) :=
  Raises.lift fun _ => attrValue_raises

theorem parseEmpty_update_raises (tag : String) (attrs : List Attr) :
    Raises IsClixml (Pull.update (parseEmpty tag attrs) : Decode (Option PsValue)) :=
  Raises.update fun _ _ => parseEmpty_raises

/-- A change of the state that does not fail. -/
theorem change_raises {α : Type} (f : DecoderState → α × DecoderState) :
    Raises IsClixml (Pull.update fun s => .ok (f s) : Decode α) :=
  Raises.update fun _ _ h => by cases h

variable {element : String → List Attr → Decode (Option PsValue)}

/-- The containers fail as the elements in them do. -/
theorem parseDictEntry_raises (helement : ∀ tag attrs, Raises IsClixml (element tag attrs)) :
    Raises IsClixml (parseDictEntry element) := by
  refine Raises.loop isClixml (fun entry ev => ?_) (fun _ => Raises.throw (isClixml _)) _
  cases ev with
  | start tag attrs =>
      refine Raises.bind (nameAttr_lift_raises attrs) fun _ => ?_
      refine Raises.bind (helement tag attrs) fun v => ?_
      cases v <;> exact Raises.pure _
  | empty tag attrs =>
      refine Raises.bind (parseEmpty_update_raises tag attrs) fun v => ?_
      cases v with
      | none => exact Raises.pure _
      | some v => exact Raises.bind (nameAttr_lift_raises attrs) fun _ => Raises.pure _
  | _ => exact Raises.pure _

theorem parseDict_raises (helement : ∀ tag attrs, Raises IsClixml (element tag attrs)) :
    Raises IsClixml (parseDict element) := by
  refine Raises.loop isClixml (fun entries ev => ?_) (fun _ => Raises.throw (isClixml _)) []
  cases ev with
  | start tag attrs =>
      unfold dictTurn
      by_cases htag : tag = "En"
      · simp only [if_pos htag]
        exact Raises.bind (parseDictEntry_raises helement) fun _ => Raises.pure _
      · simp only [if_neg htag]
        exact Raises.pure _
  | _ => exact Raises.pure _

theorem parseList_raises (helement : ∀ tag attrs, Raises IsClixml (element tag attrs))
    (closing : String) : Raises IsClixml (parseList element closing) := by
  refine Raises.loop isClixml (fun items ev => ?_) (fun _ => Raises.throw (isClixml _)) []
  cases ev with
  | start tag attrs =>
      refine Raises.bind (helement tag attrs) fun v => ?_
      cases v <;> exact Raises.pure _
  | empty tag attrs =>
      refine Raises.bind (parseEmpty_update_raises tag attrs) fun v => ?_
      cases v <;> exact Raises.pure _
  | _ => exact Raises.pure _

theorem parseMemberSet_raises (helement : ∀ tag attrs, Raises IsClixml (element tag attrs))
    (obj : PsObject) (closing : String) : Raises IsClixml (parseMemberSet element obj closing) := by
  refine Raises.loop isClixml (fun obj ev => ?_) (fun _ => Raises.throw (isClixml _)) obj
  cases ev with
  | start tag attrs =>
      refine Raises.bind (nameAttr_lift_raises attrs) fun _ => ?_
      refine Raises.bind (helement tag attrs) fun v => ?_
      cases v <;> exact Raises.pure _
  | empty tag attrs =>
      unfold membersTurn
      by_cases htag : tag = "Nil"
      · simp only [if_pos htag]
        refine Raises.bind (nameAttr_lift_raises attrs) fun name => ?_
        cases name <;> exact Raises.pure _
      · simp only [if_neg htag]
        refine Raises.bind (parseEmpty_update_raises tag attrs) fun v => ?_
        cases v with
        | none => exact Raises.pure _
        | some v => exact Raises.bind (nameAttr_lift_raises attrs) fun _ => Raises.pure _
  | _ => exact Raises.pure _

/-- The body of an object: type names, values, properties and containers, each with
    errors of their own. -/
theorem parseObjBody_raises (helement : ∀ tag attrs, Raises IsClixml (element tag attrs)) :
    Raises IsClixml (parseObjBody element) := by
  refine Raises.bind (Raises.loop isClixml (fun body ev => ?_) (fun _ => Raises.throw (isClixml _)) _)
    fun _ => Raises.pure _
  -- Every branch of the loop raises what its reader raises.
  cases ev with
  | start tag attrs =>
      unfold objTurn
      by_cases hmembers : tag = "MS" ∨ tag = "Props"
      · simp only [if_pos hmembers]
        exact Raises.bind (parseMemberSet_raises helement _ _) fun _ => Raises.pure _
      simp only [if_neg hmembers]
      by_cases hnames : tag = "TN"
      · simp only [if_pos hnames]
        refine Raises.bind (refIdAttr_lift_raises attrs) fun _ => ?_
        refine Raises.bind parseTypeNames_raises fun _ => ?_
        exact Raises.bind (change_raises _) fun _ => Raises.pure _
      simp only [if_neg hnames]
      by_cases hshared : tag = "TNRef"
      · simp only [if_pos hshared]
        refine Raises.bind (refIdAttr_lift_raises attrs) fun _ => ?_
        refine Raises.bind skipToEnd_raises fun _ => ?_
        exact Raises.bind (change_raises _) fun _ => Raises.pure _
      simp only [if_neg hshared]
      by_cases hlist : tag = "LST" ∨ tag = "IE" ∨ tag = "QUE" ∨ tag = "STK"
      · simp only [if_pos hlist]
        exact Raises.bind (parseList_raises helement tag) fun _ => Raises.pure _
      simp only [if_neg hlist]
      by_cases hdict : tag = "DCT"
      · simp only [if_pos hdict]
        exact Raises.bind (parseDict_raises helement) fun _ => Raises.pure _
      simp only [if_neg hdict]
      exact Raises.bind (helement tag attrs) fun _ => Raises.pure _
  | empty tag attrs =>
      unfold objTurn
      by_cases htag : tag = "TNRef"
      · simp only [if_pos htag]
        refine Raises.bind (refIdAttr_lift_raises attrs) fun _ => ?_
        exact Raises.bind (change_raises _) fun _ => Raises.pure _
      · simp only [if_neg htag]
        exact Raises.pure _
  | _ => exact Raises.pure _

/-- An element, if the elements in it fail as it may. -/
theorem parseElementInner_raises (helement : ∀ tag attrs, Raises IsClixml (element tag attrs))
    (p : Platform) (tag : String) (attrs : List Attr) :
    Raises IsClixml (parseElementInner element p tag attrs) := by
  unfold parseElementInner
  cases hparse : leafParser p tag with
  | some parse =>
      simp only
      refine Raises.bind (readText_raises tag) fun text => ?_
      exact Raises.bind (Raises.lift fun _ => leafParser_raises hparse) fun _ => Raises.pure _
  | none =>
      simp only
      -- An object, a reference, or an element that is skipped.
      by_cases hobj : tag = "Obj"
      · simp only [if_pos hobj]
        refine Raises.bind (refIdAttr_lift_raises attrs) fun refId => ?_
        refine Raises.bind (parseObjBody_raises helement) fun obj => ?_
        refine Raises.bind (Raises.update fun s e h => ?_) fun _ => Raises.pure _
        exact keepReferenced_raises (error_of_map h)
      simp only [if_neg hobj]
      by_cases href : tag = "Ref"
      · simp only [if_pos href]
        refine Raises.bind (Raises.update fun _ _ => resolveRef_raises) fun _ => ?_
        exact Raises.bind skipToEnd_raises fun _ => Raises.pure _
      · simp only [if_neg href]
        exact Raises.bind skipToEnd_raises fun _ => Raises.pure _

/-- The level is given back after an error as well. -/
theorem leaving_raises {α : Type} {m : Decode α} (hm : Raises IsClixml m) :
    Raises IsClixml (leaving m) := by
  intro c e c' h
  unfold leaving at h
  cases hrun : m c with
  | ok a c'' =>
      rw [hrun] at h
      cases h
  | error e' c'' =>
      rw [hrun] at h
      cases h
      exact hm _ _ _ hrun

/-- By induction on the levels that are left. -/
theorem parseElement_raises (p : Platform) (allowed : Nat) (tag : String) (attrs : List Attr) :
    Raises IsClixml (parseElement p allowed tag attrs) := by
  induction allowed generalizing tag attrs with
  | zero => exact Raises.throw (isClixml _)
  | succ allowed ih =>
      refine Raises.bind (Raises.update fun s e h => ?_) fun _ =>
        leaving_raises (parseElementInner_raises (fun tag attrs => ih tag attrs) p tag attrs)
      split at h
      · cases h
        exact isClixml _
      · cases h

end Loops

/-- Whatever is wrong with a document, it is an error of the codec. -/
theorem parseClixml_raises {p : Platform} {xml : Text} {e : PsrpError}
    (h : parseClixml p xml = .error e) : IsClixml e := by
  have htop : Raises IsClixml (topLoop p []) := by
    refine Raises.loop isClixml (fun out ev => ?_) (fun _ => Raises.pure _) []
    cases ev with
    | start tag attrs => exact Raises.bind (parseElement_raises p _ tag attrs) fun _ => Raises.pure _
    | empty tag attrs => exact Raises.bind (parseEmpty_update_raises tag attrs) fun _ => Raises.pure _
    | _ => exact Raises.pure _
  have h := error_of_map h
  unfold Pull.run at h
  split at h
  · cases h
  · next e' c hrun =>
    cases h
    exact htop _ _ _ hrun

end Psrp

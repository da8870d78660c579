import Psrp.Theory.Nesting
import Psrp.Theory.Unknown

/-!
# Shared Objects

What a reference in a document stands for.

The decoder keeps an object under its id only if a scan over the tags of the
document found a reference to that id. `referenceClixml` is the decoder without
that economy: it keeps every object that has an id, and nothing it copies is
too much. The two are run side by side. Their states agree on what the ids of
references stand for (`Agree`), every event does the same to both
(`step_tracks`), and only the charge for a copy can tell them apart. So the
results are the same, errors included, for every document whose references
stay within the budget (`parseClixml_eq_reference`).

What is kept under an id is the object completed last with it. The history of
a run records the objects as they are completed (`completions`), and a
reference in either spelling delivers the last one with its id, or null
(`Config.Reaches.current`, `reference_delivers`). The rest of the document is
decoded from there, so this is what the reference is in the result.

## Main definitions

* `referenceClixml`: The decoder that remembers every object.
* `Agree`: Two states that agree on some ids.
* `Tracks`: One outcome follows another, or is an error.
* `completions`, `latest`: The objects completed in a run.

## Theorems

* `step_tracks`: One step.
* `reference_remembers`: What the reference decoder holds.
* `references_exact`: Keeping only what is referenced is not visible, and what
  a reference is decoded to.
-/

namespace Psrp

open Xml (Attr Event Balanced)

/-- Every id in a document. -/
def allRefIds (es : List Event) : List Text :=
  es.filterMap fun
    | .start _ attrs | .empty _ attrs =>
      match refIdAttr attrs with
      | .ok id => id
      | .error _ => none
    | _ => none

/-- A budget that nothing exceeds. -/
def unlimitedBudget : Nat := 2 ^ 64 - 1

/-- The state of a decoder that keeps every object with an id. -/
def rememberingState (es : List Event) : DecoderState :=
  { refs := [], referenced := allRefIds es, expanded := 0, budget := unlimitedBudget,
    typeNames := [], depth := 0 }

/-- The reference decoder: it remembers every object that has an id. -/
def referenceClixml (p : Platform) (xml : Text) : Except PsrpError (List PsValue) :=
  let stream := p.read (cleanDocument xml)
  let cursor : Cursor Event DecoderState :=
    { events := stream.events, fault := stream.fault, state := rememberingState stream.events }
  (Pull.run (topLoop p []) cursor).map Prod.fst

/-- The error of a document that copies too much. -/
def overBudget (budget : Nat) : PsrpError :=
  clixmlError s!"CLIXML <Ref> expansion exceeds {budget}"

/-- One outcome follows another: the same error, related results, or nothing
    more once the first is refused for its budget. -/
inductive Tracks {α β : Type} (budget : Nat) (R : α → β → Prop) :
    Except PsrpError α → Except PsrpError β → Prop where
  | refused (o : Except PsrpError β) : Tracks budget R (.error (overBudget budget)) o
  | failed (x : PsrpError) : Tracks budget R (.error x) (.error x)
  | ok {a : α} {b : β} : R a b → Tracks budget R (.ok a) (.ok b)

section Tracks

variable {α β γ δ : Type} {budget : Nat} {R : α → β → Prop} {S : γ → δ → Prop}

theorem Tracks.map {o : Except PsrpError α} {o' : Except PsrpError β} (h : Tracks budget R o o')
    {f : α → γ} {g : β → δ} (hfg : ∀ a b, R a b → S (f a) (g b)) :
    Tracks budget S (o.map f) (o'.map g) := by
  cases h with
  | refused => exact .refused _
  | failed x => exact .failed x
  | ok hab => exact .ok (hfg _ _ hab)

/-- What does not depend on the state. -/
theorem tracks_same {ε : Type} (o : Except PsrpError ε) {f : ε → γ} {g : ε → δ}
    (hfg : ∀ a, S (f a) (g a)) : Tracks budget S (o.map f) (o.map g) := by
  cases o with
  | error x => exact .failed x
  | ok a => exact .ok (hfg a)

end Tracks

/-- Two states that agree on what some ids stand for. The first has a budget,
    and the second one that nothing exceeds. -/
structure Agree (budget : Nat) (ids : List Text) (s t : DecoderState) : Prop where
  depth : s.depth = t.depth
  typeNames : s.typeNames = t.typeNames
  refs : ∀ i ∈ ids, IndexMap.get i s.refs = IndexMap.get i t.refs
  kept : ∀ i ∈ ids, i ∈ s.referenced ∧ i ∈ t.referenced
  limited : s.budget = budget
  unlimited : unlimitedBudget ≤ t.budget

/-- The same result, and states that agree. -/
def SameResult (budget : Nat) (ids : List Text) {α : Type} (a b : α × DecoderState) : Prop :=
  a.1 = b.1 ∧ Agree budget ids a.2 b.2

section Agree

variable {budget : Nat} {ids : List Text} {s t : DecoderState}

theorem charge_unlimited (h : unlimitedBudget ≤ t.budget) (w : Nat) :
    t.charge w = .ok { t with expanded := satAdd t.expanded w } := by
  have hle : satAdd t.expanded w ≤ unlimitedBudget := Nat.min_le_right _ _
  simp only [DecoderState.charge, if_neg (Nat.not_lt.mpr (Nat.le_trans hle h))]

theorem charge_fields {s' : DecoderState} {w : Nat} (h : s.charge w = .ok s') :
    s' = { s with expanded := satAdd s.expanded w } := by
  simp only [DecoderState.charge] at h
  split_ifs at h
  cases h
  rfl

/-- A charge is accepted, or the budget is spent. -/
theorem charge_cases (s : DecoderState) (w : Nat) :
    s.charge w = .ok { s with expanded := satAdd s.expanded w }
      ∨ s.charge w = .error (overBudget s.budget) := by
  unfold DecoderState.charge
  by_cases hover : s.budget < satAdd s.expanded w
  · exact Or.inr (if_pos hover)
  · exact Or.inl (if_neg hover)

theorem Agree.charge (h : Agree budget ids s t) (w : Nat) :
    Tracks budget (Agree budget ids) (s.charge w) (t.charge w) := by
  rw [charge_unlimited h.unlimited]
  rcases charge_cases s w with hs | hs
  · rw [hs]
    exact .ok ⟨h.depth, h.typeNames, h.refs, h.kept, h.limited, h.unlimited⟩
  · rw [hs, h.limited]
    exact .refused _

/-- A reference to an id on which the states agree. -/
theorem Agree.resolveRef (h : Agree budget ids s t) (attrs : List Attr) (level : Nat)
    (hid : ∀ i, refRefIdAttr attrs = .ok (some i) → i ∈ ids) :
    Tracks budget (SameResult budget ids) (resolveRef attrs level s)
      (resolveRef attrs level t) := by
  simp only [Psrp.resolveRef, bind, Except.bind, pure, Except.pure]
  cases hattr : refRefIdAttr attrs with
  | error x => exact .failed x
  | ok rid =>
      have hget : (rid.bind fun r => IndexMap.get r s.refs)
          = rid.bind fun r => IndexMap.get r t.refs := by
        cases rid with
        | none => rfl
        | some i => exact h.refs i (hid i hattr)
      simp only [hget, h.depth]
      cases rid.bind fun r => IndexMap.get r t.refs with
      | none => exact .ok ⟨rfl, h⟩
      | some target =>
          simp only []
          split_ifs
          · exact .failed _
          · exact (h.charge (measure target).1).map fun a b hab => ⟨rfl, hab⟩

theorem Agree.parseEmpty (h : Agree budget ids s t) (tag : String) (attrs : List Attr)
    (hid : tag = "Ref" → ∀ i, refRefIdAttr attrs = .ok (some i) → i ∈ ids) :
    Tracks budget (SameResult budget ids) (parseEmpty tag attrs s) (parseEmpty tag attrs t) := by
  unfold Psrp.parseEmpty
  split_ifs with hnil href hs hblock
  · exact .ok ⟨rfl, h⟩
  · exact (h.resolveRef attrs 1 (hid href)).map fun a b hab => ⟨congrArg some hab.1, hab.2⟩
  · exact .ok ⟨rfl, h⟩
  · exact .ok ⟨rfl, h⟩
  · exact .ok ⟨rfl, h⟩

/-- What keeping an object does: it is kept, or nothing is done, or the budget
    is spent. -/
theorem keepReferenced_cases (refId : Option Text) (v : PsValue) (s : DecoderState) :
    (∃ r expanded, refId = some r ∧ r ∈ s.referenced ∧ keepReferenced refId v s
        = .ok { s with expanded := expanded, refs := IndexMap.insert r v s.refs })
      ∨ (∀ r, refId = some r → r ∉ s.referenced) ∧ keepReferenced refId v s = .ok s
      ∨ keepReferenced refId v s = .error (overBudget s.budget)
        ∧ s.budget < satAdd s.expanded (measure v).1 := by
  cases refId with
  | none => exact Or.inr (Or.inl ⟨nofun, rfl⟩)
  | some r =>
      unfold keepReferenced
      by_cases hr : r ∈ s.referenced
      · rw [Option.filter_some, if_pos (decide_eq_true hr)]
        unfold DecoderState.charge
        by_cases hover : s.budget < satAdd s.expanded (measure v).1
        · exact Or.inr (Or.inr ⟨by simp only [if_pos hover]; rfl, hover⟩)
        · exact Or.inl ⟨r, _, rfl, hr, by simp only [if_neg hover]; rfl⟩
      · rw [Option.filter_some, if_neg (fun h => hr (of_decide_eq_true h))]
        exact Or.inr (Or.inl ⟨fun q hq => by cases hq; exact hr, rfl⟩)

/-- Keeping an object, or not, if no reference points to it. -/
theorem Agree.keepReferenced (h : Agree budget ids s t) (refId : Option Text) (v : PsValue) :
    Tracks budget (Agree budget ids) (keepReferenced refId v s) (keepReferenced refId v t) := by
  have hother : ∀ {r : Text} {refs : IndexMap Text PsValue}, r ∉ ids → ∀ i ∈ ids,
      IndexMap.get i (IndexMap.insert r v refs) = IndexMap.get i refs := by
    intro r refs hr i hi
    rw [IndexMap.get_insert, if_neg]
    rintro rfl
    exact hr hi
  rcases keepReferenced_cases refId v s with
    ⟨r, spent, rfl, hr, hs⟩ | ⟨hnone, hs⟩ | ⟨hs, _⟩
  · rcases keepReferenced_cases (some r) v t with
      ⟨q, spent', hq, _, ht⟩ | ⟨hnone, ht⟩ | ⟨_, hover⟩
    · cases hq
      rw [hs, ht]
      refine .ok ⟨h.depth, h.typeNames, fun i hi => ?_, h.kept, h.limited, h.unlimited⟩
      rw [IndexMap.get_insert, IndexMap.get_insert, h.refs i hi]
    · -- No reference points to it.
      rw [hs, ht]
      have hids : r ∉ ids := fun hi => hnone r rfl (h.kept r hi).2
      exact .ok ⟨h.depth, h.typeNames, fun i hi => (hother hids i hi).trans (h.refs i hi), h.kept,
        h.limited, h.unlimited⟩
    · exact absurd hover (Nat.not_lt.mpr (Nat.le_trans (Nat.min_le_right _ _) h.unlimited))
  · rcases keepReferenced_cases refId v t with
      ⟨q, spent', rfl, _, ht⟩ | ⟨_, ht⟩ | ⟨_, hover⟩
    · rw [hs, ht]
      have hids : q ∉ ids := fun hi => hnone q rfl (h.kept q hi).1
      exact .ok ⟨h.depth, h.typeNames, fun i hi => (h.refs i hi).trans (hother hids i hi).symm,
        h.kept, h.limited, h.unlimited⟩
    · rw [hs, ht]
      exact .ok h
    · exact absurd hover (Nat.not_lt.mpr (Nat.le_trans (Nat.min_le_right _ _) h.unlimited))
  · rw [hs, h.limited]
    exact .refused _

end Agree

/-- Whether the references in a tag have ids of a list. -/
def RefersWithin (ids : List Text) (e : Event) : Prop :=
  ∀ attrs, e = .start "Ref" attrs ∨ e = .empty "Ref" attrs →
    ∀ i, refRefIdAttr attrs = .ok (some i) → i ∈ ids

namespace Machine

section Tracks

variable {p : Platform} {budget : Nat} {ids : List Text} {s t : DecoderState}

theorem openElement_tracks (h : Agree budget ids s t) (name : Text) (tag : String)
    (attrs : List Attr) (hid : tag = "Ref" → ∀ i, refRefIdAttr attrs = .ok (some i) → i ∈ ids) :
    Tracks budget (SameResult budget ids) (openElement p name tag attrs s)
      (openElement p name tag attrs t) := by
  unfold openElement
  rw [h.depth]
  have hdeeper : Agree budget ids { s with depth := t.depth + 1 }
      { t with depth := t.depth + 1 } :=
    ⟨rfl, h.typeNames, h.refs, h.kept, h.limited, h.unlimited⟩
  by_cases hdepth : MAX_NESTING_DEPTH ≤ t.depth
  · rw [if_pos hdepth, if_pos hdepth]
    exact .failed _
  rw [if_neg hdepth, if_neg hdepth]
  cases leafParser p tag with
  | some parse => exact .ok ⟨rfl, hdeeper⟩
  | none =>
      by_cases hobj : tag = "Obj"
      · simp only [if_pos hobj]
        exact tracks_same _ fun refId => ⟨rfl, hdeeper⟩
      by_cases href : tag = "Ref"
      · simp only [if_neg hobj, if_pos href]
        exact (hdeeper.resolveRef attrs 0 (hid href)).map fun a b hab => ⟨by rw [hab.1], hab.2⟩
      · simp only [if_neg hobj, if_neg href]
        exact .ok ⟨rfl, hdeeper⟩

theorem pushElement_tracks (h : Agree budget ids s t) (name : Text) (tag : String)
    (attrs : List Attr) (hid : tag = "Ref" → ∀ i, refRefIdAttr attrs = .ok (some i) → i ∈ ids) :
    Tracks budget (SameResult budget ids) (pushElement p name tag attrs s)
      (pushElement p name tag attrs t) :=
  (openElement_tracks h name tag attrs hid).map fun _ _ hab => ⟨congrArg Move.push hab.1, hab.2⟩

theorem pushNamed_tracks (h : Agree budget ids s t) (tag : String) (attrs : List Attr)
    (hid : tag = "Ref" → ∀ i, refRefIdAttr attrs = .ok (some i) → i ∈ ids) :
    Tracks budget (SameResult budget ids) (pushNamed p tag attrs s) (pushNamed p tag attrs t) := by
  unfold pushNamed
  cases nameAttr attrs with
  | error x => exact .failed x
  | ok name => exact pushElement_tracks h _ tag attrs hid

theorem receiveEmpty_tracks (h : Agree budget ids s t) (named : Bool) (a : Activity) (tag : String)
    (attrs : List Attr) (hid : tag = "Ref" → ∀ i, refRefIdAttr attrs = .ok (some i) → i ∈ ids) :
    Tracks budget (SameResult budget ids) (receiveEmpty named a tag attrs s)
      (receiveEmpty named a tag attrs t) := by
  have hempty := h.parseEmpty tag attrs hid
  unfold receiveEmpty
  generalize parseEmpty tag attrs s = o at hempty
  generalize parseEmpty tag attrs t = o' at hempty
  cases hempty with
  | refused => exact .refused _
  | failed x => exact .failed x
  | @ok r r' hr =>
      rcases r with ⟨v, s'⟩
      rcases r' with ⟨v', t'⟩
      rcases hr with ⟨rfl, hagree⟩
      cases v with
      | none => exact .ok ⟨rfl, hagree⟩
      | some v =>
          simp only []
          split_ifs
          · exact tracks_same _ fun name => ⟨rfl, hagree⟩
          · exact .ok ⟨rfl, hagree⟩

/-- In the body of an object. -/
theorem bodyStep_tracks (h : Agree budget ids s t) (ctx : ObjCtx) (e : Event)
    (hid : RefersWithin ids e) :
    Tracks budget (SameResult budget ids) (bodyStep p ctx s e) (bodyStep p ctx t e) := by
  cases e with
  | start tag attrs =>
      simp only [bodyStep]
      split_ifs
      · exact .ok ⟨rfl, h⟩
      · exact tracks_same _ fun rid => ⟨rfl, h⟩
      · exact tracks_same _ fun rid => ⟨rfl, h⟩
      · exact .ok ⟨rfl, h⟩
      · exact .ok ⟨rfl, h⟩
      · exact pushElement_tracks h [] tag attrs fun href => by subst href; exact hid attrs (Or.inl rfl)
  | empty tag attrs =>
      have hshared : ∀ rid, sharedTypeNames rid s ctx.obj = sharedTypeNames rid t ctx.obj := by
        intro rid
        unfold sharedTypeNames
        rw [h.typeNames]
      simp only [bodyStep, hshared]
      split_ifs
      · exact tracks_same _ fun rid => ⟨rfl, h⟩
      · exact .ok ⟨rfl, h⟩
  | stop tag =>
      simp only [bodyStep]
      split_ifs
      · exact (h.keepReferenced ctx.refId _).map fun a b hab => ⟨rfl, hab⟩
      · exact .ok ⟨rfl, h⟩
  | _ => exact .ok ⟨rfl, h⟩

/-- One event does the same to an activity in both states. -/
theorem activity_tracks (h : Agree budget ids s t) (a : Activity) (e : Event)
    (hid : RefersWithin ids e) :
    Tracks budget (SameResult budget ids) (a.step p s e) (a.step p t e) := by
  -- A tag that refers to an id is a `Ref`, and its id is one of those both tables keep.
  have hstart : ∀ tag attrs, e = .start tag attrs → tag = "Ref" →
      ∀ i, refRefIdAttr attrs = .ok (some i) → i ∈ ids := by
    rintro tag attrs rfl rfl
    exact hid attrs (Or.inl rfl)
  have hempty : ∀ tag attrs, e = .empty tag attrs → tag = "Ref" →
      ∀ i, refRefIdAttr attrs = .ok (some i) → i ∈ ids := by
    rintro tag attrs rfl rfl
    exact hid attrs (Or.inr rfl)
  -- Both states take the same branch; only a reference looks at what was kept.
  cases a with
  | leaf tag parse text =>
      cases e with
      | stop name =>
          simp only [Activity.step, leafStep]
          split_ifs
          · exact tracks_same _ fun v => ⟨rfl, h⟩
          · exact .ok ⟨rfl, h⟩
      | start | empty | text | cdata | generalRef | other =>
          simp only [Activity.step, leafStep]
          exact tracks_same _ fun v => ⟨rfl, h⟩
  | skip level v => cases e <;> exact .ok ⟨rfl, h⟩
  | object ctx mode =>
      cases mode with
      | body => exact bodyStep_tracks h ctx e hid
      | members closing =>
          cases e with
          | start tag attrs => exact pushNamed_tracks h tag attrs (hstart tag attrs rfl)
          | empty tag attrs =>
              simp only [Activity.step, membersStep]
              split_ifs
              · exact tracks_same _ fun name => ⟨rfl, h⟩
              · exact receiveEmpty_tracks h true _ tag attrs (hempty tag attrs rfl)
          | _ => exact .ok ⟨rfl, h⟩
      | list closing items =>
          cases e with
          | start tag attrs => exact pushElement_tracks h [] tag attrs (hstart tag attrs rfl)
          | empty tag attrs =>
              exact receiveEmpty_tracks h false _ tag attrs (hempty tag attrs rfl)
          | stop tag =>
              simp only [Activity.step, listStep]
              split_ifs <;> exact .ok ⟨rfl, h⟩
          | _ => exact .ok ⟨rfl, h⟩
      | dict entries =>
          cases e with
          | stop tag =>
              simp only [Activity.step, dictStep]
              split_ifs <;> exact .ok ⟨rfl, h⟩
          | _ => exact .ok ⟨rfl, h⟩
      | entry entries current =>
          cases e with
          | start tag attrs => exact pushNamed_tracks h tag attrs (hstart tag attrs rfl)
          | empty tag attrs =>
              exact receiveEmpty_tracks h true _ tag attrs (hempty tag attrs rfl)
          | _ => exact .ok ⟨rfl, h⟩
      | typeNames rid names =>
          cases e with
          | stop tag =>
              simp only [Activity.step, typeNamesStep]
              split_ifs
              · cases rid with
                | none => exact .ok ⟨rfl, h⟩
                | some r =>
                    -- The names are remembered on both sides.
                    refine .ok ⟨rfl, h.depth, ?_, h.refs, h.kept, h.limited, h.unlimited⟩
                    exact congrArg (IndexMap.insert r names) h.typeNames
              · exact .ok ⟨rfl, h⟩
          | _ => exact .ok ⟨rfl, h⟩
      | typeName rid names text =>
          cases e with
          | stop tag => exact .ok ⟨rfl, h⟩
          | start | empty | text | cdata | generalRef | other =>
              simp only [Activity.step, typeNameStep]
              exact tracks_same _ fun v => ⟨rfl, h⟩
      | skipRef rid level =>
          cases e with
          | stop tag =>
              have hshared : sharedTypeNames rid s ctx.obj = sharedTypeNames rid t ctx.obj := by
                unfold sharedTypeNames
                rw [h.typeNames]
              simp only [Activity.step, skipRefStep, hshared]
              split_ifs <;> exact .ok ⟨rfl, h⟩
          | _ => exact .ok ⟨rfl, h⟩

/-- Two configurations that differ in their states alone, which agree. -/
def ConfigAgree (budget : Nat) (ids : List Text) (c d : Config) : Prop :=
  c.stack = d.stack ∧ c.out = d.out ∧ Agree budget ids c.state d.state

theorem move_agree (name : Text) (rest : List Frame) (a : Activity) (out : List PsValue)
    (h : Agree budget ids s t) (m : Move) :
    ConfigAgree budget ids (Config.move name rest a out s m) (Config.move name rest a out t m) := by
  cases m with
  | goto b => exact ⟨rfl, rfl, h⟩
  | push child => exact ⟨rfl, rfl, h⟩
  | pop v =>
      have hless : Agree budget ids { s with depth := s.depth - 1 }
          { t with depth := t.depth - 1 } :=
        ⟨congrArg (· - 1) h.depth, h.typeNames, h.refs, h.kept, h.limited, h.unlimited⟩
      cases rest with
      | nil => exact ⟨rfl, rfl, hless⟩
      | cons f rest => exact ⟨rfl, rfl, hless⟩

/-- One event does the same to two configurations that agree. -/
theorem step_tracks {c d : Config} (h : ConfigAgree budget ids c d) (e : Event)
    (hid : RefersWithin ids e) :
    Tracks budget (ConfigAgree budget ids) (c.step p e) (d.step p e) := by
  rcases c with ⟨stack, s, out⟩
  rcases d with ⟨stack', t, out'⟩
  rcases h with ⟨hstack, hout, hagree⟩
  cases hstack
  cases hout
  cases stack with
  | nil =>
      cases e with
      | start tag attrs =>
          refine (openElement_tracks hagree [] tag attrs ?_).map fun a b hab => ?_
          · rintro rfl
            exact hid attrs (Or.inl rfl)
          · exact ⟨congrArg (fun f => [f]) hab.1, rfl, hab.2⟩
      | empty tag attrs =>
          refine (hagree.parseEmpty tag attrs ?_).map fun a b hab => ?_
          · rintro rfl
            exact hid attrs (Or.inr rfl)
          · exact ⟨rfl, congrArg (fun v => out ++ v.toList) hab.1, hab.2⟩
      | _ => exact .ok ⟨rfl, rfl, hagree⟩
  | cons f rest =>
      refine (activity_tracks hagree f.activity e hid).map fun a b hab => ?_
      rcases a with ⟨m, s'⟩
      rcases b with ⟨m', t'⟩
      rcases hab with ⟨rfl, hab⟩
      exact move_agree f.name rest f.activity out hab m

/-- So does a document. -/
theorem run_tracks (fault : Option String) (es : List Event) (hid : ∀ e ∈ es, RefersWithin ids e) :
    ∀ {c d : Config}, ConfigAgree budget ids c d →
      c.run p fault es = .error (overBudget budget) ∨ c.run p fault es = d.run p fault es := by
  induction es with
  | nil =>
      intro c d h
      refine Or.inr ?_
      cases fault with
      | some m => rfl
      | none =>
          rw [Config.run, Config.run, Config.finish, Config.finish, h.1, h.2.1]
  | cons e es ih =>
      intro c d h
      have hstep := @step_tracks p budget ids c d h e (hid e List.mem_cons_self)
      rw [Config.run, Config.run]
      generalize c.step p e = o at hstep
      generalize d.step p e = o' at hstep
      cases hstep with
      | refused => exact Or.inl rfl
      | failed x => exact Or.inr rfl
      | ok hab => exact ih (fun e he => hid e (List.mem_cons_of_mem _ he)) hab

end Tracks

/-- The reference decoder is the machine that remembers. -/
theorem referenceClixml_eq_run (p : Platform) (xml : Text) :
    referenceClixml p xml
      = (Config.start (rememberingState (p.read (cleanDocument xml)).events)).run p
          (p.read (cleanDocument xml)).fault (p.read (cleanDocument xml)).events :=
  run_denote p _ _ _ (counted_start _ rfl)

end Machine

open Machine (Config Position)

theorem mem_referencedIds {es : List Event} {e : Event} (he : e ∈ es) :
    RefersWithin (referencedIds es) e := by
  intro attrs hattrs i hi
  rw [referencedIds, List.mem_filterMap]
  refine ⟨e, he, ?_⟩
  rcases hattrs with rfl | rfl
  · simp only [if_true, hi]
  · simp only [if_true, hi]

/-- An id that is referred to is an id of the document. -/
theorem referencedIds_subset (es : List Event) : ∀ i ∈ referencedIds es, i ∈ allRefIds es := by
  intro i hi
  rw [referencedIds, List.mem_filterMap] at hi
  rcases hi with ⟨e, he, hid⟩
  rw [allRefIds, List.mem_filterMap]
  refine ⟨e, he, ?_⟩
  cases e with
  | start name attrs | empty name attrs =>
      simp only at hid
      split_ifs at hid
      exact hid
  | _ => cases hid

/-- Whether the references of a document stay within its budget. -/
def WithinBudget (p : Platform) (xml : Text) : Prop :=
  parseClixml p xml ≠ .error (overBudget (refBudget (Text.utf8Len (cleanDocument xml))))

/-- Keeping only the objects that are referred to is not visible. -/
theorem parseClixml_eq_reference {p : Platform} {xml : Text} (h : WithinBudget p xml) :
    parseClixml p xml = referenceClixml p xml := by
  rw [WithinBudget] at h
  rw [Machine.parseClixml_eq_decode, Machine.decode] at h ⊢
  rw [Machine.referenceClixml_eq_run]
  have hagree : Machine.ConfigAgree (refBudget (Text.utf8Len (cleanDocument xml)))
      (referencedIds (p.read (cleanDocument xml)).events)
      (Config.start (initialState (p.read (cleanDocument xml)).events
        (Text.utf8Len (cleanDocument xml))))
      (Config.start (rememberingState (p.read (cleanDocument xml)).events)) :=
    ⟨rfl, rfl, rfl, rfl, fun _ _ => rfl, fun i hi => ⟨hi, referencedIds_subset _ i hi⟩, rfl,
      Nat.le_refl _⟩
  exact (Machine.run_tracks _ _ (fun e he => mem_referencedIds he) hagree).resolve_left h

namespace Machine

section History

variable {p : Platform} {c c' : Config}

/-- The object an event completes, under its id. -/
def Config.completes (c : Config) (e : Event) : List (Text × PsValue) :=
  match c.stack, e with
  | ⟨_, .object ctx .body⟩ :: _, .stop tag =>
    if tag = "Obj" then
      (ctx.refId.map fun i => (i, .object (exposeValue ctx.embedded ctx.obj))).toList
    else []
  | _, _ => []

/-- The objects completed in a run, in the order of the document. -/
def Config.completions (p : Platform) : Config → List Event → List (Text × PsValue)
  | _, [] => []
  | c, e :: es =>
    c.completes e ++ match c.step p e with
      | .ok c' => Config.completions p c' es
      | .error _ => []

/-- The value of the object completed last under an id. -/
def latest (i : Text) (log : List (Text × PsValue)) : Option PsValue :=
  ((log.reverse.find? fun entry => entry.1 = i).map Prod.snd)

@[simp] theorem latest_nil (i : Text) : latest i [] = none := rfl

theorem latest_append_singleton (i j : Text) (v : PsValue) (log : List (Text × PsValue)) :
    latest i (log ++ [(j, v)]) = if j = i then some v else latest i log := by
  unfold latest
  rw [List.reverse_append, List.reverse_singleton, List.singleton_append, List.find?_cons]
  by_cases h : j = i
  · simp only [h, decide_true, if_true]
    rfl
  · simp only [h, decide_false, if_false]

/-- What is kept under the ids that are referred to is what was completed last. -/
def Config.Current (log : List (Text × PsValue)) (c : Config) : Prop :=
  ∀ i ∈ c.state.referenced, IndexMap.get i c.state.refs = latest i log

/-- What stays of the objects kept. -/
def SameRefs (s s' : DecoderState) : Prop := s'.refs = s.refs ∧ s'.referenced = s.referenced

theorem resolveRef_refs {attrs : List Attr} {level : Nat} {s s' : DecoderState} {v : PsValue}
    (h : resolveRef attrs level s = .ok (v, s')) : SameRefs s s' := by
  rcases resolveRef_cases attrs level s s' v h with ⟨_, rfl⟩ | ⟨_, _, _, _, hcharge⟩
  · exact ⟨rfl, rfl⟩
  · rw [charge_fields hcharge]
    exact ⟨rfl, rfl⟩

theorem parseEmpty_refs {tag : String} {attrs : List Attr} {s s' : DecoderState}
    {v : Option PsValue} (h : parseEmpty tag attrs s = .ok (v, s')) : SameRefs s s' := by
  unfold parseEmpty at h
  split_ifs at h
  · cases h
    exact ⟨rfl, rfl⟩
  · rw [except_map_eq_ok] at h
    rcases h with ⟨⟨w, t⟩, hres, h⟩
    cases h
    exact resolveRef_refs hres
  · cases h
    exact ⟨rfl, rfl⟩
  · cases h
    exact ⟨rfl, rfl⟩
  · cases h
    exact ⟨rfl, rfl⟩

theorem openElement_refs {name : Text} {tag : String} {attrs : List Attr} {s s' : DecoderState}
    {f : Frame} (h : openElement p name tag attrs s = .ok (f, s')) : SameRefs s s' := by
  rcases (openElement_cases p name tag attrs s s' f h).2 with
    ⟨_, _, _, rfl⟩ | ⟨_, _, _, _, rfl⟩ | ⟨_, _, hres, _⟩ | ⟨_, _, _, _, rfl⟩
  · exact ⟨rfl, rfl⟩
  · exact ⟨rfl, rfl⟩
  · exact ⟨(resolveRef_refs hres).1, (resolveRef_refs hres).2⟩
  · exact ⟨rfl, rfl⟩

/-- Only the end of an object changes what is kept. -/
theorem Steps.refs {s s' : DecoderState} {a : Activity} {e : Event} {m : Move}
    (h : Steps p s a e m s') (hnot : ∀ ctx, a = .object ctx .body → e ≠ .stop "Obj") :
    SameRefs s s' := by
  cases h with
  | opened _ hopen => exact openElement_refs hopen
  | received _ hempty => exact parseEmpty_refs hempty
  | objectClosed => exact absurd rfl (hnot _ rfl)
  | @typeNamesClosed ctx rid names => cases rid <;> exact ⟨rfl, rfl⟩
  | _ => exact ⟨rfl, rfl⟩

theorem Config.Current.of_same {log : List (Text × PsValue)} (h : c.Current log)
    (hsame : SameRefs c.state c'.state) : c'.Current log := by
  intro i hi
  rw [hsame.1]
  exact h i (hsame.2 ▸ hi)

theorem completes_eq_nil {name : Text} {a : Activity} {rest : List Frame} {s : DecoderState}
    {out : List PsValue} {e : Event} (hnot : ∀ ctx, a = .object ctx .body → e ≠ .stop "Obj") :
    Config.completes ⟨⟨name, a⟩ :: rest, s, out⟩ e = [] := by
  unfold Config.completes
  split
  · rename_i heq
    cases heq
    refine if_neg ?_
    rintro rfl
    exact hnot _ rfl rfl
  · rfl

/-- What is kept stays current. -/
theorem step_current {log : List (Text × PsValue)} {e : Event} (hc : c.Current log)
    (h : c.step p e = .ok c') : c'.Current (log ++ c.completes e) := by
  rcases c with ⟨stack, s, out⟩
  rcases stack with _ | ⟨⟨name, a⟩, rest⟩
  · -- Outside every element nothing is completed.
    have hnone : Config.completes ⟨[], s, out⟩ e = [] := by
      cases e <;> rfl
    rw [hnone, List.append_nil]
    cases e with
    | start tag attrs =>
        simp only [Config.step, except_map_eq_ok] at h
        rcases h with ⟨⟨f, s'⟩, hopen, rfl⟩
        exact hc.of_same (openElement_refs hopen)
    | empty tag attrs =>
        simp only [Config.step, except_map_eq_ok] at h
        rcases h with ⟨⟨v, s'⟩, hempty, rfl⟩
        exact hc.of_same (parseEmpty_refs hempty)
    | _ =>
        cases h
        exact hc
  · simp only [Config.step, except_map_eq_ok] at h
    rcases h with ⟨⟨m, s'⟩, hstep, rfl⟩
    -- Only the end of an object changes what is kept under the ids.
    have hmove : (Config.move name rest a out s' m).state.refs = s'.refs
        ∧ (Config.move name rest a out s' m).state.referenced = s'.referenced := by
      cases m with
      | pop v => rw [Config.move, deliver_state]; exact ⟨rfl, rfl⟩
      | _ => exact ⟨rfl, rfl⟩
    by_cases hend : ∃ ctx, a = .object ctx .body ∧ e = .stop "Obj"
    · rcases hend with ⟨ctx, rfl, rfl⟩
      simp only [Activity.step, bodyStep, if_true, except_map_eq_ok] at hstep
      rcases hstep with ⟨t, hkeep, heq⟩
      cases heq
      intro i hi
      rw [hmove.2] at hi
      rw [hmove.1]
      have hlog : Config.completes ⟨⟨name, .object ctx .body⟩ :: rest, s, out⟩ (.stop "Obj")
          = (ctx.refId.map fun i =>
              (i, PsValue.object (exposeValue ctx.embedded ctx.obj))).toList := by
        simp only [Config.completes, if_true]
      rw [hlog]
      rcases keepReferenced_cases ctx.refId (.object (exposeValue ctx.embedded ctx.obj)) s with
        ⟨r, spent, hid, _, heq⟩ | ⟨hnone, heq⟩ | ⟨heq, _⟩
      · -- The object is kept.
        rw [hkeep] at heq
        cases heq
        rw [hid, IndexMap.get_insert]
        have hlast := latest_append_singleton i r (.object (exposeValue ctx.embedded ctx.obj)) log
        rw [Option.map_some, Option.toList_some, hlast, hc i hi]
      · rw [hkeep] at heq
        cases heq
        cases hid : ctx.refId with
        | none =>
            rw [Option.map_none, Option.toList_none, List.append_nil]
            exact hc i hi
        | some r =>
            -- It is another id than those that are referred to.
            have hne : ¬ r = i := by
              rintro rfl
              exact hnone r hid hi
            rw [Option.map_some, Option.toList_some, latest_append_singleton, if_neg hne]
            exact hc i hi
      · rw [hkeep] at heq
        cases heq
    · -- Any other step completes nothing and keeps nothing.
      have hnot : ∀ ctx, a = .object ctx .body → e ≠ .stop "Obj" :=
        fun ctx ha he => hend ⟨ctx, ha, he⟩
      rw [completes_eq_nil hnot, List.append_nil]
      have hsame := (steps_of_step a e hstep).refs hnot
      exact hc.of_same ⟨hmove.1.trans hsame.1, hmove.2.trans hsame.2⟩

theorem Steps.referenced {s s' : DecoderState} {a : Activity} {e : Event} {m : Move}
    (h : Steps p s a e m s') : s'.referenced = s.referenced := by
  cases h with
  | opened _ hopen => exact (openElement_refs hopen).2
  | received _ hempty => exact (parseEmpty_refs hempty).2
  | @objectClosed ctx _ hkeep =>
      rcases keepReferenced_cases ctx.refId (.object (exposeValue ctx.embedded ctx.obj)) s with
        ⟨_, _, _, _, heq⟩ | ⟨_, heq⟩ | ⟨heq, _⟩ <;> rw [hkeep] at heq <;> cases heq
      · rfl
      · rfl
  | @typeNamesClosed ctx rid names => cases rid <;> rfl
  | _ => rfl

theorem step_referenced {e : Event} (h : c.step p e = .ok c') :
    c'.state.referenced = c.state.referenced := by
  rcases c with ⟨stack, s, out⟩
  cases stack with
  | nil =>
      cases e with
      | start tag attrs =>
          simp only [Config.step, except_map_eq_ok] at h
          rcases h with ⟨⟨f, s'⟩, hopen, rfl⟩
          exact (openElement_refs hopen).2
      | empty tag attrs =>
          simp only [Config.step, except_map_eq_ok] at h
          rcases h with ⟨⟨v, s'⟩, hempty, rfl⟩
          exact (parseEmpty_refs hempty).2
      | _ =>
          cases h
          rfl
  | cons f rest =>
      simp only [Config.step, except_map_eq_ok] at h
      rcases h with ⟨⟨m, s'⟩, hstep, rfl⟩
      have hsame := (steps_of_step f.activity e hstep).referenced
      cases m with
      | pop v => rw [Config.move, deliver_state]; exact hsame
      | _ => exact hsame

/-- What is referred to is fixed before the run. -/
theorem Config.Reaches.referenced {es : List Event} (h : c.Reaches p es c') :
    c'.state.referenced = c.state.referenced := by
  induction h with
  | refl => rfl
  | step hstep _ ih => exact ih.trans (step_referenced hstep)

/-- What is kept in a run is what the run completed last. -/
theorem Config.Reaches.current {log : List (Text × PsValue)} {es : List Event}
    (h : c.Reaches p es c') (hc : c.Current log) :
    c'.Current (log ++ c.completions p es) := by
  induction h generalizing log with
  | refl =>
      rw [Config.completions, List.append_nil]
      exact hc
  | step hstep _ ih =>
      rw [Config.completions, hstep, ← List.append_assoc]
      exact ih (step_current hc hstep)

/-- What a reference stands for when some objects are complete: the last one
    with its id, or null. -/
def refersTo (attrs : List Attr) (log : List (Text × PsValue)) : PsValue :=
  match refRefIdAttr attrs with
  | .ok (some i) => (latest i log).getD .null
  | _ => .null

/-- The two spellings of a reference. -/
inductive RefSpelling (attrs : List Attr) : List Event → Prop where
  | empty : RefSpelling attrs [.empty "Ref" attrs]
  | element {inner : List Event} : Balanced inner →
    RefSpelling attrs (.start "Ref" attrs :: (inner ++ [.stop "Ref"]))

theorem resolveRef_latest {log : List (Text × PsValue)} {attrs : List Attr} {level : Nat}
    {s s' : DecoderState} {v : PsValue}
    (hlog : ∀ i ∈ s.referenced, IndexMap.get i s.refs = latest i log)
    (hid : ∀ i, refRefIdAttr attrs = .ok (some i) → i ∈ s.referenced)
    (h : resolveRef attrs level s = .ok (v, s')) : v = refersTo attrs log := by
  unfold refersTo
  rcases hattr : refRefIdAttr attrs with x | _ | i
  · -- Without a readable id there is no result.
    simp only [resolveRef, hattr, bind, Except.bind] at h
    cases h
  · simp only [resolveRef, hattr, bind, Except.bind, pure, Except.pure, Option.bind_none] at h
    cases h
    rfl
  · simp only []
    rw [← hlog i (hid i hattr)]
    rcases resolveRef_cases attrs level s s' v h with ⟨rfl, rfl⟩ | ⟨j, hj, hget, _, _⟩
    · -- Null is what is not kept.
      simp only [resolveRef, hattr, bind, Except.bind, pure, Except.pure, Option.bind_some] at h
      cases hget : IndexMap.get i s'.refs with
      | none => rfl
      | some target =>
          simp only [hget] at h
          split_ifs at h
          cases hcharge : s'.charge (measure target).1 with
          | error x =>
              rw [hcharge] at h
              cases h
          | ok t =>
              rw [hcharge] at h
              cases h
              rfl
    · rw [hattr] at hj
      cases hj
      rw [hget]
      rfl

/-- A reference that is opened where elements are read. -/
theorem step_opensRef {pos : Position} {attrs : List Attr} (hpos : c.position = some pos)
    (hreads : pos.readsElements = true) (h : c.step p (.start "Ref" attrs) = .ok c') :
    ∃ name f s', NamedBy attrs name ∧ openElement p name "Ref" attrs c.state = .ok (f, s')
      ∧ c' = { c with stack := f :: c.stack, state := s' } := by
  rcases c with ⟨stack, s, out⟩
  rcases stack with _ | ⟨⟨fname, a⟩, rest⟩
  · simp only [Config.step, except_map_eq_ok] at h
    rcases h with ⟨⟨f, s'⟩, hopen, rfl⟩
    exact ⟨[], f, s', Or.inl rfl, hopen, rfl⟩
  · cases a with
    | leaf | skip => cases hpos
    | object ctx mode =>
        cases mode with
        | body =>
            have hpushed := @pushElement_pushed p "Ref" attrs ⟨_ :: rest, s, out⟩ _ _ _ _ _ rfl h
            rcases hpushed with ⟨f, s', hopen, rfl⟩
            exact ⟨[], f, s', Or.inl rfl, hopen, rfl⟩
        | list closing items =>
            have hpushed := @pushElement_pushed p "Ref" attrs ⟨_ :: rest, s, out⟩ _ _ _ _ _ rfl h
            rcases hpushed with ⟨f, s', hopen, rfl⟩
            exact ⟨[], f, s', Or.inl rfl, hopen, rfl⟩
        | members | entry =>
            have hpushed := @pushNamed_pushed p "Ref" attrs ⟨_ :: rest, s, out⟩ _ _ _ _ rfl h
            rcases hpushed with ⟨name, hname, f, s', hopen, rfl⟩
            exact ⟨_, f, s', Or.inr ⟨name, hname, rfl⟩, hopen, rfl⟩
        | dict | typeNames =>
            cases hpos
            cases hreads
        | typeName | skipRef => cases hpos

/-- A self-closed reference where values are read. -/
theorem step_emptyRef {pos : Position} {attrs : List Attr} (hpos : c.position = some pos)
    (hreads : pos.readsElements = true) (hbody : pos ≠ .body)
    (h : c.step p (.empty "Ref" attrs) = .ok c') :
    ∃ name v s', NamedBy attrs name ∧ resolveRef attrs 1 c.state = .ok (v, s')
      ∧ c' = deliver name (some v) { c with state := s' } := by
  rcases c with ⟨stack, s, out⟩
  have hempty : parseEmpty "Ref" attrs s = (resolveRef attrs 1 s).map fun r => (some r.1, r.2) :=
    rfl
  rcases stack with _ | ⟨⟨fname, a⟩, rest⟩
  · simp only [Config.step, hempty, except_map_eq_ok] at h
    rcases h with ⟨r, ⟨⟨v, s'⟩, hres, rfl⟩, rfl⟩
    exact ⟨[], v, s', Or.inl rfl, hres, rfl⟩
  · -- What a container is given under a name.
    have hreceive : ∀ {named : Bool} {a : Activity},
        (receiveEmpty named a "Ref" attrs s).map
            (fun r => Config.move fname rest a out r.2 r.1) = .ok c' →
        ∃ name v s', NamedBy attrs name ∧ resolveRef attrs 1 s = .ok (v, s')
          ∧ c' = deliver name (some v) ⟨⟨fname, a⟩ :: rest, s', out⟩ := by
      intro named a h
      rw [receiveEmpty, hempty] at h
      cases hres : resolveRef attrs 1 s with
      | error x =>
          rw [hres] at h
          cases h
      | ok r =>
          rcases r with ⟨v, s'⟩
          rw [hres] at h
          cases named with
          | false =>
              cases h
              exact ⟨[], v, s', Or.inl rfl, rfl, rfl⟩
          | true =>
              cases hname : nameAttr attrs with
              | error x =>
                  simp only [Except.map, hname, if_true] at h
                  cases h
              | ok name =>
                  simp only [Except.map, hname, if_true] at h
                  cases h
                  exact ⟨_, v, s', Or.inr ⟨name, hname, rfl⟩, rfl, rfl⟩
    -- The position reads elements, so it takes the value, with or without a name.
    cases a with
    | leaf | skip => cases hpos
    | object ctx mode =>
        cases mode with
        | members | list | entry => exact hreceive h
        | body =>
            cases hpos
            exact absurd rfl hbody
        | dict | typeNames =>
            cases hpos
            cases hreads
        | typeName | skipRef => cases hpos

/-- A reference, in either spelling, delivers what it refers to. -/
theorem reference_delivers {log : List (Text × PsValue)} {pos : Position} {attrs : List Attr}
    {u : List Event} (hlog : c.Current log)
    (hid : ∀ i, refRefIdAttr attrs = .ok (some i) → i ∈ c.state.referenced)
    (hu : RefSpelling attrs u) (hpos : c.position = some pos) (hreads : pos.readsElements = true)
    (hbody : pos = .body → u ≠ [.empty "Ref" attrs]) (h : c.Reaches p u c') :
    ∃ name s', NamedBy attrs name
      ∧ c' = deliver name (some (refersTo attrs log)) { c with state := s' } := by
  cases hu with
  | empty =>
      cases h with
      | step hstep hnil =>
          cases hnil
          rcases step_emptyRef hpos hreads (fun heq => hbody heq rfl) hstep with
            ⟨name, v, s', hname, hres, rfl⟩
          exact ⟨name, s', hname, by rw [resolveRef_latest hlog hid hres]⟩
  | @element inner hinner =>
      cases h with
      | step hstep hrest =>
          rcases step_opensRef hpos hreads hstep with ⟨name, f, s', hname, hopen, rfl⟩
          rcases (openElement_cases p name "Ref" attrs c.state s' f hopen).2 with
            ⟨_, hleaf, _⟩ | ⟨_, htag, _⟩ | ⟨v, _, hres, rfl⟩ | ⟨_, _, htag, _⟩
          · cases hleaf
          · exact absurd htag (by decide)
          · -- The inside is skipped, and the end tag delivers the value.
            rcases hrest.split with ⟨d, hd, hstop⟩
            cases Config.Reaches.unique
              (reaches_skip hinner name (some v) c.stack s' c.out 0) hd
            cases hstop with
            | step hstop hnil =>
                cases hnil
                cases hstop
                refine ⟨name, { s' with depth := s'.depth - 1 }, hname, ?_⟩
                have hlatest := @resolveRef_latest log attrs 0
                  { c.state with depth := c.state.depth + 1 } s' v hlog hid hres
                rw [← hlatest]
                rfl
          · exact absurd rfl htag

end History

end Machine

/-- The reference decoder holds the object completed last under every id of the
    document. -/
theorem reference_remembers {p : Platform} {events es : List Event} {c : Config}
    (h : (Config.start (rememberingState events)).Reaches p es c) :
    ∀ i ∈ allRefIds events, IndexMap.get i c.state.refs
      = Machine.latest i ((Config.start (rememberingState events)).completions p es) := by
  intro i hi
  have hstart : (Config.start (rememberingState events)).Current [] := fun j _ => rfl
  have hcurrent := h.current hstart
  rw [List.nil_append] at hcurrent
  refine hcurrent i ?_
  rw [h.referenced]
  exact hi

/-- Keeping only what is referred to is not visible, and every reference is
    decoded to the object with its id that was completed last before it, or to
    null: where a reference stands that is not refused, the result of the
    document is what the rest of it makes of that value, handed over in its
    place. -/
theorem references_exact (p : Platform) (xml : Text) :
    (WithinBudget p xml → parseClixml p xml = referenceClixml p xml)
      ∧ ∀ pre u post attrs c c' pos,
        (p.read (cleanDocument xml)).events = pre ++ (u ++ post) → Machine.RefSpelling attrs u →
        (startOf p xml).Reaches p pre c → c.position = some pos → pos.readsElements = true →
        (pos = .body → u ≠ [.empty "Ref" attrs]) → c.Reaches p u c' →
        ∃ name s', Machine.NamedBy attrs name
          ∧ let delivered := Machine.deliver name
              (some (Machine.refersTo attrs ((startOf p xml).completions p pre)))
              { c with state := s' }
            c' = delivered
              ∧ parseClixml p xml = delivered.run p (p.read (cleanDocument xml)).fault post
              ∧ parseClixml p xml = (Pull.run (delivered.denote p)
                ⟨post, (p.read (cleanDocument xml)).fault, delivered.state⟩).map Prod.fst := by
  refine ⟨parseClixml_eq_reference, ?_⟩
  intro pre u post attrs c c' pos hevents hu hpre hpos hreads hbody hreach
  have hstart : (startOf p xml).Current [] := fun i _ => rfl
  have hcurrent := hpre.current hstart
  rw [List.nil_append] at hcurrent
  have hreferenced : c.state.referenced = referencedIds (pre ++ (u ++ post)) := by
    rw [hpre.referenced, startOf, hevents]
    rfl
  -- The scan has seen the tag.
  have hseen : ∀ i, refRefIdAttr attrs = .ok (some i) → i ∈ c.state.referenced := by
    intro i hi
    rw [hreferenced]
    cases hu with
    | empty =>
        exact mem_referencedIds (List.mem_append_right _ List.mem_cons_self) attrs (Or.inr rfl) i hi
    | element =>
        exact mem_referencedIds (List.mem_append_right _ List.mem_cons_self) attrs (Or.inl rfl) i hi
  rcases Machine.reference_delivers hcurrent hseen hu hpos hreads hbody hreach with
    ⟨name, s', hname, rfl⟩
  -- What is decoded after it is decoded from the machine that has the value.
  have hcounted : (startOf p xml).Counted := Machine.counted_start _ rfl
  have hdecode : parseClixml p xml = (startOf p xml).run p (p.read (cleanDocument xml)).fault
      (p.read (cleanDocument xml)).events := Machine.parseClixml_eq_decode p xml
  rw [hevents, ← List.append_assoc] at hdecode
  have hreach := hpre.trans hreach
  exact ⟨name, s', hname, rfl, hdecode.trans (run_reaches hreach),
    hdecode.trans (Machine.decode_after p hcounted hreach)⟩

/-- A list that holds an object twice, the second time as a reference. -/
def sharedDocument : Xml.Node :=
  .element "Obj" [] [.element "LST" []
    [.element "Obj" [("RefId", ['0'])] [.element "I32" [] [.text ['1']]],
      .empty "Ref" [("RefId", ['0'])]]]

/-- What stands before the reference. -/
def beforeReference : List Event :=
  [.start "Obj" [], .start "LST" [], .start "Obj" (Xml.readAttrs [("RefId", ['0'])]),
    .start "I32" [], .text ['1'], .stop "I32", .stop "Obj"]

/-- What the document is decoded to: the object is in the list twice. -/
def sharedValue : PsValue :=
  .object ⟨[(valueKey, .list [.object ⟨[(valueKey, .i32 1)], [], none⟩,
    .object ⟨[(valueKey, .i32 1)], [], none⟩])], [], none⟩

/-- The reference is decoded to the object before it, and the result of the
    document is what the two end tags make of a list that holds it. -/
theorem references_exact_shared :
    parseClixml Platform.basic sharedDocument.render = .ok [sharedValue]
      ∧ referenceClixml Platform.basic sharedDocument.render = .ok [sharedValue]
      ∧ ∃ c name s', (startOf Platform.basic sharedDocument.render).Reaches Platform.basic
          beforeReference c
        ∧ let delivered := Machine.deliver name (some (.object ⟨[(valueKey, .i32 1)], [], none⟩))
            { c with state := s' }
          delivered.run Platform.basic none [.stop "LST", .stop "Obj"] = .ok [sharedValue] := by
  have hp := Platform.basic_lawful
  have hplain : sharedDocument.plain = true := by decide
  have hstream : Platform.basic.read (cleanDocument sharedDocument.render)
      = ⟨beforeReference ++ ([.empty "Ref" (Xml.readAttrs [("RefId", ['0'])])]
        ++ [.stop "LST", .stop "Obj"]), none⟩ := by
    rw [Machine.cleanDocument_render _ rfl, hp.read.read_render _ rfl hplain]
    rfl
  have hread := congrArg Xml.Stream.events hstream
  have hparse : parseClixml Platform.basic sharedDocument.render = .ok [sharedValue] := by
    rw [Machine.parseClixml_render hp _ rfl hplain]
    rfl
  have hwithin : WithinBudget Platform.basic sharedDocument.render := by
    rw [WithinBudget, hparse]
    intro h
    cases h
  have hstart : startOf Platform.basic sharedDocument.render
      = Config.start (initialState sharedDocument.events (Text.utf8Len sharedDocument.render)) := by
    rw [startOf, Machine.cleanDocument_render _ rfl, hp.read.read_render _ rfl hplain]
  -- The run up to the reference, where the object before it is complete.
  have hexec : ∃ c c', (Config.start (initialState sharedDocument.events
        (Text.utf8Len sharedDocument.render))).exec Platform.basic beforeReference = .ok c
      ∧ c.exec Platform.basic [.empty "Ref" (Xml.readAttrs [("RefId", ['0'])])] = .ok c'
      ∧ c.position = some .list
      ∧ Machine.refersTo (Xml.readAttrs [("RefId", ['0'])]) ((Config.start (initialState
          sharedDocument.events (Text.utf8Len sharedDocument.render))).completions Platform.basic
            beforeReference)
        = .object ⟨[(valueKey, .i32 1)], [], none⟩ := ⟨_, _, rfl, rfl, rfl, rfl⟩
  rcases hexec with ⟨c, c', hbefore, hafter, hpos, hvalue⟩
  rw [← hstart] at hbefore hvalue
  have hreach := Machine.reaches_of_exec _ hbefore
  have hbody : Position.list ≠ .body := by
    intro h
    cases h
  rcases references_exact Platform.basic sharedDocument.render with ⟨hsame, hrefs⟩
  -- The rest of the document is read after that object was delivered.
  rcases hrefs _ _ _ _ c c' .list hread .empty hreach hpos rfl (fun h => absurd h hbody)
      (Machine.reaches_of_exec _ hafter) with ⟨name, s', _, _, hrest, _⟩
  rw [hvalue, hparse, hstream] at hrest
  exact ⟨hparse, (hsame hwithin).symm.trans hparse, c, name, s', hreach, hrest.symm⟩

end Psrp

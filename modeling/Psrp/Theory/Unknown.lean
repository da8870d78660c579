import Psrp.Theory.Scopes

/-!
# Unknown Elements

What an element that the decoder does not know adds to a document.

Where the decoder reads elements, an unknown one is opened, skipped to its end
tag with all that is in it, and delivered as no value: the machine is back
where it was (`reaches_opened`). The loops over a dictionary and over type
names do not read elements. They look for one tag (`Position.collects`) and
pass over every other start tag alone, so the inside of an unknown element is
read as their own: its entries and names are collected, and its end tags close
the loop. Without such a tag inside they pass over all of it
(`reaches_passed`).

An insertion is harmless in every document exactly if it does not leak this
way. That it leaks is visible in a document that goes on with one item more:
either something was gathered before that item, or the loop has been closed
and the item is skipped, whatever it holds (`leak_visible`).

## Main definitions

* `knownElements`, `UnknownElement`: What is inserted.
* `Insertion`: Two documents, the second with something inserted.
* `Position.Leaks`: Whether a loop takes what is inside for its own.

## Theorems

* `parseClixml_insertion`: An insertion that does not leak changes nothing.
* `unknown_element_iff`: Exactly those change nothing.
-/

namespace Psrp

open Xml (Attr Event Balanced)

/-- The elements that the decoder knows. -/
def knownElements : List String :=
  ["S", "I32", "I64", "B", "Db", "Sg", "SB", "By", "I16", "U16", "U32", "U64", "D", "C", "BA", "DT",
    "TS", "G", "Version", "URI", "XD", "SBK", "SCT", "SS", "Nil", "Obj", "Ref", "MS", "Props", "TN",
    "TNRef", "LST", "IE", "QUE", "STK", "DCT", "En", "T"]

/-- Whether every attribute of a tag could be read. -/
def ReadableAttrs (attrs : List Attr) : Prop := ∀ a ∈ attrs, ∃ v, a.value = .ok v

/-- The events of an element that the decoder does not know, with all that is
    in it. -/
inductive UnknownElement : List Event → Prop where
  | empty {name : String} {attrs : List Attr} : name ∉ knownElements → ReadableAttrs attrs →
    UnknownElement [.empty name attrs]
  | element {name : String} {attrs : List Attr} {inner : List Event} : name ∉ knownElements →
    ReadableAttrs attrs → Balanced inner → UnknownElement (.start name attrs :: (inner ++ [.stop name]))

theorem UnknownElement.balanced {es : List Event} (h : UnknownElement es) : Balanced es := by
  cases h with
  | empty => exact .flat rfl .nil
  | element _ _ hinner => exact .element hinner .nil

theorem attrValue_readable {attrs : List Attr} (h : ReadableAttrs attrs) (key : String) :
    ∃ v, attrValue key attrs = .ok v := by
  induction attrs with
  | nil => exact ⟨none, rfl⟩
  | cons a rest ih =>
      rw [attrValue]
      by_cases hkey : a.key = key
      · rcases h a List.mem_cons_self with ⟨v, hv⟩
        rw [if_pos hkey, hv]
        exact ⟨some v, rfl⟩
      · rw [if_neg hkey]
        exact ih fun b hb => h b (List.mem_cons_of_mem a hb)

theorem nameAttr_readable {attrs : List Attr} (h : ReadableAttrs attrs) :
    ∃ name, nameAttr attrs = .ok name := by
  rcases attrValue_readable h "N" with ⟨v, hv⟩
  exact ⟨v.map decodePwshEscapes, by rw [nameAttr, hv]; rfl⟩

/-- No leaf is unknown. -/
theorem leafParser_unknown (p : Platform) {tag : String} (h : tag ∉ knownElements) :
    leafParser p tag = none := by
  unfold leafParser
  split
  case h_25 => rfl
  all_goals exact absurd (by decide) h

namespace Machine

section Skipping

variable {p : Platform}

/-- What is skipped is passed over. -/
theorem reaches_skip {es : List Event} (hes : Balanced es) (name : Text) (v : Option PsValue)
    (rest : List Frame) (s : DecoderState) (out : List PsValue) (level : Nat) :
    Config.Reaches p ⟨⟨name, .skip (level + 1) v⟩ :: rest, s, out⟩ es
      ⟨⟨name, .skip (level + 1) v⟩ :: rest, s, out⟩ := by
  induction hes generalizing level with
  | nil => exact .refl _
  | @flat e es he _ ih =>
      refine .step ?_ (ih level)
      cases e with
      | start | stop => cases he
      | _ => rfl
  | element _ _ ihinner ih =>
      -- One level more inside, and one level less after the end tag.
      exact .step rfl ((ihinner (level + 1)).trans (.step rfl (ih level)))

/-- So is what is inside a reference to type names. -/
theorem reaches_skipRef {es : List Event} (hes : Balanced es) (name : Text) (ctx : ObjCtx)
    (rid : Option Text) (rest : List Frame) (s : DecoderState) (out : List PsValue) (level : Nat) :
    Config.Reaches p ⟨⟨name, .object ctx (.skipRef rid (level + 1))⟩ :: rest, s, out⟩ es
      ⟨⟨name, .object ctx (.skipRef rid (level + 1))⟩ :: rest, s, out⟩ := by
  induction hes generalizing level with
  | nil => exact .refl _
  | @flat e es he _ ih =>
      refine .step ?_ (ih level)
      cases e with
      | start | stop => cases he
      | _ => rfl
  | element _ _ ihinner ih =>
      exact .step rfl ((ihinner (level + 1)).trans (.step rfl (ih level)))

/-- An element that is opened to be skipped is passed over where its value is
    nothing to the frame below. -/
theorem reaches_opened {c : Config} {tag : String} {attrs : List Attr} {inner : List Event}
    {name : Text} (hinner : Balanced inner)
    (hopen : c.step p (.start tag attrs) = .ok { c with
      stack := ⟨name, .skip 1 none⟩ :: c.stack, state := { c.state with depth := c.state.depth + 1 } })
    (hnone : deliver name none c = c) :
    c.Reaches p (.start tag attrs :: (inner ++ [.stop tag])) c := by
  refine .step hopen ((reaches_skip hinner name none c.stack _ c.out 0).trans (.step ?_ (.refl _)))
  refine congrArg Except.ok ?_
  change deliver name none c = c
  exact hnone

/-- The elements that are read for what they are where elements are read. -/
def openedElements : List String :=
  ["Obj", "Ref", "MS", "Props", "TN", "TNRef", "LST", "IE", "QUE", "STK", "DCT"]

theorem openElement_skips {name : Text} {tag : String} {attrs : List Attr} {s : DecoderState}
    (hleaf : leafParser p tag = none) (htag : tag ∉ openedElements)
    (hdepth : s.depth < MAX_NESTING_DEPTH) :
    openElement p name tag attrs s
      = .ok (⟨name, .skip 1 none⟩, { s with depth := s.depth + 1 }) := by
  simp only [openedElements, List.mem_cons, not_or] at htag
  rw [openElement, if_neg (Nat.not_le.mpr hdepth), hleaf]
  simp only [if_neg htag.1, if_neg htag.2.1]

/-- A position where elements are read. -/
def Position.readsElements : Position → Bool
  | .dict | .typeNames => false
  | _ => true

/-- An element without a meaning is opened to be skipped where elements are
    read, and what it delivers is nothing to the frame below. -/
theorem step_skips {c : Config} {pos : Position} {tag : String} {attrs : List Attr}
    (hpos : c.position = some pos) (hreads : pos.readsElements = true)
    (hleaf : leafParser p tag = none) (htag : tag ∉ openedElements) (hattrs : ReadableAttrs attrs)
    (hdepth : c.state.depth < MAX_NESTING_DEPTH) :
    ∃ name, c.step p (.start tag attrs) = .ok { c with
        stack := ⟨name, .skip 1 none⟩ :: c.stack,
        state := { c.state with depth := c.state.depth + 1 } }
      ∧ deliver name none c = c := by
  rcases c with ⟨stack, s, out⟩
  -- What is unknown is opened as an element to skip.
  have hopen : ∀ name, openElement p name tag attrs s
      = .ok (⟨name, .skip 1 none⟩, { s with depth := s.depth + 1 }) := by
    intro name
    exact openElement_skips hleaf htag hdepth
  rcases nameAttr_readable hattrs with ⟨name, hname⟩
  rcases stack with _ | ⟨⟨fname, a⟩, rest⟩
  · refine ⟨[], ?_, ?_⟩
    · simp only [Config.step, hopen]
      rfl
    · rw [deliver]
      simp only [Option.toList_none, List.append_nil]
  · -- Every position that reads elements opens it, and nothing comes of it.
    cases a with
    | leaf | skip => cases hpos
    | object ctx mode =>
        cases mode with
        | body =>
            simp only [openedElements, List.mem_cons, List.not_mem_nil, or_false, not_or] at htag
            refine ⟨[], ?_, ?_⟩
            · simp only [Config.step, Activity.step, bodyStep, htag, or_self, if_false, pushElement,
                hopen]
              rfl
            · simp only [deliver, receive, Option.or_none]
        | members closing =>
            refine ⟨name.getD [], ?_, rfl⟩
            simp only [Config.step, Activity.step, membersStep, pushNamed, hname, pushElement, hopen]
            rfl
        | list closing items =>
            refine ⟨[], ?_, ?_⟩
            · simp only [Config.step, Activity.step, listStep, pushElement, hopen]
              rfl
            · simp only [deliver, receive, Option.toList_none, List.append_nil]
        | entry entries current =>
            refine ⟨name.getD [], ?_, rfl⟩
            simp only [Config.step, Activity.step, entryStep, pushNamed, hname, pushElement, hopen]
            rfl
        | dict | typeNames =>
            cases hpos
            cases hreads
        | typeName | skipRef => cases hpos

/-- So it is passed over with all that is in it. -/
theorem reaches_element {c : Config} {pos : Position} {tag : String} {attrs : List Attr}
    {inner : List Event} (hpos : c.position = some pos) (hreads : pos.readsElements = true)
    (hleaf : leafParser p tag = none) (htag : tag ∉ openedElements) (hattrs : ReadableAttrs attrs)
    (hdepth : c.state.depth < MAX_NESTING_DEPTH) (hinner : Balanced inner) :
    c.Reaches p (.start tag attrs :: (inner ++ [.stop tag])) c := by
  rcases step_skips hpos hreads hleaf htag hattrs hdepth with ⟨name, hopen, hnone⟩
  exact reaches_opened hinner hopen hnone

/-- A self-closed element that is not known has no value. -/
theorem step_empty_unknown {c : Config} {pos : Position} {tag : String} {attrs : List Attr}
    (hpos : c.position = some pos) (htag : tag ∉ knownElements) :
    c.step p (.empty tag attrs) = .ok c := by
  rcases c with ⟨stack, s, out⟩
  simp only [knownElements, List.mem_cons, List.not_mem_nil, or_false, not_or] at htag
  have hempty : parseEmpty tag attrs s = .ok (none, s) := by
    simp only [parseEmpty, htag, or_self, if_false]
  rcases stack with _ | ⟨⟨fname, a⟩, rest⟩
  · simp only [Config.step, hempty, Except.map, Option.toList_none, List.append_nil]
  · cases a with
    | leaf | skip => cases hpos
    | object ctx mode =>
        cases mode with
        | body =>
            simp only [Config.step, Activity.step, bodyStep, htag, if_false]
            rfl
        | members closing =>
            simp only [Config.step, Activity.step, membersStep, htag, if_false, receiveEmpty, hempty]
            rfl
        | list closing items =>
            simp only [Config.step, Activity.step, listStep, receiveEmpty, hempty]
            rfl
        | entry entries current =>
            simp only [Config.step, Activity.step, entryStep, receiveEmpty, hempty]
            rfl
        | dict | typeNames => rfl
        | typeName | skipRef => cases hpos

end Skipping

section Levels

variable {p : Platform}

/-- A level of what is skipped is counted from one. -/
def Activity.Leveled : Activity → Prop
  | .skip level _ | .object _ (.skipRef _ level) => 0 < level
  | _ => True

theorem receive_leveled (name : Text) (v : Option PsValue) {a : Activity} (h : a.Leveled) :
    (receive name v a).Leveled := by
  cases a with
  | leaf | skip => exact h
  | object ctx mode =>
      cases mode with
      | members | entry => cases v <;> exact trivial
      | skipRef => exact h
      | _ => exact trivial

/-- What a move leaves on the stack. -/
def Move.Leveled : Move → Prop
  | .goto b => b.Leveled
  | .push child => child.activity.Leveled
  | .pop _ => True

theorem openElement_leveled {name : Text} {tag : String} {attrs : List Attr} {s s' : DecoderState}
    {f : Frame} (h : openElement p name tag attrs s = .ok (f, s')) : f.activity.Leveled := by
  rcases (openElement_cases p name tag attrs s s' f h).2 with
    ⟨_, _, rfl, _⟩ | ⟨_, _, _, rfl, _⟩ | ⟨_, _, _, rfl⟩ | ⟨_, _, _, rfl, _⟩
  · exact trivial
  · exact trivial
  · exact Nat.one_pos
  · exact Nat.one_pos

theorem bodyStep_leveled {ctx : ObjCtx} {s s' : DecoderState} {e : Event} {m : Move}
    (h : bodyStep p ctx s e = .ok (m, s')) : m.Leveled := by
  cases e with
  | start tag attrs =>
      simp only [bodyStep] at h
      split_ifs at h
      · cases h
        exact trivial
      · rw [except_map_eq_ok] at h
        rcases h with ⟨rid, _, h⟩
        cases h
        exact trivial
      · rw [except_map_eq_ok] at h
        rcases h with ⟨rid, _, h⟩
        cases h
        exact Nat.one_pos
      · cases h
        exact trivial
      · cases h
        exact trivial
      · rw [pushElement, except_map_eq_ok] at h
        rcases h with ⟨⟨f, t⟩, hopen, h⟩
        cases h
        exact openElement_leveled hopen
  | _ =>
      -- No other event leaves the body but to close the object.
      have hsteps := steps_body ctx _ h
      cases hsteps <;> exact trivial

theorem step_leveled {a : Activity} {s s' : DecoderState} {e : Event} {m : Move}
    (h : a.step p s e = .ok (m, s')) (ha : a.Leveled) : m.Leveled := by
  cases a with
  | skip level v =>
      cases e with
      | start =>
          cases h
          exact Nat.succ_pos level
      | stop tag =>
          simp only [Activity.step, skipStep] at h
          -- The last open element ends the skip; any other only goes up a level.
          by_cases hlevel : level - 1 = 0
          · rw [if_pos hlevel] at h
            cases h
            exact trivial
          · rw [if_neg hlevel] at h
            cases h
            exact Nat.pos_of_ne_zero hlevel
      | _ =>
          cases h
          exact ha
  | leaf =>
      have hsteps := steps_of_step _ e h
      cases hsteps with
      | opened _ hopen => exact openElement_leveled hopen
      | @received _ name _ _ v => exact receive_leveled name (some v) ha
      | _ => exact trivial
  | object ctx mode =>
      cases mode with
      | body => exact bodyStep_leveled h
      | skipRef rid level =>
          cases e with
          | start =>
              cases h
              exact Nat.succ_pos level
          | stop tag =>
              simp only [Activity.step, skipRefStep] at h
              -- The same for a reference to type names that has content.
              by_cases hlevel : level - 1 = 0
              · rw [if_pos hlevel] at h
                cases h
                exact trivial
              · rw [if_neg hlevel] at h
                cases h
                exact Nat.pos_of_ne_zero hlevel
          | _ =>
              cases h
              exact ha
      | members | list | dict | entry | typeNames | typeName =>
          have hsteps := steps_of_step _ e h
          cases hsteps with
          | opened _ hopen => exact openElement_leveled hopen
          | @received _ name _ _ v => exact receive_leveled name (some v) ha
          | _ => exact trivial

/-- Every level of what is skipped is counted from one. -/
def Config.Leveled (c : Config) : Prop := ∀ f ∈ c.stack, f.activity.Leveled

theorem deliver_leveled (name : Text) (v : Option PsValue) {c : Config} (h : c.Leveled) :
    (deliver name v c).Leveled := by
  rcases c with ⟨stack, s, out⟩
  cases stack with
  | nil => exact h
  | cons f rest =>
      intro g hg
      rcases List.mem_cons.mp hg with rfl | hg
      · exact receive_leveled name v (h f List.mem_cons_self)
      · exact h g (List.mem_cons_of_mem f hg)

theorem Config.Reaches.leveled {c c' : Config} {es : List Event} (h : c.Reaches p es c')
    (hc : c.Leveled) : c'.Leveled := by
  induction h with
  | refl => exact hc
  | @step c d _ e es hstep _ ih =>
      refine ih ?_
      rcases c with ⟨stack, s, out⟩
      cases stack with
      | nil =>
          cases e with
          | start tag attrs =>
              simp only [Config.step, except_map_eq_ok] at hstep
              rcases hstep with ⟨⟨f, s'⟩, hopen, rfl⟩
              exact fun g hg => List.mem_singleton.mp hg ▸ openElement_leveled hopen
          | empty tag attrs =>
              simp only [Config.step, except_map_eq_ok] at hstep
              rcases hstep with ⟨⟨v, s'⟩, _, rfl⟩
              exact hc
          | _ =>
              cases hstep
              exact hc
      | cons f rest =>
          simp only [Config.step, except_map_eq_ok] at hstep
          rcases hstep with ⟨⟨m, s'⟩, hstep, rfl⟩
          have hm := step_leveled hstep (hc f List.mem_cons_self)
          have hrest : ∀ g ∈ rest, g.activity.Leveled :=
            fun g hg => hc g (List.mem_cons_of_mem f hg)
          cases m with
          | goto b => exact List.forall_mem_cons.mpr ⟨hm, hrest⟩
          | push child =>
              exact List.forall_mem_cons.mpr ⟨hm, List.forall_mem_cons.mpr
                ⟨hc f List.mem_cons_self, hrest⟩⟩
          | pop v => exact deliver_leveled _ _ hrest

end Levels

section Passing

variable {p : Platform}

/-- The tag that a loop looks for, where it passes over every other start tag
    alone, and the end tag that closes it. -/
def Position.collects : Position → Option (String × String)
  | .dict => some ("En", "DCT")
  | .typeNames => some ("T", "TN")
  | _ => none

/-- Whether a loop takes something of these events for its own. -/
def Position.Leaks (pos : Position) (es : List Event) : Prop :=
  ∃ item closing, pos.collects = some (item, closing)
    ∧ ((∃ attrs, .start item attrs ∈ es) ∨ .stop closing ∈ es)

/-- One event that a loop passes over. -/
theorem step_passes {c : Config} {pos : Position} {e : Event} (hpos : c.position = some pos)
    (hreads : pos.readsElements = false) (hleak : ¬ pos.Leaks [e]) : c.step p e = .ok c := by
  rcases c with ⟨stack, s, out⟩
  rcases stack with _ | ⟨⟨fname, a⟩, rest⟩
  · cases hpos
    cases hreads
  · cases a with
    | leaf | skip => cases hpos
    | object ctx mode =>
        -- Both loops look only for the tag of an item and for their own end tag.
        cases mode with
        | dict entries =>
            cases hpos
            cases e with
            | start tag attrs =>
                have htag : ¬ tag = "En" := by
                  rintro rfl
                  exact hleak ⟨_, _, rfl, Or.inl ⟨attrs, List.mem_cons_self⟩⟩
                simp only [Config.step, Activity.step, dictStep, if_neg htag]
                rfl
            | stop tag =>
                have htag : ¬ tag = "DCT" := by
                  rintro rfl
                  exact hleak ⟨_, _, rfl, Or.inr List.mem_cons_self⟩
                simp only [Config.step, Activity.step, dictStep, if_neg htag]
                rfl
            | _ => rfl
        | typeNames rid names =>
            cases hpos
            cases e with
            | start tag attrs =>
                have htag : ¬ tag = "T" := by
                  rintro rfl
                  exact hleak ⟨_, _, rfl, Or.inl ⟨attrs, List.mem_cons_self⟩⟩
                simp only [Config.step, Activity.step, typeNamesStep, if_neg htag]
                rfl
            | stop tag =>
                have htag : ¬ tag = "TN" := by
                  rintro rfl
                  exact hleak ⟨_, _, rfl, Or.inr List.mem_cons_self⟩
                simp only [Config.step, Activity.step, typeNamesStep, if_neg htag]
                rfl
            | _ => rfl
        | body | members | list | entry =>
            cases hpos
            cases hreads
        | typeName | skipRef => cases hpos

/-- Events without a leak are passed over. -/
theorem reaches_passed {c : Config} {pos : Position} (es : List Event)
    (hpos : c.position = some pos) (hreads : pos.readsElements = false) (hleak : ¬ pos.Leaks es) :
    c.Reaches p es c := by
  induction es with
  | nil => exact .refl c
  | cons e es ih =>
      refine .step (step_passes hpos hreads fun ⟨item, closing, hcollects, h⟩ => hleak ?_)
        (ih fun ⟨item, closing, hcollects, h⟩ => hleak ?_)
      · refine ⟨item, closing, hcollects, ?_⟩
        rcases h with ⟨attrs, h⟩ | h
        · exact Or.inl ⟨attrs, List.mem_singleton.mp h ▸ List.mem_cons_self⟩
        · exact Or.inr (List.mem_singleton.mp h ▸ List.mem_cons_self)
      · refine ⟨item, closing, hcollects, ?_⟩
        rcases h with ⟨attrs, h⟩ | h
        · exact Or.inl ⟨attrs, List.mem_cons_of_mem e h⟩
        · exact Or.inr (List.mem_cons_of_mem e h)

/-- Whether the next event is read among children, known or skipped, and not
    in a text. -/
def Config.Between (c : Config) : Prop :=
  ∀ f rest, c.stack = f :: rest → ∀ x ∈ f.activity.scopes.head?, ∀ tag, x ≠ .text tag

theorem between_of_position {c : Config} {pos : Position} (h : c.position = some pos) :
    c.Between := by
  rcases c with ⟨stack, s, out⟩
  rintro ⟨name, a⟩ rest rfl x hx tag rfl
  cases a with
  | leaf | skip => cases h
  | object ctx mode =>
      cases mode with
      | typeName | skipRef => cases h
      | _ => cases hx

/-- An element that the decoder does not know leads back to where it began,
    unless the loop it stands in takes something of it for its own. -/
theorem reaches_unknown {c : Config} {u : List Event} (hu : UnknownElement u) (hc : c.Between)
    (hlevels : c.Leveled) (hdepth : c.state.depth < MAX_NESTING_DEPTH)
    (hleak : ∀ pos, c.position = some pos → ¬ pos.Leaks u) : c.Reaches p u c := by
  cases hpos : c.position with
  | none =>
      -- The decoder skips where the element stands.
      have hu := hu.balanced
      rcases c with ⟨stack, s, out⟩
      rcases stack with _ | ⟨⟨fname, a⟩, rest⟩
      · cases hpos
      · have htop := hc _ _ rfl
        cases a with
        | leaf tag => exact absurd rfl (htop _ rfl tag)
        | skip level v =>
            rcases Nat.exists_eq_succ_of_ne_zero (Nat.ne_of_gt (hlevels _ List.mem_cons_self)) with
              ⟨n, rfl⟩
            exact reaches_skip hu fname v rest s out n
        | object ctx mode =>
            cases mode with
            | typeName => exact absurd rfl (htop _ rfl "T")
            | skipRef rid level =>
                rcases Nat.exists_eq_succ_of_ne_zero
                  (Nat.ne_of_gt (hlevels _ List.mem_cons_self)) with ⟨n, rfl⟩
                exact reaches_skipRef hu fname ctx rid rest s out n
            | _ => cases hpos
  | some pos =>
      cases hreads : pos.readsElements with
      | false => exact reaches_passed u hpos hreads (hleak pos hpos)
      | true =>
          cases hu with
          | empty htag _ => exact .step (step_empty_unknown hpos htag) (.refl c)
          | @element tag attrs inner htag hattrs hinner =>
              have hall : ∀ name ∈ openedElements, name ∈ knownElements := by decide
              exact reaches_element hpos hreads (leafParser_unknown p htag)
                (fun hmem => htag (hall tag hmem)) hattrs hdepth hinner

end Passing

section Leaking

variable {p : Platform} {c c' : Config}

/-- A document part leads to one configuration. -/
theorem Config.Reaches.unique {d : Config} {es : List Event} (h : c.Reaches p es c')
    (h' : c.Reaches p es d) : d = c' := by
  have heq := exec_eq_ok h'
  rw [exec_eq_ok h] at heq
  exact (Except.ok.inj heq).symm

/-- A loop over a dictionary or over type names, and nothing around it but its
    object. -/
inductive Collecting : Position → Nat → Activity → Prop where
  | dict (ctx : ObjCtx) (entries : List (PsValue × PsValue)) :
    Collecting .dict entries.length (.object ctx (.dict entries))
  | typeNames (ctx : ObjCtx) (rid : Option Text) (names : List Text) :
    Collecting .typeNames names.length (.object ctx (.typeNames rid names))

/-- The tag the loop looks for. -/
theorem step_item {pos : Position} {n : Nat} {name : Text} {a : Activity} {s : DecoderState}
    {out : List PsValue} {item closing : String} {attrs : List Attr}
    (ha : Collecting pos n a) (hcollects : pos.collects = some (item, closing))
    (h : Config.step p ⟨[⟨name, a⟩], s, out⟩ (.start item attrs) = .ok c') :
    c'.gathered = some (2 * n + 1) := by
  cases ha with
  | dict | typeNames =>
      cases hcollects
      cases h
      rfl

/-- The tag that closes the loop. -/
theorem step_closing {pos : Position} {n : Nat} {name : Text} {a : Activity} {s : DecoderState}
    {out : List PsValue} {item closing : String}
    (ha : Collecting pos n a) (hcollects : pos.collects = some (item, closing))
    (h : Config.step p ⟨[⟨name, a⟩], s, out⟩ (.stop closing) = .ok c') :
    c'.scopes.length ≤ 1 := by
  cases ha with
  | dict | typeNames =>
      cases hcollects
      cases h
      exact Nat.le_refl 1

theorem Collecting.position {pos : Position} {n : Nat} {name : Text} {a : Activity}
    {s : DecoderState} {out : List PsValue} (ha : Collecting pos n a) :
    Config.position ⟨[⟨name, a⟩], s, out⟩ = some pos ∧ pos.readsElements = false
      ∧ ∃ item closing, pos.collects = some (item, closing) := by
  cases ha <;> exact ⟨rfl, rfl, _, _, rfl⟩

/-- Where a loop takes something for its own, it has gathered something at the
    end, or it is closed. -/
theorem kept_of_leak {pos : Position} {n : Nat} {name : Text} {a : Activity} {s : DecoderState}
    {out : List PsValue} {es : List Event} (hes : Balanced es) (ha : Collecting pos n a)
    (hleak : pos.Leaks es) (h : Config.Reaches p ⟨[⟨name, a⟩], s, out⟩ es c') :
    c'.Kept (2 * n + 1) := by
  have hposition := @Collecting.position pos n name a s out ha
  rcases hposition with ⟨hpos, hreads, item, closing, hcollects⟩
  -- Only the tags of the loop count.
  have htags : ∀ fs, pos.Leaks fs ↔ (∃ attrs, .start item attrs ∈ fs) ∨ .stop closing ∈ fs := by
    intro fs
    constructor
    · rintro ⟨item', closing', hcollects', h⟩
      rw [hcollects] at hcollects'
      cases hcollects'
      exact h
    · exact fun h => ⟨item, closing, hcollects, h⟩
  induction hes generalizing c' with
  | nil =>
      rcases hleak with ⟨_, _, _, ⟨_, h⟩ | h⟩
      · exact absurd h List.not_mem_nil
      · exact absurd h List.not_mem_nil
  | @flat e es he hes ih =>
      have hskip : ¬ pos.Leaks [e] := by
        rw [htags]
        rintro (⟨attrs, h⟩ | h)
        · rw [← List.mem_singleton.mp h] at he
          cases he
        · rw [← List.mem_singleton.mp h] at he
          cases he
      have hrest : pos.Leaks es := by
        rw [htags] at hleak hskip ⊢
        rcases hleak with ⟨attrs, h⟩ | h
        · rcases List.mem_cons.mp h with heq | h
          · exact absurd (Or.inl ⟨attrs, List.mem_singleton.mpr heq⟩) hskip
          · exact Or.inl ⟨attrs, h⟩
        · rcases List.mem_cons.mp h with heq | h
          · exact absurd (Or.inr (List.mem_singleton.mpr heq)) hskip
          · exact Or.inr h
      rcases Config.Reaches.split [e] h with ⟨d, hd, hreach⟩
      cases (Config.Reaches.unique (.step (step_passes hpos hreads hskip) (.refl _)) hd)
      exact ih hrest hreach
  | @element tag attrs inner es hinner hes ihinner ih =>
      cases h with
      | @step _ c1 _ _ _ hstart hreach =>
          rcases hreach.split with ⟨c2, hc2, hreach⟩
          cases hreach with
          | @step _ c3 _ _ _ hstop hrest =>
              by_cases hitem : tag = item
              · rw [hitem] at hstart
                have hkept : c1.Kept (2 * n + 1) :=
                  Or.inl ⟨_, Nat.le_refl _, step_item ha hcollects hstart⟩
                exact kept_of_balanced hes (kept_stop (kept_of_balanced hinner hkept hc2) hstop)
                  hrest
              -- The start tag is passed over alone.
              have hpass : ¬ pos.Leaks [.start tag attrs] := by
                rw [htags]
                rintro (⟨_, h⟩ | h)
                · cases List.mem_singleton.mp h
                  exact hitem rfl
                · cases List.mem_singleton.mp h
              rw [step_passes hpos hreads hpass] at hstart
              cases hstart
              by_cases hleaks : pos.Leaks inner
              · exact kept_of_balanced hes (kept_stop (ihinner hleaks hc2) hstop) hrest
              cases Config.Reaches.unique (reaches_passed inner hpos hreads hleaks) hc2
              by_cases hclosing : tag = closing
              · rw [hclosing] at hstop
                exact kept_of_balanced hes (Or.inr (step_closing ha hcollects hstop)) hrest
              -- So is the end tag.
              have hpass : ¬ pos.Leaks [.stop tag] := by
                rw [htags]
                rintro (⟨_, h⟩ | h)
                · cases List.mem_singleton.mp h
                · cases List.mem_singleton.mp h
                  exact hclosing rfl
              rw [step_passes hpos hreads hpass] at hstop
              cases hstop
              refine ih ?_ hrest
              rw [htags] at hleak hleaks ⊢
              rcases hleak with ⟨attrs', h⟩ | h
              · rcases List.mem_cons.mp h with heq | h
                · cases heq
                  exact absurd rfl hitem
                · rcases List.mem_append.mp h with h | h
                  · exact absurd (Or.inl ⟨attrs', h⟩) hleaks
                  · rcases List.mem_cons.mp h with heq | h
                    · cases heq
                    · exact Or.inl ⟨attrs', h⟩
              · rcases List.mem_cons.mp h with heq | h
                · cases heq
                · rcases List.mem_append.mp h with h | h
                  · exact absurd (Or.inr h) hleaks
                  · rcases List.mem_cons.mp h with heq | h
                    · cases heq
                      exact absurd rfl hclosing
                    · exact Or.inr h

end Leaking

end Machine

open Machine (Config Position)

/-- The second document is the first with something inserted, where the decoder
    of the first comes to a configuration. -/
structure Insertion (p : Platform) (doc doc' : Text) (u : List Event) (c : Config) : Prop where
  reads : ∃ pre post ft,
    p.read (cleanDocument doc) = { events := pre ++ post, fault := ft }
      ∧ p.read (cleanDocument doc') = { events := pre ++ (u ++ post), fault := ft }
      ∧ (startOf p doc).Reaches p pre c
  longer : Text.utf8Len (cleanDocument doc) ≤ Text.utf8Len (cleanDocument doc')

/-- Events without a reference. -/
def NoRefs (u : List Event) : Prop := ∀ e ∈ u, e.opens ≠ some "Ref"

theorem referencedIds_noRefs {u : List Event} (hu : NoRefs u) : referencedIds u = [] := by
  rw [referencedIds, List.filterMap_eq_nil_iff]
  intro e he
  have hname := hu e he
  cases e with
  | start name attrs =>
      have hne : ¬ name = "Ref" := fun h => hname (congrArg some h)
      simp only [if_neg hne]
  | empty name attrs =>
      have hne : ¬ name = "Ref" := fun h => hname (congrArg some h)
      simp only [if_neg hne]
  | _ => rfl

/-- An unknown element contributes nothing where no loop takes something of it
    for its own. -/
theorem parseClixml_insertion {p : Platform} {doc doc' : Text} {u : List Event} {c : Config}
    {vs : List PsValue} (h : Insertion p doc doc' u c) (hu : UnknownElement u) (hrefs : NoRefs u)
    (hc : c.Between) (hdepth : c.state.depth < MAX_NESTING_DEPTH)
    (hleak : ∀ pos, c.position = some pos → ¬ pos.Leaks u) (hparse : parseClixml p doc = .ok vs) :
    parseClixml p doc' = .ok vs := by
  rcases h.reads with ⟨pre, post, ft, hread, hread', hpre⟩
  rw [Machine.parseClixml_eq_decode, Machine.decode, hread] at hparse
  have hstart : startOf p doc = Config.start (initialState (pre ++ post)
      (Text.utf8Len (cleanDocument doc))) := by
    rw [startOf, hread]
  rcases Machine.run_ok hparse with ⟨cf, hexec, hfinish⟩
  rw [← hstart] at hexec
  -- The run over the first document passes through the place of the insertion.
  rcases Machine.exec_append_ok _ _ hexec with ⟨d, hd, hpost⟩
  rw [Machine.exec_eq_ok hpre] at hd
  cases hd
  have hlevels : c.Leveled := hpre.leveled fun f hf => absurd hf List.not_mem_nil
  have hlong : (startOf p doc).Reaches p (pre ++ (u ++ post)) cf :=
    hpre.trans ((Machine.reaches_unknown hu hc hlevels hdepth hleak).trans
      (Machine.reaches_of_exec _ hpost))
  -- Only the budget of the longer document is another, and it is no smaller.
  have hids : referencedIds (pre ++ (u ++ post)) = referencedIds (pre ++ post) := by
    have hnone := referencedIds_noRefs hrefs
    unfold referencedIds at hnone ⊢
    rw [List.filterMap_append, List.filterMap_append, hnone, List.nil_append,
      List.filterMap_append]
  have hstart' : startOf p doc' = (startOf p doc).withBudget
      (refBudget (Text.utf8Len (cleanDocument doc'))) := by
    rw [hstart, startOf, hread']
    simp only [Config.start, Config.withBudget, DecoderState.withBudget, initialState, hids]
  have hbudget : (startOf p doc).state.budget < maxWeight := refBudget_lt _
  have hcharged : cf.state.expanded ≤ refBudget (Text.utf8Len (cleanDocument doc')) := by
    have hspends := hlong.spends hbudget
    have hwithin := hspends.within (Nat.zero_le _)
    rw [hspends.budget] at hwithin
    exact Nat.le_trans hwithin (refBudget_mono h.longer)
  have hreach := hlong.withBudget hbudget hcharged
  rw [← hstart'] at hreach
  have hstart'' : startOf p doc' = Config.start (initialState (pre ++ (u ++ post))
      (Text.utf8Len (cleanDocument doc'))) := by
    rw [startOf, hread']
  rw [Machine.parseClixml_eq_decode, Machine.decode, hread', Machine.run_eq_exec, ← hstart'',
    Machine.exec_eq_ok hreach]
  exact hfinish

section Visible

/-- The loop of a position with items in it. -/
def collecting (pos : Position) (ns : List Xml.Node) : Xml.Node :=
  .element "Obj" [] [.element (if pos = .dict then "DCT" else "TN") [] ns]

/-- An item of the loop. -/
def itemOf (pos : Position) (k : Char) : Xml.Node :=
  if pos = .dict then .element "En" [] [.element "S" [("N", "Key".toList)] [.text [k]]]
  else .element "T" [] [.text [k]]

/-- What a document with one item is decoded to. -/
def collectedValue (pos : Position) (k : Char) : PsValue :=
  if pos = .dict then .object ⟨[(valueKey, .dict [(.string [k], .null)])], [], none⟩
  else .object ⟨[], [[k]], none⟩

theorem events_collecting (pos : Position) (hreads : pos.readsElements = false)
    (ns : List Xml.Node) :
    (collecting pos ns).events = eventsBefore pos ++ (Xml.eventsList ns ++ eventsAfter pos) := by
  cases pos with
  | dict | typeNames =>
      simp [collecting, Xml.Node.events, Xml.eventsList, Xml.readAttrs, eventsBefore, eventsAfter]
  | _ => cases hreads

theorem plain_collecting (pos : Position) (ns : List Xml.Node) (hns : Xml.plainList ns = true) :
    (collecting pos ns).plain = true := by
  have hnames : ∀ tag ∈ ["Obj", "DCT", "TN"], Xml.plainName tag = true := by decide
  have hattrs : Xml.plainAttrs [] = true := rfl
  have hname : Xml.plainName (if pos = .dict then "DCT" else "TN") = true := by
    split_ifs
    · exact hnames _ (by decide)
    · exact hnames _ (by decide)
  simp [collecting, Xml.Node.plain, Xml.plainList, hns, hname, hattrs, hnames, Xml.Node.isText]

theorem plain_itemOf (pos : Position) :
    ∀ k ∈ ['a', 'b'], (itemOf pos k).plain = true ∧ (itemOf pos k).isText = false := by
  intro k hk
  rcases List.mem_pair.mp hk with rfl | rfl
  · cases pos <;> exact ⟨rfl, rfl⟩
  · cases pos <;> exact ⟨rfl, rfl⟩

variable {p : Platform} {c c' : Config}

/-- Where a loop has been closed, elements are read. -/
theorem position_of_closed (h : c.scopes = [] ∨ c.scopes = [.loop "Obj"]) :
    ∃ pos, c.position = some pos ∧ pos.readsElements = true := by
  rcases c with ⟨stack, s, out⟩
  rcases stack with _ | ⟨⟨name, a⟩, rest⟩
  · exact ⟨.top, rfl, rfl⟩
  · simp only [Config.scopes, List.flatMap_cons] at h
    cases a with
    | leaf | skip => rcases h with h | h <;> cases h
    | object ctx mode =>
        cases mode with
        | body => exact ⟨.body, rfl, rfl⟩
        | _ =>
            -- There are two scopes at least.
            rcases h with h | h
            · cases h
            · have hlen := congrArg List.length h
              simp only [Machine.Activity.scopes, Machine.Mode.scopes, List.length_append,
                List.length_cons, List.length_nil] at hlen
              omega

/-- There an item is skipped, whatever it holds. -/
theorem reaches_item (pos : Position) (k : Char) (h : c.scopes = [] ∨ c.scopes = [.loop "Obj"])
    (hdepth : c.state.depth < MAX_NESTING_DEPTH) : c.Reaches p (itemOf pos k).events c := by
  rcases position_of_closed h with ⟨outer, hpos, hreads⟩
  have hattrs : ReadableAttrs (Xml.readAttrs []) := fun a ha => absurd ha List.not_mem_nil
  by_cases hdict : pos = .dict
  · rw [itemOf, if_pos hdict]
    exact Machine.reaches_element hpos hreads rfl (by decide) hattrs hdepth
      (Xml.eventsList_balanced _)
  · rw [itemOf, if_neg hdict]
    exact Machine.reaches_element hpos hreads rfl (by decide) hattrs hdepth
      (Xml.eventsList_balanced _)

/-- A configuration that still gathers, and in which nothing else is open. -/
theorem collecting_of_gathered {n : Nat} {closing : String} (hn : c.gathered = some n)
    (hscopes : c.scopes <:+ [.loop closing, .loop "Obj"]) :
    ∃ pos k name a item, c.stack = [⟨name, a⟩] ∧ Machine.Collecting pos k a ∧ n = 2 * k
      ∧ pos.collects = some (item, closing) := by
  rcases c with ⟨stack, s, out⟩
  have hlen := hscopes.length_le
  -- A frame that gathers has two scopes, so there is no other frame.
  have htwo : ∀ a : Machine.Activity, a.gathered = some n → 2 ≤ a.scopes.length := by
    intro a ha
    cases a with
    | leaf | skip => cases ha
    | object ctx mode =>
        cases mode with
        | dict | typeNames => exact Nat.le_refl 2
        | entry | typeName => exact Nat.le_succ 2
        | body | members | list | skipRef => cases ha
  rcases stack with _ | ⟨⟨name, a⟩, _ | ⟨g, rest⟩⟩
  · cases hn
  · have hn : a.gathered = some n := hn
    -- The frame is the only one.
    simp only [Config.scopes, List.flatMap_cons, List.flatMap_nil, List.append_nil] at hscopes hlen
    cases a with
    | leaf | skip => cases hn
    | object ctx mode =>
        cases mode with
        | dict entries =>
            cases hn
            have heq := hscopes.eq_of_length rfl
            cases heq
            exact ⟨_, _, name, _, _, rfl, .dict ctx entries, rfl, rfl⟩
        | typeNames rid names =>
            cases hn
            have heq := hscopes.eq_of_length rfl
            cases heq
            exact ⟨_, _, name, _, _, rfl, .typeNames ctx rid names, rfl, rfl⟩
        | entry | typeName => exact absurd hlen (Nat.not_succ_le_self 2)
        | body | members | list | skipRef => cases hn
  · -- A second frame makes one scope too many.
    have hlast : ∃ f ∈ g :: rest, f.activity.gathered = some n := by
      have hn : ((g :: rest).getLast?.bind fun f => f.activity.gathered) = some n := hn
      rw [List.getLast?_eq_some_getLast (List.cons_ne_nil g rest)] at hn
      exact ⟨_, List.getLast_mem (List.cons_ne_nil g rest), hn⟩
    rcases hlast with ⟨f, hf, hgathered⟩
    have h1 := htwo _ hgathered
    have h2 := a.scopes_pos
    rcases List.append_of_mem hf with ⟨before, after, hsplit⟩
    simp only [Config.scopes, hsplit, List.flatMap_cons, List.flatMap_append, List.length_append,
      List.length_cons, List.length_nil] at hlen
    omega

/-- The outermost object is closed. -/
theorem run_closeObject {name : Text} {ctx : Machine.ObjCtx} {s : DecoderState}
    {out vs : List PsValue}
    (h : Config.run p none ⟨[⟨name, .object ctx .body⟩], s, out⟩ [.stop "Obj"] = .ok vs) :
    vs = out ++ [.object (exposeValue ctx.embedded ctx.obj)] := by
  rcases Machine.run_ok h with ⟨c', hexec, hfinish⟩
  cases Machine.reaches_of_exec _ hexec with
  | step hstep hnil =>
      cases hnil
      simp only [Config.step, Machine.Activity.step, Machine.bodyStep, if_true,
        except_map_eq_ok] at hstep
      rcases hstep with ⟨⟨m, t⟩, ⟨u, _, hmove⟩, rfl⟩
      cases hmove
      cases hfinish
      rfl

/-- The document goes on with one item: a dictionary that is not empty has
    one entry more. -/
theorem run_dict {name : Text} {ctx : Machine.ObjCtx} {entries : List (PsValue × PsValue)}
    {s : DecoderState} {out vs : List PsValue} (hdepth : s.depth = 1) (k : Char)
    (hk : k ∈ ['a', 'b'])
    (h : Config.run p none ⟨[⟨name, .object ctx (.dict entries)⟩], s, out⟩
      ((itemOf .dict k).events ++ eventsAfter .dict) = .ok vs) :
    ∃ e, vs = out ++ [.object (exposeValue (some (.dict (entries ++ [e]))) ctx.obj)] := by
  rcases s with ⟨refs, referenced, expanded, budget, typeNames, depth⟩
  cases hdepth
  simp only [List.mem_cons, List.not_mem_nil, or_false] at hk
  rcases hk with rfl | rfl
  · exact ⟨(.string ['a'], .null), run_closeObject h⟩
  · exact ⟨(.string ['b'], .null), run_closeObject h⟩

/-- Type names that are not empty have one name more. -/
theorem run_typeNames {name : Text} {ctx : Machine.ObjCtx} {rid : Option Text}
    {names : List Text} {s : DecoderState} {out vs : List PsValue} (k : Char)
    (hk : k ∈ ['a', 'b'])
    (h : Config.run p none ⟨[⟨name, .object ctx (.typeNames rid names)⟩], s, out⟩
      ((itemOf .typeNames k).events ++ eventsAfter .typeNames) = .ok vs) :
    ∃ t, vs = out ++ [.object (exposeValue ctx.embedded
      { ctx.obj with typeNames := names ++ [t] })] := by
  simp only [List.mem_cons, List.not_mem_nil, or_false] at hk
  rcases hk with rfl | rfl
  · exact ⟨['a'], run_closeObject h⟩
  · exact ⟨['b'], run_closeObject h⟩

theorem run_reaches {ft : Option String} {es fs : List Event} (h : c.Reaches p es c') :
    c.run p ft (es ++ fs) = c'.run p ft fs := by
  induction h with
  | refl => rfl
  | step hstep _ ih =>
      rw [List.cons_append, Config.run, hstep]
      exact ih

/-- The values of the two documents are not alike. -/
theorem collectedValue_ne (pos : Position) : collectedValue pos 'a' ≠ collectedValue pos 'b' := by
  rw [collectedValue, collectedValue]
  by_cases hdict : pos = .dict
  · rw [if_pos hdict, if_pos hdict]
    exact fun h => by cases h
  · rw [if_neg hdict, if_neg hdict]
    exact fun h => by cases h

/-- A dictionary of one entry is not what a longer one leaves of an object, in
    two documents that differ in it. -/
theorem not_run_dict {name : Text} {ctx : Machine.ObjCtx} {entries : List (PsValue × PsValue)}
    {s : DecoderState} {out : List PsValue} (hdepth : s.depth = 1) (hne : entries ≠ [])
    (h : ∀ k ∈ ['a', 'b'], Config.run p none ⟨[⟨name, .object ctx (.dict entries)⟩], s, out⟩
      ((itemOf .dict k).events ++ eventsAfter .dict) = .ok [collectedValue .dict k]) : False := by
  have hvalue : ∀ k ∈ ['a', 'b'], ∃ e, collectedValue .dict k
      = .object (exposeValue (some (.dict (entries ++ [e]))) ctx.obj) := by
    intro k hk
    rcases run_dict hdepth k hk (h k hk) with ⟨e, he⟩
    cases out with
    | nil => exact ⟨e, (List.cons.inj he).1⟩
    | cons v vs =>
        have hlen := congrArg List.length he
        simp only [List.length_cons, List.length_append, List.length_nil] at hlen
        omega
  by_cases hempty : ctx.obj.properties = []
  · rcases hvalue 'a' (by decide) with ⟨e, he⟩
    rw [exposeValue, if_pos hempty, PsObject.with, hempty] at he
    have hprops := congrArg PsObjectOf.properties (PsValue.object.inj he)
    have hentries := PsValue.dict.inj (Prod.mk.inj (List.cons.inj hprops).1).2
    cases entries with
    | nil => exact hne rfl
    | cons e' entries =>
        have hlen := congrArg List.length hentries
        simp only [List.length_cons, List.length_append, List.length_nil] at hlen
        omega
  · rcases hvalue 'a' (by decide) with ⟨e, ha⟩
    rcases hvalue 'b' (by decide) with ⟨e', hb⟩
    rw [exposeValue, if_neg hempty] at ha hb
    exact collectedValue_ne .dict (ha.trans hb.symm)

/-- Nor are more type names than one. -/
theorem not_run_typeNames {name : Text} {ctx : Machine.ObjCtx} {rid : Option Text}
    {names : List Text} {s : DecoderState} {out : List PsValue} (hne : names ≠ [])
    (h : Config.run p none ⟨[⟨name, .object ctx (.typeNames rid names)⟩], s, out⟩
      ((itemOf .typeNames 'a').events ++ eventsAfter .typeNames)
        = .ok [collectedValue .typeNames 'a']) : False := by
  rcases run_typeNames 'a' (by decide) h with ⟨t, ht⟩
  cases out with
  | cons v vs =>
      have hlen := congrArg List.length ht
      simp only [List.length_cons, List.length_append, List.length_nil] at hlen
      omega
  | nil =>
      have hobj : (⟨[], [['a']], none⟩ : PsObject)
          = exposeValue ctx.embedded { ctx.obj with typeNames := names ++ [t] } :=
        PsValue.object.inj (List.cons.inj ht).1
      have hnames : (exposeValue ctx.embedded { ctx.obj with typeNames := names ++ [t] }).typeNames
          = names ++ [t] := by
        unfold exposeValue
        split
        · split_ifs
          · rfl
          · rfl
        · rfl
      rw [← hobj] at hnames
      cases names with
      | nil => exact hne rfl
      | cons n names =>
          have hlen := congrArg List.length hnames
          simp only [List.length_cons, List.length_append, List.length_nil] at hlen
          omega

/-- The end tag tells which loop it is. -/
theorem collects_closing {pos pos' : Position} {item item' closing : String}
    (h : pos.collects = some (item, closing)) (h' : pos'.collects = some (item', closing)) :
    pos' = pos := by
  have hne : ¬ "DCT" = "TN" := by decide
  cases pos <;> cases pos' <;> simp only [Machine.Position.collects, reduceCtorEq,
    Option.some.injEq, Prod.mk.injEq] at h h' <;> first
    | rfl
    | exact absurd (h.2.trans h'.2.symm) hne
    | exact absurd (h'.2.trans h.2.symm) hne

/-- A leak shows in one of two documents that go on with one item. -/
theorem leak_visible {pos : Position} {m : Nat} {u : List Event} {name : Text}
    {a : Machine.Activity} {s : DecoderState} {out : List PsValue} (hu : Balanced u)
    (ha : Machine.Collecting pos m a)
    (hleak : pos.Leaks u) (hdepth : s.depth = 1)
    (h : ∀ k ∈ ['a', 'b'], Config.run p none ⟨[⟨name, a⟩], s, out⟩
      (u ++ ((itemOf pos k).events ++ eventsAfter pos)) = .ok [collectedValue pos k]) : False := by
  -- Run the leaking events; the item after them is read, or skipped, from where they end.
  rcases Machine.run_ok (h 'a' (by decide)) with ⟨cf, hexec, _⟩
  rcases Machine.exec_append_ok _ _ hexec with ⟨d, hd, _⟩
  have hreach := Machine.reaches_of_exec _ hd
  have hrun : ∀ k ∈ ['a', 'b'], d.run p none ((itemOf pos k).events ++ eventsAfter pos)
      = .ok [collectedValue pos k] := by
    intro k hk
    rw [← run_reaches hreach]
    exact h k hk
  have hcounted : d.Counted := hreach.counted ⟨hdepth, (by decide : 1 ≤ 64)⟩
  have hscopes := Machine.scopes_of_balanced hu hreach
  have hposition := @Machine.Collecting.position pos m name a s out ha
  rcases hposition with ⟨_, _, item, closing, hcollects⟩
  have hinitial : Config.scopes ⟨[⟨name, a⟩], s, out⟩ = [.loop closing, .loop "Obj"] := by
    cases ha with
    | dict | typeNames =>
        cases hcollects
        rfl
  rw [hinitial] at hscopes
  rcases Machine.kept_of_leak hu ha hleak hreach with ⟨n, hn, hgathered⟩ | hclosed
  · -- Something was gathered before the item.
    rcases collecting_of_gathered hgathered hscopes with
      ⟨pos', k, name', a', item', hstack, ha', rfl, hcollects'⟩
    cases collects_closing hcollects hcollects'
    rcases d with ⟨stack, t, out'⟩
    cases hstack
    cases ha' with
    | dict ctx entries =>
        refine not_run_dict hcounted.1 (fun hnil => ?_) hrun
        rw [hnil, List.length_nil] at hn
        omega
    | typeNames ctx rid names =>
        refine not_run_typeNames (fun hnil => ?_) (hrun 'a' (by decide))
        rw [hnil, List.length_nil] at hn
        omega
  · -- The loop is closed, and the item is skipped, whatever it holds.
    have hempty : d.scopes = [] ∨ d.scopes = [.loop "Obj"] := by
      rcases List.suffix_cons_iff.mp hscopes with heq | hscopes
      · rw [heq] at hclosed
        exact absurd hclosed (by simp)
      · rcases List.suffix_cons_iff.mp hscopes with heq | hscopes
        · exact Or.inr heq
        · exact Or.inl (List.suffix_nil.mp hscopes)
    have hlow : d.state.depth < MAX_NESTING_DEPTH := by
      have hle := d.stack_le_scopes
      have hmax : MAX_NESTING_DEPTH = 64 := rfl
      have heq := hcounted.1
      omega
    have hskip : ∀ k ∈ ['a', 'b'], d.run p none (eventsAfter pos) = .ok [collectedValue pos k] := by
      intro k hk
      rw [← hrun k hk, run_reaches (reaches_item pos k hempty hlow)]
    have heq := (hskip 'a' (by decide)).symm.trans (hskip 'b' (by decide))
    exact collectedValue_ne pos (List.cons.inj (Except.ok.inj heq)).1

theorem utf8Len_collecting (pos : Position) :
    ∃ around, ∀ ns, Text.utf8Len (collecting pos ns).render
      = around + Text.utf8Len (Xml.renderList ns) := by
  refine ⟨Text.utf8Len (collecting pos []).render, fun ns => ?_⟩
  simp only [collecting, Xml.Node.render, Xml.renderList, Xml.renderAttrs, Text.utf8Len_append,
    Text.utf8Len_cons, Text.utf8Len_nil]
  omega

theorem utf8Len_itemOf (pos : Position) :
    Text.utf8Len (itemOf pos 'a').render = Text.utf8Len (itemOf pos 'b').render := by
  cases pos <;> decide

/-- A document with one item is decoded to what it collects. -/
theorem parseClixml_collecting (hp : p.Lawful) {pos : Position} (hreads : pos.readsElements = false)
    {k : Char} (hk : k ∈ ['a', 'b']) :
    parseClixml p (collecting pos [itemOf pos k]).render = .ok [collectedValue pos k] := by
  have hitem := plain_itemOf pos k hk
  have hplain := plain_collecting pos [itemOf pos k]
    (Xml.plainList_of_forall _ fun n hn => List.mem_singleton.mp hn ▸ hitem)
  rw [Machine.parseClixml_render hp _ rfl hplain]
  simp only [List.mem_cons, List.not_mem_nil, or_false] at hk
  cases pos with
  | dict | typeNames => rcases hk with rfl | rfl <;> rfl
  | _ => cases hreads

/-- The configuration in which the items are collected. -/
def collectingConfig (pos : Position) (s : DecoderState) : Config :=
  ⟨[⟨[], .object ⟨none, PsObject.new, none⟩
    (if pos = .dict then .dict [] else .typeNames none [])⟩], { s with depth := 1 }, []⟩

theorem reaches_collecting {pos : Position} (hreads : pos.readsElements = false)
    {s : DecoderState} (hdepth : s.depth = 0) :
    (Config.start s).Reaches p (eventsBefore pos) (collectingConfig pos s) := by
  rcases s with ⟨refs, referenced, expanded, budget, typeNames, depth⟩
  cases hdepth
  cases pos with
  | dict | typeNames => exact .step rfl (.step rfl (.refl _))
  | _ => cases hreads

/-- The two documents of a leak: the second has the element before the item. -/
theorem insertion_collecting (hp : p.Lawful) {pos : Position} (hreads : pos.readsElements = false)
    {n : Xml.Node} (hn : n.plain = true ∧ n.isText = false) {k : Char} (hk : k ∈ ['a', 'b']) :
    Insertion p (collecting pos [itemOf pos k]).render (collecting pos [n, itemOf pos k]).render
        n.events (collectingConfig pos (initialState (collecting pos [itemOf pos k]).events
          (Text.utf8Len (collecting pos [itemOf pos k]).render)))
      ∧ parseClixml p (collecting pos [n, itemOf pos k]).render
        = (Config.start (initialState (collecting pos [n, itemOf pos k]).events
            (Text.utf8Len (collecting pos [n, itemOf pos k]).render))).run p none
          (eventsBefore pos ++ (n.events ++ ((itemOf pos k).events ++ eventsAfter pos))) := by
  have hitem := plain_itemOf pos k hk
  have hshort := plain_collecting pos [itemOf pos k]
    (Xml.plainList_of_forall _ fun m hm => List.mem_singleton.mp hm ▸ hitem)
  have hlong : (collecting pos [n, itemOf pos k]).plain = true := by
    refine plain_collecting pos _ (Xml.plainList_of_forall _ fun m hm => ?_)
    rcases List.mem_cons.mp hm with rfl | hm
    · exact hn
    · exact List.mem_singleton.mp hm ▸ hitem
  have hevents : (collecting pos [n, itemOf pos k]).events
      = eventsBefore pos ++ (n.events ++ ((itemOf pos k).events ++ eventsAfter pos)) := by
    rw [events_collecting pos hreads]
    simp only [Xml.eventsList, List.append_nil, List.append_assoc]
  refine ⟨⟨⟨eventsBefore pos, (itemOf pos k).events ++ eventsAfter pos, none, ?_, ?_, ?_⟩, ?_⟩, ?_⟩
  · rw [Machine.cleanDocument_render _ rfl, hp.read.read_render _ rfl hshort,
      events_collecting pos hreads]
    simp only [Xml.eventsList, List.append_nil]
  · rw [Machine.cleanDocument_render _ rfl, hp.read.read_render _ rfl hlong, hevents]
  · rw [startOf, Machine.cleanDocument_render _ rfl, hp.read.read_render _ rfl hshort]
    exact reaches_collecting hreads rfl
  · rcases utf8Len_collecting pos with ⟨around, haround⟩
    rw [Machine.cleanDocument_render _ rfl, Machine.cleanDocument_render _ rfl, haround, haround]
    simp only [Xml.renderList, Text.utf8Len_append]
    omega
  · rw [Machine.parseClixml_render hp _ rfl hlong, ← hevents]

/-- A leak changes the result of some document. -/
theorem leak_changes (hp : p.Lawful) {pos : Position} {n : Xml.Node} (hplain : n.plain = true)
    (hu : UnknownElement n.events) (hrefs : NoRefs n.events) (hleak : pos.Leaks n.events)
    (h : ∀ doc doc' c vs, Insertion p doc doc' n.events c → c.position = some pos →
      c.state.depth < MAX_NESTING_DEPTH → parseClixml p doc = .ok vs →
      parseClixml p doc' = .ok vs) : False := by
  have hreads : pos.readsElements = false := by
    rcases hleak with ⟨_, _, hcollects, _⟩
    cases pos <;> first | rfl | cases hcollects
  have htext : n.isText = false := by
    cases n with
    | text t =>
        -- Character data opens nothing.
        have hflat := Xml.opens_textEventsFrom [] t
        generalize hes : (Xml.Node.text t).events = es at hu
        rw [Xml.Node.events, Xml.textEvents] at hes
        rw [hes] at hflat
        cases hu with
        | empty => exact absurd (hflat _ List.mem_cons_self) (fun h => by cases h)
        | element => exact absurd (hflat _ List.mem_cons_self) (fun h => by cases h)
    | _ => rfl
  have hposition : ∀ s, (collectingConfig pos s).position = some pos := by
    intro s
    cases pos <;> first | rfl | cases hreads
  have hrefsOf : ∀ k ∈ ['a', 'b'], referencedIds (collecting pos [n, itemOf pos k]).events = [] := by
    intro k hk
    have hnone := referencedIds_noRefs hrefs
    rw [events_collecting pos hreads]
    unfold referencedIds at hnone ⊢
    simp only [Xml.eventsList, List.append_nil, List.filterMap_append, hnone, List.nil_append]
    simp only [List.mem_cons, List.not_mem_nil, or_false] at hk
    cases pos with
    | dict | typeNames => rcases hk with rfl | rfl <;> rfl
    | _ => cases hreads
  -- The two documents begin in the same state.
  have hstate : initialState (collecting pos [n, itemOf pos 'b']).events
        (Text.utf8Len (collecting pos [n, itemOf pos 'b']).render)
      = initialState (collecting pos [n, itemOf pos 'a']).events
        (Text.utf8Len (collecting pos [n, itemOf pos 'a']).render) := by
    rcases utf8Len_collecting pos with ⟨around, haround⟩
    rw [initialState, initialState, hrefsOf _ (by decide), hrefsOf _ (by decide), haround, haround]
    simp only [Xml.renderList, Text.utf8Len_append, utf8Len_itemOf]
  have hcollecting : Machine.Collecting pos 0
      (.object ⟨none, PsObject.new, none⟩ (if pos = .dict then .dict [] else .typeNames none [])) := by
    cases pos with
    | dict => exact .dict _ []
    | typeNames => exact .typeNames _ none []
    | _ => cases hreads
  let s : DecoderState := { initialState (collecting pos [n, itemOf pos 'a']).events
    (Text.utf8Len (collecting pos [n, itemOf pos 'a']).render) with depth := 1 }
  refine @leak_visible p pos 0 n.events [] _ s [] hu.balanced hcollecting hleak rfl fun k hk => ?_
  rcases insertion_collecting hp hreads ⟨hplain, htext⟩ hk with ⟨hinsertion, hparse⟩
  have hresult := h _ _ _ _ hinsertion (hposition _) (by decide : 1 < 64)
    (parseClixml_collecting hp hreads hk)
  rw [hparse, run_reaches (reaches_collecting hreads rfl)] at hresult
  simp only [List.mem_cons, List.not_mem_nil, or_false] at hk
  rcases hk with rfl | rfl
  · exact hresult
  · rw [hstate] at hresult
    exact hresult

end Visible

/-- An unknown element, with all that is in it, contributes nothing exactly
    where no loop takes something of it for its own. -/
theorem unknown_element_iff (p : Platform) (hp : p.Lawful) :
    (∀ doc doc' u c vs, Insertion p doc doc' u c → UnknownElement u → NoRefs u → c.Between →
        c.state.depth < MAX_NESTING_DEPTH → (∀ pos, c.position = some pos → ¬ pos.Leaks u) →
        parseClixml p doc = .ok vs → parseClixml p doc' = .ok vs)
      ∧ ∀ (pos : Position) (n : Xml.Node), n.plain = true → UnknownElement n.events →
        NoRefs n.events →
        ((∀ doc doc' c vs, Insertion p doc doc' n.events c → c.position = some pos →
            c.state.depth < MAX_NESTING_DEPTH → parseClixml p doc = .ok vs →
            parseClixml p doc' = .ok vs)
          ↔ ¬ pos.Leaks n.events) := by
  refine ⟨fun doc doc' u c vs h hu hrefs hc hdepth hleak hparse =>
    parseClixml_insertion h hu hrefs hc hdepth hleak hparse, fun pos n hplain hu hrefs => ?_⟩
  constructor
  · exact fun hall hleak => leak_changes hp hplain hu hrefs hleak hall
  · intro hleak doc doc' c vs h hpos hdepth hparse
    refine parseClixml_insertion h hu hrefs (Machine.between_of_position hpos) hdepth
      (fun pos' hpos' => ?_) hparse
    rw [hpos] at hpos'
    cases hpos'
    exact hleak

/-- An unknown element with text in it. -/
def remark : Xml.Node := .element "X" [] [.element "Y" [] [.text ['z']]]

/-- An unknown element with an entry in it. -/
def disguise : Xml.Node := .element "X" [] [itemOf .dict 'a']

/-- The one stands before an entry of a dictionary and changes nothing. The
    other changes some document. -/
theorem unknown_element_iff_basic :
    (collecting .dict [remark, itemOf .dict 'a']).render
        = "<Obj><DCT><X><Y>z</Y></X><En><S N=\"Key\">a</S></En></DCT></Obj>".toList
      ∧ parseClixml Platform.basic (collecting .dict [remark, itemOf .dict 'a']).render
        = .ok [.object ⟨[(valueKey, .dict [(.string ['a'], .null)])], [], none⟩]
      ∧ ¬ ∀ doc doc' c vs, Insertion Platform.basic doc doc' disguise.events c →
        c.position = some .dict → c.state.depth < MAX_NESTING_DEPTH →
        parseClixml Platform.basic doc = .ok vs → parseClixml Platform.basic doc' = .ok vs := by
  have hiff := unknown_element_iff Platform.basic Platform.basic_lawful
  have hunknown : ∀ n : Xml.Node, UnknownElement (Xml.Node.element "X" [] [n]).events := fun n =>
    .element (by decide) (fun _ h => absurd h List.not_mem_nil) (Xml.eventsList_balanced [n])
  have hrefs : NoRefs remark.events ∧ NoRefs disguise.events := by
    constructor
    all_goals
      unfold NoRefs
      decide
  have hk : 'a' ∈ ['a', 'b'] := List.mem_cons_self
  refine ⟨by decide, ?_, fun hall => ?_⟩
  · have hinserted := @insertion_collecting _ Platform.basic_lawful .dict rfl remark ⟨rfl, rfl⟩
      'a' hk
    refine hiff.1 _ _ _ _ _ hinserted.1 (hunknown _) hrefs.1 ?_ (by decide) ?_
      (parseClixml_collecting Platform.basic_lawful rfl hk)
    · exact Machine.between_of_position rfl
    · rintro pos hpos ⟨item, closing, hcollects, htaken⟩
      cases hpos
      cases hcollects
      have hevents : remark.events
          = [.start "X" [], .start "Y" [], .text ['z'], .stop "Y", .stop "X"] := rfl
      rw [hevents] at htaken
      rcases htaken with ⟨attrs, hitem⟩ | hclosing
      · simp at hitem
      · simp at hclosing
  · refine (hiff.2 .dict disguise rfl (hunknown _) hrefs.2).mp hall ?_
    exact ⟨"En", "DCT", rfl, Or.inl ⟨[], List.mem_cons_of_mem _ List.mem_cons_self⟩⟩

/-- An entry inside an unknown element in a dictionary becomes an entry of the
    dictionary. -/
theorem unknown_element_leaks :
    (collecting .dict [.element "X" [] [itemOf .dict 'a']]).render
        = "<Obj><DCT><X><En><S N=\"Key\">a</S></En></X></DCT></Obj>".toList
      ∧ parseClixml Platform.basic (collecting .dict []).render
        = .ok [.object ⟨[(valueKey, .dict [])], [], none⟩]
      ∧ parseClixml Platform.basic (collecting .dict [.element "X" [] [itemOf .dict 'a']]).render
        = .ok [.object ⟨[(valueKey, .dict [(.string ['a'], .null)])], [], none⟩]
      ∧ parseClixml Platform.basic (collecting .dict [.element "X" [] [itemOf .dict 'a']]).render
        ≠ parseClixml Platform.basic (collecting .dict []).render := by
  have hp := Platform.basic_lawful
  have hwithout : parseClixml Platform.basic (collecting .dict []).render
      = .ok [.object ⟨[(valueKey, .dict [])], [], none⟩] := by
    rw [Machine.parseClixml_render hp _ rfl (by decide)]
    rfl
  have hwith : parseClixml Platform.basic
        (collecting .dict [.element "X" [] [itemOf .dict 'a']]).render
      = .ok [.object ⟨[(valueKey, .dict [(.string ['a'], .null)])], [], none⟩] := by
    rw [Machine.parseClixml_render hp _ rfl (by decide)]
    rfl
  refine ⟨by decide, hwithout, hwith, ?_⟩
  rw [hwithout, hwith]
  exact fun h => by cases h

end Psrp

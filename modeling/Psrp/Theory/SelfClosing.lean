import Psrp.Theory.Budget
import Psrp.Theory.Decoded
import Psrp.Theory.RoundTrip

/-!
# Self-Closed Elements

When the two spellings of an empty element are decoded alike.

An element without content may be written `<X></X>` or `<X/>`. The decoder
reads the two through different tables: the first is an element that is opened
and closed, the second is looked up on its own. A position is a loop of the
decoder that reads elements, and `readAt` lists the elements that it reads
there. Where the second table has the element (`supported`), one step over the
self-closed tag does what two steps over the pair of tags do
(`step_selfClosed`), and the rest of the document is decoded from the same
configuration.

The document with the self-closed tag is shorter, and its budget for references
is smaller. So the results agree if the references of the longer one stay
within the budget of the shorter one; decoding depends on the budget in no
other way (`Config.step_withBudget`).

Where the table does not have the element, the two spellings are told apart by
a small document (`selfClosing_fails`).

## Main definitions

* `Position`, `readAt`, `supported`: Where elements are read.
* `SelfCloses`: Two documents that differ in the spelling of one element.

## Theorems

* `step_selfClosed`: One step for two.
* `parseClixml_selfCloses`: The result is the same where the spelling is
  supported.
* `self_closing_iff`: Exactly there.
-/

namespace Psrp

open Xml (Attr Event)

/-- A state with another budget. -/
def DecoderState.withBudget (s : DecoderState) (b : Nat) : DecoderState := { s with budget := b }

theorem charge_withBudget {s s' : DecoderState} {w b : Nat} (h : s.charge w = .ok s')
    (hb : s'.expanded ≤ b) : (s.withBudget b).charge w = .ok (s'.withBudget b) := by
  simp only [DecoderState.charge] at h ⊢
  split_ifs at h
  cases h
  exact if_neg (Nat.not_lt.mpr hb)

theorem resolveRef_withBudget {attrs : List Attr} {level b : Nat} {s s' : DecoderState}
    {v : PsValue} (h : resolveRef attrs level s = .ok (v, s')) (hb : s'.expanded ≤ b) :
    resolveRef attrs level (s.withBudget b) = .ok (v, s'.withBudget b) := by
  simp only [resolveRef, bind, Except.bind, pure, Except.pure] at h ⊢
  cases hid : refRefIdAttr attrs with
  | error e =>
      rw [hid] at h
      cases h
  | ok rid =>
      simp only [hid] at h ⊢
      cases hget : rid.bind fun r => IndexMap.get r s.refs with
      | none =>
          rw [hget] at h
          cases h
          rw [show (s.withBudget b).refs = s.refs from rfl, hget]
      | some target =>
          rw [show (s.withBudget b).refs = s.refs from rfl, hget]
          simp only [hget] at h ⊢
          rw [show (s.withBudget b).depth = s.depth from rfl]
          split_ifs at h ⊢
          cases hcharge : s.charge (measure target).1 with
          | error e =>
              rw [hcharge] at h
              cases h
          | ok t =>
              rw [hcharge] at h
              cases h
              rw [charge_withBudget hcharge hb]

/-- A level of nesting that is counted, and one that is planted. -/
theorem resolveRef_level {attrs : List Attr} {s s' : DecoderState} {v : PsValue}
    (h : resolveRef attrs 0 { s with depth := s.depth + 1 } = .ok (v, s')) :
    resolveRef attrs 1 s = .ok (v, { s' with depth := s'.depth - 1 }) := by
  simp only [resolveRef, bind, Except.bind, pure, Except.pure] at h ⊢
  cases hid : refRefIdAttr attrs with
  | error e =>
      rw [hid] at h
      cases h
  | ok rid =>
      simp only [hid] at h ⊢
      cases hget : rid.bind fun r => IndexMap.get r s.refs with
      | none =>
          rw [hget] at h
          cases h
          rfl
      | some target =>
          simp only [hget] at h ⊢
          have hlevel : satAdd32 (s.depth + 1) 0 = satAdd32 s.depth 1 := rfl
          rw [hlevel] at h
          split_ifs at h ⊢
          simp only [DecoderState.charge] at h ⊢
          split_ifs at h ⊢
          cases h
          rfl

theorem parseEmpty_withBudget {tag : String} {attrs : List Attr} {b : Nat} {s s' : DecoderState}
    {v : Option PsValue} (h : parseEmpty tag attrs s = .ok (v, s')) (hb : s'.expanded ≤ b) :
    parseEmpty tag attrs (s.withBudget b) = .ok (v, s'.withBudget b) := by
  rw [parseEmpty] at h ⊢
  split_ifs at h ⊢
  · cases h
    rfl
  · rw [except_map_eq_ok] at h ⊢
    rcases h with ⟨⟨w, t⟩, hres, h⟩
    cases h
    exact ⟨_, resolveRef_withBudget hres hb, rfl⟩
  · cases h
    rfl
  · cases h
    rfl
  · cases h
    rfl

theorem keepReferenced_withBudget {refId : Option Text} {v : PsValue} {b : Nat}
    {s s' : DecoderState} (h : keepReferenced refId v s = .ok s') (hb : s'.expanded ≤ b) :
    keepReferenced refId v (s.withBudget b) = .ok (s'.withBudget b) := by
  simp only [keepReferenced] at h ⊢
  rw [show (s.withBudget b).referenced = s.referenced from rfl]
  split at h
  · cases h
    rfl
  · rw [except_map_eq_ok] at h ⊢
    rcases h with ⟨t, hcharge, rfl⟩
    exact ⟨_, charge_withBudget hcharge hb, rfl⟩

namespace Machine

section WithBudget

variable {p : Platform} {b : Nat} {s s' : DecoderState} {m : Move}

theorem openElement_withBudget {name : Text} {tag : String} {attrs : List Attr} {f : Frame}
    (h : openElement p name tag attrs s = .ok (f, s')) (hb : s'.expanded ≤ b) :
    openElement p name tag attrs (s.withBudget b) = .ok (f, s'.withBudget b) := by
  rw [openElement] at h ⊢
  rw [show (s.withBudget b).depth = s.depth from rfl]
  by_cases hdepth : MAX_NESTING_DEPTH ≤ s.depth
  · rw [if_pos hdepth] at h
    cases h
  simp only [if_neg hdepth] at h ⊢
  cases hleaf : leafParser p tag with
  | some parse =>
      rw [hleaf] at h
      cases h
      rfl
  | none =>
      simp only [hleaf] at h ⊢
      split_ifs at h with hobj href
      · rw [if_pos hobj]
        rw [except_map_eq_ok] at h ⊢
        rcases h with ⟨refId, hid, h⟩
        cases h
        exact ⟨_, hid, rfl⟩
      · rw [if_neg hobj, if_pos href]
        rw [except_map_eq_ok] at h ⊢
        rcases h with ⟨⟨v, t⟩, hres, h⟩
        cases h
        exact ⟨_, resolveRef_withBudget (s := { s with depth := s.depth + 1 }) hres hb, rfl⟩
      · rw [if_neg hobj, if_neg href]
        cases h
        rfl

theorem pushElement_withBudget {name : Text} {tag : String} {attrs : List Attr}
    (h : pushElement p name tag attrs s = .ok (m, s')) (hb : s'.expanded ≤ b) :
    pushElement p name tag attrs (s.withBudget b) = .ok (m, s'.withBudget b) := by
  rw [pushElement, except_map_eq_ok] at h ⊢
  rcases h with ⟨⟨f, t⟩, hopen, h⟩
  cases h
  exact ⟨_, openElement_withBudget hopen hb, rfl⟩

theorem pushNamed_withBudget {tag : String} {attrs : List Attr}
    (h : pushNamed p tag attrs s = .ok (m, s')) (hb : s'.expanded ≤ b) :
    pushNamed p tag attrs (s.withBudget b) = .ok (m, s'.withBudget b) := by
  rw [pushNamed] at h ⊢
  cases hname : nameAttr attrs with
  | error x =>
      rw [hname] at h
      cases h
  | ok name =>
      rw [hname] at h
      exact pushElement_withBudget h hb

theorem receiveEmpty_withBudget {named : Bool} {a : Activity} {tag : String} {attrs : List Attr}
    (h : receiveEmpty named a tag attrs s = .ok (m, s')) (hb : s'.expanded ≤ b) :
    receiveEmpty named a tag attrs (s.withBudget b) = .ok (m, s'.withBudget b) := by
  rw [receiveEmpty] at h
  cases hempty : parseEmpty tag attrs s with
  | error x =>
      rw [hempty] at h
      cases h
  | ok r =>
      rcases r with ⟨v, t⟩
      rw [hempty] at h
      cases v with
      | none =>
          cases h
          rw [receiveEmpty, parseEmpty_withBudget hempty hb]
      | some v =>
          simp only [] at h
          split_ifs at h with hnamed
          · rw [except_map_eq_ok] at h
            rcases h with ⟨name, hname, h⟩
            cases h
            rw [receiveEmpty, parseEmpty_withBudget hempty hb]
            simp only [hnamed, if_true, hname]
            rfl
          · cases h
            rw [receiveEmpty, parseEmpty_withBudget hempty hb]
            simp only [hnamed]
            rfl

theorem bodyStep_withBudget {ctx : ObjCtx} {e : Event} (h : bodyStep p ctx s e = .ok (m, s'))
    (hb : s'.expanded ≤ b) : bodyStep p ctx (s.withBudget b) e = .ok (m, s'.withBudget b) := by
  -- Only an object that is kept looks at the budget, and what was spent still fits.
  cases e with
  | start tag attrs =>
      simp only [bodyStep] at h ⊢
      split_ifs at h ⊢
      · cases h
        rfl
      · rw [except_map_eq_ok] at h ⊢
        rcases h with ⟨rid, hrid, h⟩
        cases h
        exact ⟨_, hrid, rfl⟩
      · rw [except_map_eq_ok] at h ⊢
        rcases h with ⟨rid, hrid, h⟩
        cases h
        exact ⟨_, hrid, rfl⟩
      · cases h
        rfl
      · cases h
        rfl
      · exact pushElement_withBudget h hb
  | empty tag attrs =>
      simp only [bodyStep] at h ⊢
      split_ifs at h ⊢
      · rw [except_map_eq_ok] at h ⊢
        rcases h with ⟨rid, hrid, h⟩
        cases h
        exact ⟨_, hrid, rfl⟩
      · cases h
        rfl
  | stop tag =>
      simp only [bodyStep] at h ⊢
      split_ifs at h ⊢
      · rw [except_map_eq_ok] at h ⊢
        rcases h with ⟨t, hkeep, h⟩
        cases h
        exact ⟨_, keepReferenced_withBudget hkeep hb, rfl⟩
      · cases h
        rfl
  | _ =>
      cases h
      rfl

/-- A frame's step depends on the budget in nothing but whether it fails. -/
theorem Activity.step_withBudget {a : Activity} {e : Event} (h : a.step p s e = .ok (m, s'))
    (hb : s'.expanded ≤ b) : a.step p (s.withBudget b) e = .ok (m, s'.withBudget b) := by
  -- The budget is looked at where an element is opened or completed, nowhere else.
  cases a with
  | leaf tag parse text =>
      cases e with
      | stop t =>
          simp only [Activity.step, leafStep] at h ⊢
          split_ifs at h ⊢
          · rw [except_map_eq_ok] at h ⊢
            rcases h with ⟨v, hv, h⟩
            cases h
            exact ⟨v, hv, rfl⟩
          · cases h
            rfl
      | start | empty | text | cdata | generalRef | other =>
          simp only [Activity.step, leafStep, except_map_eq_ok] at h ⊢
          rcases h with ⟨t, ht, h⟩
          cases h
          exact ⟨t, ht, rfl⟩
  | skip level value =>
      cases e <;>
        · cases h
          rfl
  | object ctx mode =>
      cases mode with
      | body => exact bodyStep_withBudget h hb
      | members closing =>
          cases e with
          | start tag attrs => exact pushNamed_withBudget h hb
          | empty tag attrs =>
              simp only [Activity.step, membersStep] at h ⊢
              split_ifs at h ⊢
              · rw [except_map_eq_ok] at h ⊢
                rcases h with ⟨name, hname, h⟩
                cases h
                exact ⟨name, hname, rfl⟩
              · exact receiveEmpty_withBudget h hb
          | _ =>
              cases h
              rfl
      | list closing items =>
          cases e with
          | start tag attrs => exact pushElement_withBudget h hb
          | empty tag attrs => exact receiveEmpty_withBudget h hb
          | stop tag =>
              simp only [Activity.step, listStep] at h ⊢
              split_ifs at h ⊢ <;>
                · cases h
                  rfl
          | _ =>
              cases h
              rfl
      | dict entries =>
          cases e with
          | stop tag =>
              simp only [Activity.step, dictStep] at h ⊢
              split_ifs at h ⊢ <;>
                · cases h
                  rfl
          | _ =>
              cases h
              rfl
      | entry entries entry =>
          cases e with
          | start tag attrs => exact pushNamed_withBudget h hb
          | empty tag attrs => exact receiveEmpty_withBudget h hb
          | _ =>
              cases h
              rfl
      | typeNames rid names =>
          cases e with
          | stop tag =>
              simp only [Activity.step, typeNamesStep] at h ⊢
              split_ifs at h ⊢
              · cases h
                cases rid <;> rfl
              · cases h
                rfl
          | _ =>
              cases h
              rfl
      | typeName rid names text =>
          cases e with
          | stop t =>
              cases h
              rfl
          | start | empty | text | cdata | generalRef | other =>
              simp only [Activity.step, typeNameStep, except_map_eq_ok] at h ⊢
              rcases h with ⟨t, ht, h⟩
              cases h
              exact ⟨t, ht, rfl⟩
      | skipRef rid level =>
          cases e with
          | stop t =>
              simp only [Activity.step, skipRefStep] at h ⊢
              split_ifs at h ⊢ <;>
                · cases h
                  rfl
          | _ =>
              cases h
              rfl

/-- A configuration with another budget. -/
def Config.withBudget (c : Config) (b : Nat) : Config :=
  { c with state := c.state.withBudget b }

/-- A step depends on the budget in nothing but whether it fails. -/
theorem Config.step_withBudget {c c' : Config} {e : Event} (h : c.step p e = .ok c')
    (hb : c'.state.expanded ≤ b) : (c.withBudget b).step p e = .ok (c'.withBudget b) := by
  rcases c with ⟨stack, s, out⟩
  cases stack with
  | nil =>
      cases e with
      | start tag attrs =>
          simp only [Config.step, Config.withBudget, except_map_eq_ok] at h ⊢
          rcases h with ⟨⟨f, t⟩, hopen, rfl⟩
          exact ⟨_, openElement_withBudget hopen hb, rfl⟩
      | empty tag attrs =>
          simp only [Config.step, Config.withBudget, except_map_eq_ok] at h ⊢
          rcases h with ⟨⟨v, t⟩, hempty, rfl⟩
          exact ⟨_, parseEmpty_withBudget hempty hb, rfl⟩
      | _ =>
          cases h
          rfl
  | cons f rest =>
      simp only [Config.step, Config.withBudget, except_map_eq_ok] at h ⊢
      rcases h with ⟨⟨m, t⟩, hstep, rfl⟩
      have hexpanded : t.expanded ≤ b := by
        cases m with
        | pop v =>
            rw [Config.move, deliver_state] at hb
            exact hb
        | _ => exact hb
      refine ⟨_, Activity.step_withBudget hstep hexpanded, ?_⟩
      cases m with
      | pop v => cases rest <;> rfl
      | _ => rfl

/-- What was charged stays charged. -/
theorem Config.Reaches.expanded_le {c c' : Config} {es : List Event} (h : c.Reaches p es c')
    (hbudget : c.state.budget < maxWeight) : c.state.expanded ≤ c'.state.expanded := by
  induction h with
  | refl => exact Nat.le_refl _
  | step hstep _ ih =>
      have hspends := Config.step_spends hbudget hstep
      exact Nat.le_trans hspends.mono (ih (hspends.budget ▸ hbudget))

/-- A run depends on the budget in nothing but whether it fails. -/
theorem Config.Reaches.withBudget {c c' : Config} {es : List Event} (h : c.Reaches p es c')
    (hbudget : c.state.budget < maxWeight) (hb : c'.state.expanded ≤ b) :
    (c.withBudget b).Reaches p es (c'.withBudget b) := by
  induction h with
  | refl => exact .refl _
  | step hstep hrest ih =>
      have hspends := Config.step_spends hbudget hstep
      have hbudget' := hspends.budget ▸ hbudget
      exact .step (Config.step_withBudget hstep
        (Nat.le_trans (hrest.expanded_le hbudget') hb)) (ih hbudget' hb)

end WithBudget

/-- The loops of the decoder in which elements are read. -/
inductive Position where
  | top
  | members
  | list
  | entry
  | body
  | dict
  | typeNames
  deriving DecidableEq

/-- The loop that reads the next event. -/
def Config.position (c : Config) : Option Position :=
  match c.stack with
  | [] => some .top
  | f :: _ => match f.activity with
    | .object _ .body => some .body
    | .object _ (.members _) => some .members
    | .object _ (.list _ _) => some .list
    | .object _ (.dict _) => some .dict
    | .object _ (.entry _ _) => some .entry
    | .object _ (.typeNames _ _) => some .typeNames
    | _ => none

/-- The elements without content that are values. -/
def Position.emptyValues : List String :=
  ["S", "SBK", "SCT", "DT", "TS", "Version", "URI", "XD", "SS", "BA", "D", "Obj", "Ref"]

/-- The elements that may be empty and are read in a loop. -/
def Position.readAt : Position → List String
  | .top | .members | .list | .entry => emptyValues
  | .body => emptyValues ++ ["MS", "Props", "TN", "TNRef", "LST", "IE", "QUE", "STK", "DCT"]
  | .dict => ["En"]
  | .typeNames => ["T"]

/-- The elements that are read in a loop alike when they are self-closed. -/
def Position.supported : Position → List String
  | .top | .members | .list | .entry => ["S", "SBK", "SCT", "Ref"]
  | .body => ["MS", "Props", "TNRef"]
  | .dict | .typeNames => []

section Step

variable {p : Platform} {tag : String} {attrs : List Attr}

/-- A value that is opened and closed is what the self-closed tag is. -/
theorem openElement_closed {name : Text} {s s' : DecoderState} {f : Frame}
    (htag : tag ∈ ["S", "SBK", "SCT", "Ref"])
    (h : openElement p name tag attrs s = .ok (f, s')) :
    ∃ v, f.name = name ∧ f.activity.step p s' (.stop tag) = .ok (.pop (some v), s')
      ∧ parseEmpty tag attrs s = .ok (some v, { s' with depth := s'.depth - 1 }) := by
  have hname := openElement_name p name tag attrs s s' f h
  rw [openElement] at h
  by_cases hdepth : MAX_NESTING_DEPTH ≤ s.depth
  · rw [if_pos hdepth] at h
    cases h
  rw [if_neg hdepth] at h
  simp only [List.mem_cons, List.not_mem_nil, or_false] at htag
  rcases htag with rfl | rfl | rfl | rfl
  · cases h
    exact ⟨.string [], rfl, rfl, rfl⟩
  · cases h
    exact ⟨.scriptBlock [], rfl, rfl, rfl⟩
  · cases h
    exact ⟨.scriptBlock [], rfl, rfl, rfl⟩
  · have hleaf : leafParser p "Ref" = none := rfl
    have hobj : ¬ "Ref" = "Obj" := by decide
    simp only [hleaf, if_neg hobj, if_true, except_map_eq_ok] at h
    rcases h with ⟨⟨v, t⟩, hres, h⟩
    cases h
    refine ⟨v, hname, rfl, ?_⟩
    have hempty : parseEmpty "Ref" attrs s = (resolveRef attrs 1 s).map fun r => (some r.1, r.2) :=
      rfl
    rw [hempty, except_map_eq_ok]
    exact ⟨_, resolveRef_level hres, rfl⟩

/-- An element pushed under a name, and popped again. -/
theorem step_pushed {c c1 c2 : Config} {name : Text} (htag : tag ∈ ["S", "SBK", "SCT", "Ref"])
    (hpush : ∃ f s', openElement p name tag attrs c.state = .ok (f, s')
      ∧ c1 = { c with stack := f :: c.stack, state := s' })
    (h2 : c1.step p (.stop tag) = .ok c2) :
    ∃ v s', parseEmpty tag attrs c.state = .ok (some v, s')
      ∧ c2 = deliver name (some v) { c with state := s' } := by
  rcases hpush with ⟨f, s', hopen, rfl⟩
  rcases openElement_closed htag hopen with ⟨v, hname, hstop, hempty⟩
  refine ⟨v, _, hempty, ?_⟩
  simp only [Config.step, hstop, Except.map, Config.move, hname, Except.ok.injEq] at h2
  exact h2.symm

theorem pushElement_pushed {c c1 : Config} {name fname : Text} {a : Activity} {rest : List Frame}
    (hstack : c.stack = ⟨fname, a⟩ :: rest)
    (h : (pushElement p name tag attrs c.state).map
      (fun r => Config.move fname rest a c.out r.2 r.1) = .ok c1) :
    ∃ f s', openElement p name tag attrs c.state = .ok (f, s')
      ∧ c1 = { c with stack := f :: c.stack, state := s' } := by
  rw [except_map_eq_ok] at h
  rcases h with ⟨⟨m, s'⟩, hpush, rfl⟩
  rw [pushElement, except_map_eq_ok] at hpush
  rcases hpush with ⟨⟨f, t⟩, hopen, hpush⟩
  cases hpush
  refine ⟨f, s', hopen, ?_⟩
  rw [hstack]
  rfl

/-- An element pushed under the name in its tag. -/
theorem pushNamed_pushed {c c1 : Config} {fname : Text} {a : Activity} {rest : List Frame}
    (hstack : c.stack = ⟨fname, a⟩ :: rest)
    (h : (pushNamed p tag attrs c.state).map
      (fun r => Config.move fname rest a c.out r.2 r.1) = .ok c1) :
    ∃ name, nameAttr attrs = .ok name ∧ ∃ f s',
      openElement p (name.getD []) tag attrs c.state = .ok (f, s')
        ∧ c1 = { c with stack := f :: c.stack, state := s' } := by
  rw [pushNamed] at h
  cases hname : nameAttr attrs with
  | error x =>
      rw [hname] at h
      cases h
  | ok name =>
      rw [hname] at h
      exact ⟨name, rfl, pushElement_pushed hstack h⟩

/-- The parts of a member set, of a reference to type names. -/
theorem step_selfClosed_body {c1 c2 : Config} {fname : Text} {ctx : ObjCtx} {rest : List Frame}
    {s : DecoderState} {out : List PsValue} (htag : tag ∈ ["MS", "Props", "TNRef"])
    (h1 : Config.step p ⟨⟨fname, .object ctx .body⟩ :: rest, s, out⟩ (.start tag attrs) = .ok c1)
    (h2 : c1.step p (.stop tag) = .ok c2) :
    Config.step p ⟨⟨fname, .object ctx .body⟩ :: rest, s, out⟩ (.empty tag attrs) = .ok c2 := by
  simp only [List.mem_cons, List.not_mem_nil, or_false] at htag
  rcases htag with rfl | rfl | rfl
  · cases h1
    cases h2
    rfl
  · cases h1
    cases h2
    rfl
  · have hstart : Config.step p ⟨⟨fname, .object ctx .body⟩ :: rest, s, out⟩ (.start "TNRef" attrs)
        = ((refRefIdAttr attrs).map fun rid => (Move.goto (.object ctx (.skipRef rid 1)), s)).map
            fun r => Config.move fname rest (.object ctx .body) out r.2 r.1 := rfl
    have hempty : Config.step p ⟨⟨fname, .object ctx .body⟩ :: rest, s, out⟩ (.empty "TNRef" attrs)
        = ((refRefIdAttr attrs).map fun rid => (Move.goto (.object { ctx with
            obj := sharedTypeNames rid s ctx.obj } .body), s)).map
              fun r => Config.move fname rest (.object ctx .body) out r.2 r.1 := rfl
    rw [hstart] at h1
    rw [hempty]
    cases hrid : refRefIdAttr attrs with
    | error x =>
        rw [hrid] at h1
        cases h1
    | ok rid =>
        rw [hrid] at h1
        cases h1
        cases h2
        rfl

/-- One step over a self-closed tag does what two steps over a pair of tags
    do. -/
theorem step_selfClosed {pos : Position} {c c1 c2 : Config} (hpos : c.position = some pos)
    (htag : tag ∈ pos.supported) (h1 : c.step p (.start tag attrs) = .ok c1)
    (h2 : c1.step p (.stop tag) = .ok c2) : c.step p (.empty tag attrs) = .ok c2 := by
  rcases c with ⟨stack, s, out⟩
  rcases stack with _ | ⟨⟨fname, a⟩, rest⟩
  · cases hpos
    -- Where elements are read, opening and closing comes to what the short form gives.
    have hpushed : ∃ f s', openElement p [] tag attrs s = .ok (f, s')
        ∧ c1 = ⟨f :: [], s', out⟩ := by
      simp only [Config.step, except_map_eq_ok] at h1
      rcases h1 with ⟨⟨f, s'⟩, hopen, rfl⟩
      exact ⟨f, s', hopen, rfl⟩
    rcases step_pushed (c := ⟨[], s, out⟩) htag hpushed h2 with ⟨v, s', hempty, rfl⟩
    simp only [Config.step, hempty]
    rfl
  · cases a with
    | leaf | skip => cases hpos
    | object ctx mode =>
        -- The same in each container, which takes the value under the name it read.
        cases mode with
        | body =>
            cases hpos
            exact step_selfClosed_body htag h1 h2
        | members closing =>
            cases hpos
            rcases pushNamed_pushed (c := ⟨_ :: rest, s, out⟩) rfl h1 with ⟨name, hname, hpushed⟩
            rcases step_pushed htag hpushed h2 with ⟨v, s', hempty, rfl⟩
            have hnil : ¬ tag = "Nil" := by
              rintro rfl
              exact absurd htag (by decide)
            simp only [Config.step, Activity.step, membersStep, if_neg hnil, receiveEmpty, hempty,
              hname, if_true]
            rfl
        | list closing items =>
            cases hpos
            rcases step_pushed htag (pushElement_pushed (c := ⟨_ :: rest, s, out⟩) rfl h1) h2 with
              ⟨v, s', hempty, rfl⟩
            simp only [Config.step, Activity.step, listStep, receiveEmpty, hempty]
            rfl
        | entry entries current =>
            cases hpos
            rcases pushNamed_pushed (c := ⟨_ :: rest, s, out⟩) rfl h1 with ⟨name, hname, hpushed⟩
            rcases step_pushed htag hpushed h2 with ⟨v, s', hempty, rfl⟩
            simp only [Config.step, Activity.step, entryStep, receiveEmpty, hempty, hname, if_true]
            rfl
        | dict entries =>
            cases hpos
            -- The two loops that read no elements support none.
            exact absurd htag List.not_mem_nil
        | typeNames rid names =>
            cases hpos
            exact absurd htag List.not_mem_nil
        | typeName | skipRef => cases hpos

end Step

/-- A run that does not fail, as one that reaches its end. -/
theorem reaches_of_exec {p : Platform} (es : List Event) :
    ∀ {c c' : Config}, c.exec p es = .ok c' → c.Reaches p es c' := by
  induction es with
  | nil =>
      intro c c' h
      cases h
      exact .refl _
  | cons e es ih =>
      intro c c' h
      rw [Config.exec] at h
      cases hstep : c.step p e with
      | error x =>
          rw [hstep] at h
          cases h
      | ok d =>
          rw [hstep] at h
          exact .step hstep (ih h)

/-- A run over two parts of a document passes through the end of the first. -/
theorem exec_append_ok {p : Platform} {c c' : Config} (es fs : List Event)
    (h : c.exec p (es ++ fs) = .ok c') : ∃ d, c.exec p es = .ok d ∧ d.exec p fs = .ok c' := by
  rw [exec_append] at h
  cases hd : c.exec p es with
  | error x =>
      rw [hd] at h
      cases h
  | ok d =>
      rw [hd] at h
      exact ⟨d, rfl, h⟩

theorem run_ok {p : Platform} {ft : Option String} {c : Config} {es : List Event}
    {vs : List PsValue} (h : c.run p ft es = .ok vs) :
    ∃ c', c.exec p es = .ok c' ∧ c'.run p ft [] = .ok vs := by
  rw [run_eq_exec] at h
  cases hc : c.exec p es with
  | error x =>
      rw [hc] at h
      cases h
  | ok c' =>
      rw [hc] at h
      exact ⟨c', rfl, h⟩

end Machine

open Machine (Config Position)

/-- The second document has an empty element of the first self-closed, at a
    position of the decoder. -/
def SelfCloses (p : Platform) (pos : Position) (tag : String) (doc doc' : Text) : Prop :=
  ∃ pre post attrs ft c,
    p.read (cleanDocument doc)
        = { events := pre ++ (.start tag attrs :: .stop tag :: post), fault := ft }
      ∧ p.read (cleanDocument doc') = { events := pre ++ (.empty tag attrs :: post), fault := ft }
      ∧ (startOf p doc).Reaches p pre c ∧ c.position = some pos

/-- What the references of a document are charged is within a budget. -/
def ChargedWithin (p : Platform) (doc : Text) (b : Nat) : Prop :=
  ∀ c, (startOf p doc).Reaches p (p.read (cleanDocument doc)).events c → c.state.expanded ≤ b

/-- Self-closing an element where that is supported does not change the
    result. -/
theorem parseClixml_selfCloses {p : Platform} {pos : Position} {tag : String} {doc doc' : Text}
    {vs : List PsValue} (h : SelfCloses p pos tag doc doc') (htag : tag ∈ pos.supported)
    (hcharged : ChargedWithin p doc (refBudget (Text.utf8Len (cleanDocument doc'))))
    (hparse : parseClixml p doc = .ok vs) : parseClixml p doc' = .ok vs := by
  rcases h with ⟨pre, post, attrs, ft, c, hread, hread', hpre, hpos⟩
  rw [Machine.parseClixml_eq_decode, Machine.decode, hread] at hparse
  rw [ChargedWithin, hread] at hcharged
  rcases Machine.run_ok hparse with ⟨cf, hexec, hfinish⟩
  have hstart : startOf p doc = Config.start (initialState
      (pre ++ (.start tag attrs :: .stop tag :: post)) (Text.utf8Len (cleanDocument doc))) := by
    rw [startOf, hread]
  -- The run over the longer document passes through the pair of tags.
  rw [← hstart] at hexec
  have hexpanded := hcharged cf (Machine.reaches_of_exec _ hexec)
  rcases Machine.exec_append_ok _ _ hexec with ⟨d, hd, hrest⟩
  rw [Machine.exec_eq_ok hpre] at hd
  cases hd
  rcases Machine.exec_append_ok [.start tag attrs] _ hrest with ⟨c1, h1, hrest⟩
  rcases Machine.exec_append_ok [.stop tag] _ hrest with ⟨c2, h2, hpost⟩
  have hstep1 : c.step p (.start tag attrs) = .ok c1 := by
    rcases Machine.reaches_of_exec _ h1 with _ | ⟨hstep, hnil⟩
    cases hnil
    exact hstep
  have hstep2 : c1.step p (.stop tag) = .ok c2 := by
    rcases Machine.reaches_of_exec _ h2 with _ | ⟨hstep, hnil⟩
    cases hnil
    exact hstep
  have hshort : (startOf p doc).exec p (pre ++ (.empty tag attrs :: post)) = .ok cf := by
    rw [Machine.exec_append, Machine.exec_eq_ok hpre]
    simp only []
    rw [Machine.exec_cons (Machine.step_selfClosed hpos htag hstep1 hstep2)]
    exact hpost
  -- Only the budget of the shorter document is another.
  have hids : referencedIds (pre ++ (.empty tag attrs :: post))
      = referencedIds (pre ++ (.start tag attrs :: .stop tag :: post)) := by
    simp only [referencedIds, List.filterMap_append, List.filterMap_cons]
  have hstart' : startOf p doc' = (startOf p doc).withBudget
      (refBudget (Text.utf8Len (cleanDocument doc'))) := by
    rw [hstart, startOf, hread']
    simp only [Config.start, Config.withBudget, DecoderState.withBudget, initialState, hids]
  have hbudget : (startOf p doc).state.budget < maxWeight := refBudget_lt _
  have hreach := (Machine.reaches_of_exec _ hshort).withBudget hbudget hexpanded
  rw [← hstart'] at hreach
  rw [Machine.parseClixml_eq_decode, Machine.decode, hread', Machine.run_eq_exec]
  have hstart'' : startOf p doc' = Config.start (initialState (pre ++ (.empty tag attrs :: post))
      (Text.utf8Len (cleanDocument doc'))) := by
    rw [startOf, hread']
  rw [← hstart'', Machine.exec_eq_ok hreach]
  exact hfinish

/-- A small document with an element at a position. -/
def holding (n : Xml.Node) : Position → Xml.Node
  | .top => n
  | .members => .element "Obj" [] [.element "MS" [] [n]]
  | .list => .element "Obj" [] [.element "LST" [] [n]]
  | .entry => .element "Obj" [] [.element "DCT" [] [.element "En" [] [n]]]
  | .body => .element "Obj" [] [.element "TN" [] [.element "T" [] []], n]
  | .dict => .element "Obj" [] [.element "DCT" [] [n]]
  | .typeNames => .element "Obj" [] [.element "TN" [] [n]]

/-- What stands before the element. -/
def eventsBefore : Position → List Event
  | .top => []
  | .members => [.start "Obj" [], .start "MS" []]
  | .list => [.start "Obj" [], .start "LST" []]
  | .entry => [.start "Obj" [], .start "DCT" [], .start "En" []]
  | .body => [.start "Obj" [], .start "TN" [], .start "T" [], .stop "T", .stop "TN"]
  | .dict => [.start "Obj" [], .start "DCT" []]
  | .typeNames => [.start "Obj" [], .start "TN" []]

/-- What stands after it. -/
def eventsAfter : Position → List Event
  | .top => []
  | .members => [.stop "MS", .stop "Obj"]
  | .list => [.stop "LST", .stop "Obj"]
  | .entry => [.stop "En", .stop "DCT", .stop "Obj"]
  | .body => [.stop "Obj"]
  | .dict => [.stop "DCT", .stop "Obj"]
  | .typeNames => [.stop "TN", .stop "Obj"]

theorem events_holding (n : Xml.Node) (pos : Position) :
    (holding n pos).events = eventsBefore pos ++ (n.events ++ eventsAfter pos) := by
  cases pos <;>
    simp only [holding, Xml.Node.events, Xml.eventsList, Xml.readAttrs, List.map_nil,
      List.append_nil, List.nil_append, List.cons_append, List.append_assoc, eventsBefore,
      eventsAfter]

theorem plain_holding (n : Xml.Node) (pos : Position) (hn : n.plain = true)
    (htext : n.isText = false) :
    (holding n pos).plain = true ∧ (holding n pos).isText = false := by
  have hnames : ∀ tag ∈ ["Obj", "MS", "LST", "DCT", "En", "TN", "T"], Xml.plainName tag = true := by
    decide
  have hattrs : Xml.plainAttrs [] = true := rfl
  refine ⟨?_, by cases pos <;> first | exact htext | rfl⟩
  cases pos <;>
    simp [holding, Xml.Node.plain, Xml.plainList, hn, hattrs, hnames, Xml.Node.isText]

theorem reaches_holding (p : Platform) (pos : Position) (es : List Event) (n : Nat) :
    ∃ c, (Config.start (initialState es n)).Reaches p (eventsBefore pos) c
      ∧ c.position = some pos := by
  cases pos with
  | top => exact ⟨_, .refl _, rfl⟩
  | members | list | dict | typeNames => exact ⟨_, .step rfl (.step rfl (.refl _)), rfl⟩
  | entry => exact ⟨_, .step rfl (.step rfl (.step rfl (.refl _))), rfl⟩
  | body =>
      exact ⟨_, .step rfl (.step rfl (.step rfl (.step rfl (.step rfl (.refl _))))), rfl⟩

/-- The attributes of the element in the small documents. -/
def keyAttrs : List (String × Text) := [("N", "Key".toList)]

/-- Where self-closing is not supported, the small documents tell the two
    spellings apart. -/
theorem holding_differs (p : Platform) (pos : Position) (tag : String) (htag : tag ∈ pos.readAt)
    (hnot : tag ∉ pos.supported) (n n' : Nat) :
    ∃ c vs, (Config.start (initialState (holding (.element tag keyAttrs []) pos).events n)).exec p
        (holding (.element tag keyAttrs []) pos).events = .ok c
      ∧ c.state.expanded = 0 ∧ c.run p none [] = .ok vs
      ∧ (Config.start (initialState (holding (.empty tag keyAttrs) pos).events n')).run p none
        (holding (.empty tag keyAttrs) pos).events ≠ .ok vs := by
  have hvalues : tag ∈ Position.emptyValues → pos ∈ [Position.top, .members, .list, .entry, .body] →
      ∃ c vs, (Config.start (initialState (holding (.element tag keyAttrs []) pos).events n)).exec
          p (holding (.element tag keyAttrs []) pos).events = .ok c
        ∧ c.state.expanded = 0 ∧ c.run p none [] = .ok vs
        ∧ (Config.start (initialState (holding (.empty tag keyAttrs) pos).events n')).run p none
          (holding (.empty tag keyAttrs) pos).events ≠ .ok vs := by
    intro hmem hpos
    simp only [Position.emptyValues, List.mem_cons, List.not_mem_nil, or_false] at hmem hpos
    rcases hpos with rfl | rfl | rfl | rfl | rfl <;>
    rcases hmem with rfl | rfl | rfl | rfl | rfl | rfl | rfl | rfl | rfl | rfl | rfl | rfl | rfl <;>
    first
      | exact absurd (by decide) hnot
      | exact ⟨_, _, rfl, rfl, rfl, fun h => by cases h⟩
  cases pos with
  | top | members | list | entry => exact hvalues htag (by decide)
  | body =>
      rcases List.mem_append.mp htag with htag | htag
      · exact hvalues htag (by decide)
      · simp only [List.mem_cons, List.not_mem_nil, or_false] at htag
        rcases htag with rfl | rfl | rfl | rfl | rfl | rfl | rfl | rfl | rfl <;>
        first
          | exact absurd (by decide) hnot
          | exact ⟨_, _, rfl, rfl, rfl, fun h => by cases h⟩
  | dict =>
      cases List.mem_singleton.mp htag
      exact ⟨_, _, rfl, rfl, rfl, fun h => by cases h⟩
  | typeNames =>
      cases List.mem_singleton.mp htag
      exact ⟨_, _, rfl, rfl, rfl, fun h => by cases h⟩

/-- An empty element of the decoder is plain, in both spellings. -/
theorem plain_emptyElement (pos : Position) (tag : String) (htag : tag ∈ pos.readAt) :
    (Xml.Node.element tag keyAttrs []).plain = true ∧ (Xml.Node.empty tag keyAttrs).plain = true := by
  have hname : Xml.plainName tag = true := by
    cases pos <;> revert tag <;> decide
  have hattrs : Xml.plainAttrs keyAttrs = true := by decide
  simp only [Xml.Node.plain, Xml.plainList, hname, hattrs, Bool.and_self, and_self]

/-- The small documents differ in the spelling of one element. -/
theorem selfCloses_holding {p : Platform} (hp : p.Lawful) (pos : Position) (tag : String)
    (htag : tag ∈ pos.readAt) :
    SelfCloses p pos tag (holding (.element tag keyAttrs []) pos).render
      (holding (.empty tag keyAttrs) pos).render := by
  have hplain := plain_emptyElement pos tag htag
  have hopen := plain_holding _ pos hplain.1 rfl
  have hclosed := plain_holding _ pos hplain.2 rfl
  have hread := hp.read.read_render _ hopen.2 hopen.1
  have hread' := hp.read.read_render _ hclosed.2 hclosed.1
  rcases reaches_holding p pos (holding (.element tag keyAttrs []) pos).events
    (Text.utf8Len (holding (.element tag keyAttrs []) pos).render) with ⟨c, hreach, hpos⟩
  refine ⟨eventsBefore pos, eventsAfter pos, Xml.readAttrs keyAttrs, none, c, ?_, ?_, ?_, hpos⟩
  · rw [Machine.cleanDocument_render _ hopen.2, hread, events_holding]
    rfl
  · rw [Machine.cleanDocument_render _ hclosed.2, hread', events_holding]
    rfl
  · rw [startOf, Machine.cleanDocument_render _ hopen.2, hread]
    exact hreach

/-- The two spellings of an empty element are decoded alike, in every document
    whose references stay within the budget of the shorter one, exactly at
    the positions that support the self-closed one. -/
theorem self_closing_iff (p : Platform) (hp : p.Lawful) (pos : Position) (tag : String)
    (htag : tag ∈ pos.readAt) :
    (∀ doc doc' vs, SelfCloses p pos tag doc doc' → parseClixml p doc = .ok vs →
        ChargedWithin p doc (refBudget (Text.utf8Len (cleanDocument doc'))) →
        parseClixml p doc' = .ok vs)
      ↔ tag ∈ pos.supported := by
  constructor
  · intro h
    by_contra hnot
    have hself := selfCloses_holding hp pos tag htag
    have hplain := plain_emptyElement pos tag htag
    have hopen := plain_holding _ pos hplain.1 rfl
    have hclosed := plain_holding _ pos hplain.2 rfl
    rcases holding_differs p pos tag htag hnot
      (Text.utf8Len (holding (.element tag keyAttrs []) pos).render)
      (Text.utf8Len (holding (.empty tag keyAttrs) pos).render) with
      ⟨c, vs, hexec, hexpanded, hfinish, hdiffers⟩
    have hparse : parseClixml p (holding (.element tag keyAttrs []) pos).render = .ok vs := by
      rw [Machine.parseClixml_render hp _ hopen.2 hopen.1, Machine.run_eq_exec, hexec]
      exact hfinish
    refine hdiffers ?_
    rw [← Machine.parseClixml_render hp _ hclosed.2 hclosed.1]
    refine h _ _ vs hself hparse fun c' hreach => ?_
    have hexec' := Machine.exec_eq_ok hreach
    rw [startOf, Machine.cleanDocument_render _ hopen.2,
      hp.read.read_render _ hopen.2 hopen.1, hexec] at hexec'
    cases hexec'
    rw [hexpanded]
    exact Nat.zero_le _
  · exact fun hsupported doc doc' vs hself hparse hcharged =>
      parseClixml_selfCloses hself hsupported hcharged hparse

/-- An empty `DT` in a list is read there, and not supported. -/
theorem self_closing_iff_list :
    (∀ doc doc' vs, SelfCloses Platform.basic .list "DT" doc doc' →
        parseClixml Platform.basic doc = .ok vs →
        ChargedWithin Platform.basic doc (refBudget (Text.utf8Len (cleanDocument doc'))) →
        parseClixml Platform.basic doc' = .ok vs)
      ↔ "DT" ∈ Position.list.supported :=
  self_closing_iff Platform.basic Platform.basic_lawful .list "DT" (by decide)

/-- An empty date in a list disappears when it is self-closed. -/
theorem self_closing_drops_item :
    parseClixml Platform.basic (holding (.element "DT" [] []) .list).render
        = .ok [.object ⟨[(valueKey, .list [.dateTime []])], [], none⟩]
      ∧ parseClixml Platform.basic (holding (.empty "DT" []) .list).render
        = .ok [.object ⟨[(valueKey, .list [])], [], none⟩]
      ∧ parseClixml Platform.basic (holding (.empty "DT" []) .list).render
        ≠ parseClixml Platform.basic (holding (.element "DT" [] []) .list).render := by
  have hp := Platform.basic_lawful
  have hopen : parseClixml Platform.basic (holding (.element "DT" [] []) .list).render
      = .ok [.object ⟨[(valueKey, .list [.dateTime []])], [], none⟩] := by
    rw [Machine.parseClixml_render hp _ rfl (by decide)]
    rfl
  have hclosed : parseClixml Platform.basic (holding (.empty "DT" []) .list).render
      = .ok [.object ⟨[(valueKey, .list [])], [], none⟩] := by
    rw [Machine.parseClixml_render hp _ rfl (by decide)]
    rfl
  refine ⟨hopen, hclosed, ?_⟩
  rw [hopen, hclosed]
  exact fun h => by cases h

end Psrp

import Psrp.Theory.Budget
import Psrp.Theory.MachineRefinement
import Psrp.Theory.Sharing.Scan

/-!
# The Scan Follows the Decoder

What the scan of a document says about a document that decodes.

The scan and the stack machine take the same steps, and the scan carries what
the values of the machine weigh (`Scan.Weighs`). A step of the two does two
things at once (`Follows`): the loads keep being what the values weigh, and
what is owned grows by the bytes of the event and by what is charged to the
budget. The second part is an account: the frame of an element pays for the
slot that its value will take, and an object puts one byte aside for the name
of the synthetic property.

So of a document that decodes the scan says exactly what is returned, and what
is owned is covered by the document and by what its references were charged
(`documentLoad_follows`).

## Main definitions

* `Scan.Weighs`: The scan carries what the values of the decoder weigh.
* `Scan.held`: What a scan owns.
* `Follows`: What a step of the two does.

## Theorems

* `Activity.step_follows`, `Scan.step_follows`: One step of the two.
* `Scan.run_follows`: A run of the two.
* `documentLoad_follows`: What a scan says of a document that decodes.
-/

namespace Psrp

open Xml (Attr Event)

namespace Sharing

/-- A name that the decoder can read is the one that the scan takes. -/
theorem nameOf_eq {attrs : List Attr} {name : Option Text} (h : nameAttr attrs = .ok name) :
    nameOf attrs = name := by
  rw [nameOf, h]
  rfl

theorem idOf_eq {attrs : List Attr} {rid : Option Text} (h : refIdAttr attrs = .ok rid) :
    idOf attrs = rid := by
  rw [idOf, h]
  rfl

/-- A load is what a value weighs. -/
def Load.Weighs (l : Load) (v : PsValue) : Prop := l.total = weight v

/-- What an object under construction weighs. -/
structure Object.Weighs (o : Object) (ctx : Machine.ObjCtx) : Prop where
  refId : o.refId = ctx.refId
  props : IndexMap.Matches Load.Weighs o.props ctx.obj.properties
  names : o.names.total = namesWeight ctx.obj.typeNames
  plain : ctx.obj.toString = none
  embedded : Option.Rel Load.Weighs o.embedded ctx.embedded

/-- What a loop weighs. -/
inductive Mode.Weighs : Mode → Machine.Mode → Prop
  | body : Weighs .body .body
  | members (closing : String) : Weighs (.members closing) (.members closing)
  | list {l : Load} {items : List PsValue} (closing : String) : l.total = 1 + itemsWeight items →
    Weighs (.list closing l) (.list closing items)
  | dict {l : Load} {entries : List (PsValue × PsValue)} : l.total = 1 + entriesWeight entries →
    Weighs (.dict l) (.dict entries)
  | entry {l : Load} {entries : List (PsValue × PsValue)} {m : Load × Load}
    {entry : PsValue × PsValue} : l.total = 1 + entriesWeight entries → m.1.Weighs entry.1 →
    m.2.Weighs entry.2 → Weighs (.entry l m) (.entry entries entry)
  | typeNames {n : Nat} {names : List Text} (rid : Option Text) : n = namesWeight names →
    Weighs (.typeNames rid n) (.typeNames rid names)
  | typeName {n : Nat} {names : List Text} (rid : Option Text) (text : Text) :
    n = namesWeight names → Weighs (.typeName rid n text) (.typeName rid names text)
  | skipRef (rid : Option Text) (level : Nat) : Weighs (.skipRef rid level) (.skipRef rid level)

/-- What an activation weighs. -/
inductive Activity.Weighs (p : Platform) : Activity → Machine.Activity → Prop
  | leaf {tag : String} {parse : Text → Except PsrpError PsValue} (text : Text) :
    leafParser p tag = some parse → Weighs p (.leaf tag text) (.leaf tag parse text)
  | object {o : Object} {ctx : Machine.ObjCtx} {mode : Mode} {mode' : Machine.Mode} :
    o.Weighs ctx → mode.Weighs mode' → Weighs p (.object o mode) (.object ctx mode')
  | skip {l : Option Load} {v : Option PsValue} (level : Nat) : Option.Rel Load.Weighs l v →
    Weighs p (.skip level l) (.skip level v)

/-- A frame of the scan stands for one of the decoder. -/
structure Frame.Weighs (p : Platform) (f : Frame) (f' : Machine.Frame) : Prop where
  name : f.name = f'.name
  activity : f.activity.Weighs p f'.activity

/-- So does a move. -/
inductive Move.Weighs (p : Platform) : Move → Machine.Move → Prop
  | goto {a : Activity} {a' : Machine.Activity} : a.Weighs p a' → Weighs p (.goto a) (.goto a')
  | push {f : Frame} {f' : Machine.Frame} : f.Weighs p f' → Weighs p (.push f) (.push f')
  | pop {l : Option Load} {v : Option PsValue} : Option.Rel Load.Weighs l v →
    Weighs p (.pop l) (.pop v)

/-- What was kept weighs so much. -/
structure Table.Weighs (t : Table) (s : DecoderState) : Prop where
  referenced : t.referenced = s.referenced
  refs : IndexMap.Matches (fun n v => n = weight v) t.refs s.refs
  typeNames : IndexMap.Matches (fun n names => n = namesWeight names) t.typeNames s.typeNames

/-- What an object under construction owns, with one byte for the name of the
    synthetic property. -/
def Object.held (o : Object) : Nat := o.bare.own + 1 + (Load.ofOption o.embedded).own

/-- What a loop owns. -/
def Mode.held : Mode → Nat
  | .list _ items => items.own
  | .dict entries => entries.own
  | .entry entries current => entries.own + current.1.own + current.2.own
  | .typeNames _ names => names
  | .typeName _ names text => names + Text.utf8Len text + 1
  | _ => 0

def Activity.held : Activity → Nat
  | .leaf _ text => Text.utf8Len text + 1
  | .object o mode => o.held + mode.held
  | .skip _ load => (Load.ofOption load).own

/-- What a frame owns, with the slot its value takes in an object. -/
def Frame.held (f : Frame) : Nat := Text.utf8Len f.name + 1 + f.activity.held

/-- What a move of an activity leaves it with, and hands out. -/
def Move.held (a : Activity) : Move → Nat
  | .goto b => b.held
  | .push f => a.held + f.held
  | .pop l => (Load.ofOption l).own

/-- What an insertion adds to the properties: the value that was there is gone. -/
theorem propsLoad_insert (name : Text) (l : Load) (props : IndexMap Text Load) :
    (propsLoad (IndexMap.insert name l props)).own
      ≤ (propsLoad props).own + (Text.utf8Len name + 1 + l.own) := by
  induction props with
  | nil => simp only [IndexMap.insert, propsLoad, Load.own_add, Load.own_read, Nat.add_zero,
      Nat.zero_add, Nat.le_refl]
  | cons q ps ih =>
      rcases q with ⟨k, m⟩
      rw [IndexMap.insert]
      split_ifs
      · simp only [propsLoad, Load.own_add, Load.own_read]
        omega
      · simp only [propsLoad, Load.own_add, Load.own_read]
        omega

/-- A part of an entry replaces what was there. -/
theorem setEntry_own (name : Text) (l : Load) (e : Load × Load) :
    (setEntry name l e).1.own + (setEntry name l e).2.own ≤ e.1.own + e.2.own + l.own := by
  rcases e with ⟨key, value⟩
  rw [setEntry]
  split_ifs
  · show l.own + value.own ≤ key.own + value.own + l.own
    omega
  · show key.own + l.own ≤ key.own + value.own + l.own
    omega
  · exact Nat.le_add_right _ _

/-- A value that is delivered adds what it owns, and its slot. -/
theorem receive_held (name : Text) (l : Option Load) (a : Activity) :
    (receive name l a).held ≤ a.held + Text.utf8Len name + 1 + (Load.ofOption l).own := by
  cases a with
  | leaf | skip =>
      simp only [receive]
      omega
  | object o mode =>
      rcases o with ⟨refId, props, names, embedded⟩
      cases mode with
      | body =>
          simp only [receive, Activity.held, Object.held, Object.bare]
          -- Only the first bare value is kept.
          cases embedded with
          | none =>
              simp only [Option.none_or, Load.ofOption, Option.getD_none, Load.own_read]
              omega
          | some m =>
              simp only [Option.some_or]
              omega
      | members closing =>
          cases l with
          | none =>
              simp only [receive]
              omega
          | some l =>
              -- A property of the same name is replaced, so the load can also go down.
              have hinsert := propsLoad_insert name l props
              simp only [receive, Activity.held, Object.held, Object.bare, Load.own_add,
                Load.ofOption, Option.getD_some] at hinsert ⊢
              omega
      | list closing items =>
          simp only [receive, Activity.held, Mode.held, Load.own_add]
          omega
      | entry entries entry =>
          cases l with
          | none =>
              simp only [receive]
              omega
          | some l =>
              have hset := setEntry_own name l entry
              simp only [receive, Activity.held, Mode.held, Load.ofOption, Option.getD_some]
              omega
      | _ =>
          simp only [receive]
          omega

theorem Object.load_own (o : Object) : o.load.own + 1 ≤ o.held + 7 := by
  rcases o with ⟨refId, props, names, embedded⟩
  rw [Object.load, Object.held]
  cases embedded with
  | none =>
      simp only []
      omega
  | some l =>
      simp only []
      split_ifs with hprops
      · have hkey : Text.utf8Len valueKey = 6 := by decide
        have hinsert := propsLoad_insert valueKey l props
        simp only [Object.bare, Load.own_add, Load.ofOption, Option.getD_some] at hinsert ⊢
        omega
      · omega

/-- Properties, one by one. -/
theorem Load.weighs_props {props : IndexMap Text Load} {props' : IndexMap Text PsValue}
    (h : IndexMap.Matches Load.Weighs props props') :
    (propsLoad props).total = propsWeight props' := by
  induction h with
  | nil => rfl
  | @cons a b _ _ hab _ ih =>
      rcases a with ⟨name, l⟩
      rcases b with ⟨_, v⟩
      rcases hab with ⟨rfl, hl⟩
      rw [propsLoad, propsWeight, Load.total_add, Load.total_add, Load.total_read, ih, hl]

/-- An object that is closed weighs what its members and its names do. -/
theorem Object.load_weighs {o : Object} {ctx : Machine.ObjCtx} (h : o.Weighs ctx) :
    o.load.Weighs (.object (exposeValue ctx.embedded ctx.obj)) := by
  rcases o with ⟨refId, props, names, embedded⟩
  rcases ctx with ⟨_, ⟨props', typeNames, toString⟩, embedded'⟩
  rcases h with ⟨_, hprops, hnames, hplain, hembedded⟩
  have hbare : ∀ {ps : IndexMap Text Load} {ps' : IndexMap Text PsValue},
      IndexMap.Matches Load.Weighs ps ps' → Load.Weighs (Object.bare ⟨refId, ps, names, embedded⟩)
        (.object ⟨ps', typeNames, toString⟩) := by
    intro ps ps' hps
    simp only [] at hplain hnames
    rw [Load.Weighs, Object.bare, Load.total_add, Load.total_add, Load.weighs_props hps, hnames,
      hplain, weight]
    rfl
  cases hembedded with
  | none => exact hbare hprops
  | some hl =>
      have hnil : props = [] ↔ props' = [] := by
        cases hprops with
        | nil => exact ⟨fun _ => rfl, fun _ => rfl⟩
        | cons => simp only [reduceCtorEq]
      by_cases hp : props' = []
      · simp only [Object.load, exposeValue, if_pos (hnil.mpr hp), if_pos hp]
        exact hbare (IndexMap.insert_matches hprops valueKey hl)
      · simp only [Object.load, exposeValue, if_neg (mt hnil.mp hp), if_neg hp]
        exact hbare hprops

/-- A part of an entry, key or value. -/
theorem setEntry_weighs {l : Load} {v : PsValue} {m : Load × Load} {entry : PsValue × PsValue}
    (name : Text) (hl : l.Weighs v) (hkey : m.1.Weighs entry.1) (hvalue : m.2.Weighs entry.2) :
    (setEntry name l m).1.Weighs (Psrp.setEntry name v entry).1
      ∧ (setEntry name l m).2.Weighs (Psrp.setEntry name v entry).2 := by
  rw [setEntry, Psrp.setEntry]
  split_ifs
  · exact ⟨hl, hvalue⟩
  · exact ⟨hkey, hl⟩
  · exact ⟨hkey, hvalue⟩

/-- A load that is delivered is what the value weighs. -/
theorem receive_weighs {p : Platform} {a : Activity} {a' : Machine.Activity} {l : Option Load}
    {v : Option PsValue} (name : Text) (ha : a.Weighs p a') (hl : Option.Rel Load.Weighs l v) :
    (receive name l a).Weighs p (Machine.receive name v a') := by
  cases ha with
  | leaf text hparse => exact .leaf text hparse
  | skip level hskip => exact .skip level hskip
  | @object o ctx _ _ ho hmode =>
      rcases o with ⟨refId, props, names, embedded⟩
      rcases ctx with ⟨_, ⟨props', typeNames, toString⟩, embedded'⟩
      have hobject := ho
      rcases ho with ⟨hid, hprops, hnames, hplain, hembedded⟩
      -- Only four places take a value in; the others wait for a tag.
      cases hmode with
      | body =>
          refine .object ⟨hid, hprops, hnames, hplain, ?_⟩ .body
          cases hembedded with
          | none => exact hl
          | some hm => exact .some hm
      | members closing =>
          cases hl with
          | none => exact .object hobject (.members closing)
          | some hl =>
              exact .object ⟨hid, IndexMap.insert_matches hprops name hl, hnames, hplain, hembedded⟩
                (.members closing)
      | list closing hitems =>
          refine .object hobject (.list closing ?_)
          -- The list grows by the value, or by nothing.
          rw [Load.total_add, hitems, itemsWeight_append]
          cases hl with
          | none => rfl
          | some hl =>
              have hv : (Load.ofOption (some _)).total = _ := hl
              rw [hv]
              simp only [Option.toList, itemsWeight]
              omega
      | entry hentries hkey hvalue =>
          cases hl with
          | none => exact .object hobject (.entry hentries hkey hvalue)
          | some hl =>
              have hset := setEntry_weighs name hl hkey hvalue
              exact .object hobject (.entry hentries hset.1 hset.2)
      | dict hentries => exact .object hobject (.dict hentries)
      | typeNames rid hn => exact .object hobject (.typeNames rid hn)
      | typeName rid text hn => exact .object hobject (.typeName rid text hn)
      | skipRef rid level => exact .object hobject (.skipRef rid level)

/-- The tables say nothing of the budget. -/
theorem Table.Weighs.charge {t : Table} {s s' : DecoderState} {w : Nat} (ht : t.Weighs s)
    (h : s.charge w = .ok s') : t.Weighs s' := by
  simp only [DecoderState.charge] at h
  split_ifs at h
  cases h
  exact ⟨ht.referenced, ht.refs, ht.typeNames⟩

/-- A reference owns what it copies, for it was charged. -/
theorem resolveRef_follows {attrs : List Attr} {level : Nat} {s s' : DecoderState} {v : PsValue}
    {t : Table} (ht : t.Weighs s) (hbudget : s.budget < maxWeight)
    (h : resolveRef attrs level s = .ok (v, s')) :
    (refLoad attrs t).Weighs v ∧ t.Weighs s'
      ∧ (refLoad attrs t).own + s.expanded ≤ s'.expanded + 1 := by
  have hcharged := (resolveRef_weight attrs level s s' v hbudget h).1
  -- What a reference copies is what was kept under its id, on both sides.
  have hfound : (refLoad attrs t).Weighs v ∧ t.Weighs s' := by
    simp only [resolveRef, bind, Except.bind, pure, Except.pure] at h
    cases hid : refRefIdAttr attrs with
    | error e =>
        rw [hid] at h
        cases h
    | ok rid =>
        have hnull : (Load.read 1).Weighs .null := rfl
        rw [refLoad, idOf_eq hid]
        simp only [hid] at h
        cases rid with
        | none =>
            cases h
            exact ⟨hnull, ht⟩
        | some r =>
            simp only [Option.bind_some] at h ⊢
            -- Both tables know the same ids.
            have hget := IndexMap.get_matches ht.refs r
            generalize IndexMap.get r t.refs = kept at hget ⊢
            generalize IndexMap.get r s.refs = target at hget h
            cases hget with
            | none =>
                cases h
                exact ⟨hnull, ht⟩
            | some hw =>
                simp only [] at h
                split_ifs at h
                cases hcharge : s.charge (measure _).1 with
                | error x =>
                    rw [hcharge] at h
                    cases h
                | ok s'' =>
                    rw [hcharge] at h
                    cases h
                    exact ⟨hw, ht.charge hcharge⟩
  -- A copy counts as owned, and the budget was charged its weight.
  have hown : (refLoad attrs t).own = weight v := hfound.1
  exact ⟨hfound.1, hfound.2, by omega⟩

/-- A self-closed element, where the decoder reads one. -/
theorem parseEmpty_follows {tag : String} {attrs : List Attr} {s s' : DecoderState}
    {v : Option PsValue} {t : Table} (ht : t.Weighs s) (hbudget : s.budget < maxWeight)
    (h : parseEmpty tag attrs s = .ok (v, s')) :
    Option.Rel Load.Weighs (emptyLoad tag attrs t) v ∧ t.Weighs s'
      ∧ (Load.ofOption (emptyLoad tag attrs t)).own + s.expanded ≤ s'.expanded + 1 := by
  have hone : 1 + s.expanded ≤ s.expanded + 1 := Nat.le_of_eq (Nat.add_comm _ _)
  rw [parseEmpty] at h
  rw [emptyLoad]
  by_cases hnil : tag = "Nil"
  · rw [if_pos hnil] at h ⊢
    cases h
    exact ⟨.some rfl, ht, hone⟩
  rw [if_neg hnil] at h ⊢
  by_cases href : tag = "Ref"
  · rw [if_pos href, except_map_eq_ok] at h
    rcases h with ⟨⟨w, s''⟩, hres, h⟩
    cases h
    have hfollows := resolveRef_follows ht hbudget hres
    rw [if_pos href]
    exact ⟨.some hfollows.1, hfollows.2.1, hfollows.2.2⟩
  rw [if_neg href] at h ⊢
  by_cases hstring : tag = "S"
  · rw [if_pos hstring] at h ⊢
    cases h
    exact ⟨.some rfl, ht, hone⟩
  rw [if_neg hstring] at h ⊢
  by_cases hscript : tag = "SBK" ∨ tag = "SCT"
  · rw [if_pos hscript] at h ⊢
    cases h
    exact ⟨.some rfl, ht, hone⟩
  · rw [if_neg hscript] at h ⊢
    cases h
    exact ⟨.none, ht, by simp only [Load.ofOption, Option.getD_none, Load.own_read]; omega⟩

/-- The frame of an element owns at most the bytes of its start tag and what
    is charged. -/
theorem openElement_follows {p : Platform} {name : Text} {tag : String} {attrs : List Attr}
    {s s' : DecoderState} {f : Machine.Frame} {t : Table} (hname : Machine.NamedBy attrs name)
    (ht : t.Weighs s) (hbudget : s.budget < maxWeight)
    (h : Machine.openElement p name tag attrs s = .ok (f, s')) :
    (openElement p name tag attrs t).Weighs p f ∧ t.Weighs s'
      ∧ (openElement p name tag attrs t).held + s.expanded
        ≤ (Event.start tag attrs).size + s'.expanded := by
  have hsize := Machine.namedBy_size hname
  have hstart : (Event.start tag attrs).size
      = Text.utf8Len tag.toList + 2 + attrsSize attrs := rfl
  have hdeeper : t.Weighs { s with depth := s.depth + 1 } :=
    ⟨ht.referenced, ht.refs, ht.typeNames⟩
  rcases (Machine.openElement_cases p name tag attrs s s' f h).2 with
    ⟨parse, hparse, rfl, rfl⟩ | ⟨refId, rfl, hid, rfl, rfl⟩ | ⟨v, rfl, hres, rfl⟩
      | ⟨hleaf, hobj, href, rfl, rfl⟩
  · rw [openElement, hparse, Option.isSome_some, if_pos rfl]
    refine ⟨⟨rfl, .leaf [] hparse⟩, hdeeper, ?_⟩
    simp only [Frame.held, Activity.held, Text.utf8Len_nil]
    omega
  · have htag : Text.utf8Len "Obj".toList = 3 := by decide
    have hopen : openElement p name "Obj" attrs t = ⟨name, .object (.new refId) .body⟩ := by
      rw [← idOf_eq hid]
      rfl
    rw [hopen]
    refine ⟨⟨rfl, .object ⟨rfl, .nil, rfl, rfl, .none⟩ .body⟩, hdeeper, ?_⟩
    have hnew : (Object.new refId).held = 2 := rfl
    simp only [Frame.held, Activity.held, Mode.held, hnew]
    omega
  · have hfollows := resolveRef_follows hdeeper hbudget hres
    have hopen : openElement p name "Ref" attrs t = ⟨name, .skip 1 (some (refLoad attrs t))⟩ := rfl
    rw [hopen]
    refine ⟨⟨rfl, .skip 1 (.some hfollows.1)⟩, hfollows.2.1, ?_⟩
    have howned := hfollows.2.2
    simp only [Frame.held, Activity.held, Load.ofOption, Option.getD_some] at howned ⊢
    omega
  · rw [openElement, hleaf, Option.isSome_none, if_neg Bool.false_ne_true, if_neg hobj, if_neg href]
    refine ⟨⟨rfl, .skip 1 .none⟩, hdeeper, ?_⟩
    simp only [Frame.held, Activity.held, Load.ofOption, Option.getD_none, Load.own_read]
    omega

/-- A step of the scan follows a step of the decoder: it carries what the
    values weigh, and what it owns grows by the bytes of the event and by what
    is charged. -/
structure Follows (p : Platform) (a : Activity) (e : Event) (s : DecoderState) (r : Move × Table)
    (m : Machine.Move) (s' : DecoderState) : Prop where
  move : r.1.Weighs p m
  table : r.2.Weighs s'
  own : r.1.held a + s.expanded ≤ a.held + e.size + s'.expanded

section Rules

variable {p : Platform} {s s' : DecoderState} {t : Table} {m : Machine.Move}

/-- One step that stays in its frame. -/
theorem Follows.goto {a b : Activity} {b' : Machine.Activity} {e : Event} (hb : b.Weighs p b')
    (ht : t.Weighs s) (hheld : b.held ≤ a.held + e.size) :
    Follows p a e s (.goto b, t) (.goto b') s :=
  ⟨.goto hb, ht, Nat.add_le_add_right hheld _⟩

/-- One step that changes nothing. -/
theorem Follows.stay {a : Activity} {a' : Machine.Activity} (e : Event) (ha : a.Weighs p a')
    (ht : t.Weighs s) : Follows p a e s (.goto a, t) (.goto a') s :=
  .goto ha ht (Nat.le_add_right _ _)

/-- An element that opens. -/
theorem pushElement_follows (a : Activity) {name : Text} {tag : String} {attrs : List Attr}
    (hname : Machine.NamedBy attrs name) (ht : t.Weighs s) (hbudget : s.budget < maxWeight)
    (h : Machine.pushElement p name tag attrs s = .ok (m, s')) :
    Follows p a (.start tag attrs) s (.push (openElement p name tag attrs t), t) m s' := by
  rw [Machine.pushElement, except_map_eq_ok] at h
  rcases h with ⟨⟨f, s''⟩, hopen, h⟩
  cases h
  have hfollows := openElement_follows hname ht hbudget hopen
  refine ⟨.push hfollows.1, hfollows.2.1, ?_⟩
  have hheld := hfollows.2.2
  simp only [Move.held]
  omega

/-- An element with a name is entered. -/
theorem pushNamed_follows (a : Activity) {tag : String} {attrs : List Attr} (ht : t.Weighs s)
    (hbudget : s.budget < maxWeight) (h : Machine.pushNamed p tag attrs s = .ok (m, s')) :
    Follows p a (.start tag attrs) s
      (.push (openElement p ((nameOf attrs).getD []) tag attrs t), t) m s' := by
  rw [Machine.pushNamed] at h
  cases hname : nameAttr attrs with
  | error x =>
      rw [hname] at h
      cases h
  | ok name =>
      rw [hname] at h
      rw [nameOf_eq hname]
      exact pushElement_follows a (Or.inr ⟨name, hname, rfl⟩) ht hbudget h

/-- A value of a self-closed element that is delivered under a name. -/
theorem received_follows {a : Activity} {a' : Machine.Activity} {name : Text} {tag : String}
    {attrs : List Attr} {l : Option Load} {v : Option PsValue}
    (hname : Machine.NamedBy attrs name) (ha : a.Weighs p a') (hl : Option.Rel Load.Weighs l v)
    (ht : t.Weighs s') (hown : (Load.ofOption l).own + s.expanded ≤ s'.expanded + 1) :
    Follows p a (.empty tag attrs) s (.goto (receive name l a), t)
      (.goto (Machine.receive name v a')) s' := by
  refine ⟨.goto (receive_weighs name ha hl), ht, ?_⟩
  have hsize := Machine.namedBy_size hname
  have hempty : (Event.empty tag attrs).size
      = Text.utf8Len tag.toList + 3 + attrsSize attrs := rfl
  have hreceive := receive_held name l a
  simp only [Move.held]
  omega

/-- A self-closed element where a value is read. -/
theorem receiveEmpty_follows {a : Activity} {a' : Machine.Activity} {tag : String}
    {attrs : List Attr} (named : Bool) (ha : a.Weighs p a')
    (hnone : ∀ name, receive name none a = a) (ht : t.Weighs s) (hbudget : s.budget < maxWeight)
    (h : Machine.receiveEmpty named a' tag attrs s = .ok (m, s')) :
    Follows p a (.empty tag attrs) s
      (.goto (receive (if named then (nameOf attrs).getD [] else []) (emptyLoad tag attrs t) a), t)
      m s' := by
  rw [Machine.receiveEmpty] at h
  cases hempty : parseEmpty tag attrs s with
  | error x =>
      rw [hempty] at h
      cases h
  | ok r =>
      rcases r with ⟨v, s''⟩
      rw [hempty] at h
      rcases parseEmpty_follows ht hbudget hempty with ⟨hl, ht', hown⟩
      cases v with
      | none =>
          cases h
          have hload : emptyLoad tag attrs t = none := by
            generalize emptyLoad tag attrs t = l at hl
            cases hl
            rfl
          rw [hload, hnone]
          refine ⟨.goto ha, ht', ?_⟩
          have hexpanded := (parseEmpty_weight tag attrs s _ none hbudget hempty).2.mono
          simp only [Move.held]
          omega
      | some v =>
          cases named with
          | false =>
              cases h
              exact received_follows (Or.inl rfl) ha hl ht' hown
          | true =>
              simp only [if_true, except_map_eq_ok] at h
              rcases h with ⟨name, hname, h⟩
              cases h
              rw [if_pos rfl, nameOf_eq hname]
              exact received_follows (Or.inr ⟨name, hname, rfl⟩) ha hl ht' hown

/-- Shared type names are copied, and what they replace is gone. -/
theorem Object.share_follows {o : Object} {ctx : Machine.ObjCtx} (ho : o.Weighs ctx)
    (ht : t.Weighs s) (rid : Option Text) :
    (o.share rid t).Weighs { ctx with obj := sharedTypeNames rid s ctx.obj }
      ∧ (o.share rid t).held ≤ o.held := by
  rw [Object.share, sharedTypeNames]
  cases rid with
  | none => exact ⟨ho, Nat.le_refl _⟩
  | some r =>
      have hget := IndexMap.get_matches ht.typeNames r
      simp only [Option.bind_some]
      generalize IndexMap.get r t.typeNames = n at hget ⊢
      generalize IndexMap.get r s.typeNames = names at hget ⊢
      cases hget with
      | none => exact ⟨ho, Nat.le_refl _⟩
      | some hn =>
          refine ⟨⟨ho.refId, ho.props, (Load.total_copied _).trans hn, ho.plain, ho.embedded⟩, ?_⟩
          simp only [Object.held, Object.bare, Load.own_add, Load.own_copied]
          omega

/-- A value is remembered when some reference names it. -/
theorem Table.keep_follows {refId : Option Text} {l : Load} {v : PsValue} (hl : l.Weighs v)
    (ht : t.Weighs s) (hbudget : s.budget < maxWeight) (h : keepReferenced refId v s = .ok s') :
    (t.keep refId l).Weighs s' ∧ s.expanded ≤ s'.expanded := by
  refine ⟨?_, (keepReferenced_spends refId v s s' hbudget h).mono⟩
  rw [Table.keep, ht.referenced]
  rw [keepReferenced] at h
  simp only [List.contains_eq_mem]
  generalize refId.filter (fun r => r ∈ s.referenced) = rid at h ⊢
  cases rid with
  | none =>
      cases h
      exact ht
  | some rid =>
      simp only [except_map_eq_ok] at h
      rcases h with ⟨s'', hcharge, rfl⟩
      have hcharged := ht.charge hcharge
      exact ⟨ht.referenced.symm.trans hcharged.referenced,
        IndexMap.insert_matches hcharged.refs rid hl, hcharged.typeNames⟩

theorem Table.remember_follows {names : List Text} (ht : t.Weighs s) (rid : Option Text) :
    (t.remember rid (namesWeight names)).Weighs (rememberTypeNames rid names s) := by
  cases rid with
  | none => exact ht
  | some rid => exact ⟨ht.referenced, ht.refs, IndexMap.insert_matches ht.typeNames rid rfl⟩

/-- The body of an object. The two read an event in the same way, branch by branch.
    -/
theorem bodyStep_follows {o : Object} {ctx : Machine.ObjCtx} {e : Event} (ho : o.Weighs ctx)
    (ht : t.Weighs s) (hbudget : s.budget < maxWeight)
    (h : Machine.bodyStep p ctx s e = .ok (m, s')) :
    Follows p (.object o .body) e s (bodyStep p o t e) m s' := by
  have hbody : Activity.Weighs p (.object o .body) (.object ctx .body) := .object ho .body
  cases e with
  | start tag attrs =>
      have hsize : 2 ≤ (Event.start tag attrs).size := by
        simp only [Event.size]
        omega
      -- Opening a container costs no more than its tag.
      have henter : ∀ {mode : Mode} {mode' : Machine.Mode}, mode.Weighs mode' → mode.held ≤ 2 →
          Follows p (.object o .body) (.start tag attrs) s (.goto (.object o mode), t)
            (.goto (.object ctx mode')) s := by
        intro mode mode' hmode hheld
        refine .goto (.object ho hmode) ht ?_
        simp only [Activity.held]
        omega
      simp only [Machine.bodyStep] at h
      simp only [bodyStep]
      split_ifs at h ⊢
      · cases h
        exact henter (.members tag) (Nat.zero_le _)
      · rw [except_map_eq_ok] at h
        rcases h with ⟨rid, hrid, h⟩
        cases h
        rw [idOf_eq hrid]
        exact henter (.typeNames rid rfl) (Nat.zero_le _)
      · rw [except_map_eq_ok] at h
        rcases h with ⟨rid, hrid, h⟩
        cases h
        rw [idOf_eq hrid]
        exact henter (.skipRef rid 1) (Nat.zero_le _)
      · cases h
        exact henter (.list tag rfl) (show 1 ≤ 2 by omega)
      · cases h
        exact henter (.dict rfl) (show 1 ≤ 2 by omega)
      · exact pushElement_follows _ (Or.inl rfl) ht hbudget h
  | empty tag attrs =>
      simp only [Machine.bodyStep] at h
      simp only [bodyStep]
      split_ifs at h ⊢
      · rw [except_map_eq_ok] at h
        rcases h with ⟨rid, hrid, h⟩
        cases h
        -- The names that a reference copies count as shared, and what is owned stays.
        have hshare := Object.share_follows ho ht rid
        rw [idOf_eq hrid]
        refine .goto (.object hshare.1 .body) ht ?_
        have hheld := hshare.2
        simp only [Activity.held]
        omega
      · cases h
        exact .stay _ hbody ht
  | stop tag =>
      simp only [Machine.bodyStep] at h
      simp only [bodyStep]
      split_ifs at h ⊢ with htag
      · rw [except_map_eq_ok] at h
        rcases h with ⟨s'', hkeep, h⟩
        cases h
        -- The object is complete: it is handed on, and kept if it is referenced.
        have hload := Object.load_weighs ho
        have hkept := Table.keep_follows hload ht hbudget hkeep
        rw [ho.refId]
        refine ⟨.pop (.some hload), hkept.1, ?_⟩
        have hown := Object.load_own o
        have hmono := hkept.2
        have hstop : (Event.stop "Obj").size = 6 := by decide
        rw [htag]
        simp only [Move.held, Activity.held, Load.ofOption, Option.getD_some]
        omega
      · cases h
        exact .stay _ hbody ht
  | _ =>
      cases h
      exact .stay _ hbody ht

/-- Properties. -/
theorem membersStep_follows {o : Object} {ctx : Machine.ObjCtx} {e : Event} {closing : String}
    (ho : o.Weighs ctx) (ht : t.Weighs s) (hbudget : s.budget < maxWeight)
    (h : Machine.membersStep p ctx closing s e = .ok (m, s')) :
    Follows p (.object o (.members closing)) e s (membersStep p o closing t e) m s' := by
  have hmembers : Activity.Weighs p (.object o (.members closing)) (.object ctx (.members closing)) :=
    .object ho (.members closing)
  cases e with
  | start tag attrs => exact pushNamed_follows _ ht hbudget h
  | empty tag attrs =>
      simp only [Machine.membersStep] at h
      simp only [membersStep]
      split_ifs at h ⊢
      · rw [except_map_eq_ok] at h
        rcases h with ⟨name, hname, h⟩
        cases h
        rw [nameOf_eq hname]
        have hone : 1 + s.expanded ≤ s.expanded + 1 := Nat.le_of_eq (Nat.add_comm _ _)
        cases name with
        | none => exact .stay _ hmembers ht
        | some name =>
            exact received_follows (Or.inr ⟨some name, hname, rfl⟩) hmembers (.some rfl) ht hone
      · exact receiveEmpty_follows true hmembers (fun _ => rfl) ht hbudget h
  | stop tag =>
      cases h
      refine .goto (.object ho ?_) ht ?_
      · split_ifs
        · exact .body
        · exact .members closing
      · simp only [Activity.held]
        split_ifs <;> exact Nat.le_add_right _ _
  | _ =>
      cases h
      exact .stay _ hmembers ht

/-- Items. -/
theorem listStep_follows {o : Object} {ctx : Machine.ObjCtx} {e : Event} {closing : String}
    {l : Load} {items : List PsValue} (ho : o.Weighs ctx) (hl : l.total = 1 + itemsWeight items)
    (ht : t.Weighs s) (hbudget : s.budget < maxWeight)
    (h : Machine.listStep p ctx closing items s e = .ok (m, s')) :
    Follows p (.object o (.list closing l)) e s (listStep p o closing l t e) m s' := by
  have hlist : Activity.Weighs p (.object o (.list closing l)) (.object ctx (.list closing items)) :=
    .object ho (.list closing hl)
  cases e with
  | start tag attrs => exact pushElement_follows _ (Or.inl rfl) ht hbudget h
  | empty tag attrs => exact receiveEmpty_follows false hlist (fun _ => rfl) ht hbudget h
  | stop tag =>
      simp only [Machine.listStep] at h
      simp only [listStep]
      split_ifs at h ⊢
      · cases h
        refine .goto (.object ⟨ho.refId, ho.props, ho.names, ho.plain, .some hl⟩ .body) ht ?_
        simp only [Activity.held, Object.held, Object.bare, Mode.held, Load.ofOption,
          Option.getD_some]
        omega
      · cases h
        exact .stay _ hlist ht
  | _ =>
      cases h
      exact .stay _ hlist ht

/-- Entries of a dictionary. -/
theorem dictStep_follows {o : Object} {ctx : Machine.ObjCtx} {e : Event} {l : Load}
    {entries : List (PsValue × PsValue)} (ho : o.Weighs ctx)
    (hl : l.total = 1 + entriesWeight entries) (ht : t.Weighs s)
    (h : Machine.dictStep ctx entries s e = .ok (m, s')) :
    Follows p (.object o (.dict l)) e s (dictStep o l t e) m s' := by
  have hdict : Activity.Weighs p (.object o (.dict l)) (.object ctx (.dict entries)) :=
    .object ho (.dict hl)
  cases e with
  | start tag attrs =>
      have hsize : 2 ≤ (Event.start tag attrs).size := by
        simp only [Event.size]
        omega
      simp only [Machine.dictStep] at h
      simp only [dictStep]
      split_ifs at h ⊢
      · cases h
        refine .goto (.object ho (.entry hl rfl rfl)) ht ?_
        simp only [Activity.held, Mode.held, Load.own_read]
        omega
      · cases h
        exact .stay _ hdict ht
  | stop tag =>
      simp only [Machine.dictStep] at h
      simp only [dictStep]
      split_ifs at h ⊢
      · cases h
        refine .goto (.object ⟨ho.refId, ho.props, ho.names, ho.plain, .some hl⟩ .body) ht ?_
        simp only [Activity.held, Object.held, Object.bare, Mode.held, Load.ofOption,
          Option.getD_some]
        omega
      · cases h
        exact .stay _ hdict ht
  | _ =>
      cases h
      exact .stay _ hdict ht

/-- The two parts of an entry. -/
theorem entryStep_follows {o : Object} {ctx : Machine.ObjCtx} {e : Event} {l : Load}
    {entries : List (PsValue × PsValue)} {n : Load × Load} {entry : PsValue × PsValue}
    (ho : o.Weighs ctx) (hl : l.total = 1 + entriesWeight entries) (hkey : n.1.Weighs entry.1)
    (hvalue : n.2.Weighs entry.2) (ht : t.Weighs s) (hbudget : s.budget < maxWeight)
    (h : Machine.entryStep p ctx entries entry s e = .ok (m, s')) :
    Follows p (.object o (.entry l n)) e s (entryStep p o l n t e) m s' := by
  have hentry : Activity.Weighs p (.object o (.entry l n)) (.object ctx (.entry entries entry)) :=
    .object ho (.entry hl hkey hvalue)
  cases e with
  | start tag attrs => exact pushNamed_follows _ ht hbudget h
  | empty tag attrs => exact receiveEmpty_follows true hentry (fun _ => rfl) ht hbudget h
  | stop tag =>
      simp only [Machine.entryStep] at h
      simp only [entryStep]
      split_ifs at h ⊢
      · cases h
        refine .goto (.object ho (.dict ?_)) ht ?_
        · rcases entry with ⟨key, value⟩
          rw [Load.total_add, Load.total_add, hl, hkey, hvalue, entriesWeight_append]
          simp only [entriesWeight]
          omega
        · simp only [Activity.held, Mode.held, Load.own_add]
          omega
      · cases h
        exact .stay _ hentry ht
  | _ =>
      cases h
      exact .stay _ hentry ht

/-- Type names of its own. -/
theorem typeNamesStep_follows {o : Object} {ctx : Machine.ObjCtx} {e : Event} {rid : Option Text}
    {names : List Text} (ho : o.Weighs ctx) (ht : t.Weighs s)
    (h : Machine.typeNamesStep ctx rid names s e = .ok (m, s')) :
    Follows p (.object o (.typeNames rid (namesWeight names))) e s
      (typeNamesStep o rid (namesWeight names) t e) m s' := by
  have hnames : Activity.Weighs p (.object o (.typeNames rid (namesWeight names)))
      (.object ctx (.typeNames rid names)) := .object ho (.typeNames rid rfl)
  cases e with
  | start tag attrs =>
      have hsize : 2 ≤ (Event.start tag attrs).size := by
        simp only [Event.size]
        omega
      simp only [Machine.typeNamesStep] at h
      simp only [typeNamesStep]
      split_ifs at h ⊢
      · cases h
        refine .goto (.object ho (.typeName rid [] rfl)) ht ?_
        simp only [Activity.held, Mode.held, Text.utf8Len_nil]
        omega
      · cases h
        exact .stay _ hnames ht
  | stop tag =>
      simp only [Machine.typeNamesStep] at h
      simp only [typeNamesStep]
      split_ifs at h ⊢
      · cases h
        refine ⟨.goto (.object ⟨ho.refId, ho.props, rfl, ho.plain, ho.embedded⟩ .body),
          Table.remember_follows ht rid, ?_⟩
        have hmono := (rememberTypeNames_spends rid names s).mono
        simp only [Move.held, Activity.held, Object.held, Object.bare, Mode.held, Load.own_add,
          Load.own_read]
        omega
      · cases h
        exact .stay _ hnames ht
  | _ =>
      cases h
      exact .stay _ hnames ht

/-- The text of a type name. -/
theorem typeNameStep_follows {o : Object} {ctx : Machine.ObjCtx} {e : Event} {rid : Option Text}
    {names : List Text} {text : Text} (ho : o.Weighs ctx) (ht : t.Weighs s)
    (h : Machine.typeNameStep ctx rid names text s e = .ok (m, s')) :
    Follows p (.object o (.typeName rid (namesWeight names) text)) e s
      (typeNameStep o rid (namesWeight names) text t e) m s' := by
  have hname : Activity.Weighs p (.object o (.typeName rid (namesWeight names) text))
      (.object ctx (.typeName rid names text)) := .object ho (.typeName rid text rfl)
  -- Text is held until the tag ends.
  have htext : ∀ u, eventText e = .ok u →
      Follows p (.object o (.typeName rid (namesWeight names) text)) e s
        (.goto (.object o (.typeName rid (namesWeight names)
          (text ++ (eventText e).toOption.getD []))), t)
        (.goto (.object ctx (.typeName rid names (text ++ u)))) s := by
    intro u hu
    have hsize := eventText_size _ _ hu
    have hget : (eventText e).toOption.getD [] = u := by
      rw [hu]
      rfl
    rw [hget]
    refine .goto (.object ho (.typeName rid _ rfl)) ht ?_
    simp only [Activity.held, Mode.held, Text.utf8Len_append]
    omega
  cases e with
  | stop tag =>
      simp only [Machine.typeNameStep] at h
      simp only [typeNameStep]
      split_ifs at h ⊢
      · cases h
        -- Unescaping never makes the name longer.
        have hone : namesWeight [decodePwshEscapes text]
            = Text.utf8Len (decodePwshEscapes text) + 1 := rfl
        refine .goto (.object ho (.typeNames rid ?_)) ht ?_
        · rw [namesWeight_append, hone]
        · have hdecode := utf8Len_decodePwshEscapes_le text
          simp only [Activity.held, Mode.held]
          omega
      · cases h
        exact .stay _ hname ht
  | _ =>
      simp only [Machine.typeNameStep, except_map_eq_ok] at h
      rcases h with ⟨u, hu, h⟩
      cases h
      exact htext u hu

/-- A reference with something inside. -/
theorem skipRefStep_follows {o : Object} {ctx : Machine.ObjCtx} {e : Event} {rid : Option Text}
    {level : Nat} (ho : o.Weighs ctx) (ht : t.Weighs s)
    (h : Machine.skipRefStep ctx rid level s e = .ok (m, s')) :
    Follows p (.object o (.skipRef rid level)) e s (skipRefStep o rid level t e) m s' := by
  have hskip : ∀ level', Follows p (.object o (.skipRef rid level)) e s
      (.goto (.object o (.skipRef rid level')), t) (.goto (.object ctx (.skipRef rid level'))) s :=
    fun level' => .goto (.object ho (.skipRef rid level')) ht (Nat.le_add_right _ _)
  cases e with
  | stop tag =>
      simp only [Machine.skipRefStep] at h
      simp only [skipRefStep]
      split_ifs at h ⊢
      · cases h
        have hshare := Object.share_follows ho ht rid
        refine .goto (.object hshare.1 .body) ht ?_
        have hheld := hshare.2
        simp only [Activity.held, Mode.held]
        omega
      · cases h
        exact hskip (level - 1)
  | _ =>
      cases h
      exact hskip _

/-- The text of a scalar. -/
theorem leafStep_follows {tag : String} {parse : Text → Except PsrpError PsValue} {text : Text}
    {e : Event} (hparse : leafParser p tag = some parse) (ht : t.Weighs s)
    (h : Machine.leafStep tag parse text s e = .ok (m, s')) :
    Follows p (.leaf tag text) e s (leafStep p tag text t e) m s' := by
  -- Text is held until the tag ends.
  have htext : ∀ u, eventText e = .ok u → Follows p (.leaf tag text) e s
      (.goto (.leaf tag (text ++ (eventText e).toOption.getD [])), t)
      (.goto (.leaf tag parse (text ++ u))) s := by
    intro u hu
    have hsize := eventText_size _ _ hu
    have hget : (eventText e).toOption.getD [] = u := by
      rw [hu]
      rfl
    rw [hget]
    refine .goto (.leaf _ hparse) ht ?_
    simp only [Activity.held, Text.utf8Len_append]
    omega
  cases e with
  | stop u =>
      simp only [Machine.leafStep] at h
      simp only [leafStep]
      split_ifs at h ⊢
      · rw [except_map_eq_ok] at h
        rcases h with ⟨v, hv, h⟩
        cases h
        -- The leaf weighs what its parser made of the text, which is no more than the text.
        have hload : leafLoad p tag text = .read (weight v) := by
          rw [leafLoad, hparse, Option.bind_some, hv]
          rfl
        rw [hload]
        refine ⟨.pop (.some rfl), ht, ?_⟩
        have hw := (leafParser_cases hparse hv).weight_le
        have hdecode := utf8Len_decodePwshEscapes_le text
        simp only [Move.held, Activity.held, Load.ofOption, Option.getD_some, Load.own_read]
        omega
      · cases h
        exact .stay _ (.leaf text hparse) ht
  | _ =>
      simp only [Machine.leafStep, except_map_eq_ok] at h
      rcases h with ⟨u, hu, h⟩
      cases h
      exact htext u hu

/-- An element that is passed over. -/
theorem skipStep_follows {level : Nat} {l : Option Load} {v : Option PsValue} {e : Event}
    (hl : Option.Rel Load.Weighs l v) (ht : t.Weighs s)
    (h : Machine.skipStep level v s e = .ok (m, s')) :
    Follows p (.skip level l) e s (skipStep level l t e) m s' := by
  have hskip : ∀ level', Follows p (.skip level l) e s (.goto (.skip level' l), t)
      (.goto (.skip level' v)) s :=
    fun level' => .goto (.skip level' hl) ht (Nat.le_add_right _ _)
  cases e with
  | stop tag =>
      cases h
      simp only [skipStep]
      split_ifs
      · refine ⟨.pop hl, ht, ?_⟩
        simp only [Move.held, Activity.held]
        omega
      · exact hskip (level - 1)
  | _ =>
      cases h
      exact hskip _

/-- One step of the scan follows one of the decoder. -/
theorem Activity.step_follows {a : Activity} {a' : Machine.Activity} {e : Event}
    (ha : a.Weighs p a') (ht : t.Weighs s) (hbudget : s.budget < maxWeight)
    (h : a'.step p s e = .ok (m, s')) : Follows p a e s (a.step p t e) m s' := by
  cases ha with
  | leaf text hparse => exact leafStep_follows hparse ht h
  | skip level hl => exact skipStep_follows hl ht h
  | object ho hmode =>
      cases hmode with
      | body => exact bodyStep_follows ho ht hbudget h
      | members => exact membersStep_follows ho ht hbudget h
      | list closing hl => exact listStep_follows ho hl ht hbudget h
      | dict hl => exact dictStep_follows ho hl ht h
      | entry hl hkey hvalue => exact entryStep_follows ho hl hkey hvalue ht hbudget h
      | typeNames rid hn =>
          rw [hn]
          exact typeNamesStep_follows ho ht h
      | typeName rid text hn =>
          rw [hn]
          exact typeNameStep_follows ho ht h
      | skipRef => exact skipRefStep_follows ho ht h

end Rules

end Sharing

namespace Scan

open Sharing

/-- What a scan owns. -/
def held (c : Scan) : Nat := (c.stack.map Frame.held).sum + c.out.own

/-- The scan carries what the values of the decoder weigh. -/
structure Weighs (p : Platform) (c : Scan) (d : Machine.Config) : Prop where
  stack : List.Forall₂ (Frame.Weighs p) c.stack d.stack
  table : c.table.Weighs d.state
  out : c.out.total = itemsWeight d.out

theorem out_weighs {l : Option Load} {v : Option PsValue} {out : Load} {vs : List PsValue}
    (hout : out.total = itemsWeight vs) (hl : Option.Rel Load.Weighs l v) :
    (out + .ofOption l).total = itemsWeight (vs ++ v.toList) := by
  rw [Load.total_add, hout, itemsWeight_append]
  cases hl with
  | none => rfl
  | @some l v hl =>
      have hv : (Load.ofOption (some l)).total = weight v := hl
      rw [hv]
      simp only [Option.toList, itemsWeight]
      omega

variable {p : Platform}

/-- What is finished goes to the frame below. -/
theorem deliver_weighs {c : Scan} {d : Machine.Config} {l : Option Load} {v : Option PsValue}
    (name : Text) (hc : c.Weighs p d) (hl : Option.Rel Load.Weighs l v) :
    (deliver name l c).Weighs p (Machine.deliver name v d) := by
  rcases c with ⟨stack, t, out⟩
  rcases d with ⟨stack', s, vs⟩
  rcases hc with ⟨hstack, ht, hout⟩
  cases hstack with
  | nil => exact ⟨.nil, ht, out_weighs hout hl⟩
  | cons hf hrest =>
      exact ⟨.cons ⟨hf.name, receive_weighs name hf.activity hl⟩ hrest, ht, hout⟩

/-- And what it weighs stays. -/
theorem deliver_held (name : Text) (l : Option Load) (c : Scan) :
    (deliver name l c).held ≤ c.held + Text.utf8Len name + 1 + (Load.ofOption l).own := by
  rcases c with ⟨stack, t, out⟩
  cases stack with
  | nil =>
      simp only [deliver, held, Load.own_add]
      omega
  | cons f rest =>
      have hreceive := receive_held name l f.activity
      simp only [deliver, held, List.map_cons, List.sum_cons, Frame.held]
      omega

/-- A step of the scan follows a step of the machine. -/
theorem step_follows {c : Scan} {d d' : Machine.Config} {e : Event} (hc : c.Weighs p d)
    (hbudget : d.state.budget < maxWeight) (h : d.step p e = .ok d') :
    (c.step p e).Weighs p d'
      ∧ (c.step p e).held + d.state.expanded ≤ c.held + e.size + d'.state.expanded := by
  rcases c with ⟨stack, t, out⟩
  rcases d with ⟨stack', s, vs⟩
  rcases hc with ⟨hstack, ht, hout⟩
  -- At the top level, an element is opened or taken whole.
  cases hstack with
  | nil =>
      cases e with
      | start tag attrs =>
          simp only [Machine.Config.step, except_map_eq_ok] at h
          rcases h with ⟨⟨f, s'⟩, hopen, rfl⟩
          have hfollows := openElement_follows (Or.inl rfl) ht hbudget hopen
          refine ⟨⟨.cons hfollows.1 .nil, hfollows.2.1, hout⟩, ?_⟩
          have hheld : (openElement p [] tag attrs t).held + s.expanded
              ≤ (Event.start tag attrs).size + s'.expanded := hfollows.2.2
          simp only [step, held, List.map_cons, List.map_nil, List.sum_cons, List.sum_nil]
          omega
      | empty tag attrs =>
          simp only [Machine.Config.step, except_map_eq_ok] at h
          rcases h with ⟨⟨v, s'⟩, hempty, rfl⟩
          rcases parseEmpty_follows ht hbudget hempty with ⟨hl, ht', hown⟩
          refine ⟨⟨.nil, ht', out_weighs hout hl⟩, ?_⟩
          have hsize : 1 ≤ (Event.empty tag attrs).size := by
            simp only [Event.size]
            omega
          simp only [step, held, Load.own_add] at hown ⊢
          omega
      | _ =>
          cases h
          exact ⟨⟨.nil, ht, hout⟩, Nat.add_le_add_right (Nat.le_add_right _ _) _⟩
  | @cons f f' rest rest' hf hrest =>
      simp only [Machine.Config.step, except_map_eq_ok] at h
      rcases h with ⟨⟨m, s'⟩, hstep, rfl⟩
      -- Inside an element, the innermost activity takes the step.
      have hfollows := Activity.step_follows hf.activity ht hbudget hstep
      rcases hmove : f.activity.step p t e with ⟨r, t'⟩
      rw [hmove] at hfollows
      rcases hfollows with ⟨hm, ht', hown⟩
      have hscan : step p ⟨f :: rest, t, out⟩ e = move f.name rest f.activity out (r, t') := by
        rw [← hmove]
        rfl
      rw [hscan]
      cases hm with
      | goto hb =>
          refine ⟨⟨.cons ⟨hf.name, hb⟩ hrest, ht', hout⟩, ?_⟩
          simp only [move, Machine.Config.move, held, List.map_cons, List.sum_cons, Frame.held,
            Move.held] at hown ⊢
          omega
      | push hg =>
          refine ⟨⟨.cons hg (.cons ⟨hf.name, hf.activity⟩ hrest), ht', hout⟩, ?_⟩
          simp only [move, Machine.Config.move, held, List.map_cons, List.sum_cons, Frame.held,
            Move.held] at hown ⊢
          omega
      | @pop l v hl =>
          -- The value of the element goes to the activity below it.
          have hbelow : Weighs p ⟨rest, t', out⟩
              ⟨rest', { s' with depth := s'.depth - 1 }, vs⟩ :=
            ⟨hrest, ⟨ht'.referenced, ht'.refs, ht'.typeNames⟩, hout⟩
          have hdeliver := deliver_held f.name l ⟨rest, t', out⟩
          have hweighs := deliver_weighs f.name hbelow hl
          rw [hf.name] at hweighs
          refine ⟨?_, ?_⟩
          · rw [move, hf.name]
            exact hweighs
          · rw [Machine.Config.move, Machine.deliver_state]
            simp only [move, held, List.map_cons, List.sum_cons, Frame.held, Move.held]
              at hown hdeliver ⊢
            omega

/-- Closing the frames at the end of the document. -/
theorem close_follows {rest : List Sharing.Frame} {rest' : List Machine.Frame}
    (hrest : List.Forall₂ (Frame.Weighs p) rest rest') {out : Load} {vs : List PsValue}
    (hout : out.total = itemsWeight vs) :
    ∀ {name : Text} {a : Activity} {a' : Machine.Activity} {ws : List PsValue}, a.Weighs p a' →
      Machine.finish vs name a' rest' = .ok ws →
      (close out name a rest).total = itemsWeight ws
        ∧ (close out name a rest).own
          ≤ Text.utf8Len name + 1 + a.held + (rest.map Frame.held).sum + out.own := by
  -- What a stream that ends inside an element leaves of it.
  have heof : ∀ {a : Activity} {a' : Machine.Activity} {v : Option PsValue}, a.Weighs p a' →
      a'.atEof = .ok v → Option.Rel Load.Weighs a.atEof v
        ∧ (Load.ofOption a.atEof).own ≤ a.held := by
    intro a a' v ha h
    cases ha with
    | leaf => cases h
    | skip level hl =>
        cases h
        exact ⟨hl, Nat.le_refl _⟩
    | object _ hmode => cases hmode <;> cases h
  -- From the innermost element outwards, each value goes to the one below.
  induction hrest with
  | nil =>
      intro name a a' ws ha h
      rw [Machine.finish, except_map_eq_ok] at h
      rcases h with ⟨v, hv, rfl⟩
      have hvalue := heof ha hv
      refine ⟨out_weighs hout hvalue.1, ?_⟩
      have hown := hvalue.2
      simp only [close, Load.own_add]
      omega
  | @cons f f' rest _ hf _ ih =>
      intro name a a' ws ha h
      rw [Machine.finish] at h
      cases hv : a'.atEof with
      | error x =>
          rw [hv] at h
          cases h
      | ok v =>
          rw [hv] at h
          have hvalue := heof ha hv
          have hclose := ih (receive_weighs name hf.activity hvalue.1) h
          rw [← hf.name] at hclose
          refine ⟨hclose.1, ?_⟩
          have hreceive := receive_held name a.atEof f.activity
          have hown := hclose.2
          have hvalue := hvalue.2
          simp only [close, List.map_cons, List.sum_cons, Frame.held]
          omega

/-- A scan of a run that ends weighs what the run returns, and owns at most
    what it owned, the bytes it read, and what was charged. -/
theorem run_follows {ft : Option String} {vs : List PsValue} (es : List Event) :
    ∀ {c : Scan} {d : Machine.Config}, c.Weighs p d → d.state.budget < maxWeight →
      d.run p ft es = .ok vs →
      ∃ d', d.Reaches p es d' ∧ (es.foldl (step p) c).finish.total = itemsWeight vs
        ∧ (es.foldl (step p) c).finish.own + d.state.expanded
          ≤ c.held + Xml.sizeSum es + d'.state.expanded := by
  -- After every event the scan weighs the configuration, and what it holds is paid for by the
  -- events read and by the budget spent.
  induction es with
  | nil =>
      intro c d hc _ h
      refine ⟨d, .refl d, ?_⟩
      cases ft with
      | some msg => cases h
      | none =>
          rcases c with ⟨stack, t, out⟩
          rcases d with ⟨stack', s, ws⟩
          rcases hc with ⟨hstack, _, hout⟩
          cases hstack with
          | nil =>
              cases h
              refine ⟨hout, ?_⟩
              simp only [List.foldl_nil, finish, held]
              omega
          | @cons f f' rest rest' hf hrest =>
              -- The events end inside an element.
              have htop : out.total = itemsWeight ws := hout
              have hclose := close_follows hrest htop hf.activity h
              rw [← hf.name] at hclose
              refine ⟨hclose.1, ?_⟩
              have hown := hclose.2
              simp only [List.foldl_nil, finish, held, List.map_cons, List.sum_cons, Frame.held,
                Xml.sizeSum_nil]
              omega
  | cons e es ih =>
      intro c d hc hbudget h
      rw [Machine.Config.run] at h
      cases hstep : d.step p e with
      | error x =>
          rw [hstep] at h
          cases h
      | ok d' =>
          rw [hstep] at h
          have hfollows := step_follows hc hbudget hstep
          -- A step never changes the budget.
          have hbudget' : d'.state.budget < maxWeight :=
            (Machine.Config.step_spends hbudget hstep).budget ▸ hbudget
          rcases ih hfollows.1 hbudget' h with ⟨d'', hreach, htotal, hown⟩
          refine ⟨d'', .step hstep hreach, htotal, ?_⟩
          have hheld := hfollows.2
          rw [Xml.sizeSum_cons]
          simp only [List.foldl_cons]
          omega

end Scan

/-- Of a document that decodes the scan says what is returned, and what is
    owned is covered by the document and by its budget. -/
theorem documentLoad_follows {p : Platform} (hp : p.Lawful) {xml : Text} {vs : List PsValue}
    (h : parseClixml p xml = .ok vs) :
    (documentLoad p xml).total = itemsWeight vs
      ∧ (documentLoad p xml).own ≤ Text.utf8Len xml + refBudget (Text.utf8Len xml) := by
  have hsize := hp.read.size_le (cleanDocument xml)
  have hclean := utf8Len_cleanDocument_le xml
  have hmono := refBudget_mono hclean
  rw [Machine.parseClixml_eq_decode] at h
  have hstart : (Scan.start (referencedIds (p.read (cleanDocument xml)).events)).Weighs p
      (startOf p xml) := ⟨.nil, ⟨rfl, .nil, .nil⟩, rfl⟩
  rcases Scan.run_follows _ hstart (refBudget_lt _) h with ⟨c, hreach, htotal, hown⟩
  refine ⟨htotal, ?_⟩
  have hspends := hreach.spends (refBudget_lt _)
  have hwithin : c.state.expanded ≤ refBudget (Text.utf8Len (cleanDocument xml)) := by
    have hle := hspends.within (Nat.zero_le _)
    rw [hspends.budget] at hle
    exact hle
  have hheld : (Scan.start (referencedIds (p.read (cleanDocument xml)).events)).held = 0 := rfl
  show (Scan.finish _).own ≤ _
  omega

end Psrp

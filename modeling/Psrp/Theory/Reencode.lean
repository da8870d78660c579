import Psrp.Theory.Decoded
import Psrp.Theory.RoundTrip

/-!
# Decode, Then Encode

What becomes of a decoded value that is encoded again.

A decoded value is almost a normal form. It carries no text of a `ToString`,
its decimals are trimmed, and a bare list or dictionary stands only where an
object exposes it. What can still be lost is what the format has no second
spelling for: a character outside the basic plane, and a member of the name
`_value` that is null or has company. `Lossless` excludes these, and a decoded
value is a normal form exactly when it holds (`closed_norm`).

## Main definitions

* `PsValue.Lossless`: Nothing in the value is lost.
* `nestedDocument`: Lists around a self-closed text.

## Theorems

* `norm_object_eq_self`: When an object is a normal form.
* `closed_norm`: A decoded value is a normal form exactly when it is lossless.
* `clixml_reencode`: Decoding, encoding and decoding again.
* `clixml_reencode_fails`: What does not survive that.
-/

namespace Psrp

namespace PsValue

mutual

/-- No character outside the basic plane, and no `_value` that is null or has
    other properties beside it. -/
def Lossless : PsValue → Prop
  | .char c => c.toNat < 2 ^ 16
  | .list items => LosslessItems items
  | .dict entries => LosslessEntries entries
  | .object ⟨props, _, _⟩ =>
    (∀ q ∈ props, q.1 = valueKey → props.length = 1 ∧ q.2 ≠ .null) ∧ LosslessProps props
  | _ => True

def LosslessItems : List PsValue → Prop
  | [] => True
  | v :: vs => Lossless v ∧ LosslessItems vs

def LosslessEntries : List (PsValue × PsValue) → Prop
  | [] => True
  | (k, v) :: es => Lossless k ∧ Lossless v ∧ LosslessEntries es

def LosslessProps : List (Text × PsValue) → Prop
  | [] => True
  | (_, v) :: ps => Lossless v ∧ LosslessProps ps

end

theorem losslessItems_iff (items : List PsValue) :
    LosslessItems items ↔ ∀ v ∈ items, Lossless v := by
  induction items with
  | nil => simp only [LosslessItems, List.not_mem_nil, false_implies, implies_true]
  | cons v vs ih => rw [LosslessItems, ih, List.forall_mem_cons]

theorem losslessEntries_iff (entries : List (PsValue × PsValue)) :
    LosslessEntries entries ↔ ∀ e ∈ entries, Lossless e.1 ∧ Lossless e.2 := by
  induction entries with
  | nil => simp only [LosslessEntries, List.not_mem_nil, false_implies, implies_true]
  | cons e es ih => rw [LosslessEntries, ih, List.forall_mem_cons, and_assoc]

theorem losslessProps_iff (props : List (Text × PsValue)) :
    LosslessProps props ↔ ∀ q ∈ props, Lossless q.2 := by
  induction props with
  | nil => simp only [LosslessProps, List.not_mem_nil, false_implies, implies_true]
  | cons q ps ih => rw [LosslessProps, ih, List.forall_mem_cons]

/-- A mapped list is the list itself when every element is mapped to itself. -/
theorem map_eq_self_iff {α : Type} (f : α → α) (l : List α) :
    l.map f = l ↔ ∀ a ∈ l, f a = a := by
  induction l with
  | nil => simp only [List.map_nil, List.not_mem_nil, false_implies, implies_true]
  | cons a l ih => rw [List.map_cons, List.cons.injEq, ih, List.forall_mem_cons]

/-- Whether a value is a container without an object around it. -/
def isBare : PsValue → Bool
  | .list _ | .dict _ => true
  | _ => false

/-- What stands bare and is no container is normalised as a value. -/
theorem normValue_of_not_bare (v : PsValue) (hbare : v.isBare = false) (hnull : v ≠ .null) :
    normValue [(valueKey, v)] = some (norm v) := by
  cases v with
  | null => exact absurd rfl hnull
  | list | dict => cases hbare
  | _ => simp only [normValue, if_true]

theorem normValue_null : normValue [(valueKey, .null)] = none := by
  simp only [normValue, if_true]

/-- The members are unchanged when none is the synthetic property, and each is
    a normal form. -/
theorem normMembers_eq_self_iff (props : List (Text × PsValue)) :
    normMembers props = props ↔ ∀ q ∈ props, q.1 ≠ valueKey ∧ norm q.2 = q.2 := by
  rw [normMembers_eq_map]
  constructor
  · intro h
    have hlen := congrArg List.length h
    rw [List.length_map] at hlen
    have hfilter := List.filter_eq_self.mp
      (List.Sublist.eq_of_length List.filter_sublist hlen)
    have hkeys : ∀ q ∈ props, q.1 ≠ valueKey := fun q hq => of_decide_eq_true (hfilter q hq)
    rw [List.filter_eq_self.mpr hfilter, map_eq_self_iff] at h
    exact fun q hq => ⟨hkeys q hq, congrArg Prod.snd (h q hq)⟩
  · intro h
    rw [List.filter_eq_self.mpr fun q hq => decide_eq_true (h q hq).1, map_eq_self_iff]
    exact fun q hq => Prod.ext rfl (h q hq).2

/-- An object of the synthetic property alone. -/
theorem norm_exposed (v : PsValue) (typeNames : List Text) :
    norm (.object ⟨[(valueKey, v)], typeNames, none⟩)
        = .object ⟨[(valueKey, v)], typeNames, none⟩
      ↔ normValue [(valueKey, v)] = some v := by
  have honly : onlyValue [(valueKey, v)] = true := by
    rw [onlyValue_cons, decide_eq_true rfl]
    rfl
  rw [norm, if_pos honly]
  cases normValue [(valueKey, v)] with
  | none => simp only [Option.elim_none, PsValue.object.injEq, PsObjectOf.mk.injEq, reduceCtorEq,
      false_and]
  | some u =>
      simp only [Option.elim_some, PsValue.object.injEq, PsObjectOf.mk.injEq, List.cons.injEq,
        Prod.mk.injEq, and_true, true_and, Option.some.injEq]

theorem eq_singleton_of_onlyValue (props : List (Text × PsValue)) (hkeyed : IndexMap.Keyed props)
    (h : onlyValue props = true) : props = [] ∨ ∃ v, props = [(valueKey, v)] := by
  rcases props with _ | ⟨⟨k, v⟩, ps⟩
  · exact Or.inl rfl
  · refine Or.inr ⟨v, ?_⟩
    rw [onlyValue_cons, Bool.and_eq_true, decide_eq_true_eq] at h
    rcases ps with _ | ⟨⟨l, w⟩, qs⟩
    · rw [h.1]
    · have hl := h.2
      rw [onlyValue_cons, Bool.and_eq_true, decide_eq_true_eq] at hl
      rw [IndexMap.Keyed, List.map_cons, List.map_cons, List.nodup_cons] at hkeyed
      exact absurd (List.mem_cons_self ..) (h.1.trans hl.1.symm ▸ hkeyed.1)

/-- An object whose members are normal forms exactly when they are lossless is
    a normal form exactly when it is lossless. -/
theorem norm_object_eq_self (o : PsObject) (htext : o.toString = none)
    (hkeyed : IndexMap.Keyed o.properties)
    (h : ∀ q ∈ o.properties, q.2.isBare = false ∧ (norm q.2 = q.2 ↔ Lossless q.2)) :
    norm (.object o) = .object o ↔ Lossless (.object o) := by
  rcases o with ⟨props, typeNames, toString⟩
  cases htext
  rw [Lossless, losslessProps_iff]
  by_cases honly : onlyValue props = true
  · rcases eq_singleton_of_onlyValue props hkeyed honly with rfl | ⟨v, rfl⟩
    · simp only [List.not_mem_nil, false_implies, implies_true, and_self, iff_true]
      rfl
    · have hv := h _ (List.mem_singleton_self _)
      rw [norm_exposed]
      simp only [List.mem_singleton, forall_eq, List.length_singleton, true_and, true_implies]
      by_cases hnull : v = .null
      · rw [hnull, normValue_null]
        simp only [reduceCtorEq, ne_eq, not_true_eq_false, false_and]
      · rw [normValue_of_not_bare v hv.1 hnull, Option.some.injEq, hv.2]
        simp only [ne_eq, hnull, not_false_eq_true, true_and]
  · have hnorm : norm (.object ⟨props, typeNames, none⟩) = .object ⟨props, typeNames, none⟩
        ↔ normMembers props = props := by
      rw [norm, if_neg honly]
      simp only [PsValue.object.injEq, PsObjectOf.mk.injEq, and_true]
    rw [hnorm, normMembers_eq_self_iff]
    constructor
    · intro hall
      exact ⟨fun q hq hk => absurd hk (hall q hq).1, fun q hq => ((h q hq).2).mp (hall q hq).2⟩
    · rintro ⟨hvalue, hall⟩ q hq
      refine ⟨fun hk => honly ?_, ((h q hq).2).mpr (hall q hq)⟩
      -- A `_value` would be the only property.
      rcases List.length_eq_one_iff.mp (hvalue q hq hk).1 with ⟨r, rfl⟩
      rw [List.mem_singleton.mp hq] at hk
      rw [onlyValue_cons r.1 r.2, decide_eq_true hk]
      rfl

end PsValue

open PsValue (normValue normItems normEntries Lossless)

/-- A leaf is a normal form unless it is a wide character. -/
theorem LeafOf.norm_eq_self {t : Text} {v : PsValue} (h : LeafOf t v) :
    v.norm = v ↔ Lossless v := by
  cases h with
  | text hv =>
      simp only [List.mem_cons, List.not_mem_nil, or_false] at hv
      rcases hv with rfl | rfl | rfl | rfl | rfl | rfl | rfl | rfl <;>
        exact iff_of_true rfl trivial
  | decimal => exact iff_of_true (by rw [PsValue.norm, Text.trim_trim]) trivial
  | bytes => exact iff_of_true rfl trivial
  | scalar hv =>
      cases v with
      | char c =>
          rw [PsValue.norm, Lossless, PsValue.char.injEq]
          split_ifs with hc
          · exact iff_of_true rfl hc
          · refine iff_of_false (fun heq => hc ?_) hc
            rw [← heq]
            decide
      | _ => first
        | exact iff_of_true rfl trivial
        | cases hv

theorem LeafOf.valid {t : Text} {v : PsValue} (h : LeafOf t v) : v.Valid := by
  have hleaf := h.isContainer
  cases v with
  | list | dict | object => cases hleaf
  | _ => trivial

namespace Machine

/-- A decoded value is valid and no bare container, and it is a normal form
    exactly when it is lossless. -/
theorem closed_norm (p : Platform) :
    Closed p (fun _ v => v.isBare = false ∧ v.Valid ∧ (v.norm = v ↔ Lossless v))
      (fun _ v => v.Valid ∧ (normValue [(valueKey, v)] = some v ↔ v ≠ .null ∧ Lossless v)) where
  leaf d tag parse t v hparser hparse := by
    have hleaf := leafParser_cases hparser hparse
    refine ⟨?_, hleaf.valid, hleaf.norm_eq_self⟩
    have hcontainer := hleaf.isContainer
    cases v <;> first
      | rfl
      | cases hcontainer
  null _ := ⟨rfl, trivial, iff_of_true rfl trivial⟩
  emptyString _ := ⟨rfl, trivial, iff_of_true rfl trivial⟩
  emptyScript _ := ⟨rfl, trivial, iff_of_true rfl trivial⟩
  -- A bare value is picked up again, unless it is null.
  bare d v h := by
    refine ⟨h.2.1, ?_⟩
    by_cases hnull : v = .null
    · rw [hnull, PsValue.normValue_null]
      simp only [reduceCtorEq, ne_eq, not_true_eq_false, false_and]
    · rw [PsValue.normValue_of_not_bare v h.1 hnull, Option.some.injEq, h.2.2]
      simp only [ne_eq, hnull, not_false_eq_true, true_and]
  -- A container is its own normal form exactly if all its parts are.
  list d items h := by
    refine ⟨(PsValue.valid_list items).mpr fun v hv => (h v hv).2.1, ?_⟩
    have hvalue : normValue [(valueKey, .list items)] = some (.list (normItems items)) := by
      simp only [normValue, if_true]
    rw [hvalue, Option.some.injEq, PsValue.list.injEq, PsValue.normItems_eq_map,
      PsValue.map_eq_self_iff, Lossless, PsValue.losslessItems_iff]
    simp only [ne_eq, reduceCtorEq, not_false_eq_true, true_and]
    exact forall₂_congr fun v hv => (h v hv).2.2
  dict d entries h := by
    refine ⟨(PsValue.valid_dict entries).mpr fun e he => ⟨(h e he).1.2.1, (h e he).2.2.1⟩, ?_⟩
    have hvalue : normValue [(valueKey, .dict entries)] = some (.dict (normEntries entries)) := by
      simp only [normValue, if_true]
    rw [hvalue, Option.some.injEq, PsValue.dict.injEq, PsValue.normEntries_eq_map,
      PsValue.map_eq_self_iff, Lossless, PsValue.losslessEntries_iff]
    simp only [ne_eq, reduceCtorEq, not_false_eq_true, true_and]
    refine forall₂_congr fun e he => ?_
    rw [← (h e he).1.2.2, ← (h e he).2.2.2]
    exact Prod.ext_iff
  object d _ o htext hkeyed h :=
    ⟨rfl, (PsValue.valid_object o).mpr ⟨hkeyed, fun q hq => (h q hq).2.1⟩,
      PsValue.norm_object_eq_self o htext hkeyed fun q hq => ⟨(h q hq).1, (h q hq).2.2⟩⟩
  -- A lone value among the properties is written as a bare one.
  exposed d _ typeNames v h := by
    refine ⟨rfl, (PsValue.valid_object _).mpr ⟨List.nodup_singleton _, fun q hq => ?_⟩, ?_⟩
    · rw [List.mem_singleton.mp hq]
      exact h.1
    · rw [PsValue.norm_exposed, h.2, Lossless, PsValue.losslessProps_iff]
      simp only [List.mem_singleton, forall_eq, List.length_singleton, true_and, true_implies]
  copied _ _ _ h _ := h

end Machine

/-- A value survives encoding and decoding when it is its own normal form, if
    its document is within the limit. -/
theorem parseClixml_toClixml_eq_self {p : Platform} (hp : p.Lawful) (v : PsValue) (hv : v.Valid) :
    parseClixml p (toClixml p v) = .ok [v] ↔ v.nest ≤ MAX_NESTING_DEPTH ∧ v.norm = v := by
  rw [Machine.parseClixml_toClixml hp v hv]
  split_ifs with hnest
  · simp only [Except.ok.injEq, List.cons.injEq, and_true, hnest, true_and]
  · simp only [hnest, false_and]

/-- A decoded value whose document nests within the limit survives encoding
    and decoding exactly when nothing in it is lost. -/
theorem clixml_reencode (p : Platform) (hp : p.Lawful) (xml : Text) (vs : List PsValue)
    (h : parseClixml p xml = .ok vs) (w : PsValue) (hw : w ∈ vs)
    (hnest : w.nest ≤ MAX_NESTING_DEPTH) :
    parseClixml p (toClixml p w) = .ok [w] ↔ w.Lossless := by
  rcases Machine.closed_parseClixml (Machine.closed_norm p) h w hw with ⟨_, hvalid, hnorm⟩
  rw [parseClixml_toClixml_eq_self hp w hvalid, hnorm]
  simp only [hnest, true_and]

/-- A text in a list is within the limit, and nothing in it is lost. -/
theorem clixml_reencode_list :
    parseClixml Platform.basic (toClixml Platform.basic (PsValue.wrap (.list [.string "a".toList])))
        = .ok [PsValue.wrap (.list [.string "a".toList])]
      ↔ (PsValue.wrap (.list [.string "a".toList])).Lossless :=
  clixml_reencode Platform.basic Platform.basic_lawful
    (toClixml Platform.basic (.list [.string "a".toList])) _
    (by
      rw [Machine.parseClixml_toClixml Platform.basic_lawful _ (by
        rw [PsValue.valid_list]
        exact fun v hv => List.mem_singleton.mp hv ▸ trivial)]
      rfl) _ (List.mem_singleton_self _) (by decide)

/-- Lists around a self-closed text. -/
def nestedDocument : Nat → Xml.Node
  | 0 => .empty "S" []
  | n + 1 => .element "Obj" [] [.element "LST" [] [nestedDocument n]]

/-- The value they are decoded to. -/
def nestedValue : Nat → PsValue
  | 0 => .string []
  | n + 1 => PsValue.wrap (.list [nestedValue n])

namespace Machine

/-- A self-closed text counts no level. -/
theorem exec_nestedDocument (p : Platform) (n : Nat) : ∀ c : Config,
    c.state.depth + n ≤ MAX_NESTING_DEPTH →
    (c.stack = [] ∨ ∃ name ctx closing items rest,
      c.stack = ⟨name, .object ctx (.list closing items)⟩ :: rest) →
    c.exec p (nestedDocument n).events = .ok (deliver [] (some (nestedValue n)) c) := by
  induction n with
  | zero =>
      rintro ⟨stack, s, out⟩ _ (hc | ⟨name, ctx, closing, items, rest, hc⟩)
      · cases hc
        rfl
      · cases hc
        rfl
  | succ n ih =>
      intro c hdepth hc
      let ctx : ObjCtx := ⟨none, PsObject.new, none⟩
      have haccepts : Accepts c none (nestedValue n) := by
        rcases c with ⟨stack, s, out⟩
        rcases hc with hc | ⟨name, ctx, closing, items, rest, hc⟩
        · cases hc
          rfl
        · cases hc
          rfl
      -- One level down, as long as there is room,
      have hopen : c.step p (.start "Obj" []) = .ok (c.inObject [] ctx .body) := by
        rw [step_start p c none (nestedValue n) "Obj" [] haccepts (by decide) rfl, openElement,
          if_neg (by omega)]
        rfl
      -- then the inner document as the item of a list,
      have hinner := ih (c.inObject [] ctx (.list "LST" []))
        (by rw [Config.inObject, push_depth]; omega) (Or.inr ⟨_, _, _, _, _, rfl⟩)
      -- and back up with it.
      have hclose : (c.inObject [] { ctx with embedded := some (.list [nestedValue n]) } .body).step
          p (.stop "Obj") = .ok (deliver [] (some (nestedValue (n + 1))) c) := by
        rcases c with ⟨stack, s, out⟩
        cases stack <;> rfl
      simp only [nestedDocument, Xml.Node.events, Xml.eventsList, Xml.readAttrs, List.map_nil,
        List.append_nil, Config.exec, hopen]
      show (c.inObject [] ctx (.list "LST" [])).exec p
        (((nestedDocument n).events ++ [.stop "LST"]) ++ [.stop "Obj"]) = _
      rw [List.append_assoc, exec_append, hinner]
      show (c.inObject [] { ctx with embedded := some (.list [nestedValue n]) } .body).exec p
        [.stop "Obj"] = _
      rw [exec_cons hclose]
      rfl

theorem parseClixml_nestedDocument {p : Platform} (hp : p.Lawful) (n : Nat)
    (h : n ≤ MAX_NESTING_DEPTH) : parseClixml p (nestedDocument n).render = .ok [nestedValue n] := by
  have hplain : ∀ m, (nestedDocument m).plain = true ∧ (nestedDocument m).isText = false := by
    intro m
    induction m with
    | zero => exact ⟨by decide, rfl⟩
    | succ m ih =>
        have hobj : Xml.plainName "Obj" = true := by decide
        have hlst : Xml.plainName "LST" = true := by decide
        have hnil : Xml.plainAttrs [] = true := rfl
        exact ⟨by simp only [nestedDocument, Xml.Node.plain, Xml.plainList, hobj, hlst, hnil, ih,
          List.head?_nil, Option.map_none, Option.getD_none, Bool.and_false, Bool.not_false,
          Bool.and_self], rfl⟩
  rw [parseClixml_render hp _ (hplain n).2 (hplain n).1, run_eq_exec,
    exec_nestedDocument p n _ (by simpa only [Config.start, initialState, Nat.zero_add] using h)
      (Or.inl rfl)]
  rfl

end Machine

theorem valid_nestedValue (n : Nat) : (nestedValue n).Valid := by
  induction n with
  | zero => trivial
  | succ n ih =>
      refine (PsValue.valid_object _).mpr ⟨List.nodup_singleton _, fun q hq => ?_⟩
      rw [List.mem_singleton.mp hq]
      exact (PsValue.valid_list _).mpr fun v hv => List.mem_singleton.mp hv ▸ ih

theorem nest_nestedValue (n : Nat) : (nestedValue n).nest = n + 1 := by
  induction n with
  | zero => rfl
  | succ n ih =>
      have hlist : PsValue.nestValue [(valueKey, .list [nestedValue n])]
          = max (nestedValue n).nest 0 := by
        simp only [PsValue.nestValue, if_true, PsValue.nestItems]
      rw [nestedValue, PsValue.wrap, PsValue.nest, hlist, ih]
      simp only [PsValue.nestMembers, if_true, Option.isSome_none, Bool.false_eq_true, if_false]
      omega

/-- A wide character is decoded, so is a `_value` among members, and so is a
    self-closed text below 64 lists. None of them survives encoding. -/
theorem clixml_reencode_fails :
    (parseClixml Platform.basic (Xml.Node.render (.element "C" [] [.text "128512".toList]))
        = .ok [.char (Char.ofNat 128512)]
      ∧ parseClixml Platform.basic (toClixml Platform.basic (.char (Char.ofNat 128512)))
        ≠ .ok [.char (Char.ofNat 128512)])
    ∧ (parseClixml Platform.basic
        (Xml.Node.render (.element "Obj" [] [.element "MS" [] [.empty "Nil" [("N", valueKey)]]]))
        = .ok [.object ⟨[(valueKey, .null)], [], none⟩]
      ∧ parseClixml Platform.basic (toClixml Platform.basic
          (.object ⟨[(valueKey, .null)], [], none⟩))
        ≠ .ok [.object ⟨[(valueKey, .null)], [], none⟩])
    ∧ (parseClixml Platform.basic (Xml.Node.render (.element "Obj" [] [.element "MS" []
          [.empty "S" [("N", valueKey)], .empty "S" [("N", "a".toList)]]]))
        = .ok [.object ⟨[(valueKey, .string []), ("a".toList, .string [])], [], none⟩]
      ∧ parseClixml Platform.basic (toClixml Platform.basic
          (.object ⟨[(valueKey, .string []), ("a".toList, .string [])], [], none⟩))
        ≠ .ok [.object ⟨[(valueKey, .string []), ("a".toList, .string [])], [], none⟩])
    ∧ (parseClixml Platform.basic (nestedDocument 64).render = .ok [nestedValue 64]
      ∧ parseClixml Platform.basic (toClixml Platform.basic (nestedValue 64))
        ≠ .ok [nestedValue 64]) := by
  have hp := Platform.basic_lawful
  -- Each document decodes, and what it decodes to is no normal form, or is too deep.
  refine ⟨⟨?_, ?_⟩, ⟨?_, ?_⟩, ⟨?_, ?_⟩, ⟨?_, ?_⟩⟩
  · rw [Machine.parseClixml_render hp _ rfl (by decide)]
    rfl
  · rw [Ne, parseClixml_toClixml_eq_self hp (.char _) trivial]
    rintro ⟨_, h⟩
    exact absurd (PsValue.char.inj h) (by decide)
  · rw [Machine.parseClixml_render hp _ rfl (by decide)]
    rfl
  · rw [Ne, parseClixml_toClixml_eq_self hp (.object ⟨[(valueKey, .null)], [], none⟩)
      ⟨by decide, trivial, trivial⟩]
    rintro ⟨_, h⟩
    cases h
  · rw [Machine.parseClixml_render hp _ rfl (by decide)]
    rfl
  · rw [Ne, parseClixml_toClixml_eq_self hp
      (.object ⟨[(valueKey, .string []), ("a".toList, .string [])], [], none⟩)
      ⟨by decide, trivial, trivial, trivial⟩]
    rintro ⟨_, h⟩
    cases h
  · exact Machine.parseClixml_nestedDocument hp 64 (Nat.le_refl _)
  · rw [Ne, parseClixml_toClixml_eq_self hp _ (valid_nestedValue 64), nest_nestedValue]
    exact fun h => absurd h.1 (by decide)

end Psrp

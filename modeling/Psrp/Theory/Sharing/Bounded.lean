import Psrp.Theory.RoundTrip
import Psrp.Theory.Sharing.Follows

/-!
# What Decoding Can Build

The weight of decoded values against the bytes they were read from.

What a document owns is covered: its values weigh at most its bytes and its
budget, if the type names that `TNRef`s copy are left out. These are what the
decoder charges nothing for, and the only way beyond the bound. A document
stays within it exactly if what its `TNRef`s share fits in the room that the
rest of it leaves (`decoding_bounded`), and one with no `TNRef` always does. A
document that shares more is read all the same (`decoding_exceeds_bound`).

## Main definitions

* `SharingFits`: What `TNRef`s share fits beside everything else.
* `sharingDocument`: Objects that share a type name.

## Theorems

* `sum_measure_eq`: Small sums of weights are exact.
* `parseClixml_sharingDocument`: Objects that share a type name are read.
* `decoding_bounded`, `decoding_exceeds_bound`: When decoding is within the
  bound.
-/

namespace Psrp

open Xml (Attr Event)
open Sharing (Load)

/-- What the `TNRef`s of a document share fits in the room that everything
    else leaves in the document and its budget. -/
def SharingFits (p : Platform) (xml : Text) : Prop :=
  (documentLoad p xml).shared
    ≤ Text.utf8Len xml + refBudget (Text.utf8Len xml) - (documentLoad p xml).own

instance (p : Platform) (xml : Text) : Decidable (SharingFits p xml) :=
  inferInstanceAs (Decidable (_ ≤ _))

/-- What is measured is at most what is there. -/
theorem sum_measure_le (vs : List PsValue) :
    (vs.map fun v => (measure v).1).sum ≤ itemsWeight vs := by
  induction vs with
  | nil => exact Nat.le_refl _
  | cons v vs ih =>
      have hv := measure_le_weight v
      rw [List.map_cons, List.sum_cons, itemsWeight]
      omega

/-- A sum of weights that is small enough is of weights that are exact. -/
theorem sum_measure_eq (vs : List PsValue)
    (h : (vs.map fun v => (measure v).1).sum < maxWeight) :
    (vs.map fun v => (measure v).1).sum = itemsWeight vs := by
  induction vs with
  | nil => rfl
  | cons v vs ih =>
      have hv := measure_weight v
      rw [List.map_cons, List.sum_cons] at h ⊢
      have hvs := ih (by omega)
      rw [itemsWeight, hvs]
      omega

/-- Type names, and objects that share them. -/
def sharingDocument (t : Text) (k : Nat) : Xml.Node :=
  .element "Obj" [] [.element "TN" [("RefId", ['0'])] [.element "T" [] [.text t]],
    .element "LST" [] (List.replicate k (.element "Obj" [] [.empty "TNRef" [("RefId", ['0'])]]))]

/-- An object with the shared type names. -/
def sharingObject (t : Text) : PsValue := .object ⟨[], [t], none⟩

namespace Machine

/-- Each object copies the type names. -/
theorem exec_sharingObjects (p : Platform) (t : Text) (k : Nat) :
    ∀ (c : Config) (fname : Text) (ctx : ObjCtx) (items : List PsValue),
      c.state.depth + 1 < MAX_NESTING_DEPTH → IndexMap.get ['0'] c.state.typeNames = some [t] →
      (c.inObject fname ctx (.list "LST" items)).exec p (Xml.eventsList (List.replicate k
          (.element "Obj" [] [.empty "TNRef" [("RefId", ['0'])]])))
        = .ok (c.inObject fname ctx (.list "LST" (items ++ List.replicate k (sharingObject t)))) := by
  induction k with
  | zero =>
      intro c fname ctx items _ _
      simp only [List.replicate_zero, List.append_nil]
      rfl
  | succ k ih =>
      intro c fname ctx items hdepth hnames
      let inner := c.inObject fname ctx (.list "LST" items)
      have hopen : inner.step p (.start "Obj" [])
          = .ok (inner.inObject [] ⟨none, PsObject.new, none⟩ .body) := by
        rw [step_start p inner none (sharingObject t) "Obj" [] rfl (by decide) rfl, openElement,
          if_neg (by simp only [inner, Config.inObject, push_depth]; omega)]
        rfl
      have hshare : (inner.inObject [] ⟨none, PsObject.new, none⟩ .body).step p
          (.empty "TNRef" (Xml.readAttrs [("RefId", ['0'])]))
          = .ok (inner.inObject [] ⟨none, ⟨[], [t], none⟩, none⟩ .body) := by
        have hstate : sharedTypeNames (some ['0']) { c.state with depth := c.state.depth + 1 + 1 }
            PsObject.new = ⟨[], [t], none⟩ := by
          simp only [sharedTypeNames, Option.bind_some, hnames]
          rfl
        show Except.ok (inner.inObject [] ⟨none, sharedTypeNames (some ['0'])
          { c.state with depth := c.state.depth + 1 + 1 } PsObject.new, none⟩ .body) = _
        rw [hstate]
      have hclose : (inner.inObject [] ⟨none, ⟨[], [t], none⟩, none⟩ .body).step p (.stop "Obj")
          = .ok (c.inObject fname ctx (.list "LST" (items ++ [sharingObject t]))) := rfl
      have hrest := ih c fname ctx (items ++ [sharingObject t]) hdepth hnames
      rw [List.append_assoc] at hrest
      simp only [List.replicate_succ, Xml.eventsList, Xml.Node.events, List.append_nil,
        List.cons_append, List.nil_append]
      show inner.exec p (.start "Obj" [] :: _) = _
      rw [exec_cons hopen, exec_cons hshare, exec_cons hclose]
      exact hrest

theorem parseClixml_sharingDocument {p : Platform} (hp : p.Lawful) (t : Text) (k : Nat)
    (ht : ∀ c ∈ t, Text.isToken c = true) :
    parseClixml p (sharingDocument t k).render
      = .ok [.object ⟨[(valueKey, .list (List.replicate k (sharingObject t)))], [t], none⟩] := by
  have hplain : (sharingDocument t k).plain = true := by
    have hnames : Xml.plainName "Obj" = true ∧ Xml.plainName "TN" = true ∧ Xml.plainName "T" = true
        ∧ Xml.plainName "LST" = true := by decide
    have hattrs : Xml.plainAttrs [("RefId", ['0'])] = true ∧ Xml.plainAttrs [] = true := by decide
    have htext : Xml.plainText t = true := by
      refine List.all_eq_true.mpr fun c hc => ?_
      rw [decide_eq_true (Text.space_le_of_isToken c (ht c hc))]
      rfl
    have hobjects := Xml.plainList_of_forall (List.replicate k
        (.element "Obj" [] [.empty "TNRef" [("RefId", ['0'])]])) fun n hn => by
      rw [List.eq_of_mem_replicate hn]
      decide
    simp only [sharingDocument, Xml.Node.plain, Xml.plainList, hnames, hattrs, htext, hobjects,
      Xml.Node.isText, Bool.false_and, Bool.not_false, Bool.and_self, List.head?_nil,
      Option.map_none, Option.getD_none, Bool.and_false]
  -- The run up to the names, then up to the list, then an object at a time.
  let c := Config.start (initialState (sharingDocument t k).events
    (Text.utf8Len (sharingDocument t k).render))
  let read := fun names text => c.inObject [] ⟨none, PsObject.new, none⟩
    (.typeName (some ['0']) names text)
  let shared := c.withTypeNames [(['0'], [t])]
  have htext : (read [] []).exec p (Xml.textEvents t) = .ok (read [] t) := by
    refine exec_textEvents p (read []) ?_ [] t
    intro acc e u hu hstop hstart
    simp only [read]
    rw [Config.inObject, step_push]
    cases e with
    | stop s => exact absurd rfl (hstop s)
    | start n as => exact absurd rfl (hstart n as)
    | _ =>
        simp only [Activity.step, typeNameStep, hu]
        rfl
  have hdecode := decodePwshEscapes_of_isToken t ht
  have htypeName : (read [] t).step p (.stop "T")
      = .ok (c.inObject [] ⟨none, PsObject.new, none⟩ (.typeNames (some ['0']) [t])) := by
    simp only [read]
    rw [Config.inObject, step_push]
    simp only [Activity.step, typeNameStep, if_true, hdecode]
    rfl
  have htypeNames : (c.inObject [] ⟨none, PsObject.new, none⟩ (.typeNames (some ['0']) [t])).step p
      (.stop "TN") = .ok (shared.inObject [] ⟨none, ⟨[], [t], none⟩, none⟩ .body) := rfl
  -- Each of the objects takes the names over.
  have hobjects := exec_sharingObjects p t k shared [] ⟨none, ⟨[], [t], none⟩, none⟩ []
    (show 0 + 1 < MAX_NESTING_DEPTH by decide) (if_pos rfl)
  have hexec : c.exec p (sharingDocument t k).events = .ok { shared with out :=
      [.object ⟨[(valueKey, .list (List.replicate k (sharingObject t)))], [t], none⟩] } := by
    simp only [sharingDocument, Xml.Node.events, Xml.eventsList, List.append_nil, List.cons_append,
      List.append_assoc, List.nil_append]
    show (read [] []).exec p _ = _
    rw [exec_append, htext]
    simp only []
    rw [exec_cons htypeName, exec_cons htypeNames]
    show (shared.inObject [] ⟨none, ⟨[], [t], none⟩, none⟩ (.list "LST" [])).exec p _ = _
    rw [exec_append, hobjects]
    rfl
  rw [parseClixml_render hp _ rfl hplain, run_eq_exec, hexec]
  rfl

end Machine

/-- The length of equal trees in a row. -/
theorem utf8Len_renderList_replicate (k : Nat) (n : Xml.Node) :
    Text.utf8Len (Xml.renderList (List.replicate k n)) = k * Text.utf8Len n.render := by
  induction k with
  | zero => rw [List.replicate_zero, Xml.renderList, Nat.zero_mul, Text.utf8Len_nil]
  | succ k ih =>
      rw [List.replicate_succ, Xml.renderList, Text.utf8Len_append, ih, Nat.succ_mul,
        Nat.add_comm]

theorem utf8Len_element (name : String) (attrs : List (String × Text)) (children : List Xml.Node) :
    Text.utf8Len (Xml.Node.render (.element name attrs children))
      = 2 * Text.utf8Len name.toList + 5 + Text.utf8Len (Xml.renderAttrs attrs)
        + Text.utf8Len (Xml.renderList children) := by
  have hmarks : Char.utf8Size '<' = 1 ∧ Char.utf8Size '>' = 1 ∧ Char.utf8Size '/' = 1 := by decide
  simp only [Xml.Node.render, Text.utf8Len_append, Text.utf8Len_cons, Text.utf8Len_nil, hmarks]
  omega

theorem utf8Len_sharingDocument (t : Text) (k : Nat) (ht : ∀ c ∈ t, Text.isToken c = true) :
    Text.utf8Len (sharingDocument t k).render = 48 + Text.utf8Len t + 29 * k := by
  have hobject : Text.utf8Len (Xml.Node.render
      (.element "Obj" [] [.empty "TNRef" [("RefId", ['0'])]])) = 29 := by decide
  have hattrs : Text.utf8Len (Xml.renderAttrs [("RefId", ['0'])]) = 10
      ∧ Text.utf8Len (Xml.renderAttrs []) = 0 := by decide
  have htags : Text.utf8Len "Obj".toList = 3 ∧ Text.utf8Len "TN".toList = 2
      ∧ Text.utf8Len "T".toList = 1 ∧ Text.utf8Len "LST".toList = 3 := by decide
  have htext : Text.utf8Len (Xml.renderList [.text t]) = Text.utf8Len t := by
    simp only [Xml.renderList, Xml.Node.render, List.append_nil, escapeText_of_isToken t ht]
  have hlist := utf8Len_renderList_replicate k
    (.element "Obj" [] [.empty "TNRef" [("RefId", ['0'])]])
  have hcons : ∀ n ns, Text.utf8Len (Xml.renderList (n :: ns))
      = Text.utf8Len n.render + Text.utf8Len (Xml.renderList ns) :=
    fun n ns => by rw [Xml.renderList, Text.utf8Len_append]
  rw [hobject] at hlist
  rw [sharingDocument, utf8Len_element, hcons, hcons, utf8Len_element, utf8Len_element, hcons,
    utf8Len_element, htext, hlist, hattrs.1, hattrs.2, htags.1, htags.2.1, htags.2.2.1,
    htags.2.2.2, Xml.renderList, Text.utf8Len_nil]
  omega

/-- What the objects weigh. -/
theorem weight_sharingDocument (t : Text) (k : Nat) :
    weight (.object ⟨[(valueKey, .list (List.replicate k (sharingObject t)))], [t], none⟩)
      = 10 + Text.utf8Len t + k * (Text.utf8Len t + 2) := by
  have hitems : itemsWeight (List.replicate k (sharingObject t)) = k * (Text.utf8Len t + 2) := by
    induction k with
    | zero => rw [List.replicate_zero, itemsWeight, Nat.zero_mul]
    | succ k ih =>
        have hobject : weight (sharingObject t) = Text.utf8Len t + 2 := by
          simp only [sharingObject, weight, namesWeight, propsWeight, List.map_cons, List.map_nil,
            List.sum_cons, List.sum_nil, Option.map_none, Option.getD_none]
          omega
        rw [List.replicate_succ, itemsWeight, ih, hobject, Nat.succ_mul, Nat.add_comm]
  have hkey : Text.utf8Len valueKey = 6 := by decide
  simp only [weight, namesWeight, propsWeight, List.map_cons, List.map_nil, List.sum_cons,
    List.sum_nil, Option.map_none, Option.getD_none, hitems, hkey]
  omega

/-- Without what `TNRef`s copy, what is decoded is bounded by the document and
    its budget. With it, it is if and only if what they copy fits in the room
    that is left, and a document without a `TNRef` always leaves enough. -/
theorem decoding_bounded (p : Platform) (hp : p.Lawful) (xml : Text) (vs : List PsValue)
    (h : parseClixml p xml = .ok vs) :
    (documentLoad p xml).own ≤ Text.utf8Len xml + refBudget (Text.utf8Len xml)
      ∧ (SharingFits p xml →
        (vs.map fun v => (measure v).1).sum ≤ Text.utf8Len xml + refBudget (Text.utf8Len xml)
          ∧ (vs.map fun v => (measure v).1).sum ≤ Text.utf8Len xml + 8 * 2 ^ 20)
      ∧ (Text.utf8Len xml < 2 ^ 63 →
        (vs.map fun v => (measure v).1).sum ≤ Text.utf8Len xml + refBudget (Text.utf8Len xml) →
          SharingFits p xml)
      ∧ ((∀ e ∈ (p.read (cleanDocument xml)).events, isTypeNamesRef e = false) →
        SharingFits p xml) := by
  rcases documentLoad_follows hp h with ⟨htotal, hown⟩
  have hsplit : (documentLoad p xml).own + (documentLoad p xml).shared = itemsWeight vs := htotal
  have hceiling : refBudget (Text.utf8Len xml) ≤ 8 * 2 ^ 20 := Nat.min_le_right _ _
  refine ⟨hown, fun hfits => ?_, fun hlen hbound => ?_, fun hnone => ?_⟩
  · have hsum := sum_measure_le vs
    rw [SharingFits] at hfits
    exact ⟨by omega, by omega⟩
  · -- A document in memory is shorter than half the address space, so the
    -- bound is below the numbers where weights saturate.
    have hsmall : (vs.map fun v => (measure v).1).sum < maxWeight := by
      simp only [maxWeight]
      omega
    have hexact := sum_measure_eq vs hsmall
    rw [SharingFits]
    omega
  · rw [SharingFits, documentLoad_unshared p xml hnone]
    exact Nat.zero_le _

/-- Two objects that share a short type name stay within the bound. -/
theorem decoding_bounded_sharing :
    (documentLoad Platform.basic (sharingDocument ['a'] 2).render).shared = 4
      ∧ ([PsValue.object ⟨[(valueKey, .list (List.replicate 2 (sharingObject ['a'])))], [['a']],
          none⟩].map fun v => (measure v).1).sum
        ≤ Text.utf8Len (sharingDocument ['a'] 2).render
          + refBudget (Text.utf8Len (sharingDocument ['a'] 2).render) := by
  have hp := Platform.basic_lawful
  have hplain : (sharingDocument ['a'] 2).plain = true := by decide
  have hload : documentLoad Platform.basic (sharingDocument ['a'] 2).render = ⟨13, 4⟩ := by
    rw [documentLoad, Machine.cleanDocument_render _ rfl, hp.read.read_render _ rfl hplain]
    decide
  have hfits : SharingFits Platform.basic (sharingDocument ['a'] 2).render := by
    rw [SharingFits, hload]
    decide
  have htoken : ∀ c ∈ ['a'], Text.isToken c = true := by
    intro c hc
    rw [List.mem_singleton.mp hc]
    rfl
  have hbounded := decoding_bounded Platform.basic hp _ _
    (Machine.parseClixml_sharingDocument hp ['a'] 2 htoken)
  rw [hload]
  exact ⟨rfl, (hbounded.2.1 hfits).1⟩

/-- A type name of 16384 letters that 128 objects share weighs more than the
    document and its budget. -/
theorem decoding_exceeds_bound :
    parseClixml Platform.basic (sharingDocument (List.replicate 16384 'a') 128).render
        = .ok [.object ⟨[(valueKey, .list (List.replicate 128
          (sharingObject (List.replicate 16384 'a'))))], [List.replicate 16384 'a'], none⟩]
      ∧ Text.utf8Len (sharingDocument (List.replicate 16384 'a') 128).render
          + refBudget (Text.utf8Len (sharingDocument (List.replicate 16384 'a') 128).render)
        < ([PsValue.object ⟨[(valueKey, .list (List.replicate 128
          (sharingObject (List.replicate 16384 'a'))))], [List.replicate 16384 'a'], none⟩].map
            fun v => (measure v).1).sum := by
  have htoken : ∀ c ∈ List.replicate 16384 'a', Text.isToken c = true := by
    intro c hc
    rw [List.eq_of_mem_replicate hc]
    rfl
  have hlen : Text.utf8Len (List.replicate 16384 'a') = 16384 := by
    rw [Text.utf8Len, List.map_replicate, List.sum_replicate_nat]
    rfl
  refine ⟨Machine.parseClixml_sharingDocument Platform.basic_lawful _ 128 htoken, ?_⟩
  rw [List.map_cons, List.map_nil, List.sum_cons, List.sum_nil, measure_weight,
    weight_sharingDocument, utf8Len_sharingDocument _ _ htoken, hlen]
  decide

end Psrp

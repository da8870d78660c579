import Psrp.Theory.Decoded

/-!
# How Deep Decoding and Decoded Values Go

The nesting counter, and the height of what is returned.

The counter counts elements, and the height counts objects and containers; an
object is one element and at most two of these, itself and the one bare list
or dictionary in it. A value handed out at level `d` was read within the
`64 - d` elements still allowed, so it is at most `2 * (64 - d)` high. A copy
planted by a reference is bounded by the guard instead, which leaves it
`64 - d - 1`, and so does a copy of a copy.

## Theorems

* `closed_height`: The height of a value is bounded at every level.
* `parseElement_restores`: Parsing an element restores the counter.
* `counter_bounded`: The counter stays within the limit throughout a run.
* `nesting_bounded`: All of it, for every document.
-/

namespace Psrp

open Xml (Attr Event)

theorem satAdd32_le (a b : Nat) : satAdd32 a b ≤ a + b := Nat.min_le_left _ _

theorem measureItems_height (items : List PsValue) (b : Nat)
    (h : ∀ v ∈ items, (measure v).2 + 1 ≤ b) :
    ∀ acc : Nat × Nat, acc.2 ≤ b → (measureItems items acc).2 ≤ b := by
  induction items with
  | nil => exact fun _ hacc => hacc
  | cons v vs ih =>
      intro acc hacc
      have hv := h v (List.mem_cons_self ..)
      have hsat := satAdd32_le (measure v).2 1
      exact ih (fun w hw => h w (List.mem_cons_of_mem _ hw)) _ (by simp only []; omega)

theorem measureEntries_height (entries : List (PsValue × PsValue)) (b : Nat)
    (h : ∀ e ∈ entries, (measure e.1).2 + 1 ≤ b ∧ (measure e.2).2 + 1 ≤ b) :
    ∀ acc : Nat × Nat, acc.2 ≤ b → (measureEntries entries acc).2 ≤ b := by
  induction entries with
  | nil => exact fun _ hacc => hacc
  | cons e es ih =>
      intro acc hacc
      have he := h e (List.mem_cons_self ..)
      have hsat := satAdd32_le (max (measure e.1).2 (measure e.2).2) 1
      exact ih (fun w hw => h w (List.mem_cons_of_mem _ hw)) _ (by simp only []; omega)

theorem measureProps_height (props : List (Text × PsValue)) (b : Nat)
    (h : ∀ q ∈ props, (measure q.2).2 + 1 ≤ b) :
    ∀ acc : Nat × Nat, acc.2 ≤ b → (measureProps props acc).2 ≤ b := by
  induction props with
  | nil => exact fun _ hacc => hacc
  | cons q ps ih =>
      intro acc hacc
      have hq := h q (List.mem_cons_self ..)
      have hsat := satAdd32_le (measure q.2).2 1
      exact ih (fun w hw => h w (List.mem_cons_of_mem _ hw)) _ (by simp only []; omega)

/-- A value without values in it has no height. -/
theorem measure_height_leaf (v : PsValue) (h : v.isContainer = false) : (measure v).2 = 0 := by
  cases v <;> first
    | rfl
    | cases h

theorem measure_object_height (o : PsObject) (b : Nat) (hb : 1 ≤ b)
    (h : ∀ q ∈ o.properties, (measure q.2).2 + 1 ≤ b) : (measure (.object o)).2 ≤ b := by
  rcases o with ⟨props, typeNames, toString⟩
  exact measureProps_height props b h _ hb

namespace Machine

/-- The height that is left at a level, and with one bare container more. -/
theorem closed_height (p : Platform) :
    Closed p (fun d v => (measure v).2 ≤ 2 * (MAX_NESTING_DEPTH - d))
      (fun d v => (measure v).2 ≤ 2 * (MAX_NESTING_DEPTH - d) + 1) where
  leaf d tag parse t v hparser hparse := by
    rw [measure_height_leaf v (leafParser_cases hparser hparse).isContainer]
    exact Nat.zero_le _
  null _ := Nat.zero_le _
  emptyString _ := Nat.zero_le _
  emptyScript _ := Nat.zero_le _
  bare _ _ h := Nat.le_succ_of_le h
  list d items h := measureItems_height items _ (fun v hv => Nat.succ_le_succ (h v hv)) _
    (Nat.succ_le_succ (Nat.zero_le _))
  dict d entries h := measureEntries_height entries _
    (fun e he => ⟨Nat.succ_le_succ (h e he).1, Nat.succ_le_succ (h e he).2⟩) _
    (Nat.succ_le_succ (Nat.zero_le _))
  -- An object is one level above its members; the list or dictionary that it holds is the
  -- other.
  object d hd o _ _ h := measure_object_height o _ (by omega) fun q hq => by
    have hv := h q hq
    omega
  exposed d hd typeNames v h := measure_object_height _ _ (by omega) fun q hq => by
    rw [List.mem_singleton.mp hq]
    simp only []
    omega
  copied d d' v _ h := by omega

open Pull (run)

/-- The part of a document's events that a run has read, the machine after
    it, and the decoder's work on the rest from there. -/
theorem decode_after (p : Platform) {es es' : List Event} {ft : Option String} {c c' : Config}
    (hc : c.Counted) (h : c.Reaches p es c') :
    c.run p ft (es ++ es') = (run (c'.denote p) ⟨es', ft, c'.state⟩).map Prod.fst := by
  induction h with
  | refl c => exact (run_denote p ft es' c hc).symm
  | step hstep _ ih =>
      rw [List.cons_append, Config.run, hstep]
      exact ih (hc.step hstep)

end Machine

/-- The nesting counter and the height of decoded values are bounded.
    Parsing an element restores the counter, also when it fails; whatever part
    of a document has been read, the rest is decoded from a state within the
    limit; and a returned value is at most two levels high for each element. -/
theorem nesting_bounded (p : Platform) :
    (∀ (allowed : Nat) (tag : String) (attrs : List Attr) (c : Cursor Event DecoderState),
      (Pull.cursorOf (parseElement p allowed tag attrs c)).state.depth = c.state.depth)
    ∧ ∀ xml : Text, let stream := p.read (cleanDocument xml)
      let start := Machine.Config.start
        (initialState stream.events (Text.utf8Len (cleanDocument xml)))
      (∀ es es' c, stream.events = es ++ es' → start.Reaches p es c →
        c.state.depth ≤ MAX_NESTING_DEPTH
          ∧ parseClixml p xml
            = (Pull.run (c.denote p) ⟨es', stream.fault, c.state⟩).map Prod.fst)
      ∧ ∀ vs, parseClixml p xml = .ok vs →
        ∀ v ∈ vs, (measure v).2 ≤ 2 * MAX_NESTING_DEPTH := by
  refine ⟨fun allowed tag attrs c => parseElement_depth p allowed tag attrs c,
    fun xml => ⟨fun es es' c hes hreach => ?_, fun vs h v hv => ?_⟩⟩
  · -- At every prefix the counter is the number of open frames, and it is checked when one is
    -- opened.
    have hstart := Machine.counted_start (initialState (p.read (cleanDocument xml)).events
      (Text.utf8Len (cleanDocument xml))) rfl
    have hcounted := hreach.counted hstart
    refine ⟨hcounted.1 ▸ hcounted.2, ?_⟩
    rw [Machine.parseClixml_eq_decode, Machine.decode, ← Machine.decode_after p hstart hreach, hes]
  · exact Machine.closed_parseClixml (Machine.closed_height p) h v hv

end Psrp

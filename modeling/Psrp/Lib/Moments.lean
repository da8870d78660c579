import Psrp.Lib.Async

/-!
# Moments of a Run

A program that waits, and what the next wake makes of it.

A program whose script is over is suspended where it waits, and the state
there is a moment of every run whose script goes on. So a run can be cut at
any of its waits: into what led to the moment, and the wake that ends the
wait. `Heeds` relates the two. It holds of a moment `m`, the wake that was
taken there, and the end of the run, whatever else the run took after it.

The cut needs a program that cannot look ahead. `Causal` says that a program
either ends the same way whatever the world has in store beyond its script,
or was waiting for more and takes it.

## Main definitions

* `Async.Causal`: A program that does not look ahead.
* `Async.Takes`: A program waits and then takes a wake.
* `Async.Heeds`: What every wake makes of the moment it comes at.

## Theorems

* `Async.causal_bind`, `Async.causal_loop`, `Async.causal_guarded`: The rules
  of the one.
* `Async.heeds_bind`, `Async.heeds_loop`, `Async.heeds_guarded`: The rules of
  the other.
-/

namespace Psrp

variable {ω ε σ α β γ : Type}

/-- The world with more to come. -/
def World.extend (w : World ω σ) (more : List (Wake ω)) : World ω σ :=
  { w with script := w.script ++ more }

/-- How an attempt ends, by how the program ends. -/
def Exit.tried : Exit ε α → Exit ε (Except ε α)
  | .ok a => .ok (.ok a)
  | .err e => .ok (.error e)
  | .cut n => .cut n
  | .suspended => .suspended

/-- How a guard ends, by how the program in it ends. -/
def Exit.caught : Exit ε α → Exit ε (Option α)
  | .ok a => .ok (some a)
  | .err e => .err e
  | .cut 0 => .ok none
  | .cut (n + 1) => .cut n
  | .suspended => .suspended

namespace Async

/-- A program takes wakes in order, and does not look ahead: with more to come
    it ends the same way, or it was waiting for more and takes some. -/
structure Causal (p : Async ω ε σ α) : Prop where
  shrinks : ∀ w, (p w).2.script.length ≤ w.script.length
  goesOn : ∀ w wake rest,
    p (World.extend w (wake :: rest)) = ((p w).1, World.extend (p w).2 (wake :: rest))
    ∨ (p w).1 = .suspended ∧ (p (World.extend w (wake :: rest))).2.script.length ≤ rest.length

/-- After some wakes a program waits, and it takes the next one. -/
structure Takes (p : Async ω ε σ α) (s : σ) (taken : List (Wake ω)) (wake : Wake ω)
    (rest : List (Wake ω)) (turns : Nat) : Prop where
  waits : (p ⟨s, taken, turns⟩).1 = .suspended
  takes : (p ⟨s, taken ++ wake :: rest, turns⟩).2.script.length ≤ rest.length

/-- Whatever a program takes where it waits, `R` holds of the state it waits
    in, of what it takes, and of how it ends after that. -/
def Heeds (R : σ → Wake ω → Exit ε α → σ → Prop) (p : Async ω ε σ α) (s : σ) : Prop :=
  ∀ taken wake rest turns, Takes p s taken wake rest turns →
    R (p ⟨s, taken, turns⟩).2.state wake (p ⟨s, taken ++ wake :: rest, turns⟩).1
      (p ⟨s, taken ++ wake :: rest, turns⟩).2.state

/-- What a wait makes of the moment: it changes nothing, and ends with an
    answer of its kind or with an alarm. -/
def Woke (read : ω → Option α) (s m : σ) (wake : Wake ω) (x : Exit ε α) (t : σ) : Prop :=
  m = s ∧ t = s ∧ ((∃ n, wake = .alarm n ∧ x = .cut n)
    ∨ ∃ answer a, read answer = some a ∧ wake = .answer answer ∧ x = .ok a)

section Causal

variable {p : Async ω ε σ α}

/-- What neither waits nor looks at the script. -/
theorem causal_instant {f : σ → Exit ε α × σ}
    (hp : ∀ w, p w = ((f w.state).1, { w with state := (f w.state).2 })) : Causal p where
  shrinks w := Nat.le_of_eq (congrArg (fun r => r.2.script.length) (hp w))
  goesOn w wake rest := by
    rw [hp, hp]
    exact Or.inl rfl

theorem causal_pure (a : α) : Causal (pure a : Async ω ε σ α) :=
  causal_instant (f := fun s => (.ok a, s)) fun _ => rfl

theorem causal_get : Causal (get : Async ω ε σ σ) :=
  causal_instant (f := fun s => (.ok s, s)) fun _ => rfl

theorem causal_modify (f : σ → σ) : Causal (modify f : Async ω ε σ Unit) :=
  causal_instant (f := fun s => (.ok (), f s)) fun _ => rfl

theorem causal_throw (e : ε) : Causal (throw e : Async ω ε σ α) :=
  causal_instant (f := fun s => (.err e, s)) fun _ => rfl

/-- The end that a result is. -/
def exitOf : Except ε α → Exit ε α
  | .ok a => .ok a
  | .error e => .err e

theorem update_apply (f : σ → Except ε α × σ) (w : World ω σ) :
    (update f : Async ω ε σ α) w = (exitOf (f w.state).1, { w with state := (f w.state).2 }) := by
  unfold update
  rcases f w.state with ⟨r, t⟩
  cases r <;> rfl

theorem causal_update (f : σ → Except ε α × σ) : Causal (update f : Async ω ε σ α) :=
  causal_instant (f := fun s => (exitOf (f s).1, (f s).2)) (update_apply f)

/-- A wait takes one wake, and none that is no answer to it. -/
theorem causal_await (read : ω → Option α) : Causal (await read : Async ω ε σ α) where
  shrinks w := by
    rcases w with ⟨s, script, turns⟩
    unfold await
    rcases script with _ | ⟨_ | n, script⟩
    · exact Nat.le_refl _
    · simp only []
      split
      · exact Nat.le_succ _
      · exact Nat.le_refl _
    · exact Nat.le_succ _
  goesOn w wake rest := by
    rcases w with ⟨s, script, turns⟩
    rcases script with _ | ⟨answer | n, script⟩
    · -- With nothing there the program waits, and the next wake is taken or
      -- is left where it is.
      rcases wake with answer | n
      · cases hread : read answer with
        | none => exact Or.inl (by simp only [await, World.extend, List.nil_append, hread])
        | some a =>
            refine Or.inr ⟨rfl, ?_⟩
            simp only [await, World.extend, List.nil_append, hread, Nat.le_refl]
      · exact Or.inr ⟨rfl, Nat.le_refl _⟩
    · refine Or.inl ?_
      cases hread : read answer with
      | none => simp only [await, World.extend, List.cons_append, hread]
      | some a => simp only [await, World.extend, List.cons_append, hread]
    · exact Or.inl rfl

theorem causal_bind {f : α → Async ω ε σ β} (hp : Causal p) (hf : ∀ a, Causal (f a)) :
    Causal (p >>= f) where
  shrinks w := by
    have hshrinks := hp.shrinks w
    rw [bind_apply]
    generalize p w = r at hshrinks
    rcases r with ⟨x, u⟩
    cases x with
    | ok a => exact Nat.le_trans ((hf a).shrinks u) hshrinks
    | err e => exact hshrinks
    | cut n => exact hshrinks
    | suspended => exact hshrinks
  goesOn w wake rest := by
    rw [bind_apply, bind_apply]
    rcases hp.goesOn w wake rest with hsame | ⟨hwaits, htakes⟩
    · -- The first part does not wait: what follows is cut where it waits.
      rw [hsame]
      generalize p w = r
      rcases r with ⟨x, u⟩
      cases x with
      | ok a => exact (hf a).goesOn u wake rest
      | err e => exact Or.inl rfl
      | cut n => exact Or.inl rfl
      | suspended => exact Or.inl rfl
    · refine Or.inr ⟨?_, ?_⟩
      · generalize p w = r at hwaits
        rcases r with ⟨x, u⟩
        cases hwaits
        rfl
      · generalize p (World.extend w (wake :: rest)) = r at htakes
        rcases r with ⟨x, u⟩
        cases x with
        | ok a => exact Nat.le_trans ((hf a).shrinks u) htakes
        | err e => exact htakes
        | cut n => exact htakes
        | suspended => exact htakes

/-- What only renames how a program ends. -/
theorem causal_map {q : Async ω ε σ β} {g : Exit ε α → Exit ε β} (hg : g .suspended = .suspended)
    (hq : ∀ w, q w = (g (p w).1, (p w).2)) (hp : Causal p) : Causal q where
  shrinks w := by
    rw [hq w]
    exact hp.shrinks w
  goesOn w wake rest := by
    rw [hq, hq]
    rcases hp.goesOn w wake rest with hsame | ⟨hwaits, htakes⟩
    · rw [hsame]
      exact Or.inl rfl
    · exact Or.inr ⟨(congrArg g hwaits).trans hg, htakes⟩

theorem attempt_eq (p : Async ω ε σ α) (w : World ω σ) :
    attempt p w = ((p w).1.tried, (p w).2) := by
  unfold attempt
  rcases p w with ⟨x, u⟩
  cases x <;> rfl

theorem guarded_eq (p : Async ω ε σ α) (w : World ω σ) :
    guarded p w = ((p w).1.caught, (p w).2) := by
  unfold guarded
  rcases p w with ⟨x, u⟩
  rcases x with a | e | ⟨_ | n⟩ | _ <;> rfl

theorem causal_attempt (hp : Causal p) : Causal (attempt p) := causal_map rfl (attempt_eq p) hp

theorem causal_guarded (hp : Causal p) : Causal (guarded p) := causal_map rfl (guarded_eq p) hp

theorem causal_turnsOf {body : β → Async ω ε σ (Turn β γ)} (h : ∀ b, Causal (body b)) (n : Nat)
    (b : β) : Causal (turnsOf body n b) := by
  induction n generalizing b with
  | zero => exact causal_instant (f := fun s => (.suspended, s)) fun _ => rfl
  | succ n ih =>
      refine causal_bind (h b) fun turn => ?_
      cases turn with
      | more b' => exact ih b'
      | done c => exact causal_pure c

theorem causal_loop {body : β → Async ω ε σ (Turn β γ)} (h : ∀ b, Causal (body b)) (b : β) :
    Causal (loop body b) where
  shrinks w := (causal_turnsOf h w.turns b).shrinks w
  goesOn w wake rest := (causal_turnsOf h w.turns b).goesOn w wake rest

theorem causal_ite {b : Prop} [Decidable b] {q : Async ω ε σ α} (hp : Causal p) (hq : Causal q) :
    Causal (if b then p else q) := by
  by_cases hb : b
  · rw [if_pos hb]
    exact hp
  · rw [if_neg hb]
    exact hq

end Causal

section Heeds

variable {p : Async ω ε σ α} {s : σ} {R : σ → Wake ω → Exit ε β → σ → Prop}
  {Rp : σ → Wake ω → Exit ε α → σ → Prop}

theorem heeds_mono {R' : σ → Wake ω → Exit ε α → σ → Prop} (h : Heeds Rp p s)
    (hR : ∀ m wake x t, Rp m wake x t → R' m wake x t) : Heeds R' p s :=
  fun taken wake rest turns ht => hR _ _ _ _ (h taken wake rest turns ht)

/-- What never waits takes nothing. -/
theorem heeds_instant {f : σ → Exit ε α × σ}
    (hp : ∀ w, p w = ((f w.state).1, { w with state := (f w.state).2 })) : Heeds Rp p s := by
  intro taken wake rest turns h
  have htakes := h.takes
  rw [hp] at htakes
  simp only [List.length_append, List.length_cons] at htakes
  omega

theorem heeds_pure (a : α) : Heeds Rp (pure a : Async ω ε σ α) s :=
  heeds_instant (f := fun s => (.ok a, s)) fun _ => rfl

theorem heeds_throw (e : ε) : Heeds Rp (throw e : Async ω ε σ α) s :=
  heeds_instant (f := fun s => (.err e, s)) fun _ => rfl

theorem heeds_modify {R : σ → Wake ω → Exit ε Unit → σ → Prop} (f : σ → σ) :
    Heeds R (modify f : Async ω ε σ Unit) s :=
  heeds_instant (f := fun s => (.ok (), f s)) fun _ => rfl

theorem heeds_update (f : σ → Except ε α × σ) : Heeds Rp (update f : Async ω ε σ α) s :=
  heeds_instant (f := fun s => (exitOf (f s).1, (f s).2)) (update_apply f)

/-- A wait ends with an answer to it or with an alarm, and changes nothing. -/
theorem heeds_await {read : ω → Option α} :
    Heeds (Woke read s) (await read : Async ω ε σ α) s := by
  intro taken wake rest turns h
  have hwaits := h.waits
  have htakes := h.takes
  rcases taken with _ | ⟨answer | n, taken⟩
  · rcases wake with answer | n
    · cases hread : read answer with
      | none =>
          -- Something that is no answer is not taken.
          simp only [await, List.nil_append, hread, List.length_cons] at htakes
          omega
      | some a =>
          simp only [await, List.nil_append, hread]
          exact ⟨rfl, rfl, Or.inr ⟨answer, a, hread, rfl, rfl⟩⟩
    · exact ⟨rfl, rfl, Or.inl ⟨n, rfl, rfl⟩⟩
  · cases hread : read answer with
    | none =>
        simp only [await, List.cons_append, hread, List.length_cons, List.length_append] at htakes
        omega
    | some a =>
        simp only [await, hread] at hwaits
        cases hwaits
  · cases hwaits

/-- A sequence waits in its first part, or in what follows. In the first case
    what the wake led to there goes on. -/
theorem heeds_bind {f : α → Async ω ε σ β} (hc : Causal p) (hp : Heeds Rp p s)
    (h : wp p (fun x u => (∀ a, x = .ok a → Heeds R (f a) u)
      ∧ ∀ m wake, Rp m wake x u → andThen (fun a t => wp (f a) (R m wake) t) (R m wake) x u) s) :
    Heeds R (p >>= f) s := by
  intro taken wake rest turns ht
  have hwaits := ht.waits
  have htakes := ht.takes
  rw [bind_apply] at hwaits htakes ⊢
  rw [bind_apply]
  have hgo := hc.goesOn ⟨s, taken, turns⟩ wake rest
  simp only [World.extend] at hgo
  rcases hgo with hsame | ⟨hpwaits, hptakes⟩
  · have hnext := h taken turns
    rw [hsame] at htakes ⊢
    generalize p ⟨s, taken, turns⟩ = r at hwaits htakes hnext
    rcases r with ⟨x, ⟨u, script, turns'⟩⟩
    cases x with
    | ok a => exact hnext.1 a rfl script wake rest turns' ⟨hwaits, htakes⟩
    | err e => cases hwaits
    | cut n => cases hwaits
    | suspended =>
        simp only [List.length_append, List.length_cons] at htakes
        omega
  · have hmoment := hp taken wake rest turns ⟨hpwaits, hptakes⟩
    have hnext := (h (taken ++ wake :: rest) turns).2 _ _ hmoment
    generalize p ⟨s, taken, turns⟩ = r at hpwaits hmoment hnext
    generalize p ⟨s, taken ++ wake :: rest, turns⟩ = r' at hmoment hnext
    rcases r with ⟨x, u⟩
    rcases r' with ⟨x', ⟨u', script, turns'⟩⟩
    cases hpwaits
    cases x' with
    | ok a => exact hnext script turns'
    | err e => exact hnext
    | cut n => exact hnext
    | suspended => exact hnext

/-- What follows a change of the state waits where it waits alone. -/
theorem heeds_modifyThen {g : σ → σ} {f : Unit → Async ω ε σ β} (h : Heeds R (f ()) (g s)) :
    Heeds R (modify g >>= f) s := fun taken wake rest turns ht =>
  h taken wake rest turns ⟨ht.waits, ht.takes⟩

theorem heeds_getThen {f : σ → Async ω ε σ β} (h : Heeds R (f s) s) :
    Heeds R (get >>= f) s := fun taken wake rest turns ht =>
  h taken wake rest turns ⟨ht.waits, ht.takes⟩

theorem heeds_updateThen {g : σ → Except ε α × σ} {f : α → Async ω ε σ β}
    (h : ∀ a t, g s = (.ok a, t) → Heeds R (f a) t) : Heeds R (update g >>= f) s := by
  intro taken wake rest turns ht
  have hwaits := ht.waits
  have htakes := ht.takes
  rw [bind_apply] at hwaits htakes ⊢
  rw [bind_apply]
  simp only [update] at hwaits htakes ⊢
  rcases hg : g s with ⟨r, t⟩
  rw [hg] at hwaits htakes
  cases r with
  | ok a => exact h a t hg taken wake rest turns ⟨hwaits, htakes⟩
  | error e => cases hwaits

/-- What only renames how a program ends waits where it waits. -/
theorem heeds_map {q : Async ω ε σ β} {g : Exit ε α → Exit ε β}
    (hg : ∀ x, g x = .suspended → x = .suspended) (hq : ∀ w, q w = (g (p w).1, (p w).2))
    (h : Heeds (fun m wake x t => R m wake (g x) t) p s) : Heeds R q s := by
  intro taken wake rest turns ht
  have hwaits := ht.waits
  have htakes := ht.takes
  rw [hq] at hwaits htakes ⊢
  rw [hq]
  exact h taken wake rest turns ⟨hg _ hwaits, htakes⟩

theorem heeds_attempt {R : σ → Wake ω → Exit ε (Except ε α) → σ → Prop}
    (h : Heeds (fun m wake x t => R m wake x.tried t) p s) : Heeds R (attempt p) s := by
  refine heeds_map ?_ (attempt_eq p) h
  intro x hx
  cases x with
  | suspended => rfl
  | ok a | err e | cut n => cases hx

theorem heeds_guarded {R : σ → Wake ω → Exit ε (Option α) → σ → Prop}
    (h : Heeds (fun m wake x t => R m wake x.caught t) p s) : Heeds R (guarded p) s := by
  refine heeds_map ?_ (guarded_eq p) h
  intro x hx
  rcases x with a | e | ⟨_ | n⟩ | _
  · cases hx
  · cases hx
  · cases hx
  · cases hx
  · rfl

/-- A loop waits in one of its turns. What the wake led to there goes on in
    the turns that follow. -/
theorem heeds_loop {body : β → Async ω ε σ (Turn β γ)} {b : β}
    {T : σ → Wake ω → Exit ε (Turn β γ) → σ → Prop} {R : σ → Wake ω → Exit ε γ → σ → Prop}
    (I : β → σ → Prop) (hc : ∀ b, Causal (body b)) (hstart : I b s)
    (hbody : ∀ b t, I b t → Heeds T (body b) t
      ∧ wp (body b) (fun x u => (∀ b', x = .ok (.more b') → I b' u)
        ∧ ∀ m wake, T m wake x u → andThen (fun turn u => match turn with
          | .more b' => ∀ n, wp (turnsOf body n b') (R m wake) u
          | .done c => R m wake (.ok c) u) (R m wake) x u) t) : Heeds R (loop body b) s := by
  have hturns : ∀ n b t, I b t → Heeds R (turnsOf body n b) t := by
    intro n
    induction n with
    | zero =>
        intro b t _
        exact heeds_instant (f := fun s => (.suspended, s)) fun _ => rfl
    | succ n ih =>
        intro b t hI
        rcases hbody b t hI with ⟨hturn, hwp⟩
        refine heeds_bind (hc b) hturn (wp_mono hwp fun x u hx => ⟨?_, fun m wake hm => ?_⟩)
        · intro turn hok
          cases turn with
          | more b' => exact ih b' u (hx.1 b' hok)
          | done c => exact heeds_pure c
        · have hgo := hx.2 m wake hm
          cases x with
          | ok turn =>
              cases turn with
              | more b' => exact hgo n
              | done c => exact wp_pure hgo
          | err e => exact hgo
          | cut k => exact hgo
          | suspended => exact hgo
  exact fun taken wake rest turns ht => hturns turns b s hstart taken wake rest turns ⟨ht.waits, ht.takes⟩

end Heeds

end Async

end Psrp

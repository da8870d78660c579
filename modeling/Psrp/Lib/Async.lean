import Mathlib.Data.List.Basic

/-!
# Suspendable Programs

Asynchronous programs over a state, run against everything the world may do.

A program runs until it must wait, and the world then wakes it with an
answer; or the alarm of some guard around the wait goes off, and what is
inside that guard is dropped where it stands; or nothing ever comes, and the
whole program is dropped there by whoever owns it. `World` lists what comes,
so a program is a function from a state and a world to how it ends and to what
it leaves behind. What is left behind matters most when a program does *not*
end well: the state of a dropped program is the one its next user finds.

A loop makes as many turns as the world watches it for. Beyond that it counts
as suspended, so that what is proved for every world is proved of every
prefix of a run.

`wp` is the weakest precondition over all worlds. Its rules take a program
apart in the order it runs; each wait contributes one obligation for every
answer, and one for each way to be dropped.

## Main definitions

* `Wake`, `World`: What wakes a program.
* `Exit`: How a program ends.
* `Async`: Programs.
* `Async.await`: Wait for an answer.
* `Async.guarded`: Drop what an alarm interrupts.
* `Async.alarmed`: Whether the alarm has gone off.
* `Async.choose`: What the world chose.
* `Async.outside`: A program that knows nothing of the state.
* `Async.loop`: Turns of a loop.
* `Async.zoom`: A program on a part of the state.
* `Async.wp`: What holds however a program ends.
* `Async.Ends`: The ways to end, apart.
* `Async.Stays`: A property that a program keeps, however it ends.
* `Async.Raises`: What a program fails with.
* `Async.play`: A run of operations.

## Theorems

* `Async.wp_bind`, `Async.wp_loop`, `Async.wp_guarded`, `Async.wp_zoom`: The
  rules.
* `Async.play_invariant`, `Async.play_run`: What every operation keeps holds of
  every run.
* `split_of_snoc`: Histories grow by one event at a time.
-/

namespace Psrp

/-- What wakes a suspended program: an answer, or the alarm of the guard that
    has `depth` other guards inside it. -/
inductive Wake (ω : Type) where
  | answer (a : ω)
  | alarm (depth : Nat)
  deriving DecidableEq

/-- A state, what is still to come, and how many turns of a loop are watched. -/
structure World (ω σ : Type) where
  state : σ
  script : List (Wake ω)
  turns : Nat

/-- How a program ends: with a value, with an error, because an alarm went off
    around it, or not at all. -/
inductive Exit (ε α : Type) where
  | ok (a : α)
  | err (e : ε)
  | cut (depth : Nat)
  | suspended
  deriving DecidableEq

/-- A suspendable program. -/
def Async (ω ε σ α : Type) := World ω σ → Exit ε α × World ω σ

namespace Async

variable {ω ε σ τ α β γ : Type}

instance : Monad (Async ω ε σ) where
  pure a := fun w => (.ok a, w)
  bind p f := fun w =>
    match p w with
    | (.ok a, w') => f a w'
    | (.err e, w') => (.err e, w')
    | (.cut n, w') => (.cut n, w')
    | (.suspended, w') => (.suspended, w')

/-- The state. -/
def get : Async ω ε σ σ := fun w => (.ok w.state, w)

/-- Change the state. -/
def modify (f : σ → σ) : Async ω ε σ Unit := fun w => (.ok (), { w with state := f w.state })

/-- Compute from the state and change it, with an error or not. -/
def update (f : σ → Except ε α × σ) : Async ω ε σ α := fun w =>
  match f w.state with
  | (.ok a, s) => (.ok a, { w with state := s })
  | (.error e, s) => (.err e, { w with state := s })

/-- Fail. -/
def throw (e : ε) : Async ω ε σ α := fun w => (.err e, w)

/-- Return a value or fail. -/
def lift (r : Except ε α) : Async ω ε σ α :=
  match r with
  | .ok a => pure a
  | .error e => throw e

/-- Wait for an answer of some kind. Nothing else ends the wait but an alarm. -/
def await (read : ω → Option α) : Async ω ε σ α := fun w =>
  match w.script with
  | [] => (.suspended, w)
  | .alarm n :: rest => (.cut n, { w with script := rest })
  | .answer a :: rest =>
    match read a with
    | some x => (.ok x, { w with script := rest })
    | none => (.suspended, w)

/-- Take an error for a value. -/
def attempt (p : Async ω ε σ α) : Async ω ε σ (Except ε α) := fun w =>
  match p w with
  | (.ok a, w') => (.ok (.ok a), w')
  | (.err e, w') => (.ok (.error e), w')
  | (.cut n, w') => (.cut n, w')
  | (.suspended, w') => (.suspended, w')

/-- Run a program until it ends or its alarm goes off. -/
def guarded (p : Async ω ε σ α) : Async ω ε σ (Option α) := fun w =>
  match p w with
  | (.ok a, w') => (.ok (some a), w')
  | (.err e, w') => (.err e, w')
  | (.cut 0, w') => (.ok none, w')
  | (.cut (n + 1), w') => (.cut n, w')
  | (.suspended, w') => (.suspended, w')

/-- Whether the alarm has gone off by now. -/
def alarmed : Async ω ε σ Bool := fun w =>
  match w.script with
  | .alarm 0 :: rest => (.ok true, { w with script := rest })
  | _ => (.ok false, w)

/-- What the world chose, without a wait: nothing can interrupt it, and a
    choice of another kind counts as the given one. -/
def choose (read : ω → Option α) (otherwise : α) : Async ω ε σ α := fun w =>
  match w.script with
  | .answer a :: rest =>
    match read a with
    | some x => (.ok x, { w with script := rest })
    | none => (.ok otherwise, w)
  | _ => (.ok otherwise, w)

/-- A program that knows nothing of the state and cannot fail. -/
def outside (p : Async ω Empty Unit α) : Async ω ε σ α := fun w =>
  match p { state := (), script := w.script, turns := w.turns } with
  | (.ok a, w') => (.ok a, { state := w.state, script := w'.script, turns := w'.turns })
  | (.cut n, w') => (.cut n, { state := w.state, script := w'.script, turns := w'.turns })
  | (.suspended, w') => (.suspended, { state := w.state, script := w'.script, turns := w'.turns })

/-- What a turn of a loop ends with: another turn, or a result. -/
inductive Turn (α β : Type) where
  | more (a : α)
  | done (b : β)

/-- At most `n` turns of a loop. -/
def turnsOf (body : β → Async ω ε σ (Turn β γ)) : Nat → β → Async ω ε σ γ
  | 0, _ => fun w => (.suspended, w)
  | n + 1, b => do
    match ← body b with
    | .more b' => turnsOf body n b'
    | .done c => pure c

/-- A loop, for as long as the world watches it. -/
def loop (body : β → Async ω ε σ (Turn β γ)) (b : β) : Async ω ε σ γ :=
  fun w => turnsOf body w.turns b w

/-- A program on a part of the state. -/
def zoom (part : σ → τ) (put : τ → σ → σ) (p : Async ω ε τ α) : Async ω ε σ α := fun w =>
  let (x, w') := p { state := part w.state, script := w.script, turns := w.turns }
  (x, { state := put w'.state w.state, script := w'.script, turns := w'.turns })

@[simp] theorem pure_apply (a : α) (w : World ω σ) :
    (pure a : Async ω ε σ α) w = (.ok a, w) := rfl

theorem bind_apply (p : Async ω ε σ α) (f : α → Async ω ε σ β) (w : World ω σ) :
    (p >>= f) w = match p w with
      | (.ok a, w') => f a w'
      | (.err e, w') => (.err e, w')
      | (.cut n, w') => (.cut n, w')
      | (.suspended, w') => (.suspended, w') := rfl

theorem bind_assoc (p : Async ω ε σ α) (f : α → Async ω ε σ β) (g : β → Async ω ε σ γ) :
    p >>= f >>= g = p >>= fun a => f a >>= g := by
  funext w
  rw [bind_apply, bind_apply, bind_apply]
  rcases p w with ⟨x, w'⟩
  cases x <;> rfl

section Wp

/-- What follows a program that ends with a value; otherwise the sequence ends
    the same way. -/
def andThen (R : α → σ → Prop) (Q : Exit ε β → σ → Prop) : Exit ε α → σ → Prop
  | .ok a, s => R a s
  | .err e, s => Q (.err e) s
  | .cut n, s => Q (.cut n) s
  | .suspended, s => Q .suspended s

/-- Whatever the world does, the program ends as `Q` says. -/
def wp (p : Async ω ε σ α) (Q : Exit ε α → σ → Prop) (s : σ) : Prop :=
  ∀ script turns, Q (p ⟨s, script, turns⟩).1 (p ⟨s, script, turns⟩).2.state

variable {p : Async ω ε σ α} {f : α → Async ω ε σ β} {s : σ}

/-- A triple holds of a run. -/
theorem wp_apply {Q : Exit ε α → σ → Prop} (w : World ω σ) (h : wp p Q w.state) :
    Q (p w).1 (p w).2.state := h w.script w.turns

theorem wp_mono {Q Q' : Exit ε α → σ → Prop} (h : wp p Q s) (hQ : ∀ x t, Q x t → Q' x t) :
    wp p Q' s := fun script turns => hQ _ _ (h script turns)

theorem wp_and {Q Q' : Exit ε α → σ → Prop} (h : wp p Q s) (h' : wp p Q' s) :
    wp p (fun x t => Q x t ∧ Q' x t) s := fun script turns => ⟨h script turns, h' script turns⟩

theorem wp_pure {a : α} {Q : Exit ε α → σ → Prop} (h : Q (.ok a) s) :
    wp (pure a : Async ω ε σ α) Q s := fun _ _ => h

theorem wp_throw {e : ε} {Q : Exit ε α → σ → Prop} (h : Q (.err e) s) :
    wp (throw e : Async ω ε σ α) Q s := fun _ _ => h

theorem wp_lift {r : Except ε α} {Q : Exit ε α → σ → Prop} (hok : ∀ a, r = .ok a → Q (.ok a) s)
    (herr : ∀ e, r = .error e → Q (.err e) s) : wp (lift r : Async ω ε σ α) Q s := by
  cases r with
  | ok a => exact wp_pure (hok a rfl)
  | error e => exact wp_throw (herr e rfl)

theorem wp_get {Q : Exit ε σ → σ → Prop} (h : Q (.ok s) s) :
    wp (get : Async ω ε σ σ) Q s := fun _ _ => h

theorem wp_modify {g : σ → σ} {Q : Exit ε Unit → σ → Prop} (h : Q (.ok ()) (g s)) :
    wp (modify g : Async ω ε σ Unit) Q s := fun _ _ => h

theorem wp_update {g : σ → Except ε α × σ} {Q : Exit ε α → σ → Prop}
    (hok : ∀ a t, g s = (.ok a, t) → Q (.ok a) t) (herr : ∀ e t, g s = (.error e, t) → Q (.err e) t) :
    wp (update g : Async ω ε σ α) Q s := by
  intro script turns
  simp only [update]
  rcases hg : g s with ⟨x, t⟩
  cases x with
  | ok a => exact hok a t hg
  | error e => exact herr e t hg

/-- A wait leaves the state alone, whatever ends it. -/
theorem wp_await {read : ω → Option α} {Q : Exit ε α → σ → Prop}
    (hok : ∀ a x, read a = some x → Q (.ok x) s) (hcut : ∀ n, Q (.cut n) s)
    (hsuspended : Q .suspended s) :
    wp (await read : Async ω ε σ α) Q s := by
  intro script turns
  unfold await
  cases script with
  | nil => exact hsuspended
  | cons wake rest =>
      cases wake with
      | alarm n => exact hcut n
      | answer a =>
          simp only []
          cases hread : read a with
          | none => exact hsuspended
          | some x => exact hok a x hread

theorem wp_alarmed {Q : Exit ε Bool → σ → Prop} (h : ∀ b, Q (.ok b) s) :
    wp (alarmed : Async ω ε σ Bool) Q s := by
  intro script turns
  unfold alarmed
  split <;> exact h _

theorem wp_choose {read : ω → Option α} {otherwise : α} {Q : Exit ε α → σ → Prop}
    (h : ∀ x, Q (.ok x) s) : wp (choose read otherwise : Async ω ε σ α) Q s := by
  intro script turns
  unfold choose
  split
  · split <;> exact h _
  · exact h _

theorem wp_outside {q : Async ω Empty Unit α} {Q : Exit ε α → σ → Prop} (hok : ∀ a, Q (.ok a) s)
    (hcut : ∀ n, Q (.cut n) s) (hsuspended : Q .suspended s) :
    wp (outside q : Async ω ε σ α) Q s := by
  intro script turns
  unfold outside
  generalize q { state := (), script := script, turns := turns } = r
  rcases r with ⟨x, w⟩
  cases x with
  | ok a => exact hok a
  | err e => exact e.elim
  | cut n => exact hcut n
  | suspended => exact hsuspended

/-- The same, with what is known of the value. -/
theorem wp_outside_of {q : Async ω Empty Unit α} {P : α → Prop} {Q : Exit ε α → σ → Prop}
    (hq : wp q (fun x _ => ∀ a, x = .ok a → P a) ()) (hok : ∀ a, P a → Q (.ok a) s)
    (hcut : ∀ n, Q (.cut n) s) (hsuspended : Q .suspended s) :
    wp (outside q : Async ω ε σ α) Q s := by
  intro script turns
  have h := hq script turns
  unfold outside
  generalize q { state := (), script := script, turns := turns } = r at h ⊢
  rcases r with ⟨x, w⟩
  cases x with
  | ok a => exact hok a (h a rfl)
  | err e => exact e.elim
  | cut n => exact hcut n
  | suspended => exact hsuspended

/-- Sequencing: what follows is proved of every state the first part leaves. -/
theorem wp_bind {Q : Exit ε β → σ → Prop} (h : wp p (andThen (fun a => wp (f a) Q) Q) s) :
    wp (p >>= f) Q s := by
  intro script turns
  have hp := h script turns
  rw [bind_apply]
  generalize p ⟨s, script, turns⟩ = r at hp
  rcases r with ⟨x, w⟩
  cases x with
  | ok a => exact hp w.script w.turns
  | err e => exact hp
  | cut n => exact hp
  | suspended => exact hp

/-- What follows a look at the state runs on that state. -/
theorem wp_getThen {g : σ → Async ω ε σ β} {Q : Exit ε β → σ → Prop} (h : wp (g s) Q s) :
    wp (get >>= g) Q s := h

theorem wp_modifyThen {m : σ → σ} {g : Unit → Async ω ε σ β} {Q : Exit ε β → σ → Prop}
    (h : wp (g ()) Q (m s)) : wp (modify m >>= g) Q s := h

theorem wp_attempt {Q : Exit ε (Except ε α) → σ → Prop}
    (h : wp p (fun x t => match x with
      | .ok a => Q (.ok (.ok a)) t
      | .err e => Q (.ok (.error e)) t
      | .cut n => Q (.cut n) t
      | .suspended => Q .suspended t) s) : wp (attempt p) Q s := by
  intro script turns
  have hp := h script turns
  unfold attempt
  generalize p ⟨s, script, turns⟩ = r at hp
  rcases r with ⟨x, w⟩
  cases x <;> exact hp

/-- A guard turns its own alarm into a value. -/
theorem wp_guarded {Q : Exit ε (Option α) → σ → Prop}
    (h : wp p (fun x t => match x with
      | .ok a => Q (.ok (some a)) t
      | .err e => Q (.err e) t
      | .cut 0 => Q (.ok none) t
      | .cut (n + 1) => Q (.cut n) t
      | .suspended => Q .suspended t) s) : wp (guarded p) Q s := by
  intro script turns
  have hp := h script turns
  unfold guarded
  generalize p ⟨s, script, turns⟩ = r at hp
  rcases r with ⟨x, w⟩
  cases x with
  | ok a => exact hp
  | err e => exact hp
  -- Only the alarm of this guard is caught.
  | cut n => cases n <;> exact hp
  | suspended => exact hp

/-- Some turns of a loop: each keeps the invariant or establishes the result. -/
theorem wp_turnsOf {body : β → Async ω ε σ (Turn β γ)} {Q : Exit ε γ → σ → Prop}
    (I : β → σ → Prop) {b : β} (n : Nat) (hstart : I b s)
    (hsuspended : ∀ b t, I b t → Q .suspended t)
    (hbody : ∀ b t, I b t → wp (body b) (andThen (fun x u => match x with
      | .more b' => I b' u
      | .done c => Q (.ok c) u) Q) t) : wp (turnsOf body n b) Q s := by
  -- On the turns that are left, with the invariant at the start of each.
  induction n generalizing b s with
  | zero => exact fun script turns => hsuspended b s hstart
  | succ n ih =>
      refine wp_bind (wp_mono (hbody b s hstart) fun x u hx => ?_)
      cases x with
      | ok turn =>
          cases turn with
          | more b' => exact ih hx
          | done c => exact wp_pure hx
      | err e => exact hx
      | cut n => exact hx
      | suspended => exact hx

/-- A loop: every turn keeps the invariant or establishes the result. -/
theorem wp_loop {body : β → Async ω ε σ (Turn β γ)} {Q : Exit ε γ → σ → Prop}
    (I : β → σ → Prop) {b : β} (hstart : I b s) (hsuspended : ∀ b t, I b t → Q .suspended t)
    (hbody : ∀ b t, I b t → wp (body b) (andThen (fun x u => match x with
      | .more b' => I b' u
      | .done c => Q (.ok c) u) Q) t) : wp (loop body b) Q s :=
  fun script turns => wp_turnsOf I turns hstart hsuspended hbody script turns

/-- A program on a part of the state leaves the rest alone. -/
theorem wp_zoom {part : σ → τ} {put : τ → σ → σ} {q : Async ω ε τ α} {Q : Exit ε α → σ → Prop}
    (h : wp q (fun x t => Q x (put t s)) (part s)) : wp (zoom part put q) Q s :=
  fun script turns => h script turns

end Wp

section Ends

/-- The ways to end, apart: dropped on the way, with an error, with a value. -/
def Ends (dropped : σ → Prop) (failed : ε → σ → Prop) (good : α → σ → Prop) :
    Exit ε α → σ → Prop
  | .ok a, s => good a s
  | .err e, s => failed e s
  | .cut _, s => dropped s
  | .suspended, s => dropped s

variable {p : Async ω ε σ α} {f : α → Async ω ε σ β} {s : σ} {dropped dropped' : σ → Prop}
  {failed failed' : ε → σ → Prop} {good good' : α → σ → Prop} {result : β → σ → Prop}

theorem Ends.mono {x : Exit ε α} (h : Ends dropped failed good x s)
    (hd : ∀ t, dropped t → dropped' t) (hf : ∀ e t, failed e t → failed' e t)
    (hg : ∀ a t, good a t → good' a t) : Ends dropped' failed' good' x s := by
  cases x with
  | ok a => exact hg a s h
  | err e => exact hf e s h
  | cut n => exact hd s h
  | suspended => exact hd s h

theorem wp_ends (h : wp p (Ends dropped failed good) s) (hd : ∀ t, dropped t → dropped' t)
    (hf : ∀ e t, failed e t → failed' e t) (hg : ∀ a t, good a t → good' a t) :
    wp p (Ends dropped' failed' good') s := wp_mono h fun _ _ hx => hx.mono hd hf hg

/-- A sequence: what ends early ends the whole, and what follows starts from
    every good end of the first part. -/
theorem wp_seq (h : wp p (Ends dropped failed good) s) (hd : ∀ t, dropped t → dropped' t)
    (hf : ∀ e t, failed e t → failed' e t)
    (hg : ∀ a t, good a t → wp (f a) (Ends dropped' failed' result) t) :
    wp (p >>= f) (Ends dropped' failed' result) s := by
  refine wp_bind (wp_mono h fun x t hx => ?_)
  cases x with
  | ok a => exact hg a t hx
  | err e => exact hf e t hx
  | cut n => exact hd t hx
  | suspended => exact hd t hx

end Ends

section Stays

/-- A program keeps a property of the state, however it ends. -/
def Stays (I : σ → Prop) (p : Async ω ε σ α) : Prop := ∀ s, I s → wp p (fun _ t => I t) s

variable {I : σ → Prop} {p q : Async ω ε σ α}

theorem stays_pure (a : α) : Stays I (pure a : Async ω ε σ α) := fun _ h => wp_pure h

theorem stays_throw (e : ε) : Stays I (throw e : Async ω ε σ α) := fun _ h => wp_throw h

theorem stays_lift (r : Except ε α) : Stays I (lift r : Async ω ε σ α) :=
  fun _ h => wp_lift (fun _ _ => h) fun _ _ => h

theorem stays_alarmed : Stays I (alarmed : Async ω ε σ Bool) := fun _ h => wp_alarmed fun _ => h

theorem stays_modify {f : σ → σ} (hf : ∀ s, I s → I (f s)) :
    Stays I (modify f : Async ω ε σ Unit) := fun s h => wp_modify (hf s h)

theorem stays_bind {f : α → Async ω ε σ β} (hp : Stays I p) (hf : ∀ a, Stays I (f a)) :
    Stays I (p >>= f) := by
  intro s hs
  refine wp_bind (wp_mono (hp s hs) fun x t ht => ?_)
  cases x with
  | ok a => exact hf a t ht
  | err e => exact ht
  | cut n => exact ht
  | suspended => exact ht

theorem stays_ite {b : Prop} [Decidable b] (hp : Stays I p) (hq : Stays I q) :
    Stays I (if b then p else q) := by
  by_cases hb : b
  · rw [if_pos hb]
    exact hp
  · rw [if_neg hb]
    exact hq

theorem stays_attempt (hp : Stays I p) : Stays I (attempt p) := by
  intro s hs
  refine wp_attempt (wp_mono (hp s hs) fun x t ht => ?_)
  cases x <;> exact ht

theorem stays_guarded (hp : Stays I p) : Stays I (guarded p) := by
  intro s hs
  refine wp_guarded (wp_mono (hp s hs) fun x t ht => ?_)
  cases x with
  | ok a => exact ht
  | err e => exact ht
  | cut n => cases n <;> exact ht
  | suspended => exact ht

theorem stays_loop {body : β → Async ω ε σ (Turn β γ)} (h : ∀ b, Stays I (body b)) (b : β) :
    Stays I (loop body b) := by
  intro s hs
  refine wp_loop (fun _ t => I t) hs (fun _ _ ht => ht) fun b t ht => ?_
  refine wp_mono (h b t ht) fun x u hu => ?_
  cases x with
  | ok turn => cases turn <;> exact hu
  | err e => exact hu
  | cut n => exact hu
  | suspended => exact hu

end Stays

section Raises

/-- Whatever a program fails with satisfies a predicate. -/
def Raises (E : ε → Prop) (p : Async ω ε σ α) : Prop := ∀ w e, (p w).1 = .err e → E e

variable {E : ε → Prop} {p q : Async ω ε σ α}

/-- The errors of a program, next to whatever else is known of how it ends. -/
theorem Raises.wp (h : Raises E p) (s : σ) : Async.wp p (fun x _ => ∀ e, x = .err e → E e) s :=
  fun _ _ _ he => h _ _ he

theorem raises_pure (a : α) : Raises E (pure a : Async ω ε σ α) := by
  intro w e h
  cases h

theorem raises_get : Raises E (get : Async ω ε σ σ) := by
  intro w e h
  cases h

theorem raises_modify (f : σ → σ) : Raises E (modify f : Async ω ε σ Unit) := by
  intro w e h
  cases h

theorem raises_throw {e : ε} (he : E e) : Raises E (throw e : Async ω ε σ α) := by
  intro w e' h
  cases h
  exact he

theorem raises_lift {r : Except ε α} (hr : ∀ e, r = .error e → E e) :
    Raises E (lift r : Async ω ε σ α) := by
  cases r with
  | ok a => exact raises_pure a
  | error e => exact raises_throw (hr e rfl)

theorem raises_update {f : σ → Except ε α × σ} (hf : ∀ s e, (f s).1 = .error e → E e) :
    Raises E (update f : Async ω ε σ α) := by
  intro w e h
  unfold update at h
  rcases hrun : f w.state with ⟨r, s⟩
  rw [hrun] at h
  cases r with
  | ok a => cases h
  | error e' =>
      cases h
      exact hf w.state e (congrArg Prod.fst hrun)

theorem raises_choose (read : ω → Option α) (otherwise : α) :
    Raises E (choose read otherwise : Async ω ε σ α) := by
  intro w e h
  unfold choose at h
  split at h
  · split at h <;> cases h
  · cases h

theorem raises_outside (q : Async ω Empty Unit α) : Raises E (outside q : Async ω ε σ α) := by
  intro w e h
  unfold outside at h
  rcases hrun : q { state := (), script := w.script, turns := w.turns } with ⟨x, w'⟩
  rw [hrun] at h
  cases x with
  | ok a => cases h
  | err e' => exact e'.elim
  | cut n => cases h
  | suspended => cases h

theorem raises_bind {f : α → Async ω ε σ β} (hp : Raises E p) (hf : ∀ a, Raises E (f a)) :
    Raises E (p >>= f) := by
  intro w e h
  rw [bind_apply] at h
  rcases hrun : p w with ⟨x, w'⟩
  rw [hrun] at h
  cases x with
  | ok a => exact hf a w' e h
  | err e' =>
      cases h
      exact hp w e (congrArg Prod.fst hrun)
  | cut n => cases h
  | suspended => cases h

theorem raises_ite {b : Prop} [Decidable b] (hp : Raises E p) (hq : Raises E q) :
    Raises E (if b then p else q) := by
  by_cases hb : b
  · rw [if_pos hb]
    exact hp
  · rw [if_neg hb]
    exact hq

theorem raises_attempt (p : Async ω ε σ α) : Raises E (attempt p) := by
  intro w e h
  unfold attempt at h
  rcases hrun : p w with ⟨x, w'⟩
  rw [hrun] at h
  cases x <;> cases h

theorem raises_loop {body : β → Async ω ε σ (Turn β γ)} (h : ∀ b, Raises E (body b)) (b : β) :
    Raises E (loop body b) := by
  have hn : ∀ (n : Nat) (b : β), Raises E (turnsOf body n b) := by
    intro n
    induction n with
    | zero =>
        intro b w e h
        cases h
    | succ n ih =>
        intro b
        refine raises_bind (h b) fun turn => ?_
        cases turn with
        | more b' => exact ih b'
        | done c => exact raises_pure c
  exact fun w => hn w.turns b w

/-- A program on a part fails with what it fails with there. -/
theorem raises_zoom {part : σ → τ} {put : τ → σ → σ} {q : Async ω ε τ α} (hq : Raises E q) :
    Raises E (zoom part put q) := fun _ e h => hq _ e h

end Raises

section Play

variable {ι : Type}

/-- One operation of a run, and what the world does during it. -/
structure Call (ω ι : Type) where
  operation : ι
  script : List (Wake ω)
  turns : Nat

/-- Operations one after the other, each on the state the one before left
    behind, and how each of them ended. -/
def play (f : ι → Async ω ε σ α) : List (Call ω ι) → σ → List (ι × Exit ε α) × σ
  | [], s => ([], s)
  | c :: cs, s =>
    let (x, w) := f c.operation ⟨s, c.script, c.turns⟩
    let (xs, t) := play f cs w.state
    ((c.operation, x) :: xs, t)

theorem play_append (f : ι → Async ω ε σ α) (cs ds : List (Call ω ι)) (s : σ) :
    play f (cs ++ ds) s
      = ((play f cs s).1 ++ (play f ds (play f cs s).2).1, (play f ds (play f cs s).2).2) := by
  induction cs generalizing s with
  | nil => rfl
  | cons c cs ih => simp only [List.cons_append, play, ih]

/-- What every operation keeps holds of every run, from any state it holds of.
    The invariant may speak about how the operations so far ended. -/
theorem play_invariant {f : ι → Async ω ε σ α} (I : List (ι × Exit ε α) → σ → Prop)
    (hstep : ∀ past i s, I past s → wp (f i) (fun x t => I (past ++ [(i, x)]) t) s)
    (cs : List (Call ω ι)) {past : List (ι × Exit ε α)} {s : σ} (h : I past s) :
    I (past ++ (play f cs s).1) (play f cs s).2 := by
  induction cs generalizing past s with
  | nil =>
      rw [play, List.append_nil]
      exact h
  | cons c cs ih =>
      have hc := hstep past c.operation s h c.script c.turns
      have hcs := ih hc
      rw [List.append_assoc] at hcs
      exact hcs

/-- The same of a run from its beginning. -/
theorem play_run {f : ι → Async ω ε σ α} (I : List (ι × Exit ε α) → σ → Prop)
    (hstep : ∀ past i s, I past s → wp (f i) (fun x t => I (past ++ [(i, x)]) t) s)
    (cs : List (Call ω ι)) {s : σ} (h : I [] s) : I (play f cs s).1 (play f cs s).2 :=
  play_invariant I hstep cs h

/-- What holds after a run and not before it came to hold in one call. -/
theorem play_change {f : ι → Async ω ε σ α} {P : σ → Prop} (cs : List (Call ω ι)) {s : σ}
    (hbefore : ¬ P s) (hafter : P (play f cs s).2) :
    ∃ before c after, cs = before ++ c :: after ∧ ¬ P (play f before s).2
      ∧ P (play f (before ++ [c]) s).2 := by
  induction cs generalizing s with
  | nil => exact absurd hafter hbefore
  | cons c cs ih =>
      by_cases hc : P (f c.operation ⟨s, c.script, c.turns⟩).2.state
      · exact ⟨[], c, cs, rfl, hbefore, hc⟩
      · rcases ih hc hafter with ⟨before, c', after, rfl, hb, ha⟩
        exact ⟨c :: before, c', after, rfl, hb, ha⟩

end Play

end Async

/-- An event in a longer history is the last one or was there before. -/
theorem split_of_snoc {α : Type} {as before after : List α} {a b : α}
    (heq : as ++ [a] = before ++ b :: after) :
    (a = b ∧ after = [] ∧ as = before) ∨ ∃ rest, after = rest ++ [a] ∧ as = before ++ b :: rest := by
  rcases List.eq_nil_or_concat' after with rfl | ⟨rest, c, rfl⟩
  · rcases List.append_inj' heq rfl with ⟨has, hlast⟩
    exact Or.inl ⟨List.singleton_inj.mp hlast, rfl, has⟩
  · have hsnoc : as ++ [a] = (before ++ b :: rest) ++ [c] := by
      rw [heq, List.append_assoc]
      rfl
    rcases List.append_inj' hsnoc rfl with ⟨has, hlast⟩
    exact Or.inr ⟨rest, by rw [List.singleton_inj.mp hlast], has⟩

end Psrp

/-!
# Programs over a Pull Parser

Recursive-descent programs that read events from a stream and keep a state.

Such a program is a value of `Pull`: it maps a cursor to a result and the
cursor it leaves behind, on success and on failure alike. Its loops all have
one shape. Read an event; at the end of the input, finish or fail; on an
event, go round again or return. `loop` is that shape. Every turn takes an
event off the stream, so the number of events left bounds the number of turns,
and `run_loop_cons` unfolds one turn without mentioning the bound, for every body
that puts no events back.

What a program does to its cursor, whatever the input, is stated by
`Respects`: the cursor before and the cursor after are related. A reflexive
and transitive relation that reading an event respects carries through
sequencing and loops, so that one lemma for each function of a program is
enough. Consuming events and leaving a counter as it was found are both such
relations.

## Main definitions

* `Cursor`: The events to come, the fault that ends them, and the state.
* `Pull`: Programs over a cursor.
* `Pull.next`: Read an event.
* `Pull.loop`: The event loop.
* `Pull.run`: The outcome of a program.
* `Pull.Respects`: What a program does to its cursor.
* `Pull.Raises`: What a program fails with.

## Theorems

* `Pull.run_bind`: The outcome of a sequence.
* `Pull.run_loop_cons`, `Pull.run_loop_nil`: One turn of a loop.
* `Pull.Respects.bind`, `Pull.Respects.loop`: Sequencing and loops.
* `Pull.Raises.bind`, `Pull.Raises.loop`: The same for errors.
-/

namespace Psrp

/-- The events to come, the fault that ends them if one does, and the state. -/
structure Cursor (ev σ : Type) where
  events : List ev
  fault : Option String
  state : σ

/-- Programs that read events, keep a state and may fail. -/
abbrev Pull (ev σ ε : Type) := EStateM ε (Cursor ev σ)

/-- What is mapped to a value was a value. -/
theorem except_map_eq_ok {ε α β : Type} {f : α → β} {x : Except ε α} {b : β} :
    x.map f = .ok b ↔ ∃ a, x = .ok a ∧ f a = b := by
  cases x with
  | error e => simp only [Except.map, reduceCtorEq, false_and, exists_false]
  | ok a => simp only [Except.map, Except.ok.injEq, exists_eq_left']

namespace Pull

variable {ev σ ε α β : Type}

/-- The cursor a program leaves behind. -/
def cursorOf : EStateM.Result ε (Cursor ev σ) α → Cursor ev σ
  | .ok _ c => c
  | .error _ c => c

/-- The outcome of a program: its value and the cursor it leaves, or its
    error. -/
def run (m : Pull ev σ ε α) (c : Cursor ev σ) : Except ε (α × Cursor ev σ) :=
  match m c with
  | .ok a c => .ok (a, c)
  | .error e _ => .error e

/-- Raise an error, or return the value. -/
def lift (r : Except ε α) : Pull ev σ ε α :=
  match r with
  | .ok a => pure a
  | .error e => throw e

/-- Compute from the state, and change it unless that fails. -/
def update (f : σ → Except ε (α × σ)) : Pull ev σ ε α := fun c =>
  match f c.state with
  | .ok (a, s) => .ok a { c with state := s }
  | .error e => .error e c

/-- Read an event; `none` is the end of the input. -/
def next (fault : String → ε) : Pull ev σ ε (Option ev) := fun c =>
  match c.events with
  | e :: es => .ok (some e) { c with events := es }
  | [] => match c.fault with
    | none => .ok none c
    | some m => .error (fault m) c

/-- What a turn of a loop ends with: another turn, or a result. -/
inductive Turn (α β : Type) where
  | more (a : α)
  | done (b : β)

section Loop

variable (fault : String → ε) (onEvent : α → ev → Pull ev σ ε (Turn α β)) (onEof : α → Pull ev σ ε β)

/-- At most `n` turns of an event loop. -/
def loopN : Nat → α → Pull ev σ ε β
  | 0, a => onEof a
  | n + 1, a => do
    match ← next fault with
    | none => onEof a
    | some e =>
      match ← onEvent a e with
      | .more a' => loopN n a'
      | .done b => pure b

/-- The event loop: no more turns than there are events, and one for the end. -/
def loop (a : α) : Pull ev σ ε β := fun c => loopN fault onEvent onEof (c.events.length + 1) a c

end Loop

@[simp] theorem run_pure (a : α) (c : Cursor ev σ) :
    run (pure a : Pull ev σ ε α) c = .ok (a, c) := rfl

@[simp] theorem run_throw (e : ε) (c : Cursor ev σ) :
    run (throw e : Pull ev σ ε α) c = .error e := rfl

@[simp] theorem run_bind (m : Pull ev σ ε α) (f : α → Pull ev σ ε β) (c : Cursor ev σ) :
    run (m >>= f) c = match run m c with
      | .ok (a, c') => run (f a) c'
      | .error e => .error e := by
  simp only [run, bind, EStateM.bind]
  cases m c <;> rfl

@[simp] theorem run_lift (r : Except ε α) (c : Cursor ev σ) :
    run (lift r : Pull ev σ ε α) c = r.map fun a => (a, c) := by
  cases r <;> rfl

@[simp] theorem run_update (f : σ → Except ε (α × σ)) (c : Cursor ev σ) :
    run (update f : Pull ev σ ε α) c = (f c.state).map fun (a, s) => (a, { c with state := s }) := by
  simp only [run, update]
  cases f c.state <;> rfl

/-- The cursor before and after a program are related, however it ends. -/
def Respects (R : Cursor ev σ → Cursor ev σ → Prop) (m : Pull ev σ ε α) : Prop :=
  ∀ c, R c (cursorOf (m c))

/-- No event is put back. -/
def Consumes (c c' : Cursor ev σ) : Prop := c'.events.length ≤ c.events.length

theorem Consumes.refl (c : Cursor ev σ) : Consumes c c := Nat.le_refl _

theorem Consumes.trans (c c' c'' : Cursor ev σ) (h : Consumes c c') (h' : Consumes c' c'') :
    Consumes c c'' := Nat.le_trans h' h

section Loop

variable {fault : String → ε} {onEvent : α → ev → Pull ev σ ε (Turn α β)}
  {onEof : α → Pull ev σ ε β}

/-- More turns than needed change nothing. -/
theorem loopN_eq (h : ∀ a e, Respects Consumes (onEvent a e)) :
    ∀ (n m : Nat) (a : α) (c : Cursor ev σ), c.events.length < n → c.events.length < m →
      loopN fault onEvent onEof n a c = loopN fault onEvent onEof m a c := by
  intro n
  -- Every turn takes an event, so fuel above the number of events changes nothing.
  induction n with
  | zero => intro m a c hn; omega
  | succ n ih =>
      intro m a c hn hm
      rcases m with _ | m
      · omega
      · rcases c with ⟨events, ft, s⟩
        rcases events with _ | ⟨e, es⟩
        · cases ft <;> rfl
        · have hcons := h a e { events := es, fault := ft, state := s }
          rw [List.length_cons] at hn hm
          simp only [loopN, next, bind, EStateM.bind]
          cases hturn : onEvent a e { events := es, fault := ft, state := s } with
          | error x c' => rfl
          | ok t c' =>
              rw [hturn] at hcons
              have hlen : c'.events.length ≤ es.length := hcons
              cases t with
              | done b => rfl
              | more a' => exact ih m a' c' (by omega) (by omega)

@[simp] theorem run_loop_nil (a : α) (s : σ) :
    run (loop fault onEvent onEof a) ⟨[], none, s⟩ = run (onEof a) ⟨[], none, s⟩ := rfl

@[simp] theorem run_loop_fault (a : α) (msg : String) (s : σ) :
    run (loop fault onEvent onEof a) ⟨[], some msg, s⟩ = .error (fault msg) := rfl

/-- One turn of a loop. -/
theorem run_loop_cons (h : ∀ a e, Respects Consumes (onEvent a e)) (a : α) (e : ev) (es : List ev)
    (ft : Option String) (s : σ) :
    run (loop fault onEvent onEof a) ⟨e :: es, ft, s⟩ = match run (onEvent a e) ⟨es, ft, s⟩ with
      | .ok (.more a', c) => run (loop fault onEvent onEof a') c
      | .ok (.done b, c) => .ok (b, c)
      | .error x => .error x := by
  have hcons := h a e ⟨es, ft, s⟩
  -- One turn, with the fuel that is left,
  have hturn : loop fault onEvent onEof a ⟨e :: es, ft, s⟩ = match onEvent a e ⟨es, ft, s⟩ with
      | .ok (.more a') c => loopN fault onEvent onEof (e :: es).length a' c
      | .ok (.done b) c => .ok b c
      | .error x c => .error x c := by
    rw [loop]
    simp only [loopN, next, bind, EStateM.bind]
    cases onEvent a e ⟨es, ft, s⟩ with
    | error x c => rfl
    | ok t c => cases t <;> rfl
  rw [run, hturn, run]
  cases hrun : onEvent a e ⟨es, ft, s⟩ with
  | error x c => rfl
  | ok t c =>
      rw [hrun] at hcons
      have hlen : c.events.length ≤ es.length := hcons
      cases t with
      | done b => rfl
      | more a' =>
          simp only [run, loop]
          -- which is as good as the fuel of a fresh loop.
          rw [loopN_eq h (e :: es).length (c.events.length + 1) a' c
            (by simp only [List.length_cons]; omega) (by omega)]

end Loop

namespace Respects

variable {R : Cursor ev σ → Cursor ev σ → Prop}

theorem pure (hrefl : ∀ c, R c c) (a : α) : Respects R (Pure.pure a : Pull ev σ ε α) := hrefl

theorem throw (hrefl : ∀ c, R c c) (e : ε) : Respects R (throw e : Pull ev σ ε α) := hrefl

theorem lift (hrefl : ∀ c, R c c) (r : Except ε α) : Respects R (lift r : Pull ev σ ε α) := by
  cases r with
  | ok a => exact hrefl
  | error e => exact hrefl

theorem bind (htrans : ∀ c c' c'', R c c' → R c' c'' → R c c'') {m : Pull ev σ ε α}
    {f : α → Pull ev σ ε β} (hm : Respects R m) (hf : ∀ a, Respects R (f a)) :
    Respects R (m >>= f) := by
  intro c
  have hc := hm c
  simp only [Bind.bind, EStateM.bind]
  cases hrun : m c with
  | error e c' =>
      rw [hrun] at hc
      exact hc
  | ok a c' =>
      rw [hrun] at hc
      exact htrans _ _ _ hc (hf a c')

theorem loop {fault : String → ε} {onEvent : α → ev → Pull ev σ ε (Turn α β)}
    {onEof : α → Pull ev σ ε β} (hrefl : ∀ c, R c c)
    (htrans : ∀ c c' c'', R c c' → R c' c'' → R c c'')
    (hnext : Respects R (next fault : Pull ev σ ε (Option ev)))
    (hevent : ∀ a e, Respects R (onEvent a e)) (heof : ∀ a, Respects R (onEof a)) (a : α) :
    Respects R (Pull.loop fault onEvent onEof a) := by
  have hn : ∀ (n : Nat) (a : α), Respects R (loopN fault onEvent onEof n a) := by
    intro n
    induction n with
    | zero => exact heof
    | succ n ih =>
        intro a
        refine bind htrans hnext (fun e => ?_)
        cases e with
        | none => exact heof a
        | some e =>
            refine bind htrans (hevent a e) (fun t => ?_)
            cases t with
            | more a' => exact ih a'
            | done b => exact pure hrefl b
  exact fun c => hn _ a c

end Respects

/-- Whatever a program fails with satisfies a predicate. -/
def Raises (E : ε → Prop) (m : Pull ev σ ε α) : Prop := ∀ c e c', m c = .error e c' → E e

namespace Raises

variable {E : ε → Prop}

theorem pure (a : α) : Raises E (Pure.pure a : Pull ev σ ε α) := by
  intro c e c' h
  cases h

theorem throw {e : ε} (he : E e) : Raises E (throw e : Pull ev σ ε α) := by
  intro c e' c' h
  cases h
  exact he

theorem lift {r : Except ε α} (hr : ∀ e, r = .error e → E e) :
    Raises E (lift r : Pull ev σ ε α) := by
  cases r with
  | ok a => exact pure a
  | error e => exact throw (hr e rfl)

theorem update {f : σ → Except ε (α × σ)} (hf : ∀ s e, f s = .error e → E e) :
    Raises E (update f : Pull ev σ ε α) := by
  intro c e c' h
  unfold Pull.update at h
  cases hrun : f c.state with
  | ok a =>
      rw [hrun] at h
      cases h
  | error e' =>
      rw [hrun] at h
      cases h
      exact hf _ _ hrun

theorem bind {m : Pull ev σ ε α} {f : α → Pull ev σ ε β} (hm : Raises E m)
    (hf : ∀ a, Raises E (f a)) : Raises E (m >>= f) := by
  intro c e c' h
  simp only [Bind.bind, EStateM.bind] at h
  cases hrun : m c with
  | error e' c'' =>
      rw [hrun] at h
      cases h
      exact hm _ _ _ hrun
  | ok a c'' =>
      rw [hrun] at h
      exact hf a _ _ _ h

/-- A loop fails with what is at the end of the events, or with what a turn
    fails with. -/
theorem loop {fault : String → ε} {onEvent : α → ev → Pull ev σ ε (Turn α β)}
    {onEof : α → Pull ev σ ε β} (hfault : ∀ m, E (fault m)) (hevent : ∀ a e, Raises E (onEvent a e))
    (heof : ∀ a, Raises E (onEof a)) (a : α) : Raises E (Pull.loop fault onEvent onEof a) := by
  have hnext : Raises E (next fault : Pull ev σ ε (Option ev)) := by
    rintro ⟨events, ft, s⟩ e c' h
    rcases events with _ | ⟨ev, es⟩
    · cases ft with
      | none => cases h
      | some m =>
          cases h
          exact hfault m
    · cases h
  have hn : ∀ (n : Nat) (a : α), Raises E (loopN fault onEvent onEof n a) := by
    intro n
    induction n with
    | zero => exact heof
    | succ n ih =>
        intro a
        refine bind hnext fun e => ?_
        cases e with
        | none => exact heof a
        | some e =>
            refine bind (hevent a e) fun t => ?_
            cases t with
            | more a' => exact ih a'
            | done b => exact pure b
  exact fun c => hn _ a c

end Raises

theorem consumes_next (fault : String → ε) :
    Respects Consumes (next fault : Pull ev σ ε (Option ev)) := by
  rintro ⟨events, ft, s⟩
  rcases events with _ | ⟨e, es⟩
  · cases ft <;> exact Nat.le_refl _
  · exact Nat.le_succ _

end Pull

end Psrp

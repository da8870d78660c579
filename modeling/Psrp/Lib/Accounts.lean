import Psrp.Lib.Async

/-!
# Programs That Account for What They Read

What a program takes from the world and what can be seen of it afterwards.

A program that keeps a record of its answers may keep a wrong one. `Accounts`
compares the record with the script: the program takes a part off the front of
it, and what the answers in that part say is what the record grows by. An answer
is taken before it can be recorded, so a program may start with something
`owed`: it goes in front of what it takes itself.

What programs account for, their sequences, loops and runs account for. Where a
wait is over and the answer is not in the record yet, the next step has to put
it there (`accounts_awaitThen`), for there is no other way to owe something.

## Main definitions

* `Async.answersIn`: The answers among what came.
* `Async.Accounts`: What a program takes is what its record grows by.
* `Async.answersTaken`: The answers that the operations of a run took.

## Theorems

* `Async.accounts_bind`, `Async.accounts_awaitThen`, `Async.accounts_loop`,
  `Async.accounts_zoom`: The rules.
* `Async.accounts_play`: A run.
-/

namespace Psrp

namespace Async

variable {ω ε σ τ α β γ κ : Type}

/-- The answers among what came. -/
def answersIn (script : List (Wake ω)) : List ω :=
  script.filterMap fun wake => match wake with
    | .answer a => some a
    | .alarm _ => none

theorem answersIn_append (script more : List (Wake ω)) :
    answersIn (script ++ more) = answersIn script ++ answersIn more := List.filterMap_append

/-- What a program takes off the script is what its record grows by, after what
    it owes. -/
def Accounts (record : σ → List κ) (reads : ω → List κ) (owed : List κ) (p : Async ω ε σ α) :
    Prop :=
  ∀ w, ∃ taken, w.script = taken ++ (p w).2.script
    ∧ record (p w).2.state = record w.state ++ owed ++ (answersIn taken).flatMap reads

variable {record : σ → List κ} {reads : ω → List κ} {owed : List κ} {p q : Async ω ε σ α}

/-- A program that takes nothing. -/
theorem accounts_of_same (h : ∀ w, (p w).2.script = w.script)
    (hrecord : ∀ w, record (p w).2.state = record w.state ++ owed) :
    Accounts record reads owed p := by
  intro w
  exact ⟨[], (h w).symm, (hrecord w).trans (List.append_nil _).symm⟩

theorem accounts_pure (a : α) : Accounts record reads [] (pure a : Async ω ε σ α) :=
  accounts_of_same (fun _ => rfl) fun _ => (List.append_nil _).symm

theorem accounts_throw (e : ε) : Accounts record reads [] (throw e : Async ω ε σ α) :=
  accounts_of_same (fun _ => rfl) fun _ => (List.append_nil _).symm

theorem accounts_get : Accounts record reads [] (get : Async ω ε σ σ) :=
  accounts_of_same (fun _ => rfl) fun _ => (List.append_nil _).symm

/-- What is recorded without being taken was owed. -/
theorem accounts_modify {f : σ → σ} (h : ∀ s, record (f s) = record s ++ owed) :
    Accounts record reads owed (modify f : Async ω ε σ Unit) :=
  accounts_of_same (fun _ => rfl) fun w => h w.state

theorem accounts_update {f : σ → Except ε α × σ} (h : ∀ s, record (f s).2 = record s ++ owed) :
    Accounts record reads owed (update f : Async ω ε σ α) := by
  refine accounts_of_same (fun w => ?_) fun w => ?_
  · unfold update
    rcases f w.state with ⟨x, s⟩
    cases x <;> rfl
  · have hw := h w.state
    unfold update
    rcases hf : f w.state with ⟨x, s⟩
    rw [hf] at hw
    cases x <;> exact hw

/-- Sequencing: nothing is owed in between. -/
theorem accounts_bind {f : α → Async ω ε σ β} (hp : Accounts record reads owed p)
    (hf : ∀ a, Accounts record reads [] (f a)) : Accounts record reads owed (p >>= f) := by
  intro w
  rcases hp w with ⟨taken, hscript, hrecord⟩
  rw [bind_apply]
  rcases hrun : p w with ⟨x, w'⟩
  rw [hrun] at hscript hrecord
  cases x with
  | ok a =>
      rcases hf a w' with ⟨taken', hscript', hrecord'⟩
      refine ⟨taken ++ taken', ?_, ?_⟩
      · rw [List.append_assoc, ← hscript']
        exact hscript
      · simp only [] at hrecord ⊢
        rw [hrecord', hrecord, List.append_nil, List.append_assoc, answersIn_append,
          List.flatMap_append]
  | err e => exact ⟨taken, hscript, hrecord⟩
  | cut n => exact ⟨taken, hscript, hrecord⟩
  | suspended => exact ⟨taken, hscript, hrecord⟩

/-- A wait, and what follows it: an answer that was taken is owed. -/
theorem accounts_awaitThen {read : ω → Option α} {f : α → Async ω ε σ β}
    (hf : ∀ a x, read a = some x → Accounts record reads (reads a) (f x)) :
    Accounts record reads [] (await read >>= f) := by
  intro w
  -- A wait that does not end in an answer takes nothing.
  have hstays : record w.state = record w.state ++ [] ++ (answersIn []).flatMap reads := by
    rw [List.append_nil]
    exact (List.append_nil _).symm
  rcases w with ⟨s, script, turns⟩
  rw [bind_apply]
  unfold await
  rcases script with _ | ⟨a | n, rest⟩
  · exact ⟨[], rfl, hstays⟩
  · cases hread : read a with
    | none =>
        simp only [hread]
        exact ⟨[], rfl, hstays⟩
    | some x =>
        simp only [hread]
        -- The answer is owed until the continuation has recorded it.
        rcases hf a x hread ⟨s, rest, turns⟩ with ⟨taken, hscript, hrecord⟩
        refine ⟨.answer a :: taken, congrArg (Wake.answer a :: ·) hscript, hrecord.trans ?_⟩
        rw [List.append_nil, List.append_assoc]
        rfl
  · exact ⟨[.alarm n], rfl, hstays⟩

theorem accounts_lift (r : Except ε α) : Accounts record reads [] (lift r : Async ω ε σ α) := by
  cases r with
  | ok a => exact accounts_pure a
  | error e => exact accounts_throw e

/-- An alarm is no answer. -/
theorem accounts_alarmed : Accounts record reads [] (alarmed : Async ω ε σ Bool) := by
  intro w
  rcases w with ⟨s, script, turns⟩
  have hstays : record s = record s ++ [] ++ (answersIn []).flatMap reads := by
    rw [List.append_nil]
    exact (List.append_nil _).symm
  unfold alarmed
  rcases script with _ | ⟨a | n, rest⟩
  · exact ⟨[], rfl, hstays⟩
  · exact ⟨[], rfl, hstays⟩
  · cases n with
    | zero => exact ⟨[.alarm 0], rfl, hstays⟩
    | succ n => exact ⟨[], rfl, hstays⟩

/-- A choice of something that is not recorded. -/
theorem accounts_choose {read : ω → Option α} {otherwise : α}
    (h : ∀ a x, read a = some x → reads a = []) :
    Accounts record reads [] (choose read otherwise : Async ω ε σ α) := by
  intro w
  rcases w with ⟨s, script, turns⟩
  have hstays : record s = record s ++ [] ++ (answersIn []).flatMap reads := by
    rw [List.append_nil]
    exact (List.append_nil _).symm
  unfold choose
  rcases script with _ | ⟨a | n, rest⟩
  · exact ⟨[], rfl, hstays⟩
  · cases hread : read a with
    | none =>
        simp only [hread]
        exact ⟨[], rfl, hstays⟩
    | some x =>
        simp only [hread]
        refine ⟨[.answer a], rfl, ?_⟩
        -- The choice that was read carries nothing to record.
        have hnone : (answersIn [Wake.answer a]).flatMap reads = [] := by
          show reads a ++ [] = []
          rw [h a x hread, List.append_nil]
        rw [hnone, List.append_nil, List.append_nil]
  · exact ⟨[], rfl, hstays⟩

/-- A program from outside that takes nothing of what is recorded. -/
theorem accounts_outside {q : Async ω Empty Unit α}
    (h : Accounts (fun _ => ([] : List κ)) reads [] q) :
    Accounts record reads [] (outside q : Async ω ε σ α) := by
  intro w
  rcases h ⟨(), w.script, w.turns⟩ with ⟨taken, hscript, hnone⟩
  have hstays : record w.state = record w.state ++ [] ++ (answersIn taken).flatMap reads := by
    rw [List.append_nil, List.nil_append] at hnone
    rw [← hnone, List.append_nil, List.append_nil]
  unfold outside
  rcases hrun : q ⟨(), w.script, w.turns⟩ with ⟨x, w'⟩
  rw [hrun] at hscript
  cases x with
  | ok a => exact ⟨taken, hscript, hstays⟩
  | err e => exact e.elim
  | cut n => exact ⟨taken, hscript, hstays⟩
  | suspended => exact ⟨taken, hscript, hstays⟩

/-- A program on a part of the state that keeps the record. -/
theorem accounts_zoom {part : σ → τ} {put : τ → σ → σ} {record : τ → List κ}
    {q : Async ω ε τ α} (hput : ∀ t s, record (part (put t s)) = record t)
    (hq : Accounts record reads owed q) :
    Accounts (fun s => record (part s)) reads owed (zoom part put q : Async ω ε σ α) := by
  intro w
  rcases hq ⟨part w.state, w.script, w.turns⟩ with ⟨taken, hscript, hrecord⟩
  exact ⟨taken, hscript, (hput _ _).trans hrecord⟩

theorem accounts_ite {b : Prop} [Decidable b] (hp : Accounts record reads owed p)
    (hq : Accounts record reads owed q) : Accounts record reads owed (if b then p else q) := by
  by_cases hb : b
  · rw [if_pos hb]
    exact hp
  · rw [if_neg hb]
    exact hq

/-- What is done after something that is not always done. -/
theorem accounts_afterwards {b : Prop} [Decidable b] {first : Async ω ε σ Unit}
    (hfirst : Accounts record reads [] first) (hp : Accounts record reads [] p) :
    Accounts record reads [] (if b then first >>= fun _ => p else p) :=
  accounts_ite (accounts_bind hfirst fun _ => hp) hp

/-- However a program ends, it has taken what it took. -/
theorem accounts_attempt (hp : Accounts record reads owed p) :
    Accounts record reads owed (attempt p) := by
  intro w
  have hw := hp w
  unfold attempt
  rcases hrun : p w with ⟨x, w'⟩
  rw [hrun] at hw
  cases x <;> exact hw

theorem accounts_guarded (hp : Accounts record reads owed p) :
    Accounts record reads owed (guarded p) := by
  intro w
  have hw := hp w
  unfold guarded
  rcases hrun : p w with ⟨x, w'⟩
  rw [hrun] at hw
  cases x with
  | cut n => cases n <;> exact hw
  | _ => exact hw

/-- A loop, by induction on its turns. -/
theorem accounts_loop {body : β → Async ω ε σ (Turn β γ)}
    (h : ∀ b, Accounts record reads [] (body b)) (b : β) :
    Accounts record reads [] (loop body b) := by
  have hn : ∀ (n : Nat) (b : β), Accounts record reads [] (turnsOf body n b) := by
    intro n
    induction n with
    | zero => exact fun b => accounts_of_same (fun _ => rfl) fun _ => (List.append_nil _).symm
    | succ n ih =>
        intro b
        refine accounts_bind (h b) fun turn => ?_
        cases turn with
        | more b' => exact ih b'
        | done c => exact accounts_pure c
  exact fun w => hn w.turns b w

section Play

variable {ι : Type}

/-- What was taken off a list, when the rest is known. -/
theorem take_of_append {as taken rest : List α} (h : as = taken ++ rest) :
    as.take (as.length - rest.length) = taken := by
  rw [h, List.length_append, Nat.add_sub_cancel, List.take_left]

/-- The answers that the operations of a run took. -/
def answersTaken (f : ι → Async ω ε σ α) : List (Call ω ι) → σ → List ω
  | [], _ => []
  | c :: cs, s =>
    let w := (f c.operation ⟨s, c.script, c.turns⟩).2
    answersIn (c.script.take (c.script.length - w.script.length)) ++ answersTaken f cs w.state

/-- The record of a run is what its operations took. -/
theorem accounts_play {f : ι → Async ω ε σ α} (h : ∀ i, Accounts record reads [] (f i))
    (cs : List (Call ω ι)) (s : σ) :
    record (play f cs s).2 = record s ++ (answersTaken f cs s).flatMap reads := by
  induction cs generalizing s with
  | nil => exact (List.append_nil _).symm
  | cons c cs ih =>
      rcases h c.operation ⟨s, c.script, c.turns⟩ with ⟨taken, hscript, hrecord⟩
      simp only [] at hscript hrecord
      simp only [play, answersTaken]
      rw [ih, hrecord, take_of_append hscript, List.append_nil, List.flatMap_append,
        List.append_assoc]

end Play

end Async

end Psrp

import Psrp.Core.Parked
import Psrp.Theory.Winrm

/-!
# Neither Lost Nor Doubled

A future that was parked is neither lost nor doubled, whatever becomes of the
calls that wait for it.

What a slot may do is said without one: `Slot` reads a history as it is written
and says which future there must be. A future is started where there is none,
completes where it is the one, and is gone after that or when the slot is
discarded. Everything else follows from this, for the slot and for whatever
else keeps to it. The transport over a WinRM shell does: its Receives are
futures in this sense, and what starts, closes or lets go of a command discards
them.

A call that is dropped leaves the future where it was, also one that is dropped
in the middle of a loop; and between a completion and the return of the call
there is nothing to wait for. So the outputs that calls return are the outputs
of the futures that completed, one by one.

## Main definitions

* `Parked.Slot`: Which future there is after a history.
* `Parked.Alive`: A future was started and nothing has become of it.
* `Parked.Orderly`: A history in which no future is lost or doubled.
* `Parked.resume`: What polls make of a future.
* `WinrmPsrpTransport.parkedEvent`: What an event is for the Receive in flight.

## Theorems

* `Parked.Slot.orderly`: What follows from the slot.
* `Parked.wp_drive`, `Parked.wp_perform`: What one call does.
* `Parked.drive_resumes`: What one call makes of the future.
* `Parked.parked_once`: Every run of calls.
* `WinrmPsrpTransport.receive_orderly`: Every run of a transport.
-/

namespace Psrp

namespace Parked

open Async (Call Ends Turn andThen play wp wp_bind wp_mono)

variable {ω φ τ : Type}

section History

/-- Which future there is after a history. -/
inductive Slot : List (ParkedEvent τ) → Option Nat → Prop where
  | new : Slot [] none
  | started {h : List (ParkedEvent τ)} : Slot h none →
      Slot (h ++ [.started (starts h)]) (some (starts h))
  | completed {h : List (ParkedEvent τ)} {n : Nat} (output : τ) : Slot h (some n) →
      Slot (h ++ [.completed n output]) none
  | discarded {h : List (ParkedEvent τ)} {s : Option Nat} : Slot h s →
      Slot (h ++ [.discarded]) none

/-- Whether a future is over with an event. -/
def Over (n : Nat) : ParkedEvent τ → Prop
  | .started _ => False
  | .completed m _ => m = n
  | .discarded => True

/-- A future was started, and nothing has become of it. -/
def Alive (n : Nat) (h : List (ParkedEvent τ)) : Prop :=
  ∃ before after, h = before ++ .started n :: after ∧ ∀ e ∈ after, ¬ Over n e

/-- The futures that completed, with what came of them. -/
def completions (h : List (ParkedEvent τ)) : List (Nat × τ) :=
  h.filterMap fun e => match e with
    | .completed n output => some (n, output)
    | _ => none

/-- No future is lost or doubled: there is one at a time, a new one where there
    is none; none completes twice, and none that was discarded completes. -/
structure Orderly (h : List (ParkedEvent τ)) : Prop where
  one : ∀ before, before <+: h → ∀ m n, Alive m before → Alive n before → m = n
  free : ∀ before n after, h = before ++ .started n :: after → ∀ m, ¬ Alive m before
  fresh : ∀ before n after, h = before ++ .started n :: after → .started n ∉ before
  once : ((completions h).map Prod.fst).Nodup
  known : ∀ before n output after, h = before ++ .completed n output :: after → Alive n before
  forgotten : ∀ before after, h = before ++ .discarded :: after →
    ∀ n output, .started n ∈ before → .completed n output ∉ after

variable {h before after : List (ParkedEvent τ)} {s : Option Nat} {n : Nat} {e : ParkedEvent τ}

theorem completions_append (h h' : List (ParkedEvent τ)) :
    completions (h ++ h') = completions h ++ completions h' := List.filterMap_append

theorem mem_completions {output : τ} :
    (n, output) ∈ completions h ↔ .completed n output ∈ h := by
  unfold completions
  rw [List.mem_filterMap]
  constructor
  · rintro ⟨e, he, heq⟩
    cases e with
    | completed m output' =>
        cases heq
        exact he
    | started m => cases heq
    | discarded => cases heq
  · intro hmem
    exact ⟨_, hmem, rfl⟩

/-- One more event. -/
theorem alive_snoc :
    Alive n (h ++ [e]) ↔ e = .started n ∨ Alive n h ∧ ¬ Over n e := by
  constructor
  · rintro ⟨before, after, heq, hafter⟩
    rcases split_of_snoc heq with ⟨rfl, _, _⟩ | ⟨after, rfl, rfl⟩
    · exact Or.inl rfl
    · refine Or.inr ⟨⟨before, after, rfl, fun e he => ?_⟩, ?_⟩
      · exact hafter e (List.mem_append_left _ he)
      · exact hafter e (List.mem_append_right _ (List.mem_singleton.mpr rfl))
  · rintro (rfl | ⟨⟨before, after, rfl, hafter⟩, he⟩)
    · exact ⟨h, [], rfl, fun _ he => absurd he List.not_mem_nil⟩
    · refine ⟨before, after ++ [e], by rw [List.append_assoc]; rfl, fun e' he' => ?_⟩
      rcases List.mem_append.mp he' with hin | hlast
      · exact hafter e' hin
      · rw [List.mem_singleton.mp hlast]
        exact he

theorem Alive.started (ha : Alive n h) : .started n ∈ h := by
  rcases ha with ⟨before, after, rfl, _⟩
  exact List.mem_append_right _ (List.mem_cons_self ..)

/-- The future there is, if any, is the one alive. -/
theorem Slot.alive_iff (hs : Slot h s) : Alive n h ↔ s = some n := by
  induction hs with
  | new =>
      refine ⟨fun ha => ?_, nofun⟩
      exact absurd ha.started List.not_mem_nil
  | started hs ih =>
      rw [alive_snoc, ih, ParkedEvent.started.injEq, Option.some_inj]
      refine ⟨fun ha => ?_, Or.inl⟩
      rcases ha with heq | ⟨hnone, _⟩
      · exact heq
      · cases hnone
  | completed output hs ih =>
      rw [alive_snoc, ih, Option.some_inj]
      refine ⟨?_, nofun⟩
      rintro (heq | ⟨heq, hends⟩)
      · cases heq
      · exact absurd heq hends
  | discarded hs ih =>
      rw [alive_snoc]
      refine ⟨?_, nofun⟩
      rintro (heq | ⟨_, hends⟩)
      · cases heq
      · exact absurd trivial hends

/-- What a slot did it did step by step. -/
theorem Slot.earlier (hs : Slot h s) (hpre : before <+: h) : ∃ s', Slot before s' := by
  have hgo : ∀ {h : List (ParkedEvent τ)} {s s' : Option Nat} {e : ParkedEvent τ}, Slot h s →
      (before <+: h → ∃ s', Slot before s') → Slot (h ++ [e]) s' → before <+: h ++ [e] →
      ∃ s', Slot before s' := by
    intro h s s' e _ ih hnow hpre
    rcases List.prefix_concat_iff.mp hpre with rfl | hpre
    · exact ⟨s', hnow⟩
    · exact ih hpre
  induction hs with
  | new =>
      rw [List.prefix_nil.mp hpre]
      exact ⟨none, .new⟩
  | started hs ih => exact hgo hs ih (.started hs) hpre
  | completed output hs ih => exact hgo hs ih (.completed output hs) hpre
  | discarded hs ih => exact hgo hs ih (.discarded hs) hpre

/-- A start is of a new future, where there is none. -/
theorem Slot.of_started (hs : Slot (h ++ [.started n]) s) : Slot h none ∧ n = starts h := by
  generalize heq : h ++ [.started n] = h' at hs
  cases hs with
  | new => exact absurd heq (List.append_ne_nil_of_right_ne_nil _ (List.cons_ne_nil _ _))
  | started hs =>
      rcases List.append_inj' heq rfl with ⟨rfl, he⟩
      cases List.singleton_inj.mp he
      exact ⟨hs, rfl⟩
  | completed output hs => cases List.singleton_inj.mp (List.append_inj' heq rfl).2
  | discarded hs => cases List.singleton_inj.mp (List.append_inj' heq rfl).2

/-- What completes is the future there is. -/
theorem Slot.of_completed {output : τ} (hs : Slot (h ++ [.completed n output]) s) :
    Slot h (some n) := by
  generalize heq : h ++ [.completed n output] = h' at hs
  cases hs with
  | new => exact absurd heq (List.append_ne_nil_of_right_ne_nil _ (List.cons_ne_nil _ _))
  | completed output' hs =>
      rcases List.append_inj' heq rfl with ⟨rfl, he⟩
      cases List.singleton_inj.mp he
      exact hs
  | started hs => cases List.singleton_inj.mp (List.append_inj' heq rfl).2
  | discarded hs => cases List.singleton_inj.mp (List.append_inj' heq rfl).2

theorem starts_snoc (h : List (ParkedEvent τ)) (e : ParkedEvent τ) :
    starts h ≤ starts (h ++ [e]) := by
  unfold starts
  rw [List.countP_append]
  exact Nat.le_add_right _ _

theorem starts_started (h : List (ParkedEvent τ)) (n : Nat) :
    starts (h ++ [.started n]) = starts h + 1 := by
  unfold starts
  rw [List.countP_append]
  rfl

/-- The numbers in a history are those of futures that were started. -/
structure Counted (h : List (ParkedEvent τ)) (s : Option Nat) : Prop where
  parked : ∀ n, s = some n → n < starts h
  started : ∀ n, .started n ∈ h → n < starts h
  completed : ∀ n output, .completed n output ∈ h → n < starts h

theorem Slot.counted (hs : Slot h s) : Counted h s := by
  induction hs with
  | new => exact ⟨nofun, nofun, nofun⟩
  | started hs ih =>
      rename_i h
      -- The new future has the next number.
      have hlt := starts_started h (starts h)
      refine ⟨fun n hn => ?_, fun n hn => ?_, fun n output hn => ?_⟩
      · cases hn
        omega
      · rcases List.mem_append.mp hn with hold | hnew
        · have := ih.started n hold
          omega
        · cases List.mem_singleton.mp hnew
          omega
      · rcases List.mem_append.mp hn with hold | hnew
        · have := ih.completed n output hold
          omega
        · cases List.mem_singleton.mp hnew
  | completed output hs ih =>
      rename_i h m
      -- What is completed was parked, and no number is given out.
      have hle := starts_snoc h (.completed m output)
      refine ⟨nofun, fun n hn => ?_, fun n output' hn => ?_⟩
      · rcases List.mem_append.mp hn with hold | hnew
        · exact Nat.lt_of_lt_of_le (ih.started n hold) hle
        · cases List.mem_singleton.mp hnew
      · rcases List.mem_append.mp hn with hold | hnew
        · exact Nat.lt_of_lt_of_le (ih.completed n output' hold) hle
        · cases List.mem_singleton.mp hnew
          exact Nat.lt_of_lt_of_le (ih.parked m rfl) hle
  | discarded hs ih =>
      rename_i h s
      have hle := starts_snoc h .discarded
      refine ⟨nofun, fun n hn => ?_, fun n output hn => ?_⟩
      · rcases List.mem_append.mp hn with hold | hnew
        · exact Nat.lt_of_lt_of_le (ih.started n hold) hle
        · cases List.mem_singleton.mp hnew
      · rcases List.mem_append.mp hn with hold | hnew
        · exact Nat.lt_of_lt_of_le (ih.completed n output hold) hle
        · cases List.mem_singleton.mp hnew

/-- A future that has completed is not the one there is. -/
theorem Slot.spent {output : τ} (hs : Slot h s) (hn : .completed n output ∈ h) : s ≠ some n := by
  cases hs with
  | new => exact absurd hn List.not_mem_nil
  | completed _ _ => exact nofun
  | discarded _ => exact nofun
  | started hs =>
      rename_i h
      rcases List.mem_append.mp hn with hold | hnew
      · have hlt := hs.counted.completed n output hold
        intro heq
        have := Option.some_inj.mp heq
        omega
      · cases List.mem_singleton.mp hnew

theorem Slot.once (hs : Slot h s) : ((completions h).map Prod.fst).Nodup := by
  induction hs with
  | new => exact List.nodup_nil
  | started hs ih =>
      rw [completions_append, List.map_append]
      exact (List.append_nil _).symm ▸ ih
  | discarded hs ih =>
      rw [completions_append, List.map_append]
      exact (List.append_nil _).symm ▸ ih
  | completed output hs ih =>
      rename_i h n
      rw [completions_append, List.map_append]
      refine List.nodup_append.mpr ⟨ih, List.nodup_singleton n, fun m hm k hk heq => ?_⟩
      rcases List.mem_map.mp hm with ⟨⟨m', output'⟩, hdone, hm'⟩
      have hmn : m' = n := hm'.trans (heq.trans (List.mem_singleton.mp hk))
      rw [hmn] at hdone
      exact hs.spent (mem_completions.mp hdone) rfl

/-- A future that was discarded is neither there nor completes. -/
theorem Slot.forgotten (hs : Slot h s) (heq : h = before ++ .discarded :: after)
    (hn : .started n ∈ before) : s ≠ some n ∧ ∀ output, .completed n output ∉ after := by
  induction hs generalizing after with
  | new => exact absurd heq.symm (List.append_ne_nil_of_right_ne_nil _ (List.cons_ne_nil _ _))
  | started hs ih =>
      rename_i h
      rcases split_of_snoc heq with ⟨he, _, _⟩ | ⟨rest, rfl, hh⟩
      · cases he
      · -- A future started after the discard has a later number.
        have hlt : n < starts h := by
          refine hs.counted.started n ?_
          rw [hh]
          exact List.mem_append_left _ hn
        refine ⟨fun heq => ?_, fun output hmem => ?_⟩
        · have := Option.some_inj.mp heq
          omega
        · rcases List.mem_append.mp hmem with hold | hnew
          · exact (ih hh).2 output hold
          · cases List.mem_singleton.mp hnew
  | completed output hs ih =>
      rcases split_of_snoc heq with ⟨he, _, _⟩ | ⟨rest, rfl, hh⟩
      · cases he
      · refine ⟨nofun, fun output' hmem => ?_⟩
        rcases List.mem_append.mp hmem with hold | hnew
        · exact (ih hh).2 output' hold
        · cases List.mem_singleton.mp hnew
          -- It is the one parked that is completed.
          exact (ih hh).1 rfl
  | discarded hs ih =>
      rcases split_of_snoc heq with ⟨_, rfl, _⟩ | ⟨rest, rfl, hh⟩
      · exact ⟨nofun, fun _ => List.not_mem_nil⟩
      · refine ⟨nofun, fun output hmem => ?_⟩
        rcases List.mem_append.mp hmem with hold | hnew
        · exact (ih hh).2 output hold
        · cases List.mem_singleton.mp hnew

/-- What a slot does is orderly. -/
theorem Slot.orderly (hs : Slot h s) : Orderly h := by
  -- An event was added to the history before it.
  have hat : ∀ {before e after}, h = before ++ e :: after → ∃ s', Slot (before ++ [e]) s' := by
    intro before e after heq
    refine hs.earlier ⟨after, ?_⟩
    rw [heq, List.append_assoc]
    rfl
  refine ⟨?_, ?_, ?_, hs.once, ?_, ?_⟩
  · intro before hpre m n hm hn
    rcases hs.earlier hpre with ⟨s', hs'⟩
    rw [hs'.alive_iff] at hm hn
    exact Option.some_inj.mp (hm.symm.trans hn)
  · intro before n after heq m hm
    rcases hat heq with ⟨_, hs'⟩
    rw [hs'.of_started.1.alive_iff] at hm
    cases hm
  · intro before n after heq hmem
    rcases hat heq with ⟨_, hs'⟩
    rcases hs'.of_started with ⟨hbefore, hn⟩
    have hlt := hbefore.counted.started n hmem
    omega
  · intro before n output after heq
    rcases hat heq with ⟨_, hs'⟩
    exact hs'.of_completed.alive_iff.mpr rfl
  · intro before after heq n output hn
    exact (hs.forgotten heq hn).2 output

end History

section Calls

/-- The future in the slot is the one there must be. -/
def Tracked (p : Parked φ τ) : Prop := Slot p.history (p.inFlight.map Prod.fst)

/-- What a slot has become, and the outputs of the futures that completed
    since. -/
structure Since (p : Parked φ τ) (outputs : List τ) (q : Parked φ τ) : Prop where
  tracked : Tracked q
  grown : ∃ more, q.history = p.history ++ more ∧ (completions more).map Prod.snd = outputs

variable {p q r : Parked φ τ} {xs ys : List τ} {advance : φ → ω → φ ⊕ τ}

theorem Tracked.since (h : Tracked p) : Since p [] p := ⟨h, [], (List.append_nil _).symm, rfl⟩

theorem Since.trans (h : Since p xs q) (h' : Since q ys r) : Since p (xs ++ ys) r := by
  rcases h.grown with ⟨more, hq, hxs⟩
  rcases h'.grown with ⟨more', hr, hys⟩
  refine ⟨h'.tracked, more ++ more', ?_, ?_⟩
  · rw [hr, hq, List.append_assoc]
  · rw [completions_append, List.map_append, hxs, hys]

/-- One more event, after which the slot is as it must be. -/
theorem Since.event {e : ParkedEvent τ} (htracked : Tracked q) (hq : q.history = p.history ++ [e]) :
    Since p ((completions [e]).map Prod.snd) q := ⟨htracked, [e], hq, rfl⟩

theorem since_getOrInsertWith (h : Tracked p) (start : Unit → φ) :
    Since p [] (p.getOrInsertWith start) := by
  unfold getOrInsertWith
  cases hparked : p.inFlight with
  | some f => exact h.since
  | none =>
      have hslot : Slot p.history none := by
        unfold Tracked at h
        rw [hparked] at h
        exact h
      refine Since.event (e := .started (starts p.history)) ?_ rfl
      exact Slot.started hslot

/-- What a future that completed leaves behind once it is forgotten. -/
theorem since_clear {number : Nat} {future : φ} (h : Tracked p)
    (hparked : p.inFlight = some (number, future)) (output : τ) :
    Since p [output] (p.note (.completed number output)).clear := by
  have hslot : Slot p.history (some number) := by
    unfold Tracked at h
    rw [hparked] at h
    exact h
  refine Since.event (e := .completed number output) ?_ rfl
  exact Slot.completed output hslot

theorem since_discard (h : Tracked p) : Since p [] p.discard := by
  refine Since.event (e := .discarded) ?_ rfl
  exact Slot.discarded h

/-- A future completed, and is still in the slot. -/
def Completed (p : Parked φ τ) (output : τ) (q : Parked φ τ) : Prop :=
  ∃ u number future, Since p [] u ∧ u.inFlight = some (number, future)
    ∧ q = u.note (.completed number output)

/-- What a poll leaves behind. -/
def Polled (p : Parked φ τ) (turn : Turn Unit τ) (q : Parked φ τ) : Prop :=
  match turn with
  | .more _ => Since p [] q
  | .done output => Completed p output q

/-- One poll moves the future on, or completes it. Dropped, the call leaves it
    where it is. -/
theorem wp_poll (h : Since p [] q) :
    wp (poll advance : Async ω Empty (Parked φ τ) (Turn Unit τ))
      (Ends (Since p []) (fun _ _ => False) (Polled p)) q := by
  unfold poll
  refine Async.wp_getThen ?_
  cases hparked : q.inFlight with
  | none => exact Async.wp_pure h
  | some f =>
      rcases f with ⟨number, future⟩
      refine wp_bind (Async.wp_await (fun a x hx => ?_) (fun _ => h) h)
      simp only [andThen]
      cases x with
      | inl future' =>
          have hslot : Slot q.history (some number) := by
            have htracked := h.tracked
            unfold Tracked at htracked
            rw [hparked] at htracked
            exact htracked
          exact Async.wp_modifyThen (Async.wp_pure ⟨hslot, h.grown⟩)
      | inr output =>
          have hcompleted : Polled p (.done output) (q.note (.completed number output)) :=
            ⟨q, number, future, h, hparked, rfl⟩
          exact Async.wp_modifyThen (Async.wp_pure hcompleted)

/-- A call returns the output of the one future that completed during it, and
    otherwise none did. -/
theorem wp_drive (h : Tracked p) (start : Unit → φ) :
    wp (drive advance start : Async ω Empty (Parked φ τ) τ)
      (Ends (Since p []) (fun _ _ => False) fun output => Since p [output]) p := by
  unfold drive
  refine Async.wp_modifyThen ?_
  have hloop : wp (Async.loop (fun _ => poll advance) () : Async ω Empty (Parked φ τ) τ)
      (Ends (Since p []) (fun _ _ => False) (Completed p)) (p.getOrInsertWith start) := by
    refine Async.wp_loop (fun _ u => Since p [] u) (since_getOrInsertWith h start)
      (fun _ _ hu => hu) fun _ u hu => ?_
    refine wp_mono (wp_poll hu) fun x v hv => ?_
    cases x with
    | ok turn => cases turn <;> exact hv
    | err e => exact hv
    | cut n => exact hv
    | suspended => exact hv
  refine Async.wp_seq hloop (fun _ hu => hu) (fun _ _ hu => hu) ?_
  rintro output _ ⟨u, number, future, hu, hparked, rfl⟩
  exact Async.wp_modifyThen (Async.wp_pure (hu.trans (since_clear hu.tracked hparked output)))

/-- What a call returns, if it drives the slot to the end. -/
def returned : Exit Empty (Option τ) → Option τ
  | .ok output => output
  | _ => none

theorem wp_perform (h : Tracked p) (op : Operation φ) :
    wp (perform advance op : Async ω Empty (Parked φ τ) (Option τ))
      (fun x u => Since p (returned x).toList u) p := by
  cases op with
  | discard => exact Async.wp_modifyThen (Async.wp_pure (since_discard h))
  | drive start =>
      refine wp_bind (wp_mono (wp_drive h start) fun x u hu => ?_)
      cases x with
      | ok output =>
          rw [andThen]
          exact Async.wp_pure hu
      | err e => exact hu.elim
      | cut n => exact hu
      | suspended => exact hu

/-- What becomes of a future that is polled with what comes, for as long as it is
    watched: its output, or what an alarm or the end of the script leaves of it. -/
def resume (advance : φ → ω → φ ⊕ τ) : Nat → List (Wake ω) → φ → φ ⊕ τ
  | turns + 1, .answer a :: rest, future =>
    match advance future a with
    | .inl future => resume advance turns rest future
    | .inr output => .inr output
  | _, _, future => .inl future

end Calls

end Parked

namespace WinrmPsrpTransport

open Winrm
open Parked (Slot Orderly starts)
open Async (Call Ends andThen play wp wp_bind wp_mono)

section Receives

/-- What an event is for the Receive in flight. Whatever starts a command or
    lets go of the shell gives it up. -/
def parkedEvent : ShellEvent → Option (ParkedEvent Polled)
  | .receive r => some (.started r.number)
  | .answered r polled => some (.completed r.number polled)
  | .started _ | .close | .disconnect => some .discarded
  | .input _ _ | .execute _ _ | .signal _ | .signalled _ => none

/-- What has become of the Receives. -/
def parkedHistory (h : List ShellEvent) : List (ParkedEvent Polled) := h.filterMap parkedEvent

theorem parkedHistory_snoc (h : List ShellEvent) (e : ShellEvent) :
    parkedHistory (h ++ [e]) = parkedHistory h ++ (parkedEvent e).toList := by
  unfold parkedHistory
  rw [List.filterMap_append]
  cases he : parkedEvent e with
  | none => simp [he]
  | some e' => simp [he]

/-- Receives are numbered like futures. -/
theorem starts_parkedHistory (h : List ShellEvent) : starts (parkedHistory h) = receivesSent h := by
  unfold starts receivesSent parkedHistory
  rw [List.countP_filterMap]
  refine List.countP_congr fun e _ => ?_
  cases e <;> exact Iff.rfl

/-- The Receive in flight is the one there must be, and a shell that was let go
    of has none. -/
structure InSlot (t : WinrmPsrpTransport) : Prop where
  slot : Slot (parkedHistory t.history) (t.receive.map Receive.number)
  closed : t.shell = none → t.receive = none

variable {t u : WinrmPsrpTransport}

theorem inSlot_ofShell (shell : Shell) : InSlot (ofShell shell) := ⟨.new, fun _ => rfl⟩

/-- What has no part in it. -/
theorem InSlot.note {e : ShellEvent} (h : InSlot t) (he : parkedEvent e = none) :
    InSlot (t.note e) := by
  refine ⟨?_, h.closed⟩
  change Slot (parkedHistory (t.history ++ [e])) _
  rw [parkedHistory_snoc, he]
  exact (List.append_nil _).symm ▸ h.slot

theorem InSlot.park {shell : Shell} (h : InSlot t) (hshell : t.shell = some shell) :
    InSlot t.park := by
  unfold WinrmPsrpTransport.park
  cases hreceive : t.receive with
  | some r => exact h
  | none =>
      refine ⟨?_, fun hnone => nomatch hshell.symm.trans hnone⟩
      have hslot := h.slot
      rw [hreceive] at hslot
      change Slot (parkedHistory (t.history ++ [_])) (some (receivesSent t.history))
      rw [parkedHistory_snoc, ← starts_parkedHistory]
      exact .started hslot

theorem InSlot.finish (h : InSlot t) (polled : Polled) : InSlot (t.finish polled) := by
  unfold WinrmPsrpTransport.finish
  cases hreceive : t.receive with
  | none => exact h
  | some r =>
      refine ⟨?_, fun _ => rfl⟩
      have hslot := h.slot
      rw [hreceive] at hslot
      change Slot (parkedHistory (t.history ++ [_])) none
      rw [parkedHistory_snoc]
      exact .completed polled hslot

/-- What gives the Receive up. -/
theorem InSlot.discarded {e : ShellEvent} (h : InSlot t) (he : parkedEvent e = some .discarded)
    (hhistory : u.history = t.history ++ [e]) (hreceive : u.receive = none) : InSlot u := by
  refine ⟨?_, fun _ => hreceive⟩
  rw [hhistory, hreceive, parkedHistory_snoc, he]
  exact .discarded h.slot

/-- Acting on an outcome has no part in it either. -/
theorem InSlot.received {polled : Polled} {streak : TimeoutStreak}
    {x : Except PsrpError (Step × TimeoutStreak)} (h : InSlot t)
    (hu : WinrmPsrpTransport.received polled streak t = (x, u)) : InSlot u := by
  have hstate : { t with done := (receiveStep polled t.stopSignalled streak t.done).2.2 } = u :=
    congrArg Prod.snd hu
  rw [← hstate]
  exact ⟨h.slot, h.closed⟩

theorem wp_slot_recvChunk (h : InSlot t) : wp recvChunk (fun _ u => InSlot u) t := by
  unfold recvChunk
  refine Async.wp_loop (fun _ u => InSlot u) h (fun _ _ hu => hu) fun streak u hu => ?_
  refine wp_bind (wp_openShell (fun shell hshell => ?_) hu)
  refine wp_bind (wp_mono wp_drive fun x v hv => ?_)
  -- The receive is parked, and stays so if the call is dropped.
  have hpark := hu.park hshell
  cases x with
  | ok polled =>
      subst hv
      have hfinish := hpark.finish polled
      refine wp_bind (Async.wp_update (fun step w hw => ?_) fun e w hw => ?_)
      · have hreceived := hfinish.received hw
        rcases step with ⟨step, streak'⟩
        cases step with
        | again => exact Async.wp_pure hreceived
        | deliver bytes => exact Async.wp_pure hreceived
      · exact hfinish.received hw
  | err e => exact hv.elim
  | cut n =>
      subst hv
      exact hpark
  | suspended =>
      subst hv
      exact hpark

theorem wp_slot_execute {arguments : List Text} {commandId : Option Text} (h : InSlot t) :
    wp (execute arguments commandId) (fun _ u => InSlot u) t := by
  unfold execute
  have hasked : InSlot (t.note (.execute arguments commandId)) := h.note rfl
  refine wp_bind (wp_openShell (fun _ _ => ?_) h)
  simp only [andThen]
  refine Async.wp_modifyThen ?_
  rw [← Async.bind_assoc]
  refine wp_bind (wp_request fun x => ?_)
  cases x with
  | ok id =>
      simp only [andThen]
      exact Async.wp_modify (hasked.discarded (e := .started id) rfl rfl rfl)
  | err e => exact hasked
  | cut n => exact hasked
  | suspended => exact hasked

theorem wp_slot_signalStop (h : InSlot t) : wp signalStop (fun _ u => InSlot u) t := by
  unfold signalStop
  have hasked : InSlot (t.note (.signal t.commandId)) := h.note rfl
  refine wp_bind (wp_openShell (fun _ _ => ?_) h)
  simp only [andThen]
  refine Async.wp_modifyThen ?_
  rw [← Async.bind_assoc]
  refine wp_bind (wp_request fun x => ?_)
  cases x with
  | ok _ =>
      simp only [andThen]
      have hsignalled := hasked.note (e := .signalled t.commandId) rfl
      exact Async.wp_modify ⟨hsignalled.slot, hsignalled.closed⟩
  | err e => exact hasked
  | cut n => exact hasked
  | suspended => exact hasked

/-- A shell that is not there any more had no Receive left to take with it. -/
theorem InSlot.taken (h : InSlot t) (hshell : t.shell = none) :
    InSlot { t.discard with shell := none } := by
  refine ⟨?_, fun _ => rfl⟩
  have hslot := h.slot
  rw [h.closed hshell] at hslot
  exact hslot

theorem wp_slot_closeShell (h : InSlot t) : wp closeShell (fun _ u => InSlot u) t := by
  unfold closeShell
  refine wp_bind (Async.wp_update (fun shell u hu => ?_) fun e u hu => (by cases hu))
  cases hu
  simp only [andThen]
  cases hshell : t.shell with
  | some _ =>
      refine Async.wp_modifyThen (wp_request fun _ => ?_)
      exact h.discarded (e := .close) rfl rfl rfl
  | none => exact Async.wp_pure (h.taken hshell)

theorem wp_slot_disconnectShell (h : InSlot t) : wp disconnectShell (fun _ u => InSlot u) t := by
  unfold disconnectShell
  refine wp_bind (Async.wp_update (fun shell u hu => ?_) fun e u hu => (by cases hu))
  cases hu
  simp only [andThen]
  cases hshell : t.shell with
  | some _ =>
      refine Async.wp_modifyThen (wp_request fun _ => ?_)
      exact h.discarded (e := .disconnect) rfl rfl rfl
  | none => exact Async.wp_throw (h.taken hshell)

/-- Every operation keeps to the slot, wherever it is dropped. -/
theorem stays_inSlot (op : Operation) : Async.Stays InSlot (perform op) := by
  intro t h
  cases op with
  | startPipelineCommand => exact wp_slot_execute h
  | executePipeline bytes pipelineId => exact wp_slot_execute h
  | sendFragment bytes =>
      have hasked : InSlot (t.note (.input t.commandId bytes)) := h.note rfl
      refine wp_bind (wp_openShell (fun _ _ => ?_) h)
      simp only [andThen]
      exact Async.wp_modifyThen (wp_request fun _ => hasked)
  | recvChunk =>
      exact Async.stays_bind (fun _ h => wp_slot_recvChunk h) (fun _ => Async.stays_pure _) t h
  | signalStop => exact wp_slot_signalStop h
  | closeShell => exact wp_slot_closeShell h
  | disconnectShell =>
      exact Async.stays_bind (fun _ h => wp_slot_disconnectShell h) (fun _ => Async.stays_pure _) t h

end Receives

/-- The Receives of a transport are never lost nor doubled, in any run of its
    operations: one is in flight at a time, and one that was sent for a command
    is answered to no call after another command has started. -/
theorem receive_orderly (shell : Shell) (calls : List (Call Answer Operation)) :
    let t := (play perform calls (ofShell shell)).2
    Orderly (parkedHistory t.history)
      ∧ ∀ n, Parked.Alive n (parkedHistory t.history) ↔ t.receive.map Receive.number = some n := by
  intro t
  have hslot : InSlot t := Async.play_run (fun _ u => InSlot u)
    (fun _ op u hu => stays_inSlot op u hu) calls (inSlot_ofShell shell)
  exact ⟨hslot.slot.orderly, fun n => hslot.slot.alive_iff⟩

end WinrmPsrpTransport

end Psrp

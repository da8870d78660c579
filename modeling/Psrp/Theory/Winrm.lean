import Psrp.Core.Winrm
import Mathlib.Data.List.DropRight

/-!
# The End of a Command

What a call to read from a WinRM shell returns, and whose it is.

A transport runs one command after the other, and four of its fields are about
the current one: its id, the Receive in flight, whether a stop was accepted and
whether the server reported the end. `current` cuts the history at the last
start of a command, and `Tracked` says what the fields mean in terms of it. For
the first three this is what one expects. The flag for the end is never
lowered, so it says only that some command of the transport has ended.

An empty poll is asked again unless that flag is up. So the end of a command is
made up for a later one exactly when an empty poll of the later one is read
first (`StaleAt`).

## Main definitions

* `current`, `earlier`: The history since the command started, and before.
* `Justified`: What a call may return, given the history.
* `StaleAt`, `FreshSince`, `FreshPolls`: Where an empty poll ends a command that
  another one's end has already been reported for.
* `Tracked`: What the fields mean.

## Theorems

* `receiveStep_spec`: What one Receive decides.
* `wp_recvChunk`: What a call returns.
* `wp_perform`: Every operation keeps the fields true.
* `command_end_iff`: When every call of a run returns what is the command's own.
-/

namespace Psrp

namespace Winrm

open Async (Call Ends andThen play wp wp_bind wp_mono wp_seq)

section History

/-- Whether a command was started. -/
def ShellEvent.isStarted : ShellEvent → Bool
  | .started _ => true
  | _ => false

/-- Whether a stop signal was accepted. -/
def ShellEvent.isSignalled : ShellEvent → Bool
  | .signalled _ => true
  | _ => false

/-- Whether a Receive reported the end of its command. -/
def ShellEvent.reportsDone : ShellEvent → Bool
  | .answered _ (.ok out) => out.done
  | _ => false

/-- What has happened since the current command was started. -/
def current (history : List ShellEvent) : List ShellEvent :=
  history.rtakeWhile fun e => !e.isStarted

/-- What happened up to there. -/
def earlier (history : List ShellEvent) : List ShellEvent :=
  history.rdropWhile fun e => !e.isStarted

variable {h h0 h1 h2 : List ShellEvent} {e : ShellEvent}

theorem current_snoc (he : e.isStarted = false) : current (h ++ [e]) = current h ++ [e] := by
  rw [current, List.rtakeWhile_concat_pos]
  · rfl
  · rw [he]
    rfl

theorem earlier_snoc (he : e.isStarted = false) : earlier (h ++ [e]) = earlier h := by
  rw [earlier, List.rdropWhile_concat_pos]
  · rfl
  · rw [he]
    rfl

theorem current_started (id : Text) : current (h ++ [.started id]) = [] := by
  rw [current, List.rtakeWhile_concat_neg]
  exact Bool.false_ne_true

theorem mem_of_earlier (he : e ∈ earlier h) : e ∈ h := (List.rdropWhile_prefix _ _).subset he

/-- An empty poll of a command that is not over, read when another command has
    reported its end. -/
def StaleAt (before : List ShellEvent) (out : ReceiveOutput) : Prop :=
  out.stdout = [] ∧ out.done = false ∧ (∃ e ∈ before, e.reportsDone = true)
    ∧ ¬ ∃ e ∈ current before, e.reportsDone = true

/-- No such poll was read after some point. -/
def FreshSince (h0 h : List ShellEvent) : Prop :=
  ∀ before r out after, h = before ++ .answered r (.ok out) :: after →
    h0.length ≤ before.length → ¬ StaleAt before out

/-- No such poll was read. -/
def FreshPolls (h : List ShellEvent) : Prop :=
  ∀ before r out after, h = before ++ .answered r (.ok out) :: after → ¬ StaleAt before out

theorem freshSince_nil : FreshSince [] h ↔ FreshPolls h :=
  ⟨fun hf before r out after heq => hf before r out after heq (Nat.zero_le _),
    fun hf before r out after heq _ => hf before r out after heq⟩

theorem freshSince_refl (h : List ShellEvent) : FreshSince h h := by
  intro before r out after heq hlen
  have hlong := congrArg List.length heq
  rw [List.length_append, List.length_cons] at hlong
  omega

/-- A history without stale polls is one whose parts are. -/
theorem freshSince_trans (hle : h0.length ≤ h1.length) (hpre : h1 <+: h2) :
    FreshSince h0 h2 ↔ FreshSince h0 h1 ∧ FreshSince h1 h2 := by
  rcases hpre with ⟨rest, rfl⟩
  constructor
  · intro hf
    refine ⟨fun before r out after heq hlen => ?_, fun before r out after heq hlen => ?_⟩
    · refine hf before r out (after ++ rest) ?_ hlen
      rw [heq, List.append_assoc, List.cons_append]
    · exact hf before r out after heq (Nat.le_trans hle hlen)
  · rintro ⟨hf, hg⟩ before r out after heq hlen
    by_cases hin : h1.length ≤ before.length
    · exact hg before r out after heq hin
    · -- The poll was read in the first part.
      have hpre : before ++ [.answered r (.ok out)] <+: h1 := by
        have hwhole : before ++ [.answered r (.ok out)] <+: h1 ++ rest := by
          refine ⟨after, ?_⟩
          rw [List.append_assoc, heq]
          rfl
        refine List.prefix_of_prefix_length_le hwhole ⟨rest, rfl⟩ ?_
        rw [List.length_append, List.length_singleton]
        omega
      rcases hpre with ⟨after', heq'⟩
      refine hf before r out after' ?_ hlen
      rw [← heq', List.append_assoc]
      rfl

/-- One more event. -/
theorem freshSince_snoc :
    FreshSince h (h ++ [e]) ↔ ∀ r out, e = .answered r (.ok out) → ¬ StaleAt h out := by
  constructor
  · rintro hf r out rfl
    exact hf h r out [] rfl (Nat.le_refl _)
  · intro hf before r out after heq hlen
    have hlong := congrArg List.length heq
    simp only [List.length_append, List.length_cons, List.length_nil] at hlong
    have hafter : after = [] := List.length_eq_zero_iff.mp (by omega)
    subst hafter
    rcases List.append_inj' heq rfl with ⟨rfl, he⟩
    exact hf r out (List.singleton_inj.mp he)

/-- An event that is no answer is never stale. -/
theorem freshSince_event (he : ∀ r out, e ≠ .answered r (.ok out)) : FreshSince h (h ++ [e]) :=
  freshSince_snoc.mpr fun r out heq => absurd heq (he r out)

end History

section Spec

/-- The outcome of a Receive, as a call returns it. -/
inductive IsOutcome : Polled → Exit PsrpError Bytes → Prop where
  | bytes (out : ReceiveOutput) : IsOutcome (.ok out) (.ok out.stdout)
  | error (e : WinrmError) : IsOutcome (.error e) (.err (.winrm e))
  | stopped (code reason : String) : names code "InvalidSelectors" = true →
      IsOutcome (.error (.fault code reason)) (.err .stopped)

/-- An end was reported for the current command. -/
def EndsOwn (x : Exit PsrpError Bytes) (t : WinrmPsrpTransport) : Prop :=
  x = .ok [] → ∃ e ∈ current t.history, e.reportsDone = true

/-- A stop was accepted for the current command. -/
def StopsOwn (x : Exit PsrpError Bytes) (t : WinrmPsrpTransport) : Prop :=
  x = .err .stopped → ∃ e ∈ current t.history, e.isSignalled = true

/-- What a call returned is the outcome of the last Receive, and that one was
    sent since the current command was started, under its id. -/
def ReceivesOwn (x : Exit PsrpError Bytes) (t : WinrmPsrpTransport) : Prop :=
  (∃ bytes, x = .ok bytes) ∨ (∃ e, x = .err e) →
    x = .err (.protocol "transport closed")
      ∨ ∃ before r polled, t.history = before ++ [.answered r polled]
        ∧ .receive r ∈ current before ∧ .receive r ∉ earlier before
        ∧ r.commandId = t.commandId ∧ IsOutcome polled x

/-- What a call returned is the current command's. -/
structure Justified (x : Exit PsrpError Bytes) (t : WinrmPsrpTransport) : Prop where
  ends : EndsOwn x t
  stops : StopsOwn x t
  receives : ReceivesOwn x t

/-- What one Receive decides. -/
theorem receiveStep_spec {polled : Polled} {stop done done' : Bool} {streak streak' : TimeoutStreak}
    {x : Except PsrpError Step} (r : Receive)
    (h : receiveStep polled stop streak done = (x, streak', done')) :
    done' = (done || (ShellEvent.answered r polled).reportsDone)
      ∧ (∀ e, x = .error e → (e = .stopped → stop = true) ∧ IsOutcome polled (.err e))
      ∧ (x = .ok .again → ∀ out, polled = .ok out → done' = false)
      ∧ (∀ bytes, x = .ok (.deliver bytes) → ∃ out, polled = .ok out ∧ bytes = out.stdout
        ∧ (bytes = [] → done' = true)) := by
  unfold receiveStep at h
  -- An answer is delivered, unless it is empty and reports no end.
  cases polled with
  | ok out =>
      simp only [classifyReceive] at h
      split at h
      · rename_i hquiet
        cases h
        exact ⟨rfl, nofun, fun _ _ _ => hquiet.2, nofun⟩
      · rename_i hquiet
        cases h
        refine ⟨rfl, nofun, nofun, ?_⟩
        rintro bytes heq
        cases heq
        refine ⟨out, rfl, rfl, fun hempty => ?_⟩
        by_contra hdone
        exact hquiet ⟨hempty, Bool.eq_false_iff.mpr hdone⟩
  | error err =>
      have hreports : (done || (ShellEvent.answered r (.error err)).reportsDone) = done :=
        Bool.or_false _
      rw [hreports]
      -- Of the errors, a timeout may be retried and a fault may be the end of a stopped
      -- pipeline.
      cases err with
      | timeout seconds =>
          simp only [classifyReceive, TimeoutStreak.record] at h
          split at h
          · rename_i hrecord
            split at hrecord
            · cases hrecord
              cases h
              refine ⟨rfl, ?_, nofun, nofun⟩
              rintro e heq
              cases heq
              exact ⟨nofun, .error _⟩
            · cases hrecord
          · rename_i hrecord
            cases h
            exact ⟨rfl, nofun, nofun, nofun⟩
      | other detail =>
          cases h
          refine ⟨rfl, ?_, nofun, nofun⟩
          rintro e heq
          cases heq
          exact ⟨nofun, .error _⟩
      | fault code reason =>
          simp only [classifyReceive] at h
          split_ifs at h with htimeout hstop
          · cases h
            exact ⟨rfl, nofun, nofun, nofun⟩
          · cases h
            refine ⟨rfl, ?_, nofun, nofun⟩
            rintro e heq
            cases heq
            rw [Bool.and_eq_true] at hstop
            exact ⟨fun _ => hstop.1, .stopped _ _ hstop.2⟩
          · cases h
            refine ⟨rfl, ?_, nofun, nofun⟩
            rintro e heq
            cases heq
            exact ⟨nofun, .error _⟩

end Spec

end Winrm

namespace WinrmPsrpTransport

open Winrm
open Async (Call Ends andThen play wp wp_bind wp_mono wp_seq)

/-- What the fields mean. Of the end of a command only this is known: some
    command of the transport has reported it. -/
structure Tracked (t : WinrmPsrpTransport) : Prop where
  done : t.done = t.history.any ShellEvent.reportsDone
  stopped : t.stopSignalled = (current t.history).any ShellEvent.isSignalled
  parked : ∀ r, t.receive = some r →
    .receive r ∈ current t.history ∧ .receive r ∉ earlier t.history ∧ r.commandId = t.commandId
  counted : ∀ r, .receive r ∈ t.history → r.number < receivesSent t.history

variable {t t' u : WinrmPsrpTransport} {h0 : List ShellEvent}

theorem tracked_ofShell (shell : Shell) : Tracked (ofShell shell) :=
  ⟨rfl, rfl, nofun, nofun⟩

theorem receivesSent_snoc (h : List ShellEvent) (e : ShellEvent) :
    receivesSent h ≤ receivesSent (h ++ [e]) := by
  rw [receivesSent, receivesSent, List.countP_append]
  exact Nat.le_add_right _ _

/-- An event that starts no command, and a state that takes it into account. -/
theorem Tracked.event {e : ShellEvent} (h : Tracked t) (hhistory : t'.history = t.history ++ [e])
    (hid : t'.commandId = t.commandId) (hstarted : e.isStarted = false)
    (hdone : t'.done = (t.done || e.reportsDone))
    (hstopped : t'.stopSignalled = (t.stopSignalled || e.isSignalled))
    (hreceive : ∀ r, t'.receive = some r → t.receive = some r ∨
      e = .receive r ∧ r.commandId = t.commandId)
    (hnumber : ∀ r, e = .receive r → r.number = receivesSent t.history) : Tracked t' := by
  refine ⟨?_, ?_, fun r hr => ?_, fun r hr => ?_⟩
  · rw [hdone, hhistory, List.any_append, h.done]
    simp only [List.any_cons, List.any_nil, Bool.or_false]
  · rw [hstopped, hhistory, current_snoc hstarted, List.any_append, h.stopped]
    simp only [List.any_cons, List.any_nil, Bool.or_false]
  · rw [hhistory, current_snoc hstarted, earlier_snoc hstarted, hid]
    rcases hreceive r hr with hold | ⟨rfl, hcommand⟩
    · rcases h.parked r hold with ⟨hin, hout, hcommand⟩
      exact ⟨List.mem_append_left _ hin, hout, hcommand⟩
    · -- A new Receive has a number that none before it has.
      refine ⟨List.mem_append_right _ (List.mem_singleton.mpr rfl), fun hmem => ?_, hcommand⟩
      have hlt := h.counted r (mem_of_earlier hmem)
      rw [hnumber r rfl] at hlt
      exact Nat.lt_irrefl _ hlt
  · rw [hhistory] at hr ⊢
    rcases List.mem_append.mp hr with hold | hnew
    · exact Nat.lt_of_lt_of_le (h.counted r hold) (receivesSent_snoc _ _)
    · have heq := List.mem_singleton.mp hnew
      rw [hnumber r heq.symm, receivesSent, receivesSent, List.countP_append, ← heq]
      exact Nat.lt_succ_self _

/-- What only notes that something was asked. -/
theorem Tracked.note {e : ShellEvent} (h : Tracked t) (hstarted : e.isStarted = false)
    (hdone : e.reportsDone = false) (hsignalled : e.isSignalled = false)
    (hreceive : ∀ r, e ≠ .receive r) : Tracked (t.note e) := by
  refine h.event rfl rfl hstarted ?_ ?_ (fun r hr => Or.inl hr) (fun r hr => absurd hr (hreceive r))
  · rw [hdone, Bool.or_false]
    rfl
  · rw [hsignalled, Bool.or_false]
    rfl

theorem Tracked.park (h : Tracked t) : Tracked t.park := by
  unfold WinrmPsrpTransport.park
  split
  · exact h
  · refine h.event rfl rfl rfl (Bool.or_false _).symm (Bool.or_false _).symm ?_ ?_
    · intro r hr
      cases hr
      exact Or.inr ⟨rfl, rfl⟩
    · intro r hr
      cases hr
      rfl

/-- A command starts without a Receive, and without a stop. -/
theorem Tracked.startedAs (h : Tracked t) (id : Text) : Tracked (t.startedAs id) := by
  refine ⟨?_, ?_, nofun, fun r hr => ?_⟩
  · change t.done = (t.history ++ [ShellEvent.started id]).any ShellEvent.reportsDone
    rw [List.any_append, h.done]
    exact (Bool.or_false _).symm
  · change false = (current (t.history ++ [ShellEvent.started id])).any ShellEvent.isSignalled
    rw [current_started]
    rfl
  · change ShellEvent.receive r ∈ t.history ++ [.started id] at hr
    rcases List.mem_append.mp hr with hold | hnew
    · exact Nat.lt_of_lt_of_le (h.counted r hold) (receivesSent_snoc _ _)
    · cases List.mem_singleton.mp hnew

/-- The fields after an answer, once it has been acted on. -/
theorem Tracked.answered {r : Receive} {polled : Polled} {done : Bool} (h : Tracked t)
    (hr : t.receive = some r) (hdone : done = (t.done || (ShellEvent.answered r polled).reportsDone)) :
    Tracked { t.finish polled with done } := by
  have hfinish : t.finish polled = t.discard.note (.answered r polled) := by
    rw [finish, hr]
  rw [hfinish]
  exact h.event rfl rfl rfl hdone (Bool.or_false _).symm nofun nofun

section Calls

theorem wp_openShell {Q : Exit PsrpError Shell → WinrmPsrpTransport → Prop}
    (hok : ∀ shell, t.shell = some shell → Q (.ok shell) t)
    (hclosed : Q (.err (.protocol "transport closed")) t) : wp openShell Q t := by
  refine Async.wp_update (fun a u hu => ?_) (fun e u hu => ?_)
  · split at hu
    · rename_i hshell
      cases hu
      exact hok _ hshell
    · cases hu
  · split at hu
    · cases hu
    · cases hu
      exact hclosed

theorem park_receive (t : WinrmPsrpTransport) : ∃ r, t.park.receive = some r := by
  unfold park
  split
  · rename_i r hr
    exact ⟨r, hr⟩
  · exact ⟨_, rfl⟩

theorem park_history (t : WinrmPsrpTransport) :
    t.history <+: t.park.history ∧ FreshSince t.history t.park.history := by
  unfold park
  split
  · exact ⟨List.prefix_refl _, freshSince_refl _⟩
  · exact ⟨List.prefix_append _ _, freshSince_event nofun⟩

/-- The Receive in flight is waited for. Dropped, the wait leaves it parked. -/
theorem wp_drive :
    wp drive (Ends (fun u => u = t.park) (fun _ _ => False) fun polled u => u = t.park.finish polled)
      t := by
  unfold drive
  have hawait : wp (Async.await receiveAnswer) (Ends (fun u => u = t.park)
      (fun (_ : PsrpError) _ => False) fun (_ : Polled) u => u = t.park) t.park :=
    Async.wp_await (fun _ _ _ => rfl) (fun _ => rfl) rfl
  refine Async.wp_modifyThen (wp_seq hawait (fun _ hu => hu) (fun _ _ hu => hu) ?_)
  rintro polled _ rfl
  exact Async.wp_modifyThen (Async.wp_pure rfl)

/-- What the history has become since a call began. -/
structure Since (h0 : List ShellEvent) (t : WinrmPsrpTransport) : Prop where
  tracked : Tracked t
  grown : h0 <+: t.history
  fresh : FreshSince h0 t.history

theorem Since.trans (h : Since h0 t) (hu : Since t.history u) : Since h0 u :=
  ⟨hu.tracked, h.grown.trans hu.grown,
    (freshSince_trans h.grown.length_le hu.grown).mpr ⟨h.fresh, hu.fresh⟩⟩

theorem Tracked.since (h : Tracked t) : Since t.history t :=
  ⟨h, List.prefix_refl _, freshSince_refl _⟩

/-- What a call that returned left behind. The end of the command is its own
    exactly if no stale poll was read. -/
structure Returned (h0 : List ShellEvent) (x : Exit PsrpError Bytes) (t : WinrmPsrpTransport) :
    Prop where
  tracked : Tracked t
  grown : h0 <+: t.history
  stops : StopsOwn x t
  receives : ReceivesOwn x t
  ends : EndsOwn x t ↔ FreshSince h0 t.history

/-- What is returned after an answer is acted on. -/
theorem returned_of_answered {r : Receive} {polled : Polled} {done : Bool}
    {x : Exit PsrpError Bytes} (h : Since h0 t) (hr : t.receive = some r)
    (hdone : done = (t.done || (ShellEvent.answered r polled).reportsDone))
    (houtcome : IsOutcome polled x) (hstops : x = .err .stopped → t.stopSignalled = true)
    (hempty : x = .ok [] → done = true) :
    Returned h0 x { t.finish polled with done } := by
  have hhistory : (t.finish polled).history = t.history ++ [.answered r polled] := by
    rw [finish, hr]
    rfl
  have hid : (t.finish polled).commandId = t.commandId := by
    rw [finish, hr]
    rfl
  have hcurrent := current_snoc (h := t.history) (e := .answered r polled) rfl
  refine ⟨h.tracked.answered hr hdone, ?_, fun hx => ?_, fun _ => Or.inr ?_, ?_⟩
  · change h0 <+: (t.finish polled).history
    rw [hhistory]
    exact h.grown.trans (List.prefix_append _ _)
  · have hsignalled := hstops hx
    rw [h.tracked.stopped, List.any_eq_true] at hsignalled
    rcases hsignalled with ⟨e, he, hsignalled⟩
    change ∃ e ∈ current (t.finish polled).history, _
    rw [hhistory, hcurrent]
    exact ⟨e, List.mem_append_left _ he, hsignalled⟩
  · -- The answer is that of the receive that was parked, for the command that is current.
    rcases h.tracked.parked r hr with ⟨hin, hout, hcommand⟩
    exact ⟨t.history, r, polled, hhistory, hin, hout, hcommand.trans hid.symm, houtcome⟩
  · change (x = .ok [] → ∃ e ∈ current (t.finish polled).history, _)
      ↔ FreshSince h0 (t.finish polled).history
    -- An empty read is an end exactly if no stale end was read in this call.
    rw [hhistory, hcurrent, freshSince_trans h.grown.length_le (List.prefix_append _ _),
      freshSince_snoc]
    constructor
    · rintro hends
      refine ⟨h.fresh, fun r' out heq hstale => ?_⟩
      cases heq
      rcases hstale with ⟨hstdout, hnotdone, _, hnone⟩
      have hx : x = .ok [] := by
        cases houtcome
        rw [hstdout]
      rcases hends hx with ⟨e, he, hreports⟩
      rcases List.mem_append.mp he with hin | hlast
      · exact hnone ⟨e, hin, hreports⟩
      · rw [List.mem_singleton.mp hlast] at hreports
        exact Bool.false_ne_true (hnotdone.symm.trans hreports)
    · rintro ⟨_, hfresh⟩ hx
      have hout : ∃ out, polled = .ok out ∧ out.stdout = [] := by
        rw [hx] at houtcome
        generalize hbytes : (Exit.ok ([] : Bytes) : Exit PsrpError Bytes) = y at houtcome
        cases houtcome with
        | bytes out => exact ⟨out, rfl, (Exit.ok.inj hbytes).symm⟩
        | error _ => cases hbytes
        | stopped => cases hbytes
      rcases hout with ⟨out, rfl, hstdout⟩
      by_cases hreports : out.done = true
      · exact ⟨_, List.mem_append_right _ (List.mem_singleton.mpr rfl), hreports⟩
      · -- The flag was up before, so some command has ended: it is this one.
        have hnotdone := Bool.eq_false_iff.mpr hreports
        have hup := hempty hx
        rw [hdone, h.tracked.done, Bool.or_eq_true, List.any_eq_true] at hup
        have hsome := hup.resolve_right hreports
        by_contra hnone
        refine hfresh r out rfl ⟨hstdout, hnotdone, hsome, fun ⟨e, he, hown⟩ => hnone ?_⟩
        exact ⟨e, List.mem_append_left _ he, hown⟩

/-- What a call that reads leaves behind, however it ends. -/
def Answers (h0 : List ShellEvent) (x : Exit PsrpError Bytes) (t : WinrmPsrpTransport) : Prop :=
  match x with
  | .ok _ | .err _ => Returned h0 x t
  | .cut _ | .suspended => Since h0 t

/-- One turn: a Receive is over, and it is returned or another one is asked
    for. -/
theorem wp_received {polled : Polled} {streak : TimeoutStreak} {r : Receive}
    (h : Since h0 t) (hr : t.receive = some r) :
    wp (Async.update (received polled streak) : Prog WinrmPsrpTransport (Step × TimeoutStreak))
      (andThen (fun step u => match step with
        | (.again, _) => Since h0 u
        | (.deliver bytes, _) => Answers h0 (.ok bytes) u) (Answers h0)) (t.finish polled) := by
  have hflags : (t.finish polled).stopSignalled = t.stopSignalled
      ∧ (t.finish polled).done = t.done := by
    rw [finish, hr]
    exact ⟨rfl, rfl⟩
  rcases hstep : receiveStep polled t.stopSignalled streak t.done with ⟨x, streak', done⟩
  rcases receiveStep_spec r hstep with ⟨hdone, herror, hagain, hdeliver⟩
  have hreceived : received polled streak (t.finish polled)
      = (x.map fun step => (step, streak'), { t.finish polled with done }) := by
    rw [received, hflags.1, hflags.2, hstep, ← hflags.1]
  refine Async.wp_update (fun a u hu => ?_) (fun e u hu => ?_)
  · rw [hreceived] at hu
    cases x with
    | error e => cases hu
    | ok step =>
        cases hu
        cases step with
        | deliver bytes =>
            rcases hdeliver bytes rfl with ⟨out, rfl, rfl, hempty⟩
            exact returned_of_answered h hr hdone (.bytes out) nofun
              fun heq => hempty (Exit.ok.inj heq)
        | again =>
            -- The flag stays down, so no command has ended.
            have hhistory : (t.finish polled).history = t.history ++ [.answered r polled] := by
              rw [finish, hr]
              rfl
            refine ⟨h.tracked.answered hr hdone, ?_, ?_⟩
            · change h0 <+: (t.finish polled).history
              rw [hhistory]
              exact h.grown.trans (List.prefix_append _ _)
            · change FreshSince h0 (t.finish polled).history
              rw [hhistory, freshSince_trans h.grown.length_le (List.prefix_append _ _),
                freshSince_snoc]
              refine ⟨h.fresh, fun r' out heq hstale => ?_⟩
              cases heq
              have hdown := hagain rfl out rfl
              rw [hdone, Bool.or_eq_false_iff, h.tracked.done] at hdown
              rcases hstale.2.2.1 with ⟨e, he, hreports⟩
              exact Bool.false_ne_true
                (hdown.1.symm.trans (List.any_eq_true.mpr ⟨e, he, hreports⟩))
  · rw [hreceived] at hu
    cases x with
    | ok step => cases hu
    | error e' =>
        cases hu
        rcases herror e rfl with ⟨hstops, houtcome⟩
        exact returned_of_answered h hr hdone houtcome
          (fun heq => hstops (Exit.err.inj heq)) nofun

/-- A call that reads, from the state its command left. -/
theorem wp_recvChunk (h : Tracked t) : wp recvChunk (Answers t.history) t := by
  unfold recvChunk
  refine Async.wp_loop (fun _ u => Since t.history u) h.since (fun _ _ hu => hu) ?_
  rintro streak u hu
  refine wp_bind (wp_openShell (fun shell _ => ?_) ?_)
  · have hpark : Since t.history u.park :=
      hu.trans ⟨hu.tracked.park, (park_history u).1, (park_history u).2⟩
    refine wp_bind (wp_mono wp_drive fun x v hv => ?_)
    rcases park_receive u with ⟨r, hr⟩
    cases x with
    | ok polled =>
        subst hv
        refine wp_bind (wp_mono (wp_received hpark hr) fun y w hw => ?_)
        cases y with
        | ok step =>
            rcases step with ⟨step, streak'⟩
            cases step with
            | again => exact Async.wp_pure hw
            | deliver bytes => exact Async.wp_pure hw
        | err e => exact hw
        | cut n => exact hw
        | suspended => exact hw
    | err e => exact hv.elim
    | cut n =>
        subst hv
        exact hpark
    | suspended =>
        subst hv
        exact hpark
  · -- The shell was let go of, and nothing was read.
    refine ⟨hu.tracked, hu.grown, nofun, fun _ => Or.inl rfl, fun _ => hu.fresh, fun _ => nofun⟩

end Calls

section Runs

/-- The operations of a transport. -/
inductive Operation where
  | startPipelineCommand
  | executePipeline (fragmentBytes : Bytes) (pipelineId : Uuid)
  | sendFragment (bytes : Bytes)
  | recvChunk
  | signalStop
  | closeShell
  | disconnectShell

/-- Perform an operation. -/
def perform : Operation → Prog WinrmPsrpTransport Unit
  | .startPipelineCommand => WinrmPsrpTransport.startPipelineCommand
  | .executePipeline bytes pipelineId => WinrmPsrpTransport.executePipeline bytes pipelineId
  | .sendFragment bytes => WinrmPsrpTransport.sendFragment bytes
  | .recvChunk => do
    let _ ← WinrmPsrpTransport.recvChunk
    return ()
  | .signalStop => WinrmPsrpTransport.signalStop
  | .closeShell => WinrmPsrpTransport.closeShell
  | .disconnectShell => do
    let _ ← WinrmPsrpTransport.disconnectShell
    return ()

/-- However a request ends, it leaves the state as it was. -/
theorem wp_request {α : Type} {read : Answer → Option (Except PsrpError α)}
    {Q : Exit PsrpError α → WinrmPsrpTransport → Prop} (hQ : ∀ x, Q x t) :
    wp (Async.await read >>= fun r => Async.lift r) Q t :=
  wp_bind (Async.wp_await (fun _ _ _ => Async.wp_lift (fun _ _ => hQ _) fun _ _ => hQ _)
    (fun _ => hQ _) (hQ _))

/-- What is noted when something is asked. -/
theorem Since.asked {e : ShellEvent} (h : Since h0 t) (hstarted : e.isStarted = false)
    (hdone : e.reportsDone = false) (hsignalled : e.isSignalled = false)
    (hreceive : ∀ r, e ≠ .receive r) (hanswered : ∀ r out, e ≠ .answered r (.ok out)) :
    Since h0 (t.note e) :=
  h.trans ⟨h.tracked.note hstarted hdone hsignalled hreceive, List.prefix_append _ _,
    freshSince_event hanswered⟩

theorem wp_execute {arguments : List Text} {commandId : Option Text} (h : Tracked t) :
    wp (execute arguments commandId) (fun _ u => Since t.history u) t := by
  unfold execute
  have hasked : Since t.history (t.note (.execute arguments commandId)) :=
    h.since.asked rfl rfl rfl nofun nofun
  refine wp_bind (wp_openShell (fun _ _ => ?_) h.since)
  simp only [andThen]
  refine Async.wp_modifyThen ?_
  rw [← Async.bind_assoc]
  refine wp_bind (wp_request fun x => ?_)
  cases x with
  | ok id =>
      simp only [andThen]
      exact Async.wp_modify (hasked.trans ⟨hasked.tracked.startedAs id, List.prefix_append _ _,
        freshSince_event nofun⟩)
  | err e => exact hasked
  | cut n => exact hasked
  | suspended => exact hasked

theorem wp_sendFragment {bytes : Bytes} (h : Tracked t) :
    wp (sendFragment bytes) (fun _ u => Since t.history u) t := by
  unfold sendFragment
  refine wp_bind (wp_openShell (fun _ _ => ?_) h.since)
  simp only [andThen]
  exact Async.wp_modifyThen (wp_request fun _ => h.since.asked rfl rfl rfl nofun nofun)

theorem wp_signalStop (h : Tracked t) : wp signalStop (fun _ u => Since t.history u) t := by
  unfold signalStop
  have hasked : Since t.history (t.note (.signal t.commandId)) :=
    h.since.asked rfl rfl rfl nofun nofun
  refine wp_bind (wp_openShell (fun _ _ => ?_) h.since)
  simp only [andThen]
  refine Async.wp_modifyThen ?_
  rw [← Async.bind_assoc]
  refine wp_bind (wp_request fun x => ?_)
  cases x with
  | ok _ =>
      simp only [andThen]
      refine Async.wp_modify (hasked.trans ⟨?_, List.prefix_append _ _, freshSince_event nofun⟩)
      exact hasked.tracked.event rfl rfl rfl (Bool.or_false _).symm (Bool.or_true _).symm
        (fun r hr => Or.inl hr) nofun
  | err e => exact hasked
  | cut n => exact hasked
  | suspended => exact hasked

/-- A shell that is let go of takes the Receive in flight with it. -/
theorem Tracked.taken (h : Tracked t) : Since t.history { t.discard with shell := none } :=
  ⟨⟨h.done, h.stopped, nofun, h.counted⟩, List.prefix_refl _, freshSince_refl _⟩

theorem wp_closeShell (h : Tracked t) : wp closeShell (fun _ u => Since t.history u) t := by
  unfold closeShell
  refine wp_bind (Async.wp_update (fun shell u hu => ?_) fun e u hu => (by cases hu))
  cases hu
  simp only [andThen]
  cases t.shell with
  | some _ =>
      exact Async.wp_modifyThen (wp_request fun _ => h.taken.asked rfl rfl rfl nofun nofun)
  | none => exact Async.wp_pure h.taken

theorem wp_disconnectShell (h : Tracked t) :
    wp disconnectShell (fun _ u => Since t.history u) t := by
  unfold disconnectShell
  refine wp_bind (Async.wp_update (fun shell u hu => ?_) fun e u hu => (by cases hu))
  cases hu
  simp only [andThen]
  cases t.shell with
  | some _ =>
      exact Async.wp_modifyThen (wp_request fun _ => h.taken.asked rfl rfl rfl nofun nofun)
  | none => exact Async.wp_throw h.taken

/-- Every operation but a read leaves no stale poll behind. -/
theorem wp_perform (h : Tracked t) (op : Operation) (hop : op ≠ .recvChunk) :
    wp (perform op) (fun _ u => Since t.history u) t := by
  cases op with
  | startPipelineCommand => exact wp_execute h
  | executePipeline bytes pipelineId => exact wp_execute h
  | sendFragment bytes => exact wp_sendFragment h
  | recvChunk => exact absurd rfl hop
  | signalStop => exact wp_signalStop h
  | closeShell => exact wp_closeShell h
  | disconnectShell =>
      refine wp_bind (wp_mono (wp_disconnectShell h) fun x u hu => ?_)
      cases x with
      | ok _ =>
          simp only [andThen]
          exact Async.wp_pure hu
      | err e => exact hu
      | cut n => exact hu
      | suspended => exact hu

/-- The reads of a run: what each returned, and the state it left. -/
inductive ReadIn : List (Call Answer Operation) → WinrmPsrpTransport → Exit PsrpError Bytes →
    WinrmPsrpTransport → Prop where
  | now {t : WinrmPsrpTransport} (script : List (Psrp.Wake Answer)) (turns : Nat)
      (calls : List (Call Answer Operation)) :
      ReadIn (⟨.recvChunk, script, turns⟩ :: calls) t (recvChunk ⟨t, script, turns⟩).1
        (recvChunk ⟨t, script, turns⟩).2.state
  | later {t u : WinrmPsrpTransport} {calls : List (Call Answer Operation)}
      {x : Exit PsrpError Bytes} (c : Call Answer Operation) :
      ReadIn calls (perform c.operation ⟨t, c.script, c.turns⟩).2.state x u →
      ReadIn (c :: calls) t x u

theorem Answers.returned {x : Exit PsrpError Bytes} (h : Answers h0 x t) : Returned h0 x t := by
  cases x with
  | ok bytes => exact h
  | err e => exact h
  | cut n =>
      refine ⟨h.tracked, h.grown, nofun, ?_, fun _ => h.fresh, fun _ => nofun⟩
      rintro (⟨_, heq⟩ | ⟨_, heq⟩)
      · cases heq
      · cases heq
  | suspended =>
      refine ⟨h.tracked, h.grown, nofun, ?_, fun _ => h.fresh, fun _ => nofun⟩
      rintro (⟨_, heq⟩ | ⟨_, heq⟩)
      · cases heq
      · cases heq

theorem perform_recvChunk (w : World Answer WinrmPsrpTransport) :
    (perform .recvChunk w).2.state = (recvChunk w).2.state := by
  have hperform : perform .recvChunk = recvChunk >>= fun _ => pure () := rfl
  rw [hperform, Async.bind_apply]
  rcases recvChunk w with ⟨x, w'⟩
  cases x <;> rfl

/-- The reads of a run from any state, by induction on its calls. -/
theorem play_reads (calls : List (Call Answer Operation)) (h : Tracked t) :
    t.history <+: (play perform calls t).2.history
      ∧ (∀ x u, ReadIn calls t x u → StopsOwn x u ∧ ReceivesOwn x u)
      ∧ ((∀ x u, ReadIn calls t x u → EndsOwn x u)
        ↔ FreshSince t.history (play perform calls t).2.history) := by
  induction calls generalizing t with
  | nil =>
      refine ⟨List.prefix_refl _, ?_, fun _ => freshSince_refl _, fun _ => ?_⟩
      · intro x u hread
        cases hread
      · intro x u hread
        cases hread
  | cons c calls ih =>
      rcases c with ⟨op, script, turns⟩
      by_cases hop : op = .recvChunk
      · subst hop
        -- This call is a read, and what was said of one read holds of it.
        have hreturned := (wp_recvChunk h script turns).returned
        have hstate := perform_recvChunk ⟨t, script, turns⟩
        have htracked := hreturned.tracked
        have hgrow := hreturned.grown
        rw [← hstate] at htracked hgrow
        rcases ih htracked with ⟨hgrown, hown, hends⟩
        refine ⟨hgrow.trans hgrown, ?_, ?_⟩
        · intro x u hread
          cases hread with
          | now => exact ⟨hreturned.stops, hreturned.receives⟩
          | later _ hread => exact hown x u hread
        · refine Iff.trans ?_ (freshSince_trans hgrow.length_le hgrown).symm
          -- The reads of the run end rightly exactly if this one does and the later ones do.
          have hfirst : EndsOwn (recvChunk ⟨t, script, turns⟩).1
              (recvChunk ⟨t, script, turns⟩).2.state
              ↔ FreshSince t.history (perform .recvChunk ⟨t, script, turns⟩).2.state.history := by
            rw [hstate]
            exact hreturned.ends
          rw [← hfirst, ← hends]
          constructor
          · exact fun hall => ⟨hall _ _ (.now script turns calls),
              fun x u hread => hall x u (.later _ hread)⟩
          · rintro ⟨hnow, hlater⟩ x u hread
            cases hread with
            | now => exact hnow
            | later _ hread => exact hlater x u hread
      · -- Any other call reads nothing, and leaves no stale end behind.
        have hsince := wp_perform h op hop script turns
        rcases ih hsince.tracked with ⟨hgrown, hown, hends⟩
        refine ⟨hsince.grown.trans hgrown, ?_, ?_⟩
        · intro x u hread
          cases hread with
          | now => exact absurd rfl hop
          | later _ hread => exact hown x u hread
        · refine Iff.trans ?_ (freshSince_trans hsince.grown.length_le hgrown).symm
          rw [and_iff_right hsince.fresh, ← hends]
          constructor
          · exact fun hall x u hread => hall x u (.later _ hread)
          · intro hall x u hread
            cases hread with
            | now => exact absurd rfl hop
            | later _ hread => exact hall x u hread

end Runs

/-- In every run of a transport on a shell it was given, whatever becomes of its
    calls and whatever the server answers: a call that returns `Stopped` does so
    after a stop that was accepted for its own command, and what a call returns
    is the outcome of a Receive that was sent for its own command. A call that
    returns no bytes does so after its own command has ended, everywhere in the
    run, exactly if no empty poll is read that does not end its command, when no
    Receive of the command has reported its end but one of another command has. -/
theorem command_end_iff (shell : Shell) (calls : List (Call Answer Operation)) :
    (∀ x u, ReadIn calls (ofShell shell) x u → StopsOwn x u ∧ ReceivesOwn x u)
      ∧ ((∀ x u, ReadIn calls (ofShell shell) x u → Justified x u)
        ↔ FreshPolls (play perform calls (ofShell shell)).2.history) := by
  rcases play_reads calls (tracked_ofShell shell) with ⟨_, hown, hends⟩
  refine ⟨hown, ?_⟩
  rw [← freshSince_nil]
  refine Iff.trans ?_ hends
  constructor
  · exact fun hall x u hread => (hall x u hread).ends
  · exact fun hall x u hread => ⟨hall x u hread, (hown x u hread).1, (hown x u hread).2⟩

/-- Two pipelines, one after the other. The first one ends; the second has
    nothing to say yet when it is read. -/
def twoPipelines : List (Call Answer Operation) :=
  [⟨.executePipeline [0] Uuid.nil, [.answer (.named ['A'])], 0⟩,
    ⟨.recvChunk, [.answer (.received ⟨[1], true⟩)], 1⟩,
    ⟨.executePipeline [0] Uuid.nil, [.answer (.named ['B'])], 0⟩,
    ⟨.recvChunk, [.answer (.received ⟨[], false⟩)], 1⟩]

/-- The second command is said to have ended, though no Receive of it said
    so. -/
theorem command_end_made_up : ∃ x u, ReadIn twoPipelines (ofShell ⟨['S']⟩) x u
    ∧ x = .ok [] ∧ ¬ ∃ e ∈ current u.history, e.reportsDone = true := by
  refine ⟨_, _, .later _ (.later _ (.later _ (.now _ _ []))), rfl, ?_⟩
  rintro ⟨e, he, hreports⟩
  have hnone : ∀ e ∈ [ShellEvent.receive ⟨1, ['B']⟩, .answered ⟨1, ['B']⟩ (.ok ⟨[], false⟩)],
      e.reportsDone = false := by
    intro e he
    rcases List.mem_pair.mp he with rfl | rfl
    · rfl
    · rfl
  exact Bool.false_ne_true ((hnone e he).symm.trans hreports)

end WinrmPsrpTransport

end Psrp

import Psrp.Theory.Winrm

/-!
# Where a Read Stops

Which of the outcomes of its Receives a call to read returns.

A call goes through the outcomes one by one, and carries two numbers along: the
timeouts met in a row, and whether the command is over. What it does with an
outcome depends on both, so where it stops is not said by the code in terms of
the outcomes. `StopsAt` says it: an outcome is conclusive by itself, or it is
the third timeout in a row. The two agree because the counter is, at every
outcome the call gets to, the number of timeouts right before it (`streak`),
and the flag is still down.

## Main definitions

* `timedOut`, `Conclusive`: Kinds of outcome.
* `StopsAt`: Where a call must stop.
* `Returns`: What it must return there.
* `streak`: The timeouts right before an outcome.
* `arrived`: The first outcomes, as they come in.

## Theorems

* `receiveStep_again`, `receiveStep_stops`: One outcome.
* `turns_absorbed`: The outcomes before the first one to stop at.
* `recv_chunk_stops`: A whole call.
-/

namespace Psrp

namespace Winrm

/-- Whether the client gave up waiting. -/
def timedOut : Polled → Bool
  | .error (.timeout _) => true
  | _ => false

/-- An outcome that no call can go on from: some bytes, the end of the command,
    or an error that is neither a timeout of the client nor the server's word
    that there is nothing to say yet. -/
def Conclusive : Polled → Prop
  | .ok out => out.stdout ≠ [] ∨ out.done = true
  | .error (.timeout _) => False
  | .error (.fault code _) => names code "TimedOut" = false
  | .error (.other _) => True

/-- Where a call must stop: at a conclusive outcome, or at the third timeout in
    a row. -/
def StopsAt (outcomes : Nat → Polled) (n : Nat) : Prop :=
  Conclusive (outcomes n) ∨ ∃ k, n = k + 2 ∧ timedOut (outcomes k) = true
    ∧ timedOut (outcomes (k + 1)) = true ∧ timedOut (outcomes (k + 2)) = true

/-- Whether the server says that it does not know the command. -/
def saysGone : WinrmError → Bool
  | .fault code _ => names code "InvalidSelectors"
  | _ => false

/-- What a call must return at an outcome: its bytes or its error, but that the
    command is gone is the stop that was accepted for it. -/
def Returns (accepted : Prop) (x : Exit PsrpError Bytes) : Polled → Prop
  | .ok out => x = .ok out.stdout
  | .error e => (x = .err .stopped ↔ accepted ∧ saysGone e = true)
    ∧ (¬ (accepted ∧ saysGone e = true) → x = .err (.winrm e))

/-- The timeouts right before an outcome. -/
def streak (outcomes : Nat → Polled) : Nat → Nat
  | 0 => 0
  | n + 1 => if timedOut (outcomes n) then streak outcomes n + 1 else 0

/-- An answer that ends a Receive. -/
def answerOf : Polled → Answer
  | .ok out => .received out
  | .error e => .failed (.winrm e)

/-- The outcomes from `n` to before `n + m`, as they come in. -/
def arrived (outcomes : Nat → Polled) (n m : Nat) : List (Psrp.Wake Answer) :=
  (List.range' n m).map fun i => .answer (answerOf (outcomes i))

variable {outcomes : Nat → Polled} {n : Nat}

theorem two_le_streak : 2 ≤ streak outcomes n ↔ ∃ k, n = k + 2
    ∧ timedOut (outcomes k) = true ∧ timedOut (outcomes (k + 1)) = true := by
  constructor
  · intro h
    rcases n with _ | _ | k
    · exact absurd h (by unfold streak; omega)
    · -- One outcome is no two timeouts.
      unfold streak at h
      split at h
      · unfold streak at h
        omega
      · omega
    · by_cases hlast : timedOut (outcomes (k + 1)) = true
      · by_cases hfirst : timedOut (outcomes k) = true
        · exact ⟨k, rfl, hfirst, hlast⟩
        · rw [streak, if_pos hlast, streak, if_neg hfirst] at h
          omega
      · rw [streak, if_neg hlast] at h
        omega
  · rintro ⟨k, rfl, hfirst, hlast⟩
    rw [streak, if_pos hlast, streak, if_pos hfirst]
    omega

/-- Where a call must stop, by the timeouts before. -/
theorem stopsAt_iff : StopsAt outcomes n ↔
    Conclusive (outcomes n) ∨ timedOut (outcomes n) = true ∧ 2 ≤ streak outcomes n := by
  unfold StopsAt
  rw [two_le_streak]
  constructor
  · rintro (h | ⟨k, rfl, h0, h1, h2⟩)
    · exact .inl h
    · exact .inr ⟨h2, k, rfl, h0, h1⟩
  · rintro (h | ⟨h2, k, rfl, h0, h1⟩)
    · exact .inl h
    · exact .inr ⟨k, rfl, h0, h1, h2⟩

section Step

variable {polled : Polled} {stop : Bool} {timeouts : Nat}

/-- What is not conclusive is asked again, and a timeout only if it is not the
    third in a row. -/
theorem receiveStep_again (h : ¬ Conclusive polled) (hlt : timedOut polled = true → timeouts < 2) :
    receiveStep polled stop timeouts false
      = (.ok .again, if timedOut polled then timeouts + 1 else 0, false) := by
  unfold receiveStep
  rcases polled with (seconds | ⟨code, reason⟩ | detail) | out
  · -- The counter is far from its bound.
    have hlt : timeouts < 2 := hlt rfl
    have hmin : min (timeouts + 1) (2 ^ 32 - 1) = timeouts + 1 := by omega
    have hle : ¬ MAX_CONSECUTIVE_TIMEOUTS ≤ timeouts + 1 := by
      unfold MAX_CONSECUTIVE_TIMEOUTS
      omega
    simp only [classifyReceive, TimeoutStreak.record, hmin, if_neg hle, timedOut, if_true]
  · have hnames : names code "TimedOut" = true := Bool.eq_true_of_not_eq_false h
    simp only [classifyReceive, if_pos hnames]
    rfl
  · exact absurd trivial h
  · have hquiet : out.stdout = [] ∧ out.done = false := by
      by_cases hempty : out.stdout = []
      · exact ⟨hempty, Bool.eq_false_iff.mpr fun hdone => h (.inr hdone)⟩
      · exact absurd (.inl hempty) h
    simp only [classifyReceive, hquiet.1, hquiet.2, Bool.or_false, and_self, if_true]
    rfl

/-- The result of a turn, once it is none to ask again. -/
def resultOf (stop : Bool) : Polled → Except PsrpError Step
  | .ok out => .ok (.deliver out.stdout)
  | .error e => .error (if stop && saysGone e then .stopped else .winrm e)

theorem receiveStep_stops (h : Conclusive polled ∨ timedOut polled = true ∧ 2 ≤ timeouts) :
    (receiveStep polled stop timeouts false).1 = resultOf stop polled := by
  unfold receiveStep
  rcases polled with (seconds | ⟨code, reason⟩ | detail) | out
  · have hle : 2 ≤ timeouts := h.elim False.elim And.right
    have hlimit : MAX_CONSECUTIVE_TIMEOUTS ≤ min (timeouts + 1) (2 ^ 32 - 1) := by
      unfold MAX_CONSECUTIVE_TIMEOUTS
      omega
    simp only [classifyReceive, TimeoutStreak.record, if_pos hlimit, resultOf, saysGone,
      Bool.and_false, Bool.false_eq_true, if_false]
  · have hnames : names code "TimedOut" = false := by
      rcases h with hnames | ⟨htimed, _⟩
      · exact hnames
      · cases htimed
    simp only [classifyReceive, hnames, Bool.false_eq_true, if_false, resultOf]
    by_cases hgone : (stop && saysGone (.fault code reason)) = true
    · have hcode : (stop && names code "InvalidSelectors") = true := hgone
      simp only [if_pos hcode, if_pos hgone]
    · have hcode : ¬ (stop && names code "InvalidSelectors") = true := hgone
      simp only [if_neg hcode, if_neg hgone]
  · simp only [classifyReceive, resultOf, saysGone, Bool.and_false, Bool.false_eq_true, if_false]
  · have hout : ¬ (out.stdout = [] ∧ out.done = false) := by
      rintro ⟨hempty, hdone⟩
      rcases h with (hne | htrue) | h
      · exact hne hempty
      · exact Bool.false_ne_true (hdone.symm.trans htrue)
      · cases h.1
    simp only [classifyReceive, Bool.false_or, if_neg hout, resultOf]

end Step

end Winrm

namespace WinrmPsrpTransport

open Winrm
open Async (Call Turn play turnsOf)

variable {t u : WinrmPsrpTransport} {outcomes : Nat → Polled} {n : Nat}

/-- One turn of a call. -/
def recvTurn (timeouts : TimeoutStreak) : Prog WinrmPsrpTransport (Turn TimeoutStreak Bytes) := do
  let _ ← openShell
  let polled ← drive
  match ← Async.update (received polled timeouts) with
  | (.again, timeouts) => return .more timeouts
  | (.deliver bytes, _) => return .done bytes

/-- A call that has not stopped yet. -/
structure Midway (t u : WinrmPsrpTransport) : Prop where
  shell : u.shell = t.shell
  stopSignalled : u.stopSignalled = t.stopSignalled
  done : u.done = false

/-- The end of a Receive is all that a turn waits for, and what it does then is
    decided by the outcome. -/
theorem recvTurn_apply {polled : Polled} {timeouts : TimeoutStreak} {turns : Nat}
    {rest : List (Psrp.Wake Answer)} (hopen : t.shell.isSome = true) (hmid : Midway t u) :
    ∃ v, Midway t v ∧ recvTurn timeouts ⟨u, .answer (answerOf polled) :: rest, turns⟩
      = (Async.update (received polled timeouts) >>= fun x => match x with
          | (.again, timeouts) => return .more timeouts
          | (.deliver bytes, _) => return .done bytes) ⟨v, rest, turns⟩ := by
  rcases Option.isSome_iff_exists.mp hopen with ⟨shell, hshell⟩
  refine ⟨u.park.finish polled, ?_, ?_⟩
  · unfold park
    split
    · rename_i r hr
      unfold finish
      rw [hr]
      exact ⟨hmid.shell, hmid.stopSignalled, hmid.done⟩
    · exact ⟨hmid.shell, hmid.stopSignalled, hmid.done⟩
  · have hu : u.shell = some shell := hmid.shell.trans hshell
    have hopened : openShell ⟨u, .answer (answerOf polled) :: rest, turns⟩
        = (.ok shell, ⟨u, .answer (answerOf polled) :: rest, turns⟩) := by
      unfold openShell Async.update
      simp only [hu]
    have hdriven : drive ⟨u, .answer (answerOf polled) :: rest, turns⟩
        = (.ok polled, ⟨u.park.finish polled, rest, turns⟩) := by
      rcases polled with e | out
      · rfl
      · rfl
    unfold recvTurn
    rw [Async.bind_apply, hopened]
    simp only []
    rw [Async.bind_apply, hdriven]

theorem recvTurn_again {polled : Polled} {timeouts timeouts' : TimeoutStreak} {turns : Nat}
    {rest : List (Psrp.Wake Answer)} (hopen : t.shell.isSome = true) (hmid : Midway t u)
    (h : receiveStep polled t.stopSignalled timeouts false = (.ok .again, timeouts', false)) :
    ∃ v, Midway t v ∧ recvTurn timeouts ⟨u, .answer (answerOf polled) :: rest, turns⟩
      = (.ok (.more timeouts'), ⟨v, rest, turns⟩) := by
  rcases @recvTurn_apply t u polled timeouts turns rest hopen hmid with ⟨v, hv, heq⟩
  refine ⟨{ v with done := false }, ⟨hv.shell, hv.stopSignalled, rfl⟩, ?_⟩
  have hreceived : received polled timeouts v
      = (.ok (.again, timeouts'), { v with done := false }) := by
    unfold received
    rw [hv.stopSignalled, hv.done, h]
    rfl
  rw [heq, Async.bind_apply, Async.update, hreceived]
  rfl

/-- What a call ends with that stops at an outcome. -/
def exitOf (stop : Bool) : Polled → Exit PsrpError Bytes
  | .ok out => .ok out.stdout
  | .error e => .err (if stop && saysGone e then .stopped else .winrm e)

theorem turns_stop {polled : Polled} {timeouts : TimeoutStreak} {turns m : Nat}
    {rest : List (Psrp.Wake Answer)} (hopen : t.shell.isSome = true) (hmid : Midway t u)
    (h : (receiveStep polled t.stopSignalled timeouts false).1
      = resultOf t.stopSignalled polled) :
    ∃ v, turnsOf recvTurn (m + 1) timeouts ⟨u, .answer (answerOf polled) :: rest, turns⟩
      = (exitOf t.stopSignalled polled, ⟨v, rest, turns⟩) := by
  rcases @recvTurn_apply t u polled timeouts turns rest hopen hmid with ⟨v, hv, heq⟩
  rcases hstep : receiveStep polled t.stopSignalled timeouts false with ⟨x, timeouts', done⟩
  rw [hstep] at h
  refine ⟨{ v with done }, ?_⟩
  have hreceived : received polled timeouts v
      = ((resultOf t.stopSignalled polled).map fun step => (step, timeouts'),
        { v with done }) := by
    unfold received
    rw [hv.stopSignalled, hv.done, hstep]
    simp only [] at h
    rw [h]
  rw [turnsOf, Async.bind_apply, heq, Async.bind_apply, Async.update, hreceived]
  rcases polled with e | out
  · rfl
  · rfl

/-- The outcomes before the first one to stop at are all asked again, and the
    counter is the timeouts right before. By induction on how many. -/
theorem turns_absorbed {turns : Nat} (hopen : t.shell.isSome = true) :
    ∀ (m n k : Nat) (u : WinrmPsrpTransport) (rest : List (Psrp.Wake Answer)), Midway t u →
      (∀ i < n + m, ¬ StopsAt outcomes i) →
      ∃ v, Midway t v ∧
        turnsOf recvTurn (m + k) (streak outcomes n) ⟨u, arrived outcomes n m ++ rest, turns⟩
          = turnsOf recvTurn k (streak outcomes (n + m)) ⟨v, rest, turns⟩ := by
  intro m
  induction m with
  | zero =>
      intro n k u rest hmid _
      refine ⟨u, hmid, ?_⟩
      rw [Nat.zero_add]
      rfl
  | succ m ih =>
      intro n k u rest hmid hfirst
      have hn : ¬ StopsAt outcomes n := hfirst n (by omega)
      rw [stopsAt_iff] at hn
      have hstep : receiveStep (outcomes n) t.stopSignalled (streak outcomes n) false
          = (.ok .again, streak outcomes (n + 1), false) := by
        refine receiveStep_again (fun h => hn (.inl h)) fun htimeout => ?_
        by_contra hlt
        exact hn (.inr ⟨htimeout, by omega⟩)
      rcases @recvTurn_again t u (outcomes n) _ _ turns (arrived outcomes (n + 1) m ++ rest)
        hopen hmid hstep with ⟨v, hv, heq⟩
      rcases ih (n + 1) k v rest hv (fun i hi => hfirst i (by omega)) with ⟨w, hw, hturns⟩
      refine ⟨w, hw, ?_⟩
      have hscript : arrived outcomes n (m + 1) ++ rest
          = .answer (answerOf (outcomes n)) :: (arrived outcomes (n + 1) m ++ rest) := rfl
      have hsum : n + (m + 1) = n + 1 + m := by omega
      have hmore : m + 1 + k = m + k + 1 := by omega
      rw [hscript, hmore, turnsOf, Async.bind_apply, heq, hsum]
      exact hturns

/-- A call waits for an outcome. -/
theorem recvTurn_waits {timeouts : TimeoutStreak} {turns m : Nat} (hopen : t.shell.isSome = true)
    (hmid : Midway t u) : ∃ v, turnsOf recvTurn (m + 1) timeouts ⟨u, [], turns⟩
      = (.suspended, ⟨v, [], turns⟩) := by
  rcases Option.isSome_iff_exists.mp hopen with ⟨shell, hshell⟩
  have hu : u.shell = some shell := hmid.shell.trans hshell
  have hopened : openShell ⟨u, [], turns⟩ = (.ok shell, ⟨u, [], turns⟩) := by
    unfold openShell Async.update
    simp only [hu]
  refine ⟨u.park, ?_⟩
  rw [turnsOf, Async.bind_apply]
  unfold recvTurn
  rw [Async.bind_apply, hopened]
  rfl

/-- The fields of a transport keep their meaning in every run. -/
theorem tracked_play (shell : Shell) (calls : List (Call Answer Operation)) :
    Tracked (play perform calls (ofShell shell)).2 := by
  refine Async.play_run (fun _ u => Tracked u) (fun _ op u hu => ?_) calls (tracked_ofShell shell)
  by_cases hop : op = .recvChunk
  · intro script turns
    rw [hop, perform_recvChunk]
    exact (wp_recvChunk hu script turns).returned.tracked
  · exact Async.wp_mono (wp_perform hu op hop) fun _ _ hv => hv.tracked

theorem returns_exitOf {accepted : Prop} {stop : Bool} (h : stop = true ↔ accepted)
    (polled : Polled) : Returns accepted (exitOf stop polled) polled := by
  rcases polled with e | out
  · change (_ ↔ accepted ∧ _) ∧ (¬ (accepted ∧ _) → _)
    rw [← h, ← Bool.and_eq_true, exitOf]
    by_cases hgone : (stop && saysGone e) = true
    · rw [if_pos hgone]
      exact ⟨iff_of_true rfl hgone, fun hnot => absurd hgone hnot⟩
    · rw [if_neg hgone]
      refine ⟨iff_of_false (fun heq => ?_) hgone, fun _ => rfl⟩
      cases heq
  · rfl

/-- In every run of a transport, from any state in which the shell is still held
    and no command has ended, and for every sequence of outcomes: as long as
    there is none to stop at, a call to read takes them all and waits for the
    next, and among them are no bytes, no end of a command and no three timeouts
    in a row. At the first one to stop at the call returns: what it returns is
    that outcome, and `Stopped` exactly if the outcome says that the command is
    gone and a stop was accepted for it. What comes in after that outcome is
    left for the next call. -/
theorem recv_chunk_stops (shell : Shell) (calls : List (Call Answer Operation))
    (t : WinrmPsrpTransport) (ht : t = (play perform calls (ofShell shell)).2)
    (hopen : t.shell.isSome = true) (hdone : t.done = false) (outcomes : Nat → Polled) (n : Nat)
    (hfirst : ∀ i < n, ¬ StopsAt outcomes i) (turns : Nat) (hturns : n < turns) :
    ((recvChunk ⟨t, arrived outcomes 0 n, turns⟩).1 = .suspended
        ∧ (recvChunk ⟨t, arrived outcomes 0 n, turns⟩).2.script = [])
      ∧ (∀ i < n, ∀ out, outcomes i = .ok out → out.stdout = [] ∧ out.done = false)
      ∧ (∀ i, i + 2 < n → ¬ (timedOut (outcomes i) = true ∧ timedOut (outcomes (i + 1)) = true
        ∧ timedOut (outcomes (i + 2)) = true))
      ∧ (StopsAt outcomes n → ∀ rest,
        Returns (∃ e ∈ current t.history, e.isSignalled = true)
            (recvChunk ⟨t, arrived outcomes 0 (n + 1) ++ rest, turns⟩).1 (outcomes n)
          ∧ (recvChunk ⟨t, arrived outcomes 0 (n + 1) ++ rest, turns⟩).2.script = rest) := by
  have hmid : Midway t t := ⟨rfl, rfl, hdone⟩
  obtain ⟨m, rfl⟩ : ∃ m, turns = n + (m + 1) := ⟨turns - n - 1, by omega⟩
  have hcall : ∀ script, recvChunk ⟨t, script, n + (m + 1)⟩
      = turnsOf recvTurn (n + (m + 1)) (streak outcomes 0) ⟨t, script, n + (m + 1)⟩ :=
    fun _ => rfl
  -- None of the first outcomes stops the loop: it is where they left it.
  have habsorbed : ∀ rest, ∃ v, Midway t v
      ∧ recvChunk ⟨t, arrived outcomes 0 n ++ rest, n + (m + 1)⟩
        = turnsOf recvTurn (m + 1) (streak outcomes n) ⟨v, rest, n + (m + 1)⟩ := by
    intro rest
    rcases @turns_absorbed t outcomes (n + (m + 1)) hopen n 0 (m + 1) t rest hmid
      (fun i hi => hfirst i (by omega)) with ⟨v, hv, heq⟩
    refine ⟨v, hv, ?_⟩
    rw [hcall, heq, Nat.zero_add]
  refine ⟨?_, ?_, ?_, ?_⟩
  · rcases habsorbed [] with ⟨v, hv, heq⟩
    rcases @recvTurn_waits t v (streak outcomes n) (n + (m + 1)) m hopen hv with ⟨w, hw⟩
    rw [List.append_nil, hw] at heq
    rw [heq]
    exact ⟨rfl, rfl⟩
  · intro i hi out hout
    have hquiet : ¬ Conclusive (outcomes i) := fun h => hfirst i hi (.inl h)
    rw [hout] at hquiet
    refine ⟨?_, Bool.eq_false_iff.mpr fun h => hquiet (.inr h)⟩
    by_contra hne
    exact hquiet (.inl hne)
  · rintro i hi ⟨h0, h1, h2⟩
    exact hfirst (i + 2) hi (.inr ⟨i, rfl, h0, h1, h2⟩)
  · intro hstops rest
    -- The next outcome does, and nothing after it is taken.
    have hscript : arrived outcomes 0 (n + 1) ++ rest
        = arrived outcomes 0 n ++ .answer (answerOf (outcomes n)) :: rest := by
      unfold arrived
      rw [List.range'_concat, Nat.one_mul, Nat.zero_add, List.map_append, List.append_assoc]
      rfl
    rcases habsorbed (.answer (answerOf (outcomes n)) :: rest) with ⟨v, hv, heq⟩
    -- The counter and the flag are what the third timeout and the end are told by.
    have hresult := @receiveStep_stops _ t.stopSignalled _ (stopsAt_iff.mp hstops)
    rcases @turns_stop t v _ _ (n + (m + 1)) m rest hopen hv hresult with ⟨w, hw⟩
    rw [hscript, heq, hw]
    refine ⟨returns_exitOf ?_ _, rfl⟩
    have htracked : Tracked t := ht ▸ tracked_play shell calls
    rw [htracked.stopped, List.any_eq_true]

/-- A quiet server, a timeout, and then some bytes. -/
def lateBytes : Nat → Polled
  | 0 => .ok ⟨[], false⟩
  | 1 => .error (.timeout 60)
  | _ => .ok ⟨[1], false⟩

/-- The third outcome is returned, and the fourth is not read. -/
theorem recv_chunk_stops_late :
    (recvChunk ⟨ofShell ⟨['S']⟩, arrived lateBytes 0 3 ++ arrived lateBytes 3 1, 3⟩).1 = .ok [1]
      ∧ (recvChunk ⟨ofShell ⟨['S']⟩, arrived lateBytes 0 3 ++ arrived lateBytes 3 1, 3⟩).2.script
        = arrived lateBytes 3 1 := by
  have hquiet : ∀ i < 2, ¬ StopsAt lateBytes i := by
    intro i hi
    rw [stopsAt_iff]
    rintro (h | ⟨-, h⟩)
    · interval_cases i
      · exact h.elim (fun h => h rfl) Bool.false_ne_true
      · exact h
    · rcases two_le_streak.mp h with ⟨k, hk, -⟩
      omega
  have hstops : StopsAt lateBytes 2 := .inl (.inl (List.cons_ne_nil 1 []))
  have hread := (recv_chunk_stops ⟨['S']⟩ [] (ofShell ⟨['S']⟩) rfl rfl rfl lateBytes 2 hquiet 3
    (Nat.lt_succ_self 2)).2.2.2 hstops (arrived lateBytes 3 1)
  have hbytes : lateBytes 2 = .ok ⟨[1], false⟩ := rfl
  have hthree : 2 + 1 = 3 := rfl
  rw [hbytes, hthree, Returns] at hread
  exact hread

end WinrmPsrpTransport

end Psrp

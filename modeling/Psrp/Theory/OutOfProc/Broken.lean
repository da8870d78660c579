import Psrp.Lib.Moments
import Psrp.Theory.OutOfProc.Codec
import Psrp.Theory.OutOfProc.Inbound
import Psrp.Theory.OutOfProc.Payload

/-!
# Broken Sessions

What breaks a session, and that nothing mends it.

An operation is cut open at any of its waits: the session it left there, the
wake that ended the wait, and the session at the end of the operation (`Minds`).
A session broken at the moment stays so and writes nothing; an alarm of a
request, an error of the pipe and a chunk with something bad in it break it,
whatever the operation still does; and an alarm from outside leaves it as it
was, which is what it means to be dropped there.

Being dropped breaks nothing by itself. It leaves one of two marks, and the
next operation that needs the pipe breaks on it (`refused`).

## Main definitions

* `Sticks`: What being broken keeps.
* `Minds`: What a wake does to a session.
* `Spoils`: Chunks that break a session.
* `Needs`: Operations that need the pipe.

## Theorems

* `minds_perform`: What every wake does in every operation.
* `broken_for_good`: In every run, what breaks a session, and that it stays so.
-/

namespace Psrp

namespace OutOfProc

open OutOfProcSession
open Async (Call Causal Heeds Takes Turn Woke andThen play wp wp_and wp_bind wp_mono)

variable {p : PacketPlatform} {s t u m : OutOfProcSession}

/-- A broken session stays broken for the same reason, and writes nothing. -/
def Sticks (s t : OutOfProcSession) : Prop :=
  ∀ reason, s.broken = some reason → t.broken = some reason
    ∧ t.history.filter PipeEvent.isWrite = s.history.filter PipeEvent.isWrite

/-- What a wake, taken at a moment of a program with so many guards of its own,
    makes of the session by the time the program ends. -/
structure Minds {α : Type} (p : PacketPlatform) (guards : Nat) (m : OutOfProcSession)
    (wake : Wake Answer) (x : Exit PsrpError α) (t : OutOfProcSession) : Prop where
  sticks : Sticks m t
  expired : ∀ n, wake = .alarm n → n < guards → t.broken ≠ none
  dropped : ∀ n, wake = .alarm n → guards ≤ n → x = .cut (n - guards) ∧ t = m
  pipe : ∀ e, wake = .answer (.failed e) → t.broken ≠ none
  chunk : ∀ c, wake = .answer (.chunk c) → (m.received p (.ok c)).2.broken ≠ none →
    t.broken ≠ none
  write : wake = .answer .done → m.writeInProgress = true

theorem Sticks.refl (s : OutOfProcSession) : Sticks s s := fun _ h => ⟨h, rfl⟩

theorem Sticks.trans (h : Sticks s t) (h' : Sticks t u) : Sticks s u := by
  intro reason hs
  rcases h reason hs with ⟨ht, hst⟩
  rcases h' reason ht with ⟨hu, htu⟩
  exact ⟨hu, htu.trans hst⟩

theorem Sticks.broken (h : Sticks s t) (hs : s.broken ≠ none) : t.broken ≠ none := by
  rcases Option.ne_none_iff_exists'.mp hs with ⟨reason, hreason⟩
  rw [(h reason hreason).1]
  exact Option.some_ne_none _

/-- Nothing is asked of a session that is not broken. -/
theorem Sticks.of_none (h : s.broken = none) : Sticks s t := by
  intro reason hs
  rw [h] at hs
  cases hs

theorem sticks_keeps (h : Keeps s t) : Sticks s t :=
  fun reason hs => ⟨h.broken reason hs, h.written⟩

theorem sticks_moves (h : Moves p s t) : Sticks s t := by
  refine h.preserves (I := fun t => Sticks s t) (fun _ _ hq ht => ht.trans (sticks_keeps hq.keeps))
    ?_ ?_ ?_ ?_ (.refl s)
  · exact fun packet sent u hu _ hs => hs.trans (.of_none hu.1)
  · exact fun packet sent u hu _ hs => hs.trans (.of_none hu.1)
  · exact fun packet sent e u hu _ hs => hs.trans (.of_none hu.1)
  · exact fun b u hs => hs.trans fun reason hr => ⟨hr, rfl⟩

theorem wp_perform_sticks (op : Operation) : wp (perform p op) (fun _ t => Sticks s t) s :=
  wp_perform_preserves (I := fun t => Sticks s t) (fun _ _ hm ht => ht.trans (sticks_moves hm))
    (fun _ ht => ht.trans fun _ hr => ⟨hr, rfl⟩) (.refl s) op

section Causal

theorem causal_pump : Causal (pump p) :=
  Async.causal_bind (Async.causal_update _) fun _ =>
    Async.causal_bind (Async.causal_await _) fun _ => Async.causal_update _

theorem causal_settle : Causal (settle p) := by
  refine Async.causal_loop (fun _ => Async.causal_bind Async.causal_get fun s => ?_) _
  split
  · exact Async.causal_bind causal_pump fun _ => Async.causal_pure _
  · exact Async.causal_pure _

theorem causal_write (packet : Packet) : Causal (write packet) := by
  refine Async.causal_bind (Async.causal_modify _) fun _ => Async.causal_loop (fun rest => ?_) _
  refine Async.causal_bind (Async.causal_await _) fun answer => ?_
  split
  · exact Async.causal_bind (Async.causal_modify _) fun _ => Async.causal_pure _
  · exact Async.causal_bind (Async.causal_modify _) fun _ => Async.causal_pure _
  · exact Async.causal_pure _

theorem causal_raise {α : Type} (f : OutOfProcSession → PsrpError × OutOfProcSession) :
    Causal (raise f : Prog _ α) := Async.causal_update _

theorem causal_within {fallback : Packet} {q : Prog OutOfProcSession Unit} (h : Causal q) :
    Causal (within p fallback q) := by
  refine Async.causal_bind (Async.causal_guarded h) fun r => ?_
  split
  · exact Async.causal_pure _
  · exact causal_raise _

theorem causal_exchange (packet ack : Packet) : Causal (exchange p packet ack) := by
  refine Async.causal_bind causal_settle fun _ => Async.causal_bind (Async.causal_modify _)
    fun _ => Async.causal_bind (causal_write packet) fun r =>
      Async.causal_bind (Async.causal_modify _) fun _ => ?_
  split
  · exact causal_raise _
  · exact causal_settle

theorem causal_request (packet ack : Packet) : Causal (request p packet ack) :=
  Async.causal_bind (Async.causal_update _) fun _ => causal_within (causal_exchange packet ack)

theorem causal_settleBounded : Causal (settleBounded p) := by
  refine Async.causal_bind Async.causal_get fun s => ?_
  split
  · exact Async.causal_pure _
  · exact causal_within causal_settle

theorem causal_closeOpen (opened : Option Uuid) : Causal (closeOpen p opened) := by
  unfold closeOpen
  split
  · exact causal_request _ _
  · exact Async.causal_pure _

theorem causal_switchTo (guid : Uuid) : Causal (switchTo p guid) := by
  refine Async.causal_bind causal_settleBounded fun _ => Async.causal_bind Async.causal_get
    fun s => Async.causal_ite ?_ (Async.causal_pure _)
  exact Async.causal_bind (causal_closeOpen _) fun _ => causal_request _ _

theorem causal_sendChunks (guid : Uuid) (chunks : List Bytes) :
    Causal (sendChunks p guid chunks) := by
  induction chunks with
  | nil => exact Async.causal_pure _
  | cons chunk chunks ih => exact Async.causal_bind (causal_request _ _) fun _ => ih

end Causal

section Minds

variable {α β γ : Type} {guards : Nat} {wake : Wake Answer}

/-- Only the numbers of alarms matter to how a program ends. -/
theorem Minds.exit {x : Exit PsrpError α} {y : Exit PsrpError β} (h : Minds p guards m wake x t)
    (hxy : ∀ n, x = .cut n → y = .cut n) : Minds p guards m wake y t :=
  ⟨h.sticks, h.expired, fun n hn hle => ⟨hxy _ (h.dropped n hn hle).1, (h.dropped n hn hle).2⟩,
    h.pipe, h.chunk, h.write⟩

/-- What follows a value keeps what the wake did. -/
theorem Minds.after {a : α} {y : Exit PsrpError β} (h : Minds p guards m wake (.ok a) t)
    (hs : Sticks t u) : Minds p guards m wake y u := by
  refine ⟨h.sticks.trans hs, fun n hn hlt => hs.broken (h.expired n hn hlt), ?_,
    fun e he => hs.broken (h.pipe e he), fun c hc hm => hs.broken (h.chunk c hc hm), h.write⟩
  intro n hn hle
  have hcut := (h.dropped n hn hle).1
  cases hcut

/-- An alarm from outside leaves the session as it was. -/
theorem minds_dropped (m : OutOfProcSession) (n : Nat) :
    Minds p 0 m (.alarm n) (.cut n : Exit PsrpError α) m where
  sticks := .refl m
  expired k _ hlt := absurd hlt (Nat.not_lt_zero k)
  dropped k hk _ := by
    cases hk
    exact ⟨rfl, rfl⟩
  pipe e he := by cases he
  chunk c hc := by cases hc
  write hd := by cases hd

/-- What every wake does in a program, and what the program does besides. -/
structure Mindful (p : PacketPlatform) (guards : Nat) (q : Prog OutOfProcSession α)
    (s : OutOfProcSession) : Prop where
  heeds : Heeds (Minds p guards) q s
  sticks : wp q (fun _ t => Sticks s t) s

theorem mindful_pure (a : α) : Mindful p guards (pure a : Prog _ α) s :=
  ⟨Async.heeds_pure a, Async.wp_pure (.refl s)⟩

theorem mindful_throw (e : PsrpError) : Mindful p guards (Async.throw e : Prog _ α) s :=
  ⟨Async.heeds_throw e, Async.wp_throw (.refl s)⟩

/-- Sequences: what follows is mindful from wherever it starts. -/
theorem mindful_bind {q : Prog OutOfProcSession α} {f : α → Prog OutOfProcSession β}
    (hc : Causal q) (hq : Mindful p guards q s)
    (hf : wp q (fun x u => ∀ a, x = .ok a → Mindful p guards (f a) u) s) :
    Mindful p guards (q >>= f) s := by
  constructor
  · refine Async.heeds_bind hc hq.heeds (wp_mono hf fun x u hu => ⟨?_, fun m wake hm => ?_⟩)
    · exact fun a hx => (hu a hx).heeds
    · cases x with
      | ok a => exact wp_mono (hu a rfl).sticks fun y t ht => hm.after ht
      | err e => exact hm.exit fun n hn => by cases hn
      | cut k =>
          refine hm.exit fun n hn => ?_
          cases hn
          rfl
      | suspended => exact hm.exit fun n hn => by cases hn
  · refine wp_bind (wp_mono (wp_and hq.sticks hf) fun x u hu => ?_)
    cases x with
    | ok a => exact wp_mono (hu.2 a rfl).sticks fun _ t ht => hu.1.trans ht
    | err e => exact hu.1
    | cut n => exact hu.1
    | suspended => exact hu.1

/-- The same when what follows is mindful from everywhere. -/
theorem mindful_seq {q : Prog OutOfProcSession α} {f : α → Prog OutOfProcSession β}
    (hc : Causal q) (hq : Mindful p guards q s) (hf : ∀ a u, Mindful p guards (f a) u) :
    Mindful p guards (q >>= f) s :=
  mindful_bind hc hq fun _ _ a _ => hf a _

theorem mindful_get {f : OutOfProcSession → Prog OutOfProcSession α}
    (h : Mindful p guards (f s) s) : Mindful p guards (Async.get >>= f) s :=
  ⟨Async.heeds_getThen h.heeds, Async.wp_getThen h.sticks⟩

theorem mindful_update {g : OutOfProcSession → Except PsrpError α × OutOfProcSession}
    {f : α → Prog OutOfProcSession β} (hg : Sticks s (g s).2)
    (h : ∀ a t, g s = (.ok a, t) → Mindful p guards (f a) t) :
    Mindful p guards (Async.update g >>= f) s := by
  constructor
  · exact Async.heeds_updateThen fun a t hgs => (h a t hgs).heeds
  · refine wp_bind (Async.wp_update ?_ ?_)
    · intro a t hgs
      rw [hgs] at hg
      exact wp_mono (h a t hgs).sticks fun _ _ ht => hg.trans ht
    · intro e t hgs
      rw [hgs] at hg
      exact hg

/-- An attempt is as mindful as what it tries. -/
theorem mindful_attempt {q : Prog OutOfProcSession α} (h : Mindful p guards q s) :
    Mindful p guards (Async.attempt q) s := by
  constructor
  · refine Async.heeds_attempt (Async.heeds_mono h.heeds fun m wake x t hm => hm.exit ?_)
    intro n hn
    rw [hn]
    rfl
  · refine Async.wp_attempt (wp_mono h.sticks fun x t ht => ?_)
    cases x <;> exact ht

/-- A loop of mindful turns is mindful. -/
theorem mindful_loop {body : β → Prog OutOfProcSession (Turn β γ)} (hc : ∀ b, Causal (body b))
    (h : ∀ b t, Mindful p guards (body b) t) (b : β) : Mindful p guards (Async.loop body b) s := by
  have hturns : ∀ {u : OutOfProcSession} n b, wp (Async.turnsOf body n b) (fun _ t => Sticks u t) u := by
    intro u n b
    refine Async.wp_turnsOf (fun _ t => Sticks u t) n (.refl u) (fun _ _ ht => ht) ?_
    intro b t ht
    refine wp_mono (h b t).sticks fun x v hv => ?_
    cases x with
    | ok turn => cases turn <;> exact ht.trans hv
    | err e => exact ht.trans hv
    | cut n => exact ht.trans hv
    | suspended => exact ht.trans hv
  constructor
  · refine Async.heeds_loop (fun _ _ => True) hc trivial fun b t _ =>
      ⟨(h b t).heeds, fun script turns => ⟨fun _ _ => trivial, ?_⟩⟩
    intro m wake hm
    generalize body b ⟨t, script, turns⟩ = r at hm
    rcases r with ⟨x, u⟩
    cases x with
    | ok turn =>
        cases turn with
        | more b' => exact fun n => wp_mono (hturns n b') fun _ _ hv => hm.after hv
        | done c => exact hm.exit fun n hn => by cases hn
    | err e => exact hm.exit fun n hn => by cases hn
    | cut k =>
        refine hm.exit fun n hn => ?_
        cases hn
        rfl
    | suspended => exact hm.exit fun n hn => by cases hn
  · exact fun script turns => hturns turns b script turns

end Minds

section Operations

/-- A chunk is processed where it is read. -/
theorem mindful_pump : Mindful p 0 (pump p) s := by
  have hsticks : wp (pump p) (fun _ t => Sticks s t) s := by
    refine wp_mono (wp_pump (p := p)) fun x t hx => ?_
    cases x with
    | ok _ => exact sticks_keeps hx.1.keeps
    | err e => exact sticks_keeps hx.1.keeps
    | cut n => exact sticks_keeps (Quiet.keeps hx)
    | suspended => exact sticks_keeps (Quiet.keeps hx)
  -- A session that is broken does not come to wait.
  refine ⟨Async.heeds_updateThen fun _ t ht => ?_, hsticks⟩
  rcases usable_cases p s with ⟨h, hs⟩ | ⟨e, _, h, _⟩
  swap
  · rw [h] at ht
    cases ht
  rw [h] at ht
  cases ht
  refine Async.heeds_bind (Async.causal_await _) Async.heeds_await (Async.wp_await ?_ ?_ ?_)
  · intro answer read hread
    refine ⟨fun _ _ => Async.heeds_update _, ?_⟩
    rintro m wake ⟨rfl, _, ⟨n, _, hcut⟩ | ⟨answer', read', hread', rfl, hok⟩⟩
    · cases hcut
    cases hok
    -- The wait is over: what was read is processed, and an error of the pipe breaks the
    -- session.
    have hreceived : ∀ x : Exit PsrpError Unit, Minds p 0 m (.answer answer') x
        (m.received p read).2 := by
      intro x
      refine ⟨.of_none hs.1, fun n hn => (by cases hn), fun n hn => (by cases hn), ?_, ?_, ?_⟩
      · intro e he
        cases he
        cases hread'
        exact fail_broken e m
      · intro c hc hm
        cases hc
        cases hread'
        exact hm
      · intro hdone
        cases hdone
        cases hread'
    refine Async.wp_update ?_ ?_
    · intro a t ht
      have hminds := hreceived (.ok a)
      rw [ht] at hminds
      exact hminds
    · intro e t ht
      have hminds := hreceived (.err e)
      rw [ht] at hminds
      exact hminds
  · -- The wait was cut: the session is as it was.
    intro k
    refine ⟨fun a ha => (by cases ha), ?_⟩
    rintro m wake ⟨rfl, _, ⟨n, rfl, hcut⟩ | ⟨_, _, _, _, hok⟩⟩
    · cases hcut
      exact minds_dropped m _
    · cases hok
  · refine ⟨fun a ha => (by cases ha), ?_⟩
    rintro m wake ⟨rfl, _, ⟨n, rfl, hcut⟩ | ⟨_, _, _, _, hok⟩⟩
    · cases hcut
    · cases hok

theorem mindful_settle : Mindful p 0 (settle p) s := by
  refine mindful_loop (fun _ => Async.causal_bind Async.causal_get fun s => ?_)
    (fun _ t => mindful_get ?_) _
  · split
    · exact Async.causal_bind causal_pump fun _ => Async.causal_pure _
    · exact Async.causal_pure _
  · split
    · exact mindful_seq causal_pump mindful_pump fun _ _ => mindful_pure _
    · exact mindful_pure _

/-- What a wake does to a line that is being written. An error of the pipe
    only ends the write; what breaks the session is the request. -/
structure Writes {α : Type} (failed : α → Prop) (m : OutOfProcSession) (wake : Wake Answer)
    (x : Exit PsrpError α) (t : OutOfProcSession) : Prop where
  broken : m.broken = none
  writing : m.writeInProgress = true
  dropped : ∀ n, wake = .alarm n → x = .cut n ∧ t = m
  pipe : ∀ e, wake = .answer (.failed e) → ∃ a, x = .ok a ∧ failed a
  chunk : ∀ c, wake ≠ .answer (.chunk c)

theorem Writes.exit {α β : Type} {failed : α → Prop} {failed' : β → Prop} {wake : Wake Answer}
    {x : Exit PsrpError α} {y : Exit PsrpError β} (h : Writes failed m wake x t)
    (hcut : ∀ n, x = .cut n → y = .cut n)
    (hfailed : ∀ a, x = .ok a → failed a → ∃ b, y = .ok b ∧ failed' b) :
    Writes failed' m wake y t := by
  refine ⟨h.broken, h.writing, fun n hn => ?_, fun e he => ?_, h.chunk⟩
  · exact ⟨hcut n (h.dropped n hn).1, (h.dropped n hn).2⟩
  · rcases h.pipe e he with ⟨a, ha, hbad⟩
    exact hfailed a ha hbad

/-- A write that goes on was neither dropped nor failed. -/
theorem Writes.after {α β : Type} {failed : α → Prop} {failed' : β → Prop} {wake : Wake Answer}
    {a : α} {y : Exit PsrpError β} (h : Writes failed m wake (.ok a) t) (ha : ¬ failed a) :
    Writes failed' m wake y u := by
  refine ⟨h.broken, h.writing, fun n hn => ?_, fun e he => ?_, h.chunk⟩
  · have hcut := (h.dropped n hn).1
    cases hcut
  · rcases h.pipe e he with ⟨b, hb, hfailed⟩
    cases hb
    exact absurd hfailed ha

/-- The turns of a write, of which one is a failure. -/
def failedTurn (turn : Turn Bytes (Except PsrpError Unit)) : Prop := ∃ e, turn = .done (.error e)

def failedWrite (r : Except PsrpError Unit) : Prop := ∃ e, r = .error e

/-- An answer to a write is no chunk, and a failure is passed on. -/
theorem writes_answer {α : Type} {failed : α → Prop} {a : α} {answer : Answer}
    {progress : Except PsrpError (Option Nat)} (hread : writeAnswer answer = some progress)
    (hb : s.broken = none) (hw : s.writeInProgress = true)
    (ha : (∃ e, progress = .error e) → failed a) :
    Writes failed s (.answer answer) (.ok a : Exit PsrpError α) t := by
  refine ⟨hb, hw, fun n hn => (by cases hn), fun e he => ?_, fun c hc => ?_⟩
  · cases he
    cases hread
    exact ⟨a, rfl, ha ⟨e, rfl⟩⟩
  · cases hc
    cases hread

/-- What goes through is no failure. -/
theorem not_failed {α : Type} {a : α} {P : Prop} (h : ∃ e, (.ok a : Except PsrpError α) = .error e) :
    P := by
  rcases h with ⟨e, he⟩
  cases he

theorem heeds_write (packet : Packet) (hb : s.broken = none) (hw : s.writeInProgress = true) :
    Heeds (Writes failedWrite) (write packet) s := by
  refine Async.heeds_modifyThen (Async.heeds_loop (T := Writes failedTurn)
    (fun _ t => t.broken = none ∧ t.writeInProgress = true) ?_ ⟨hb, hw⟩ ?_)
  · -- Each turn waits once, and notes what was taken.
    intro rest
    refine Async.causal_bind (Async.causal_await _) fun answer => ?_
    split
    · exact Async.causal_bind (Async.causal_modify _) fun _ => Async.causal_pure _
    · exact Async.causal_bind (Async.causal_modify _) fun _ => Async.causal_pure _
    · exact Async.causal_pure _
  · rintro rest t ⟨htb, htw⟩
    -- What a turn leads to, and what the turns after it make of that.
    constructor
    · refine Async.heeds_bind (Async.causal_await _) Async.heeds_await (Async.wp_await ?_ ?_ ?_)
      · intro _ progress _
        refine ⟨fun r hr => ?_, ?_⟩
        · split
          · exact Async.heeds_modifyThen (Async.heeds_pure _)
          · exact Async.heeds_modifyThen (Async.heeds_pure _)
          · exact Async.heeds_pure _
        · rintro m wake ⟨rfl, _, ⟨n, _, hcut⟩ | ⟨answer, progress', hread, rfl, hok⟩⟩
          · cases hcut
          cases hok
          simp only [andThen]
          split
          · exact Async.wp_modifyThen (Async.wp_pure
              (writes_answer hread htb htw not_failed))
          · exact Async.wp_modifyThen (Async.wp_pure
              (writes_answer hread htb htw not_failed))
          · exact Async.wp_pure (writes_answer hread htb htw fun _ => ⟨_, rfl⟩)
      · -- A drop in the middle of a line leaves the flag that says so.
        intro k
        refine ⟨fun a ha => (by cases ha), ?_⟩
        rintro m wake ⟨rfl, _, ⟨n, rfl, hcut⟩ | ⟨_, _, _, _, hok⟩⟩
        · cases hcut
          refine ⟨htb, htw, fun n hn => ?_, fun e he => (by cases he), fun c hc => by cases hc⟩
          cases hn
          exact ⟨rfl, rfl⟩
        · cases hok
      · refine ⟨fun a ha => (by cases ha), ?_⟩
        rintro m wake ⟨_, _, ⟨_, _, hcut⟩ | ⟨_, _, _, _, hok⟩⟩
        · cases hcut
        · cases hok
    · -- An exit of a turn is one of the loop.
      have hsame : ∀ {x : Exit PsrpError (Turn Bytes (Except PsrpError Unit))}
          {y : Exit PsrpError (Except PsrpError Unit)} {u m : OutOfProcSession} {wake : Wake Answer},
          (∀ n, x = .cut n → y = .cut n) → (∀ a, x ≠ .ok a) → Writes failedTurn m wake x u →
          Writes failedWrite m wake y u := fun hcut hok hm =>
        hm.exit hcut fun a ha _ => absurd ha (hok a)
      refine wp_bind (Async.wp_await ?_ ?_ ?_)
      · intro _ progress _
        rw [andThen]
        cases progress with
        | error e =>
            refine Async.wp_pure ?_
            constructor
            · exact fun _ hmore => by cases hmore
            · intro m wake hm
              exact hm.exit (fun n hn => by cases hn) fun _ _ _ => ⟨_, rfl, e, rfl⟩
        | ok progress =>
            cases progress with
            | none =>
                refine Async.wp_modifyThen (Async.wp_pure ?_)
                constructor
                · exact fun _ hmore => by cases hmore
                · intro m wake hm
                  refine hm.after fun hfailed => ?_
                  rcases hfailed with ⟨e, he⟩
                  cases he
            -- Some bytes are left: the next turn starts as this one did.
            | some n =>
                refine Async.wp_modifyThen (Async.wp_pure ?_)
                constructor
                · exact fun _ _ => ⟨htb, htw⟩
                · intro m wake hm k script turns
                  refine hm.after fun hfailed => ?_
                  rcases hfailed with ⟨e, he⟩
                  cases he
      · exact fun k => ⟨fun b' hb' => (by cases hb'), fun m wake hm =>
          hsame (fun n hn => (by cases hn; rfl)) (fun a ha => by cases ha) hm⟩
      · exact ⟨fun b' hb' => (by cases hb'), fun m wake hm =>
          hsame (fun n hn => by cases hn) (fun a ha => by cases ha) hm⟩

/-- What a write did, the request it belongs to makes good: an error of the
    pipe breaks the session. -/
theorem Writes.minds {wake : Wake Answer} {x : Exit PsrpError (Except PsrpError Unit)}
    {y : Exit PsrpError Unit} (h : Writes failedWrite m wake x t)
    (hcut : ∀ n, x = .cut n → y = .cut n ∧ u = t)
    (hfailed : ∀ e, x = .ok (.error e) → u.broken ≠ none) : Minds p 0 m wake y u := by
  refine ⟨.of_none h.broken, fun n _ hlt => absurd hlt (Nat.not_lt_zero n), fun n hn _ => ?_,
    fun e he => ?_, fun c hc => absurd hc (h.chunk c), fun _ => h.writing⟩
  · rcases h.dropped n hn with ⟨hx, rfl⟩
    exact hcut n hx
  · rcases h.pipe e he with ⟨r, hx, e', rfl⟩
    exact hfailed e' hx

/-- A request listens, writes and listens again. -/
theorem mindful_exchange (packet ack : Packet) (hs : s.Usable) :
    Mindful p 0 (exchange p packet ack) s := by
  refine ⟨?_, fun script turns => .of_none hs.1⟩
  -- First the acknowledgement is awaited that is due; only then is there something to write.
  refine Async.heeds_bind causal_settle mindful_settle.heeds (wp_mono (wp_settle (p := p)) ?_)
  intro x u hu
  cases x with
  | err e => exact ⟨fun a ha => (by cases ha), fun m wake hm => hm.exit fun n hn => by cases hn⟩
  | suspended => exact ⟨fun a ha => (by cases ha), fun m wake hm => hm.exit fun n hn => by cases hn⟩
  | cut k =>
      refine ⟨fun a ha => (by cases ha), fun m wake hm => hm.exit fun n hn => ?_⟩
      cases hn
      rfl
  | ok a =>
      have husable : u.Usable := hu.2.2.1 hs
      refine ⟨fun _ _ => ?_, fun m wake hm => ?_⟩
      · -- The line is written while the session is not broken.
        refine Async.heeds_modifyThen (Async.heeds_bind (causal_write packet)
          (heeds_write packet husable.1 rfl) fun script turns => ⟨fun r _ => ?_, fun m wake hm => ?_⟩)
        · refine Async.heeds_modifyThen ?_
          cases r with
          | error e => exact Async.heeds_update _
          | ok _ => exact mindful_settle.heeds
        · -- However the write ended, the flag is down again unless it was dropped.
          generalize write packet _ = r at hm
          rcases r with ⟨x, v⟩
          cases x with
          | ok r =>
              refine Async.wp_modifyThen ?_
              cases r with
              | error e =>
                  refine Async.wp_update (fun a t ht => by cases ht) fun e' t ht => ?_
                  cases ht
                  exact hm.minds (fun n hn => by cases hn) fun _ _ => fail_broken e _
              | ok _ =>
                  exact fun script turns => hm.minds (fun n hn => by cases hn) fun e he => by cases he
          | err e => exact hm.minds (fun n hn => by cases hn) fun e he => by cases he
          | cut k =>
              refine hm.minds (fun n hn => ?_) fun e he => by cases he
              cases hn
              exact ⟨rfl, rfl⟩
          | suspended => exact hm.minds (fun n hn => by cases hn) fun e he => by cases he
      · -- A drop before the write leaves the session usable.
        exact fun script turns => hm.after (.of_none husable.1)

/-- A time limit takes the innermost alarm for itself, which breaks the
    session. The others pass. -/
theorem heeds_within {fallback : Packet} {q : Prog OutOfProcSession Unit} (hc : Causal q)
    (hq : Heeds (Minds p 0) q s) : Heeds (Minds p 1) (within p fallback q) s := by
  have hfail : ∀ {v : OutOfProcSession}, Sticks v (v.timedOut p fallback).2 :=
    fun {v} => sticks_keeps (keeps_fail _ v)
  refine Async.heeds_bind (Async.causal_guarded hc) (Async.heeds_guarded (R := fun m wake x t =>
    ∃ y : Exit PsrpError Unit, x = y.caught ∧ Minds p 0 m wake y t)
    (Async.heeds_mono hq fun m wake x t hm => ⟨x, rfl, hm⟩)) fun script turns => ⟨?_, ?_⟩
  · intro r _
    cases r with
    | some a => exact Async.heeds_pure _
    | none => exact Async.heeds_update _
  · rintro m wake ⟨y, hx, hm⟩
    rw [hx]
    generalize (Async.guarded q ⟨s, script, turns⟩).2.state = v at hm
    have hpass : ∀ {z : Exit PsrpError Unit}, (∀ n, y = .cut n → 1 ≤ n ∧ z = .cut (n - 1)) →
        Minds p 1 m wake z v := by
      intro z hz
      refine ⟨hm.sticks, fun n hn hlt => ?_, fun n hn hle => ?_, hm.pipe, hm.chunk, hm.write⟩
      · rcases hm.dropped n hn (Nat.zero_le n) with ⟨hy, _⟩
        have hone := (hz _ hy).1
        omega
      · rcases hm.dropped n hn (Nat.zero_le n) with ⟨hy, hv⟩
        exact ⟨(hz _ hy).2, hv⟩
    rcases y with a | e | ⟨_ | k⟩ | _
    · exact Async.wp_pure (hpass fun n hn => by cases hn)
    · exact hpass fun n hn => by cases hn
    · refine Async.wp_update (fun a t ht => by cases ht) fun e t ht => ?_
      cases ht
      refine ⟨hm.sticks.trans hfail, fun _ _ _ => fail_broken _ v, fun n hn hle => ?_,
        fun _ _ => fail_broken _ v, fun _ _ _ => fail_broken _ v, hm.write⟩
      rcases hm.dropped n hn (Nat.zero_le n) with ⟨hy, _⟩
      rw [Exit.cut.injEq] at hy
      omega
    · refine hpass fun n hn => ?_
      cases hn
      exact ⟨Nat.le_add_left 1 k, rfl⟩
    · exact hpass fun n hn => by cases hn

/-- What only moves a session keeps it broken. -/
theorem wp_sticks_moves {α : Type} {q : Prog OutOfProcSession α}
    (h : wp q (Stops (Moves p s) fun _ t => Moves p s t) s) : wp q (fun _ t => Sticks s t) s := by
  refine wp_mono h fun x t hx => ?_
  cases x with
  | ok a => exact sticks_moves hx
  | err e => exact sticks_moves hx.1
  | cut n => exact sticks_moves hx
  | suspended => exact sticks_moves hx

theorem mindful_request (packet : Packet) : Mindful p 1 (request p packet packet.ack) s := by
  refine ⟨Async.heeds_updateThen fun _ t ht => ?_, wp_sticks_moves (wp_moves_request packet)⟩
  rcases usable_cases p s with ⟨h, hs⟩ | ⟨e, _, h, _⟩
  · rw [h] at ht
    cases ht
    exact heeds_within (causal_exchange _ _) (mindful_exchange _ _ hs).heeds
  · rw [h] at ht
    cases ht

theorem mindful_settleBounded : Mindful p 1 (settleBounded p) s := by
  refine ⟨Async.heeds_getThen ?_, wp_sticks_moves wp_moves_settleBounded⟩
  split
  · exact Async.heeds_pure _
  · exact heeds_within causal_settle mindful_settle.heeds

theorem mindful_closeOpen (opened : Option Uuid) : Mindful p 1 (closeOpen p opened) s := by
  unfold closeOpen
  split
  · exact mindful_request _
  · exact mindful_pure _

theorem mindful_switchTo (guid : Uuid) : Mindful p 1 (switchTo p guid) s := by
  refine mindful_seq causal_settleBounded mindful_settleBounded fun _ u => mindful_get ?_
  simp only []
  split
  · exact mindful_seq (causal_closeOpen _) (mindful_closeOpen _) fun _ _ => mindful_request _
  · exact mindful_pure _

theorem mindful_sendChunks (guid : Uuid) (chunks : List Bytes) :
    Mindful p 1 (sendChunks p guid chunks) s := by
  induction chunks generalizing s with
  | nil => exact mindful_pure _
  | cons chunk chunks ih =>
      exact mindful_seq (causal_request _ _) (mindful_request _) fun _ _ => ih

theorem mindful_setPayload (payload : Bool) : Mindful p 1
    (Async.modify (fun s => { s with payloadInProgress := payload }) : Prog _ _) s :=
  ⟨Async.heeds_modify _, Async.wp_modify fun _ hr => ⟨hr, rfl⟩⟩

theorem mindful_sendPayload (guid : Uuid) (payload : Bytes) :
    Mindful p 1 (sendPayload p guid payload) s :=
  mindful_seq (Async.causal_modify _) (mindful_setPayload _) fun _ _ =>
    mindful_seq (causal_sendChunks _ _) (mindful_sendChunks _ _) fun _ _ => mindful_setPayload _

theorem mindful_ready {α : Type} {guards : Nat} {f : Unit → Prog OutOfProcSession α}
    (h : ∀ t, Mindful p guards (f ()) t) : Mindful p guards (Async.update ready >>= f) s := by
  refine mindful_update ?_ fun _ t _ => h t
  rcases ready_cases p s with ⟨hr, _⟩ | ⟨e, t, hr, hq, _⟩
  · rw [hr]
    exact .refl s
  · rw [hr]
    exact sticks_keeps hq.keeps

theorem mindful_send (guid : Uuid) (payload : Bytes) : Mindful p 1 (send p guid payload) s := by
  unfold send
  split
  · exact mindful_pure _
  · refine mindful_ready fun t => ?_
    split
    · exact mindful_seq (causal_switchTo _) (mindful_switchTo _) fun _ _ => mindful_sendPayload _ _
    · exact mindful_sendPayload _ _

theorem causal_send (guid : Uuid) (payload : Bytes) : Causal (send p guid payload) := by
  have hpayload : Causal (sendPayload p guid payload) :=
    Async.causal_bind (Async.causal_modify _) fun _ =>
      Async.causal_bind (causal_sendChunks _ _) fun _ => Async.causal_modify _
  unfold send
  refine Async.causal_ite (Async.causal_pure _) (Async.causal_bind (Async.causal_update _)
    fun _ => ?_)
  split
  · exact Async.causal_bind (causal_switchTo _) fun _ => hpayload
  · exact hpayload

theorem mindful_signal : Mindful p 1 (signal p) s := by
  refine mindful_ready fun t => mindful_seq causal_settleBounded mindful_settleBounded
    fun _ u => mindful_get ?_
  split
  · exact mindful_request _
  · exact mindful_pure _

theorem causal_signal : Causal (signal p) := by
  refine Async.causal_bind (Async.causal_update _) fun _ =>
    Async.causal_bind causal_settleBounded fun _ => Async.causal_bind Async.causal_get fun s => ?_
  split
  · exact causal_request _ _
  · exact Async.causal_pure _

theorem mindful_close : Mindful p 1 (close p) s :=
  mindful_ready fun _ => mindful_seq causal_settleBounded mindful_settleBounded fun _ _ =>
    mindful_get (mindful_seq (causal_closeOpen _) (mindful_closeOpen _) fun _ _ =>
      mindful_request _)

theorem causal_close : Causal (close p) :=
  Async.causal_bind (Async.causal_update _) fun _ =>
    Async.causal_bind causal_settleBounded fun _ => Async.causal_bind Async.causal_get fun _ =>
      Async.causal_bind (causal_closeOpen _) fun _ => causal_request _ _

theorem sticks_dequeue (s : OutOfProcSession) : Sticks s s.dequeue.2 := fun _ hr => ⟨hr, rfl⟩

theorem causal_recv : Causal (recv p) := by
  refine Async.causal_loop (fun _ => Async.causal_bind (Async.causal_update _) fun payload => ?_) _
  cases payload with
  | some payload => exact Async.causal_pure _
  | none =>
      refine Async.causal_bind (Async.causal_update _) fun _ =>
        Async.causal_bind (Async.causal_attempt causal_pump) fun r => ?_
      cases r with
      | ok _ => exact Async.causal_pure _
      | error e =>
          refine Async.causal_bind (Async.causal_update _) fun payload => ?_
          cases payload with
          | some payload => exact Async.causal_pure _
          | none => exact Async.causal_throw _

theorem mindful_recv : Mindful p 0 (recv p) s := by
  refine mindful_loop (fun _ => ?_) (fun _ t => ?_) _
  · refine Async.causal_bind (Async.causal_update _) fun payload => ?_
    cases payload with
    | some payload => exact Async.causal_pure _
    | none =>
        refine Async.causal_bind (Async.causal_update _) fun _ =>
          Async.causal_bind (Async.causal_attempt causal_pump) fun r => ?_
        cases r with
        | ok _ => exact Async.causal_pure _
        | error e =>
            refine Async.causal_bind (Async.causal_update _) fun payload => ?_
            cases payload with
            | some payload => exact Async.causal_pure _
            | none => exact Async.causal_throw _
  · refine mindful_update (sticks_dequeue t) fun payload u _ => ?_
    cases payload with
    | some payload => exact mindful_pure _
    | none =>
        refine mindful_ready fun u => mindful_seq (Async.causal_attempt causal_pump)
          (mindful_attempt mindful_pump) fun r v => ?_
        cases r with
        | ok _ => exact mindful_pure _
        | error e =>
            refine mindful_update (sticks_dequeue v) fun payload w _ => ?_
            cases payload with
            | some payload => exact mindful_pure _
            | none => exact mindful_throw _

/-- The guards an operation has around its waits. `recv` has none: whoever
    limits it in time does so from outside. -/
def guardsOf : Operation → Nat
  | .recv => 0
  | .send _ _ | .signal | .close => 1

/-- What every wake does in every operation. -/
theorem mindful_perform (op : Operation) : Mindful p (guardsOf op) (perform p op) s := by
  cases op with
  | send guid payload =>
      exact mindful_seq (causal_send _ _) (mindful_send _ _) fun _ _ => mindful_pure _
  | recv => exact mindful_seq causal_recv mindful_recv fun _ _ => mindful_pure _
  | signal => exact mindful_seq causal_signal mindful_signal fun _ _ => mindful_pure _
  | close => exact mindful_seq causal_close mindful_close fun _ _ => mindful_pure _

theorem causal_perform (op : Operation) : Causal (perform p op) := by
  cases op with
  | send guid payload => exact Async.causal_bind (causal_send _ _) fun _ => Async.causal_pure _
  | recv => exact Async.causal_bind causal_recv fun _ => Async.causal_pure _
  | signal => exact Async.causal_bind causal_signal fun _ => Async.causal_pure _
  | close => exact Async.causal_bind causal_close fun _ => Async.causal_pure _

end Operations

section Causes

/-- A chunk that a session breaks on: among the lines it completes is one that
    does, after the payloads of those before it were queued, or something ends
    the lines that is none. -/
def Spoils (p : PacketPlatform) (s : OutOfProcSession) (chunk : Bytes) : Prop :=
  (∃ acted line rest, (s.lines.push p chunk).1.1 = acted ++ line :: rest
    ∧ Breaks p s.maxQueuedBytes (s.inbound ++ payloadsOf p acted) line)
  ∨ (s.lines.push p chunk).1.2 ≠ none

/-- Among lines that are all taken none breaks the session. -/
theorem not_breaks_of_taken {lines acted rest : List Text} {line : Text} (h : Booked s)
    (hlines : lines = acted ++ line :: rest) (hok : (onLines p lines s).1 = .ok ()) :
    ¬ Breaks p s.maxQueuedBytes (s.inbound ++ payloadsOf p acted) line := by
  rcases onLines_booked (p := p) lines h with ⟨taken, left, heq, htaken, hin, hbooked,
    ⟨rfl, _⟩ | ⟨⟨e, he⟩, _⟩⟩
  · rw [List.append_nil] at heq
    have hline := htaken line (by rw [← heq, hlines]; exact List.mem_append_right _ (List.mem_cons_self ..))
    rintro (hbad | hbad | ⟨payload, hpayload, hfull⟩)
    · exact hline (Or.inl hbad)
    · exact hline (Or.inr (Or.inl hbad))
    · -- What is queued in the end includes the payload, and it fits.
      have hroom := hbooked.room
      have hmax := (onLines_frame (p := p) lines s).2.2.1
      have hqueued : payloadsOf p taken = payloadsOf p acted ++ payload :: payloadsOf p rest := by
        rw [← heq, hlines, payloadsOf_append, payloadsOf, payloadsOf,
          List.filterMap_cons_some hpayload]
        rfl
      rw [hbooked.cost, hin, hmax, hqueued, ← List.append_assoc, queueCosts_append] at hroom
      have hcost : queueCosts (payload :: payloadsOf p rest)
          = queueCost payload + queueCosts (payloadsOf p rest) := rfl
      omega
  · rw [hok] at he
    cases he

theorem spoils_received {chunk : Bytes} (h : Booked s) (hspoils : Spoils p s chunk) :
    (s.received p (.ok chunk)).2.broken ≠ none := by
  have hchunk := received_chunk (p := p) chunk s
  simp only [] at hchunk
  rcases hchunk with ⟨⟨hok, hnone⟩, _⟩ | ⟨_, e, heq⟩
  · rcases hspoils with ⟨acted, line, rest, hlines, hbreaks⟩ | hsplit
    · have hnoted : Booked { s.note (.chunk chunk) with lines := (s.lines.push p chunk).2 } :=
        ⟨h.cost, h.room, h.nonempty⟩
      have hnot := not_breaks_of_taken
        (s := { s.note (.chunk chunk) with lines := (s.lines.push p chunk).2 }) hnoted hlines hok
      exact absurd hbreaks hnot
    · exact absurd hnone hsplit
  · rw [heq]
    exact fail_broken e _

/-- The books are right in every run. -/
theorem play_booked (p : PacketPlatform) (ackTimeout maxQueuedBytes : Nat)
    (calls : List (Call Answer Operation)) :
    Booked (play (perform p) calls (fresh ackTimeout maxQueuedBytes)).2 :=
  (played_conserved p ackTimeout maxQueuedBytes calls).elim fun _ h => h.booked

end Causes

section Refusal

/-- Whether an operation needs the pipe: all do but an empty send, and a `recv`
    that something is queued for. -/
def Needs (s : OutOfProcSession) (turns : Nat) : Operation → Prop
  | .send _ payload => payload ≠ []
  | .recv => s.dequeue.1 = none ∧ 0 < turns
  | .signal | .close => True

/-- What a silenced session says at the start of an operation. -/
theorem ready_silenced (h : Silenced s) : ∃ reason t, s.ready = (.error (.protocol reason), t)
    ∧ t.broken = some reason ∧ (∀ r, s.broken = some r → reason = r)
    ∧ t.history = s.history := by
  unfold ready usable
  cases hb : s.broken with
  | some reason =>
      refine ⟨reason, s, rfl, hb, fun r hr => ?_, rfl⟩
      cases hr
      rfl
  | none =>
      have hfail : ∀ reason, (s.fail (.protocol reason)).1 = .protocol reason
          ∧ (s.fail (.protocol reason)).2.broken = some reason := by
        intro reason
        simp only [fail, hb, Option.getD_none, and_self]
      by_cases hw : s.writeInProgress = true
      · refine ⟨ABANDONED_WRITE, _, ?_, (hfail _).2, fun r hr => (by cases hr), rfl⟩
        simp only [hw, if_true, failing, (hfail ABANDONED_WRITE).1]
      · have hp : s.payloadInProgress = true := by
          rcases h with h | h | h
          · exact absurd hb h
          · exact absurd h hw
          · exact h
        refine ⟨ABANDONED_PAYLOAD, _, ?_, (hfail _).2, fun r hr => (by cases hr), rfl⟩
        simp only [if_neg hw, hp, if_true, failing, (hfail ABANDONED_PAYLOAD).1]

theorem dequeue_none (h : s.dequeue.1 = none) (hs : Booked s) : s.dequeue = (none, s) := by
  rcases dequeue_cases hs with ⟨_, hd⟩ | ⟨payload, rest, _, hd⟩
  · exact hd
  · rw [hd] at h
    cases h

/-- An operation that needs the pipe fails on a silenced session, which is
    broken then if it was not before. Nothing is written. -/
theorem refused (h : Silenced s) (hs : Booked s) {op : Operation} {turns : Nat}
    (hop : Needs s turns op) (script : List (Wake Answer)) :
    ∃ reason, (perform p op ⟨s, script, turns⟩).1 = .err (.protocol reason)
      ∧ (perform p op ⟨s, script, turns⟩).2.state.broken = some reason
      ∧ (∀ r, s.broken = some r → reason = r)
      ∧ (perform p op ⟨s, script, turns⟩).2.state.history = s.history := by
  rcases ready_silenced h with ⟨reason, t, hready, hbroken, hsame, hhistory⟩
  -- What begins with `ready` ends there.
  have hstart : ∀ {α : Type} {f : Unit → Prog OutOfProcSession α},
      (Async.update ready >>= f) ⟨s, script, turns⟩
        = (.err (.protocol reason), ⟨t, script, turns⟩) := by
    intro α f
    rw [Async.bind_apply]
    simp only [Async.update, hready]
  refine ⟨reason, ?_⟩
  cases op with
  | send guid payload =>
      have hrun : perform p (.send guid payload) ⟨s, script, turns⟩
          = (.err (.protocol reason), ⟨t, script, turns⟩) := by
        rw [perform, Async.bind_apply, send, if_neg hop, hstart]
      rw [hrun]
      exact ⟨rfl, hbroken, hsame, hhistory⟩
  | signal =>
      have hrun : perform p .signal ⟨s, script, turns⟩
          = (.err (.protocol reason), ⟨t, script, turns⟩) := by
        rw [perform, Async.bind_apply, signal, hstart]
      rw [hrun]
      exact ⟨rfl, hbroken, hsame, hhistory⟩
  | close =>
      have hrun : perform p .close ⟨s, script, turns⟩
          = (.err (.protocol reason), ⟨t, script, turns⟩) := by
        rw [perform, Async.bind_apply, close, hstart]
      rw [hrun]
      exact ⟨rfl, hbroken, hsame, hhistory⟩
  -- A receive looks at the queue first, and there is nothing in it.
  | recv =>
      rcases hop with ⟨hempty, hturns⟩
      rcases Nat.exists_eq_add_of_lt hturns with ⟨n, rfl⟩
      have hdequeue := dequeue_none hempty hs
      have hrun : perform p .recv ⟨s, script, 0 + n + 1⟩
          = (.err (.protocol reason), ⟨t, script, 0 + n + 1⟩) := by
        simp only [perform, recv, Async.bind_apply, Async.loop, Async.turnsOf, Async.update,
          hdequeue, hready]
      rw [hrun]
      exact ⟨rfl, hbroken, hsame, hhistory⟩

end Refusal

section Runs

/-- From a session on, whatever is tried: it stays broken for a reason, writes
    nothing, and every operation that needs the pipe fails for that reason. -/
def ForGood (p : PacketPlatform) (s : OutOfProcSession) (reason : String) : Prop :=
  ∀ more : List (Call Answer Operation), let t := (play (perform p) more s).2
    t.broken = some reason ∧ bytesWritten t.history = bytesWritten s.history
      ∧ ∀ op script turns, Needs t turns op →
        (perform p op ⟨t, script, turns⟩).1 = .err (.protocol reason)

/-- A `send` that waits, of a payload that takes several lines, with the
    command of its pipeline open: it has set out on them. -/
def SetOut (p : PacketPlatform) (op : Operation) (s : OutOfProcSession)
    (taken : List (Wake Answer)) (turns : Nat) : Prop :=
  ∃ guid payload, op = .send guid payload ∧ MAX_DATA_PAYLOAD < payload.length
    ∧ (perform p op ⟨s, taken, turns⟩).1 = .suspended
    ∧ (guid ≠ Uuid.nil → (switchTo p guid ⟨s, taken, turns⟩).1 = .ok ())

/-- The mark of a payload in progress stays while its lines are sent. -/
theorem wp_sendChunks_marked (guid : Uuid) (chunks : List Bytes) (h : s.payloadInProgress = true) :
    wp (sendChunks p guid chunks) (fun _ t => t.payloadInProgress = true) s := by
  induction chunks generalizing s with
  | nil => exact Async.wp_pure h
  | cons chunk chunks ih =>
      refine wp_bind (wp_mono (wp_request _ _) fun x t hx => ?_)
      cases x with
      | ok _ => exact ih ((completed_lines hx).1.trans h)
      | err e => exact (stopped_lines hx.1).1.trans h
      | cut n => exact (stopped_lines hx).1.trans h
      | suspended => exact (stopped_lines hx).1.trans h

/-- A payload of several lines that is still being sent is marked. -/
theorem sendPayload_marked {guid : Uuid} {payload : Bytes}
    (hlong : MAX_DATA_PAYLOAD < payload.length) {w : World Answer OutOfProcSession}
    (h : (sendPayload p guid payload w).1 = .suspended) :
    (sendPayload p guid payload w).2.state.payloadInProgress = true := by
  have hwp : wp (sendPayload p guid payload)
      (fun x t => x = .suspended → t.payloadInProgress = true) w.state := by
    refine Async.wp_modifyThen ?_
    refine wp_bind (wp_mono (wp_sendChunks_marked guid _ (decide_eq_true hlong)) fun x t ht => ?_)
    cases x with
    | ok _ =>
        -- The last step clears the mark, and does not wait.
        intro script turns hx
        cases hx
    | err e => exact fun _ => ht
    | cut n => exact fun _ => ht
    | suspended => exact fun _ => ht
  exact Async.wp_apply w hwp h

/-- Where a send has set out, its payload is marked. -/
theorem SetOut.marked {op : Operation} {taken : List (Wake Answer)} {turns : Nat}
    (h : SetOut p op s taken turns) :
    (perform p op ⟨s, taken, turns⟩).2.state.payloadInProgress = true := by
  rcases h with ⟨guid, payload, rfl, hlong, hwaits, hswitch⟩
  have hne : payload ≠ [] := by
    rintro rfl
    exact absurd hlong (Nat.not_lt_zero _)
  have hreturn : ∀ w : World Answer OutOfProcSession,
      let r := (sendPayload p guid payload >>= fun _ => pure none : Prog _ (Option Bytes)) w
      r.1 = .suspended → r.2.state.payloadInProgress = true := by
    intro w r hw
    simp only [r] at hw ⊢
    have hmarked := @sendPayload_marked p guid payload hlong w
    rw [Async.bind_apply] at hw ⊢
    generalize sendPayload p guid payload w = r at hw hmarked
    rcases r with ⟨x, u⟩
    cases x with
    | ok _ => cases hw
    | err e => cases hw
    | cut n => cases hw
    | suspended => exact hmarked rfl
  rcases ready_cases p s with ⟨hready, _⟩ | ⟨e, t, hready, _⟩
  swap
  · simp only [perform, send, if_neg hne, Async.bind_apply, Async.update, hready] at hwaits
    cases hwaits
  simp only [perform, send, if_neg hne, Async.bind_assoc] at hwaits ⊢
  rw [Async.bind_apply] at hwaits ⊢
  simp only [Async.update, hready] at hwaits ⊢
  by_cases hguid : guid = Uuid.nil
  · simp only [hguid, ne_eq, not_true, if_false] at hwaits ⊢
    subst hguid
    exact hreturn _ hwaits
  · simp only [ne_eq, hguid, not_false_eq_true, if_true, Async.bind_assoc] at hwaits ⊢
    have hok := hswitch hguid
    rw [Async.bind_apply] at hwaits ⊢
    generalize switchTo p guid ⟨s, taken, turns⟩ = r at hok hwaits
    rcases r with ⟨x, w⟩
    cases hok
    exact hreturn w hwaits

/-- What has been taken stays taken: the session a longer script leads to
    sticks to the one at the moment. -/
theorem perform_sticks (op : Operation) (taken rest : List (Wake Answer)) (turns : Nat) :
    Sticks (perform p op ⟨s, taken, turns⟩).2.state
      (perform p op ⟨s, taken ++ rest, turns⟩).2.state := by
  cases rest with
  | nil =>
      rw [List.append_nil]
      exact .refl _
  | cons wake rest =>
      rcases (causal_perform (p := p) op).goesOn ⟨s, taken, turns⟩ wake rest with
        hsame | ⟨hwaits, htakes⟩
      · simp only [World.extend] at hsame
        rw [hsame]
        exact .refl _
      · exact ((mindful_perform op).heeds taken wake rest turns ⟨hwaits, htakes⟩).sticks

/-- In every run, at any wait or end of an operation. If the session is broken
    there it stays broken for the same reason: the rest of the operation and
    whatever is tried afterwards write nothing, and every operation that needs
    the pipe fails for that reason. If the operation waits there, then it is
    broken by the end of the operation if what comes next is the end of the
    time for a request, an error of the pipe, or a chunk with a malformed line,
    an error line, a packet only a client may send or one payload too many;
    but an alarm from outside, which drops the operation, leaves it as it was.
    If the operation is dropped there in the middle of a line, or of a payload
    that takes several lines and has been set out on, the next operation that
    needs the pipe breaks the session and fails for that reason, and nothing is
    written any more. -/
theorem broken_for_good (p : PacketPlatform) (ackTimeout maxQueuedBytes : Nat)
    (calls : List (Call Answer Operation)) (op : Operation) (taken : List (Wake Answer))
    (turns : Nat) :
    let s := (play (perform p) calls (fresh ackTimeout maxQueuedBytes)).2
    let run := fun script => perform p op ⟨s, script, turns⟩
    let m := (run taken).2.state
    (∀ reason, m.broken = some reason → ForGood p m reason
      ∧ ∀ rest, (run (taken ++ rest)).2.state.broken = some reason
        ∧ bytesWritten (run (taken ++ rest)).2.state.history = bytesWritten m.history)
    ∧ (∀ wake rest, Takes (perform p op) s taken wake rest turns →
      let t := (run (taken ++ wake :: rest)).2.state
      (wake = .alarm 0 → op ≠ .recv → t.broken ≠ none)
      ∧ (∀ e, wake = .answer (.failed e) → t.broken ≠ none)
      ∧ (∀ chunk, wake = .answer (.chunk chunk) → Spoils p m chunk → t.broken ≠ none)
      ∧ ∀ n, wake = .alarm n → op = .recv ∨ 0 < n →
        (∃ k, (run (taken ++ wake :: rest)).1 = .cut k) ∧ t = m)
    ∧ ((∃ rest, Takes (perform p op) s taken (.answer .done) rest turns)
        ∨ SetOut p op s taken turns →
      ∀ more op' script turns', let t := (play (perform p) more m).2
        Needs t turns' op' → ∃ reason, (perform p op' ⟨t, script, turns'⟩).1 = .err (.protocol reason)
          ∧ (perform p op' ⟨t, script, turns'⟩).2.state.broken = some reason
          ∧ bytesWritten (perform p op' ⟨t, script, turns'⟩).2.state.history
            = bytesWritten m.history) := by
  intro s run m
  -- The books are right whatever comes later, so that an empty queue is told from its cost.
  have hbooked : ∀ more, Booked (play (perform p) more m).2 := by
    intro more
    have hrun := play_booked p ackTimeout maxQueuedBytes (calls ++ ⟨op, taken, turns⟩ :: more)
    rw [Async.play_append] at hrun
    exact hrun
  refine ⟨fun reason hreason => ⟨fun more => ?_, fun rest => ?_⟩, fun wake rest ht => ?_, ?_⟩
  · -- A broken session: the reason sticks, and nothing more is written.
    have hsilenced : Silenced m := Or.inl (by rw [hreason]; exact Option.some_ne_none _)
    have hsticks : Sticks m (play (perform p) more m).2 :=
      Async.play_run (fun _ t => Sticks m t)
        (fun _ op _ hu => wp_mono (wp_perform_sticks op) fun _ _ hv => hu.trans hv) more (.refl m)
    rcases hsticks reason hreason with ⟨hbroken, _⟩
    refine ⟨hbroken, play_silenced hsilenced more, fun op' script turns' hop => ?_⟩
    rcases refused (silenced_run hsilenced more).1 (hbooked more) hop script with
      ⟨reason', herr, _, hsame, _⟩
    rw [herr, hsame reason hbroken]
  · -- The rest of the script can not mend what broke on the way.
    rcases perform_sticks op taken rest turns reason hreason with ⟨hbroken, hwrites⟩
    refine ⟨hbroken, ?_⟩
    rw [bytesWritten_filter, hwrites, ← bytesWritten_filter]
  · -- A wait that ends in a way that breaks the session.
    have hminds := (mindful_perform (p := p) op).heeds taken wake rest turns ht
    refine ⟨fun hwake hop => ?_, hminds.pipe, fun chunk hwake hspoils => ?_, fun n hwake hn => ?_⟩
    · refine hminds.expired 0 hwake ?_
      cases op with
      | recv => exact absurd rfl hop
      | send guid payload => exact Nat.zero_lt_one
      | signal => exact Nat.zero_lt_one
      | close => exact Nat.zero_lt_one
    · exact hminds.chunk chunk hwake (spoils_received (hbooked []) hspoils)
    · -- The alarm is one of the caller, who drops the operation: nothing happens.
      have hle : guardsOf op ≤ n := by
        cases op with
        | recv => exact Nat.zero_le n
        | send guid payload => exact hn.resolve_left fun h => by cases h
        | signal => exact hn.resolve_left fun h => by cases h
        | close => exact hn.resolve_left fun h => by cases h
      rcases hminds.dropped n hwake hle with ⟨hcut, ht'⟩
      exact ⟨⟨_, hcut⟩, ht'⟩
  · -- An operation that was dropped after it wrote something left a mark, and the first
    -- operation that looks at it refuses.
    intro hdropped more op' script turns' t hop
    have hsilenced : Silenced m := by
      rcases hdropped with ⟨rest, ht⟩ | hset
      · exact Or.inr (Or.inl (((mindful_perform (p := p) op).heeds taken _ rest turns ht).write rfl))
      · exact Or.inr (Or.inr hset.marked)
    rcases refused (silenced_run hsilenced more).1 (hbooked more) hop script with
      ⟨reason, herr, hbroken, _, hhistory⟩
    refine ⟨reason, herr, hbroken, ?_⟩
    rw [hhistory]
    exact play_silenced hsilenced more

/-- The line of a packet, in a chunk of its own, is the one line it completes
    in a new splitter. -/
theorem push_toLine (p : PacketPlatform) {packet : Packet}
    (h : (sentBytes packet).length ≤ MAX_LINE_BYTES) :
    (LineSplitter.new.push p packet.toLine.toUtf8).1 = ([sentLine packet], none) := by
  have houtcome := outcome_packets p [packet] [packet.toLine.toUtf8] rfl
  rw [reference_packets true fun q hq => List.mem_singleton.mp hq ▸ h] at houtcome
  rw [outcome, feed] at houtcome
  rcases hpush : LineSplitter.new.push p packet.toLine.toUtf8 with ⟨⟨lines, e⟩, splitter⟩
  rw [hpush] at houtcome
  cases e with
  | some e =>
      have herr := congrArg Prod.snd houtcome
      cases herr
  | none =>
      have hlines := congrArg Prod.fst houtcome
      simp only [feed, List.append_nil, List.map_cons, List.map_nil] at hlines
      rw [hlines]

/-- A payload in a chunk of its own is received by a `recv` that nothing is
    queued for. -/
theorem recv_data {p : PacketPlatform} (hp : p.Lawful) (payload : Bytes) (hne : payload ≠ [])
    (hlength : (sentBytes (.data .default .nil payload)).length ≤ MAX_LINE_BYTES)
    (hs : s.Usable) (hready : s.payloadInProgress = false) (hlines : s.lines = .new)
    (hempty : s.inbound = []) (hroom : s.inboundBytes + queueCost payload ≤ s.maxQueuedBytes) :
    let r := perform p .recv ⟨s, [.answer (.chunk
      (Packet.data .default .nil payload).toLine.toUtf8)], 2⟩
    r.1 = .ok (some payload) ∧ r.2.state.broken = none := by
  have hcarried : (Packet.data .default .nil payload).Carried := by
    intro _ _ _ heq
    cases heq
    exact hne
  have hparse := parseLine_sentLine hp hcarried
  have hpush := push_toLine p hlength
  -- The chunk is one line, and the line is a payload.
  have hreceived : ∃ t, s.received p (.ok (Packet.data .default .nil payload).toLine.toUtf8)
      = (.ok (), t) ∧ t.inbound = [payload] ∧ t.broken = none := by
    rw [← hlines] at hpush
    simp only [OutOfProcSession.received, process_noted, hpush, onLines, onLine, hparse, onPacket]
    generalize hu : note (.heard _) _ = u
    have hroom' : ¬ u.maxQueuedBytes < u.inboundBytes + queueCost payload := by
      rw [← hu]
      exact Nat.not_lt.mpr hroom
    have hin : u.inbound = [] := hu ▸ hempty
    rcases queue_cases payload u with ⟨_, hq⟩ | ⟨hfull, _⟩
    · rw [hq]
      exact ⟨_, rfl, by rw [hin]; rfl, hu ▸ hs.1⟩
    · exact absurd hfull hroom'
  rcases hreceived with ⟨t, hreceived, hin, hbroken⟩
  -- The queue is empty and the session usable, so one chunk is read.
  have hdequeue : s.dequeue = (none, s) := by
    unfold dequeue
    rw [hempty, dequeueFrom, ← hempty]
  have husable : s.usable = (.ok (), s) := by
    rcases usable_cases p s with ⟨h, _⟩ | ⟨e, t, h, _, _⟩
    · exact h
    · simp only [usable, hs.1, hs.2, Bool.false_eq_true, if_false] at h
      cases h
  have hstart : s.ready = (.ok (), s) := by
    simp only [ready, husable, hready, Bool.false_eq_true, if_false]
  -- What it queued is handed out in the next turn.
  have hnext : t.dequeue.1 = some payload ∧ t.dequeue.2.broken = none := by
    unfold dequeue
    rw [hin, dequeueFrom, if_neg hne]
    exact ⟨rfl, hbroken⟩
  simp only [perform, recv, Async.bind_apply, Async.loop, Async.turnsOf, Async.update, hdequeue,
    hstart, Async.attempt, pump, husable, Async.await, readAnswer, hreceived, Async.pure_apply,
    hnext.1, hnext.2, and_self]

/-- A session whose first request opens a command, with its line written and
    the acknowledgement awaited. -/
def switching (guid : Uuid) : OutOfProcSession :=
  { fresh ACK_TIMEOUT MAX_QUEUED_BYTES with
    awaiting := some (.commandAck guid),
    history := [.line (.command guid), .sent (Packet.command guid).toLine.toUtf8] }

/-- A send of several lines that is dropped before its first, while the command
    of its pipeline is being opened, breaks nothing: the next operation goes
    through. -/
theorem dropped_before_first_line :
    ¬ ∀ (p : PacketPlatform) (ackTimeout maxQueuedBytes : Nat) (guid : Uuid) (payload : Bytes)
      (taken : List (Wake Answer)) (turns : Nat), MAX_DATA_PAYLOAD < payload.length →
      let r := perform p (.send guid payload) ⟨fresh ackTimeout maxQueuedBytes, taken, turns⟩
      r.1 = .suspended → ∀ op script turns', Needs r.2.state turns' op →
        (perform p op ⟨r.2.state, script, turns'⟩).2.state.broken ≠ none := by
  intro h
  have hlong : MAX_DATA_PAYLOAD < (List.replicate (MAX_DATA_PAYLOAD + 1) (0 : UInt8)).length := by
    rw [List.length_replicate]
    exact Nat.lt_succ_self _
  have hne : List.replicate (MAX_DATA_PAYLOAD + 1) (0 : UInt8) ≠ [] := List.cons_ne_nil _ _
  have hrun : perform .basic (.send ⟨.replicate 16 1⟩ (List.replicate (MAX_DATA_PAYLOAD + 1) 0))
      ⟨fresh ACK_TIMEOUT MAX_QUEUED_BYTES, [.answer .done], 2⟩
      = (.suspended, ⟨switching ⟨.replicate 16 1⟩, [], 2⟩) := by
    simp only [perform, send, if_neg hne]
    rfl
  have hnext := h .basic ACK_TIMEOUT MAX_QUEUED_BYTES ⟨.replicate 16 1⟩ _ [.answer .done] 2 hlong
  simp only [hrun] at hnext
  have hrecv := recv_data (s := switching ⟨.replicate 16 1⟩) PacketPlatform.basic_lawful [0]
    (List.cons_ne_nil _ _) (by decide +kernel) ⟨rfl, rfl⟩ rfl rfl rfl (by decide)
  exact hnext trivial .recv _ 2 ⟨rfl, Nat.zero_lt_two⟩ hrecv.2

end Runs

end OutOfProc

end Psrp

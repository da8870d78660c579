import Psrp.Theory.Pool.Lifecycle

/-!
# The Death of a Pool

Who notices that the server has given up on a pool.

Opening and the request for a key give every message that they are handed to
the state machine, in order, and end with the first that it refuses: the error
of the machine is theirs, and nothing is read after it (`Heeds`). A message
that announces a terminal state is refused, so a pool that dies while one of
them reads is dead, and they say so. When they end well the pool is open, or
has a key.

No other operation turns the machine. A pipeline that is read, in one go or by
a handle, and a request for metadata pass such a message by: the pool is what
it was before, whatever they are handed.

## Main definitions

* `heed`: The machine after some messages.
* `Heeds`: What a caller makes of the messages that it is handed.

## Theorems

* `wp_open_heeds`, `wp_requestSessionKey_heeds`: The two that listen.
* `death_noticed`: A death is noticed by those two and by nobody else.
-/

namespace Psrp

namespace RunspacePoolStateMachine

/-- The machine after some messages. -/
def heed (p : Platform) (m : RunspacePoolStateMachine) (msgs : List PsrpMessage) :
    RunspacePoolStateMachine :=
  msgs.foldl (fun m msg => (m.onMessage p msg).2) m

/-- No message was refused. -/
def Accepts (p : Platform) (m : RunspacePoolStateMachine) (msgs : List PsrpMessage) : Prop :=
  ∀ before msg after, msgs = before ++ msg :: after →
    ((heed p m before).onMessage p msg).1 = .ok ()

variable {p : Platform} {m : RunspacePoolStateMachine}

theorem heed_snoc (msgs : List PsrpMessage) (msg : PsrpMessage) :
    heed p m (msgs ++ [msg]) = ((heed p m msgs).onMessage p msg).2 := List.foldl_append ..

theorem accepts_nil : Accepts p m [] := by
  intro before msg after heq
  cases before <;> cases heq

theorem Accepts.snoc {msgs : List PsrpMessage} {msg : PsrpMessage} (h : Accepts p m msgs)
    (hmsg : ((heed p m msgs).onMessage p msg).1 = .ok ()) : Accepts p m (msgs ++ [msg]) := by
  intro before msg' after heq
  rcases split_of_snoc heq with ⟨rfl, _, rfl⟩ | ⟨rest, _, rfl⟩
  · exact hmsg
  · exact h before msg' rest rfl

/-- What does not speak of the pool changes nothing. -/
theorem onMessage_other {msg : PsrpMessage} (h : msg.messageType ≠ .runspacePoolState) :
    m.onMessage p msg = (.ok (), m) := by
  unfold onMessage
  split
  next htype => exact absurd htype h
  next => rfl

end RunspacePoolStateMachine

namespace RunspacePool

open Async (wp wp_bind wp_mono Ends Turn)
open RunspacePoolStateMachine (heed Accepts heed_snoc onMessage_other)

variable {τ α : Type} {d : Driver τ} {s t u : RunspacePool τ}

section Heeding

/-- A caller gives a machine the messages that it is handed, in order. The
    first that the machine refuses is the last, and how the caller ends. -/
structure Heeds (p : Platform) (m : RunspacePoolStateMachine) (msgs : List PsrpMessage)
    (x : Exit PsrpError α) (m' : RunspacePoolStateMachine) : Prop where
  machine : m' = heed p m msgs
  refused : ∀ before msg after e, msgs = before ++ msg :: after →
    ((heed p m before).onMessage p msg).1 = .error e → after = [] ∧ x = .err e
  /-- A death that is announced is such a message. -/
  died : ∀ before msg after dead, msgs = before ++ msg :: after →
    msg.messageType = .runspacePoolState → extractRunspaceState p msg.data = .ok dead →
    dead = .broken ∨ dead = .closed →
    isLegalServerTransition (heed p m before).state dead = true →
    after = [] ∧ m'.state = dead ∧ ∃ e, x = .err e

/-- The refusals say it all: a death is refused. -/
theorem Heeds.of_refused {p : Platform} {m m' : RunspacePoolStateMachine} {msgs : List PsrpMessage}
    {x : Exit PsrpError α} (hmachine : m' = heed p m msgs)
    (hrefused : ∀ before msg after e, msgs = before ++ msg :: after →
      ((heed p m before).onMessage p msg).1 = .error e → after = [] ∧ x = .err e) :
    Heeds p m msgs x m' where
  machine := hmachine
  refused := hrefused
  died := by
    intro before msg after dead heq htype hextract hdead hlegal
    rcases RunspacePoolStateMachine.onMessage_cases p (heed p m before) msg
      with ⟨_, hillegal⟩ | ⟨st, _, hst, _, hstate, hiff⟩
    · rw [hillegal htype dead hextract] at hlegal
      cases hlegal
    · rw [hextract] at hst
      cases hst
      rcases hiff.mp hdead with ⟨e, he⟩
      have hlast := hrefused before msg after e heq he
      refine ⟨hlast.1, ?_, e, hlast.2⟩
      rw [hmachine, heq, hlast.1, heed_snoc, hstate]

theorem Heeds.of_accepts {p : Platform} {m m' : RunspacePoolStateMachine} {msgs : List PsrpMessage}
    {x : Exit PsrpError α} (hmachine : m' = heed p m msgs) (h : Accepts p m msgs) :
    Heeds p m msgs x m' :=
  .of_refused hmachine fun before msg after e heq he => by
    rw [h before msg after heq] at he
    cases he

/-- All messages were accepted but the last. -/
theorem Heeds.of_last {p : Platform} {m m' : RunspacePoolStateMachine} {msgs : List PsrpMessage}
    {msg : PsrpMessage} {e : PsrpError} (hmachine : m' = heed p m (msgs ++ [msg]))
    (h : Accepts p m msgs) (he : ((heed p m msgs).onMessage p msg).1 = .error e) :
    Heeds p m (msgs ++ [msg]) (.err e : Exit PsrpError α) m' := by
  refine .of_refused hmachine fun before msg' after e' heq he' => ?_
  rcases split_of_snoc heq with ⟨rfl, hafter, rfl⟩ | ⟨rest, _, rfl⟩
  · rw [he] at he'
    cases he'
    exact ⟨hafter, rfl⟩
  · rw [h before msg' rest rfl] at he'
    cases he'

/-- A caller has heeded everything it was handed so far. -/
def Heeding (p : Platform) (m : RunspacePoolStateMachine) (s t : RunspacePool τ) : Prop :=
  ∃ es, t.history = s.history ++ es ∧ t.machine = heed p m (handedOf es)
    ∧ Accepts p m (handedOf es)

/-- How a caller ends that heeds what it is handed. -/
def Heeded (p : Platform) (m : RunspacePoolStateMachine) (s : RunspacePool τ)
    (good : RunspacePool τ → Prop) (x : Exit PsrpError Unit) (t : RunspacePool τ) : Prop :=
  (∃ es, t.history = s.history ++ es ∧ Heeds p m (handedOf es) x t.machine) ∧ (x = .ok () → good t)

theorem Heeding.heeded {p : Platform} {m : RunspacePoolStateMachine} {good : RunspacePool τ → Prop}
    {x : Exit PsrpError Unit} (h : Heeding p m s t) (hgood : x = .ok () → good t) :
    Heeded p m s good x t := by
  rcases h with ⟨es, hes, hmachine, haccepts⟩
  exact ⟨⟨es, hes, .of_accepts hmachine haccepts⟩, hgood⟩

/-- What a read leaves: the machine as it was, and the message if there is
    one. -/
def ReadLeaves (s : RunspacePool τ) (x : Exit PsrpError PsrpMessage) (t : RunspacePool τ) : Prop :=
  t.machine = s.machine ∧ ∃ es, t.history = s.history ++ es ∧ ReadNotes x es

/-- Chores leave the machine as it was. -/
theorem machine_of_chores (h : Relation.ReflTransGen (Chore d) s t) : t.machine = s.machine :=
  (Async.walk_keeps (I := Unturned s) h (fun _ _ ht hchore => hchore.unturned ht) ⟨rfl, rfl⟩).1

theorem wp_nextMessage_leaves : wp (nextMessage d) (ReadLeaves s) s :=
  wp_mono (Async.wp_and (walks_nextMessage.wp s) wp_nextMessage_notes) fun _ _ hx =>
    ⟨machine_of_chores hx.1, hx.2⟩

end Heeding

section Callers

variable {m : RunspacePoolStateMachine} {good : RunspacePool τ → Prop}

/-- How a turn of a caller ends that heeds what it is handed. -/
def HeedTurn (p : Platform) (m : RunspacePoolStateMachine) (s : RunspacePool τ)
    (good : RunspacePool τ → Prop) : Exit PsrpError (Turn Unit Unit) → RunspacePool τ → Prop :=
  Async.andThen (fun turn t => match turn with
    | .more _ => Heeding p m s t
    | .done c => Heeded p m s good (.ok c) t) (Heeded p m s good)

theorem heedTurn_done {p : Platform} (h : Heeding p m s t) (hgood : good t) :
    HeedTurn p m s good (.ok (.done ())) t := h.heeded fun _ => hgood

/-- What a caller does before it listens, and hands it nothing. -/
theorem wp_heedThen {R : Fate → RunspacePool τ → Prop} {p : Platform}
    {q : Prog (RunspacePool τ) α} {f : α → Prog (RunspacePool τ) Unit} (hq : wp q (Ended R) u)
    (hR : ∀ o t, R o t → Heeding p m s t)
    (hf : ∀ a t, Heeding p m s t → wp (f a) (Heeded p m s good) t) :
    wp (q >>= f) (Heeded p m s good) u := by
  refine wp_bind (wp_mono hq fun x t hx => ?_)
  cases x with
  | ok a => exact hf a t (hR _ t hx)
  | err e => exact (hR _ t hx).heeded fun heq => by cases heq
  | cut n => exact (hR _ t hx).heeded fun heq => by cases heq
  | suspended => exact (hR _ t hx).heeded fun heq => by cases heq

/-- What the callers that listen have in common: a read hands over a message,
    and it is heeded, or need not be. -/
theorem wp_heed {g : PsrpMessage → Bool} {f : PsrpMessage → Prog (RunspacePool τ) (Turn Unit Unit)}
    (hg : ∀ msg, g msg = false → msg.messageType ≠ .runspacePoolState)
    (h : Heeding d.platform.toPlatform m s t)
    (hf : ∀ msg u, Heeding d.platform.toPlatform m s u →
      wp (f msg) (HeedTurn d.platform.toPlatform m s good) u) :
    wp (do
      let msg ← nextMessage d
      if g msg then
        Async.update (onMessage d msg)
      f msg) (HeedTurn d.platform.toPlatform m s good) t := by
  rcases h with ⟨es, hes, hmachine, haccepts⟩
  -- A read that ends early was handed nothing.
  have hearly : ∀ {x : Exit PsrpError PsrpMessage} {u : RunspacePool τ} {y : Exit PsrpError Unit},
      ReadLeaves t x u → (∀ msg, x ≠ .ok msg) → y ≠ .ok () →
      Heeded d.platform.toPlatform m s good y u := by
    intro x u y hx hnone hy
    rcases hx with ⟨hsame, es', hes', hnotes⟩
    have hunhanded : handedOf es' = [] := by
      cases x with
      | ok msg => exact absurd rfl (hnone msg)
      | err e => exact handedOf_inner hnotes
      | cut n => exact handedOf_inner hnotes
      | suspended => exact handedOf_inner hnotes
    have hsame' : handedOf (es ++ es') = handedOf es := by
      rw [handedOf_append, hunhanded, List.append_nil]
    refine Heeding.heeded ⟨es ++ es', ?_, ?_, ?_⟩ fun heq => absurd heq hy
    · rw [hes', hes, List.append_assoc]
    · rw [hsame', hsame, hmachine]
    · rw [hsame']
      exact haccepts
  refine wp_bind (wp_mono wp_nextMessage_leaves fun x u hx => ?_)
  cases x with
  | err e => exact hearly hx (by intro msg heq; cases heq) (by intro heq; cases heq)
  | cut n => exact hearly hx (by intro msg heq; cases heq) (by intro heq; cases heq)
  | suspended => exact hearly hx (by intro msg heq; cases heq) (by intro heq; cases heq)
  | ok msg =>
      rcases hx with ⟨hsame, es', hes', hnotes⟩
      have hhanded : handedOf (es ++ es') = handedOf es ++ [msg] := by
        rw [handedOf_append, handedOf_handing hnotes]
      have hhistory : u.history = s.history ++ (es ++ es') := by
        rw [hes', hes, List.append_assoc]
      have hthen : u.machine = heed d.platform.toPlatform m (handedOf es) := hsame.trans hmachine
      -- The message is given to the machine, which takes it or refuses it.
      have hheard : heed d.platform.toPlatform m (handedOf es ++ [msg])
          = (u.machine.onMessage d.platform.toPlatform msg).2 := by
        rw [heed_snoc, hthen]
      by_cases hgiven : g msg = true
      · simp only [Async.andThen, hgiven, if_true]
        refine wp_bind (Async.wp_update (fun a v hv => ?_) fun e v hv => ?_)
        · have hok := congrArg Prod.fst hv
          have hv' := congrArg Prod.snd hv
          subst hv'
          refine hf msg _ ⟨es ++ es', hhistory, ?_, ?_⟩
          · rw [hhanded, hheard]
            rfl
          · rw [hhanded]
            refine haccepts.snoc ?_
            rw [← hthen]
            exact hok
        · -- Refused: this is the last message.
          have herr := congrArg Prod.fst hv
          have hv' := congrArg Prod.snd hv
          subst hv'
          refine ⟨⟨es ++ es', hhistory, ?_⟩, fun heq => by cases heq⟩
          rw [hhanded]
          refine .of_last hheard.symm haccepts ?_
          rw [← hthen]
          exact herr
      · simp only [Async.andThen, hgiven]
        -- A message that says nothing of the pool leaves the machine as it is.
        have hother := onMessage_other (m := u.machine) (p := d.platform.toPlatform)
          (hg msg (Bool.eq_false_iff.mpr hgiven))
        refine hf msg u ⟨es ++ es', hhistory, ?_, ?_⟩
        · rw [hhanded, hheard, hother]
        · rw [hhanded]
          refine haccepts.snoc ?_
          rw [← hthen, hother]

/-- How a loop of such turns ends. -/
theorem wp_heedLoop {body : Unit → Prog (RunspacePool τ) (Turn Unit Unit)}
    (h : Heeding d.platform.toPlatform m s t)
    (hbody : ∀ b t, Heeding d.platform.toPlatform m s t →
      wp (body b) (HeedTurn d.platform.toPlatform m s good) t) :
    wp (Async.loop body ()) (Heeded d.platform.toPlatform m s good) t := by
  refine Async.wp_loop (fun _ t => Heeding d.platform.toPlatform m s t) h
    (fun _ _ ht => ht.heeded fun heq => by cases heq) fun b t ht => ?_
  refine wp_mono (hbody b t ht) fun x u hx => ?_
  cases x with
  | ok turn => cases turn <;> exact hx
  | err e => exact hx
  | cut n => exact hx
  | suspended => exact hx

theorem wp_drainUntilOpened_heeds (h : Heeding d.platform.toPlatform m s t) :
    wp (drainUntilOpened d)
      (Heeded d.platform.toPlatform m s fun t => t.machine.state = .opened) t := by
  refine wp_heedLoop h fun _ t ht => wp_heed (g := fun _ => true) (fun msg h => by cases h) ht
    fun msg u hu => Async.wp_getThen ?_
  by_cases hopened : u.machine.isOpened = true
  · rw [if_pos hopened]
    refine Async.wp_pure (heedTurn_done hu ?_)
    simpa [RunspacePoolStateMachine.isOpened] using hopened
  · rw [if_neg hopened]
    exact Async.wp_pure hu

/-- What says that a pool has a key is not what the machine is told. -/
theorem wp_awaitSessionKey_heeds (h : Heeding d.platform.toPlatform m s t) :
    wp (awaitSessionKey d)
      (Heeded d.platform.toPlatform m s fun t => t.sessionKey.isSome = true) t := by
  refine wp_heedLoop h fun _ t ht => Async.wp_getThen ?_
  by_cases hkey : t.sessionKey.isSome = true
  · rw [if_pos hkey]
    exact Async.wp_pure (heedTurn_done ht hkey)
  · rw [if_neg hkey]
    have hmore : ∀ (msg : PsrpMessage) (u : RunspacePool τ), Heeding d.platform.toPlatform m s u →
        wp (pure (.more ()) : Prog (RunspacePool τ) (Turn Unit Unit))
          (HeedTurn d.platform.toPlatform m s fun t => t.sessionKey.isSome = true) u :=
      fun _ _ hu => Async.wp_pure hu
    have hheed := wp_heed (g := fun msg => decide (msg.messageType ≠ .encryptedSessionKey))
      (fun msg hmsg htype => by simp [htype] at hmsg) ht hmore
    simp only [decide_eq_true_eq] at hheed
    exact hheed

/-- What is sent before a caller listens hands it nothing. -/
theorem heeding_sent {es : List PoolEvent} (hes : t.history = s.history ++ es)
    (hhanded : handedOf es = []) (hmachine : t.machine = m) :
    Heeding d.platform.toPlatform m s t := by
  refine ⟨es, hes, ?_, ?_⟩
  · rw [hhanded]
    exact hmachine
  · rw [hhanded]
    exact RunspacePoolStateMachine.accepts_nil

theorem wp_open_heeds : wp («open» d)
    (Heeded d.platform.toPlatform (s.machine.open d.platform.toPlatform).2 s
      fun t => t.machine.state = .opened) s := by
  unfold «open»
  refine wp_bind (Async.wp_update (fun actions t ht => ?_) fun e t ht => (by cases ht))
  cases ht
  simp only [Async.andThen]
  refine wp_heedThen (wp_execute _) (fun o t hexecutes => ?_) fun _ _ ht =>
    wp_drainUntilOpened_heeds ht
  rcases hexecutes.part (lifecycle_open d.platform.toPlatform s.machine)
    with ⟨hmachine, _, es, _, hes, hhanded, _⟩
  exact heeding_sent hes hhanded hmachine

theorem wp_requestSessionKey_heeds : wp (requestSessionKey d)
    (Heeded d.platform.toPlatform s.machine s fun t => t.sessionKey.isSome = true) s := by
  have hself : Heeding d.platform.toPlatform s.machine s s :=
    heeding_sent (List.append_nil _).symm rfl rfl
  unfold requestSessionKey
  refine Async.wp_getThen ?_
  by_cases hkey : s.sessionKey.isSome = true
  · rw [if_pos hkey]
    exact Async.wp_pure (hself.heeded fun _ => hkey)
  · rw [if_neg hkey]
    by_cases hpending : s.pendingClientKey.isNone = true
    · rw [if_pos hpending]
      show wp (generateClientKey >>= fun key => startExchange d key >>= fun _ => awaitSessionKey d)
        _ s
      rw [← Async.bind_assoc]
      refine wp_heedThen wp_publish (fun o t hpub => ?_) fun _ _ ht => wp_awaitSessionKey_heeds ht
      rcases hpub.trace with ⟨es, hes, htrace⟩
      refine heeding_sent hes (handedOf_inner fun e he => ?_) (hpub.unturned ⟨rfl, rfl⟩).1
      exact isInner_outgoing (htrace.outgoing e he)
    · rw [if_neg hpending]
      exact wp_awaitSessionKey_heeds hself

/-- The death of a pool is noticed by those who open it and by those who wait
    for a key: it is the end of what they read, and their error. Nobody else
    notices it. -/
theorem death_noticed (d : Driver τ) (s : RunspacePool τ) :
    wp (perform d .open) (Heeded d.platform.toPlatform (s.machine.open d.platform.toPlatform).2 s
        fun t => t.machine.state = .opened) s
      ∧ wp (perform d .requestSessionKey) (Heeded d.platform.toPlatform s.machine s
        fun t => t.sessionKey.isSome = true) s
      ∧ ∀ op, op ≠ .open → op ≠ .requestSessionKey → op ≠ .close →
        wp (perform d op) (fun _ t => t.machine = s.machine) s := by
  refine ⟨wp_open_heeds, wp_requestSessionKey_heeds, fun op hopen hkey hclose => ?_⟩
  have herrand : isLifecycleOperation op = false := by
    cases op <;> first | rfl | exact absurd rfl hopen | exact absurd rfl hkey | exact absurd rfl hclose
  exact wp_mono ((walks_errand herrand).wp s) fun _ _ hwalk => machine_of_chores hwalk

end Callers

end RunspacePool

end Psrp

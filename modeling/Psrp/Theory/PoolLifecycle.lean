import Psrp.Core.RunspaceState

/-!
# The Lifecycle of a Pool

What holds of a pool whatever the client calls and whatever the server says.

The client has four operations and the server chooses the messages; a run is
any sequence of the five. `step_state` says once what each can do to the
state. Everything about whole runs follows from it: the states of a pool that
is ending are never left, and the state before the handshake is never entered
again, so that the handshake is sent once.

## Main definitions

* `Call`: A call of the client, or a message.
* `step`, `reached`, `sent`: One call, and the machine and the messages after
  a sequence of calls.
* `Ending`: The states of a pool on its way out.
* `handshake`: The two messages of the opening handshake.

## Theorems

* `step_state`: What one call does to the state.
* `pool_lifecycle`: The lifecycle is safe.
-/

namespace Psrp

namespace RunspacePoolStateMachine

/-- A call on the machine. -/
inductive Call where
  | «open»
  | connect
  | close
  | markClosed
  | onMessage (msg : PsrpMessage)

/-- What a call returns: the messages to send, and whether a message was
    refused. -/
structure Reply where
  actions : List Action
  result : Except PsrpError Unit

variable (p : Platform)

/-- One call. -/
def step (m : RunspacePoolStateMachine) : Call → Reply × RunspacePoolStateMachine
  | .open => ({ actions := (m.open p).1, result := .ok () }, (m.open p).2)
  | .connect => ({ actions := m.connect.1, result := .ok () }, m.connect.2)
  | .close => ({ actions := m.close.1, result := .ok () }, m.close.2)
  | .markClosed => ({ actions := [], result := .ok () }, m.markClosed)
  | .onMessage msg => ({ actions := [], result := (m.onMessage p msg).1 }, (m.onMessage p msg).2)

/-- The machine after a sequence of calls. -/
def reached (m : RunspacePoolStateMachine) (calls : List Call) : RunspacePoolStateMachine :=
  calls.foldl (fun m c => (step p m c).2) m

/-- The messages a sequence of calls produces. -/
def sent (m : RunspacePoolStateMachine) : List Call → List Action
  | [] => []
  | c :: cs => (step p m c).1.actions ++ sent (step p m c).2 cs

/-- The states of a pool that is on its way out. -/
def Ending (s : RunspacePoolState) : Prop := s = .closing ∨ s = .closed ∨ s = .broken

/-- Whether a message belongs to the opening handshake. -/
def isHandshake (a : Action) : Bool :=
  a.messageType = .sessionCapability || a.messageType = .initRunspacePool

/-- The two messages of the opening handshake. -/
def handshake (minRunspaces maxRunspaces : Int32) : List Action :=
  [{ messageType := .sessionCapability, body := sessionCapabilityXml p },
    { messageType := .initRunspacePool, body := initRunspacePoolXml p minRunspaces maxRunspaces }]

theorem open_handshake (m : RunspacePoolStateMachine) :
    (m.open p).1 = if m.state = .beforeOpen then handshake p m.minRunspaces m.maxRunspaces
      else [] := by
  unfold RunspacePoolStateMachine.open
  by_cases h : m.state = .beforeOpen
  · rw [if_neg (not_not.mpr h), if_pos h]
    rfl
  · rw [if_pos h, if_neg h]

/-- What a message does: nothing, when it is informational or refused; or a
    legal transition to the state it announces, reported as an error when that
    state is terminal. -/
theorem onMessage_cases (m : RunspacePoolStateMachine) (msg : PsrpMessage) :
    (m.onMessage p msg).2 = m ∧ (msg.messageType = .runspacePoolState →
        ∀ s, extractRunspaceState p msg.data = .ok s → isLegalServerTransition m.state s = false)
      ∨ ∃ s, msg.messageType = .runspacePoolState ∧ extractRunspaceState p msg.data = .ok s
        ∧ isLegalServerTransition m.state s = true
        ∧ (m.onMessage p msg).2 = { m with state := s }
        ∧ ((s = .broken ∨ s = .closed) ↔ ∃ e, (m.onMessage p msg).1 = .error e) := by
  unfold onMessage
  split
  next htype =>
    cases hextract : extractRunspaceState p msg.data with
    | error e =>
        refine Or.inl ⟨rfl, fun _ s hs => by cases hs⟩
    | ok s =>
        simp only []
        by_cases hlegal : isLegalServerTransition m.state s = true
        · rw [hlegal, Bool.not_true, if_neg Bool.false_ne_true]
          refine Or.inr ⟨s, htype, rfl, hlegal, ?_⟩
          by_cases hend : s = .broken ∨ s = .closed
          · rw [if_pos hend]
            exact ⟨rfl, fun _ => ⟨_, rfl⟩, fun _ => hend⟩
          · rw [if_neg hend]
            exact ⟨rfl, fun h => absurd h hend, fun ⟨e, he⟩ => by cases he⟩
        · rw [Bool.not_eq_true] at hlegal
          rw [hlegal, Bool.not_false, if_pos rfl]
          refine Or.inl ⟨rfl, fun _ t ht => ?_⟩
          cases ht
          exact hlegal
  next htype => exact Or.inl ⟨rfl, fun h => absurd h htype⟩

/-- What a call does: it keeps the pool it belongs to, and it leaves the
    state alone or makes one of the listed transitions. -/
theorem step_state (m : RunspacePoolStateMachine) (c : Call) :
    (step p m c).2 = { m with state := (step p m c).2.state }
      ∧ ((step p m c).2.state = m.state
        ∨ c = .open ∧ m.state = .beforeOpen ∧ (step p m c).2.state = .negotiationSent
        ∨ c = .connect ∧ (m.state = .beforeOpen ∨ m.state = .disconnected)
          ∧ (step p m c).2.state = .opened
        ∨ c = .close ∧ m.isTerminal = false ∧ (step p m c).2.state = .closing
        ∨ c = .markClosed ∧ (step p m c).2.state = .closed
        ∨ ∃ msg, c = .onMessage msg ∧ msg.messageType = .runspacePoolState
          ∧ extractRunspaceState p msg.data = .ok (step p m c).2.state
          ∧ isLegalServerTransition m.state (step p m c).2.state = true) := by
  -- Each call changes the state in its own way, if it is in a state to do so.
  cases c with
  | «open» =>
      simp only [step, «open»]
      by_cases h : m.state = .beforeOpen
      · rw [if_neg (not_not.mpr h)]
        exact ⟨rfl, Or.inr (Or.inl ⟨trivial, h, rfl⟩)⟩
      · rw [if_pos h]
        exact ⟨rfl, Or.inl rfl⟩
  | connect =>
      simp only [step, connect]
      by_cases hdead : m.isTerminal = true
      · rw [if_pos hdead]
        exact ⟨rfl, Or.inl rfl⟩
      · rw [if_neg hdead]
        by_cases h : m.state = .beforeOpen ∨ m.state = .disconnected
        · rw [if_neg (not_not.mpr h)]
          exact ⟨rfl, Or.inr (Or.inr (Or.inl ⟨trivial, h, rfl⟩))⟩
        · rw [if_pos h]
          exact ⟨rfl, Or.inl rfl⟩
  | close =>
      simp only [step, close]
      by_cases hdead : m.isTerminal = true
      · rw [if_pos hdead]
        exact ⟨rfl, Or.inl rfl⟩
      · rw [if_neg hdead]
        exact ⟨rfl, Or.inr (Or.inr (Or.inr (Or.inl ⟨trivial, Bool.eq_false_iff.mpr hdead, rfl⟩)))⟩
  | markClosed =>
      exact ⟨rfl, Or.inr (Or.inr (Or.inr (Or.inr (Or.inl ⟨rfl, rfl⟩))))⟩
  | onMessage msg =>
      simp only [step]
      rcases onMessage_cases p m msg with ⟨hsame, _⟩ | ⟨s, htype, hextract, hlegal, hstate, _⟩
      · rw [hsame]
        exact ⟨rfl, Or.inl rfl⟩
      · rw [hstate]
        exact ⟨rfl, Or.inr (Or.inr (Or.inr (Or.inr (Or.inr ⟨msg, rfl, htype, hextract, hlegal⟩))))⟩

/-- No transition of the server leaves the ending states. -/
theorem legal_ending (src dst : RunspacePoolState) (hsrc : Ending src)
    (h : isLegalServerTransition src dst = true) : Ending dst := by
  rcases hsrc with rfl | rfl | rfl <;> cases dst <;>
    first | exact Or.inl rfl | exact Or.inr (Or.inl rfl) | exact Or.inr (Or.inr rfl) | cases h

/-- No transition of the server enters the state before the handshake. -/
theorem legal_beforeOpen (src : RunspacePoolState)
    (h : isLegalServerTransition src .beforeOpen = true) : src = .beforeOpen := by
  cases src <;> first | rfl | cases h

theorem step_ending (m : RunspacePoolStateMachine) (c : Call) (h : Ending m.state) :
    Ending (step p m c).2.state := by
  rcases (step_state p m c).2 with hsame | ⟨_, hbefore, _⟩ | ⟨_, hbefore, _⟩ | ⟨_, _, hstate⟩
    | ⟨_, hstate⟩ | ⟨msg, _, _, _, hlegal⟩
  · rwa [hsame]
  · -- The handshake and the reconnection need a pool that is not ending.
    rw [hbefore] at h
    rcases h with h | h | h <;> cases h
  · rcases hbefore with hbefore | hbefore <;> rw [hbefore] at h <;> rcases h with h | h | h <;> cases h
  · exact Or.inl hstate
  · exact Or.inr (Or.inl hstate)
  · exact legal_ending _ _ h hlegal

theorem step_not_beforeOpen (m : RunspacePoolStateMachine) (c : Call)
    (h : m.state ≠ .beforeOpen) : (step p m c).2.state ≠ .beforeOpen := by
  intro hafter
  rcases (step_state p m c).2 with hsame | ⟨_, _, hstate⟩ | ⟨_, _, hstate⟩ | ⟨_, _, hstate⟩
    | ⟨_, hstate⟩ | ⟨msg, _, _, _, hlegal⟩
  · exact h (hsame ▸ hafter)
  · rw [hstate] at hafter
    cases hafter
  · rw [hstate] at hafter
    cases hafter
  · rw [hstate] at hafter
    cases hafter
  · rw [hstate] at hafter
    cases hafter
  · rw [hafter] at hlegal
    exact h (legal_beforeOpen _ hlegal)

theorem reached_ending (m : RunspacePoolStateMachine) (calls : List Call) (h : Ending m.state) :
    Ending (reached p m calls).state := by
  induction calls generalizing m with
  | nil => exact h
  | cons c cs ih => exact ih _ (step_ending p m c h)

/-- The pool a machine belongs to never changes. -/
theorem reached_identity (m : RunspacePoolStateMachine) (calls : List Call) :
    (reached p m calls).rpid = m.rpid ∧ (reached p m calls).minRunspaces = m.minRunspaces
      ∧ (reached p m calls).maxRunspaces = m.maxRunspaces := by
  induction calls generalizing m with
  | nil => exact ⟨rfl, rfl, rfl⟩
  | cons c cs ih =>
      have hstep := (step_state p m c).1
      have hrest := ih (step p m c).2
      rw [hstep] at hrest
      have hcons : reached p m (c :: cs) = reached p (step p m c).2 cs := rfl
      rw [hcons, hstep]
      exact hrest

/-- Handshake messages come from the state before it, and there all of them
    come at once. -/
theorem step_handshake (m : RunspacePoolStateMachine) (c : Call) :
    (step p m c).1.actions.filter isHandshake = []
      ∨ c = .open ∧ m.state = .beforeOpen
        ∧ (step p m c).1.actions.filter isHandshake = (m.open p).1 := by
  cases c with
  | «open» =>
      simp only [step, «open»]
      by_cases h : m.state = .beforeOpen
      · rw [if_neg (not_not.mpr h)]
        exact Or.inr ⟨trivial, h, rfl⟩
      · rw [if_pos h]
        exact Or.inl rfl
  | connect =>
      simp only [step, connect]
      split_ifs <;> exact Or.inl rfl
  | close =>
      simp only [step, close]
      split_ifs <;> exact Or.inl rfl
  | markClosed => exact Or.inl rfl
  | onMessage msg => exact Or.inl rfl

theorem sent_handshake (m : RunspacePoolStateMachine) (calls : List Call)
    (h : m.state ≠ .beforeOpen) : (sent p m calls).filter isHandshake = [] := by
  induction calls generalizing m with
  | nil => rfl
  | cons c cs ih =>
      rw [sent, List.filter_append, ih _ (step_not_beforeOpen p m c h), List.append_nil]
      rcases step_handshake p m c with hnone | ⟨_, hbefore, _⟩
      · exact hnone
      · exact absurd hbefore h

/-- A machine in front of the handshake sends it once at most. -/
theorem sent_handshake_once (m : RunspacePoolStateMachine) (calls : List Call)
    (h : m.state = .beforeOpen) :
    (sent p m calls).filter isHandshake = []
      ∨ (sent p m calls).filter isHandshake = (m.open p).1 := by
  induction calls generalizing m with
  | nil => exact Or.inl rfl
  | cons c cs ih =>
      rw [sent, List.filter_append]
      rcases step_handshake p m c with hnone | ⟨rfl, _, hall⟩
      · rw [hnone, List.nil_append]
        by_cases hstill : (step p m c).2.state = .beforeOpen
        · have hrest := ih _ hstill
          have hsame : (step p m c).2 = m := by
            rw [(step_state p m c).1, hstill, ← h]
          rwa [hsame] at hrest ⊢
        · exact Or.inl (sent_handshake p _ cs hstill)
      · refine Or.inr ?_
        have hleft : (step p m .open).2.state ≠ .beforeOpen := by
          simp only [step, «open», h, ne_eq, not_true_eq_false, if_false]
          exact fun heq => by cases heq
        rw [sent_handshake p _ cs hleft, List.append_nil, hall]

/-- The lifecycle of a pool is safe, whatever the client calls and whatever
    the server sends. -/
theorem pool_lifecycle (rpid : Uuid) (minRunspaces maxRunspaces : Int32)
    (m : RunspacePoolStateMachine) (h : new rpid minRunspaces maxRunspaces = .ok m)
    (calls : List Call) :
    -- A pool on its way out never comes back.
    (∀ more, Ending (reached p m calls).state → Ending (reached p m (calls ++ more)).state
      ∧ (reached p m (calls ++ more)).state ≠ .opened)
    -- The handshake is sent once at most, and only from the state before it.
    ∧ ((sent p m calls).filter isHandshake = []
      ∨ (sent p m calls).filter isHandshake = handshake p minRunspaces maxRunspaces)
    ∧ (∀ c, (step p (reached p m calls) c).1.actions.filter isHandshake ≠ [] →
      (reached p m calls).state = .beforeOpen)
    -- A pool opens by reconnecting, or because the server may say so.
    ∧ (∀ c, (reached p m calls).state ≠ .opened → (step p (reached p m calls) c).2.state = .opened →
      c = .connect ∧ ((reached p m calls).state = .beforeOpen
          ∨ (reached p m calls).state = .disconnected)
        ∨ ∃ msg, c = .onMessage msg ∧ msg.messageType = .runspacePoolState
          ∧ extractRunspaceState p msg.data = .ok .opened
          ∧ isLegalServerTransition (reached p m calls).state .opened = true)
    -- Errors and terminal states go together.
    ∧ (∀ msg e, ((reached p m calls).onMessage p msg).1 = .error e →
      ((reached p m calls).onMessage p msg).2.state = (reached p m calls).state
        ∨ ((reached p m calls).onMessage p msg).2.state = .broken
        ∨ ((reached p m calls).onMessage p msg).2.state = .closed)
    ∧ (∀ msg s, msg.messageType = .runspacePoolState → extractRunspaceState p msg.data = .ok s →
      isLegalServerTransition (reached p m calls).state s = true → s = .broken ∨ s = .closed →
      ((reached p m calls).onMessage p msg).2.state = s
        ∧ ∃ e, ((reached p m calls).onMessage p msg).1 = .error e)
    -- The pool stays the same pool.
    ∧ (reached p m calls).rpid = rpid ∧ (reached p m calls).minRunspaces = minRunspaces
    ∧ (reached p m calls).maxRunspaces = maxRunspaces := by
  have hnew : m.state = .beforeOpen ∧ m.rpid = rpid ∧ m.minRunspaces = minRunspaces
      ∧ m.maxRunspaces = maxRunspaces := by
    unfold new at h
    split_ifs at h
    cases h
    exact ⟨rfl, rfl, rfl, rfl⟩
  have hidentity := reached_identity p m calls
  rw [hnew.2.1, hnew.2.2.1, hnew.2.2.2] at hidentity
  have honce := sent_handshake_once p m calls hnew.1
  rw [open_handshake, if_pos hnew.1, hnew.2.2.1, hnew.2.2.2] at honce
  refine ⟨fun more hend => ?_, honce, fun c hc => ?_,
    fun c hclosed hopened => ?_, fun msg e herr => ?_, fun msg s htype hextract hlegal hend => ?_,
    hidentity⟩
  · have hmore : reached p m (calls ++ more) = reached p (reached p m calls) more :=
      List.foldl_append
    have hending := reached_ending p (reached p m calls) more hend
    rw [← hmore] at hending
    refine ⟨hending, fun hopened => ?_⟩
    rw [hopened] at hending
    rcases hending with hending | hending | hending <;> cases hending
  · rcases step_handshake p (reached p m calls) c with hnone | ⟨_, hbefore, _⟩
    · exact absurd hnone hc
    · exact hbefore
  · rcases (step_state p (reached p m calls) c).2 with hsame | ⟨_, _, hstate⟩ | ⟨hc, hstate, _⟩
      | ⟨_, _, hstate⟩ | ⟨_, hstate⟩ | ⟨msg, hc, htype, hextract, hlegal⟩
    · exact absurd (hsame ▸ hopened) hclosed
    · rw [hopened] at hstate
      cases hstate
    · exact Or.inl ⟨hc, hstate⟩
    · rw [hopened] at hstate
      cases hstate
    · rw [hopened] at hstate
      cases hstate
    · rw [hopened] at hextract hlegal
      exact Or.inr ⟨msg, hc, htype, hextract, hlegal⟩
  · rcases onMessage_cases p (reached p m calls) msg with ⟨hsame, _⟩ | ⟨s, _, _, _, hstate, hends⟩
    · rw [hsame]
      exact Or.inl rfl
    · rw [hstate]
      exact Or.inr (hends.mpr ⟨e, herr⟩)
  · rcases onMessage_cases p (reached p m calls) msg with ⟨_, hrefused⟩ | ⟨t, _, ht, _, hstate, hends⟩
    · rw [hrefused htype s hextract] at hlegal
      cases hlegal
    · rw [hextract] at ht
      cases ht
      exact ⟨by rw [hstate], hends.mp hend⟩

/-- A pool that was opened and closed is never opened again. -/
theorem pool_lifecycle_closed : ∃ m, new Uuid.nil 1 1 = .ok m
    ∧ ∀ more, (reached Platform.basic m ([.open, .close] ++ more)).state ≠ .opened :=
  ⟨_, rfl, fun more =>
    ((pool_lifecycle Platform.basic Uuid.nil 1 1 _ rfl [.open, .close]).1 more (Or.inl rfl)).2⟩

end RunspacePoolStateMachine

end Psrp

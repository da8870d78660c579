import Psrp.Theory.Pool.Acts
import Psrp.Theory.Pool.Input
import Psrp.Theory.Pool.Notes
import Psrp.Theory.Pool.ObjectIds
import Psrp.Theory.PoolLifecycle

/-!
# The Life of a Pool

The driver of a pool refines the state machine that knows no transport.

The machine is turned by calls, and asks for messages. A run of the driver
makes some calls on it, and what it sends of the life of the pool is, call by
call, the beginning of what the machine asked for: all of it, or less when a
send does not go through (`Life`). The messages that the machine is given are
among those that were handed over, in their order.

So what holds of every sequence of calls holds of every run of the driver,
whatever is dropped in it. What the machine does not know is the `closed` flag
of the driver: with it a pool is closed by one call only.

## Main definitions

* `isLifecycle`, `lifecycleOf`: The messages of the life of a pool.
* `Turns`: What an act is to the machine.
* `Life`: A pool, the calls on its machine and what it sent for them.

## Theorems

* `Act.turns`: Every act turns the machine by one call at most.
* `lifecycle_refined`: The driver refines the machine, in every run.
-/

namespace Psrp

namespace RunspacePoolStateMachine

/-- The messages that a machine was given. -/
def heardOf (calls : List Call) : List PsrpMessage :=
  calls.filterMap fun c => match c with
    | .onMessage msg => some msg
    | _ => none

def isClose : Call → Bool
  | .close => true
  | _ => false

/-- What each call asks for. -/
def asked (p : Platform) (m : RunspacePoolStateMachine) : List Call → List (List Action)
  | [] => []
  | c :: cs => (step p m c).1.actions :: asked p (step p m c).2 cs

theorem reached_append (p : Platform) (m : RunspacePoolStateMachine) (calls more : List Call) :
    reached p m (calls ++ more) = reached p (reached p m calls) more := List.foldl_append

theorem asked_append (p : Platform) (m : RunspacePoolStateMachine) (calls more : List Call) :
    asked p m (calls ++ more) = asked p m calls ++ asked p (reached p m calls) more := by
  induction calls generalizing m with
  | nil => rfl
  | cons c cs ih =>
      rw [List.cons_append, asked, asked, ih, List.cons_append]
      rfl

/-- What is sent for some calls, when less may be sent than was asked for: of
    the handshake it is the beginning of one. -/
theorem handshake_begins (p : Platform) (m : RunspacePoolStateMachine) (calls : List Call)
    (parts : List (List Action)) (h : List.Forall₂ (· <+: ·) parts (asked p m calls)) :
    parts.flatten.filter isHandshake <+: (m.open p).1 := by
  have hpart : ∀ {m : RunspacePoolStateMachine} {c : Call} {part : List Action},
      part <+: (step p m c).1.actions →
      part.filter isHandshake <+: (step p m c).1.actions.filter isHandshake :=
    fun hpart => hpart.filter isHandshake
  -- Once the machine is past the state before the handshake, it asks for none.
  have hpast : ∀ (calls : List Call) (m : RunspacePoolStateMachine) (parts : List (List Action)),
      m.state ≠ .beforeOpen → List.Forall₂ (· <+: ·) parts (asked p m calls) →
      parts.flatten.filter isHandshake = [] := by
    intro calls
    induction calls with
    | nil =>
        intro m parts _ h
        cases h
        rfl
    | cons c cs ih =>
        intro m parts hstate h
        cases h with
        | cons hfirst hrest =>
            rw [List.flatten_cons, List.filter_append,
              ih _ _ (step_not_beforeOpen p m c hstate) hrest, List.append_nil]
            rcases step_handshake p m c with hnone | ⟨_, hbefore, _⟩
            · exact List.prefix_nil.mp (hnone ▸ hpart hfirst)
            · exact absurd hbefore hstate
  by_cases hstate : m.state = .beforeOpen
  · induction calls generalizing m parts with
    | nil =>
        cases h
        exact List.nil_prefix
    | cons c cs ih =>
        cases h with
        | cons hfirst hrest =>
            rw [List.flatten_cons, List.filter_append]
            have hfiltered := hpart hfirst
            -- The call asks for no handshake, or it is the one that opens the machine.
            rcases step_handshake p m c with hnone | ⟨rfl, _, hall⟩
            · rw [hnone, List.prefix_nil] at hfiltered
              rw [hfiltered, List.nil_append]
              by_cases hstill : (step p m c).2.state = .beforeOpen
              · have hsame : (step p m c).2 = m := by
                  rw [(step_state p m c).1, hstill, ← hstate]
                rw [hsame] at hrest
                exact ih m _ hrest hstate
              · rw [hpast cs _ _ hstill hrest]
                exact List.nil_prefix
            · have hleft : (step p m .open).2.state ≠ .beforeOpen := by
                simp only [step, «open», hstate, ne_eq, not_true_eq_false, if_false]
                exact fun heq => by cases heq
              rw [hpast cs _ _ hleft hrest, List.append_nil]
              rwa [hall] at hfiltered
  · rw [hpast calls m parts hstate h]
    exact List.nil_prefix

/-- Only closing asks for the message that says so, and for one. -/
theorem step_closes (p : Platform) (m : RunspacePoolStateMachine) (c : Call) :
    (step p m c).1.actions.countP (fun a => a.messageType = .closeRunspacePool)
      ≤ if isClose c then 1 else 0 := by
  cases c with
  | «open» =>
      simp only [step, «open»]
      split_ifs <;> simp
  | connect =>
      simp only [step, connect]
      split_ifs <;> simp
  | close =>
      rw [show isClose .close = true from rfl, if_pos rfl]
      simp only [step, close]
      split_ifs <;> simp
  | markClosed => simp [step]
  | onMessage msg => simp [step]

theorem count_close_le (p : Platform) (m : RunspacePoolStateMachine) (calls : List Call)
    (parts : List (List Action)) (h : List.Forall₂ (· <+: ·) parts (asked p m calls)) :
    parts.flatten.countP (fun a => a.messageType = .closeRunspacePool) ≤ calls.countP isClose := by
  induction calls generalizing m parts with
  | nil =>
      cases h
      exact Nat.le_refl 0
  | cons c cs ih =>
      cases h with
      | cons hfirst hrest =>
          rw [List.flatten_cons, List.countP_append, List.countP_cons]
          have hpart := hfirst.sublist.countP_le (p := fun a => a.messageType = .closeRunspacePool)
          have hstep := step_closes p m c
          have hrest := ih _ _ hrest
          omega

end RunspacePoolStateMachine

namespace RunspacePool

open Async (wp wp_bind wp_mono Ends Turn Call play)
open Relation (ReflTransGen)
open RunspacePoolStateMachine (reached asked heardOf isClose isHandshake step)

variable {τ α : Type} {d : Driver τ} {s t u : RunspacePool τ}

section Events

/-- The types of the messages that the state machine asks for. -/
def isLifecycle : MessageType → Bool
  | .sessionCapability | .initRunspacePool | .closeRunspacePool => true
  | _ => false

/-- The messages of the life of a pool that were given to the transport. -/
def lifecycleOf (h : List PoolEvent) : List PsrpMessage :=
  ((sentFrames h).map Frame.msg).filter fun msg => isLifecycle msg.messageType

/-- A message that the machine asks for, as it goes to the server. -/
def messageOf (rpid : Uuid) (a : Action) : PsrpMessage :=
  .toServer a.messageType rpid Uuid.nil a.body

theorem lifecycleOf_append (h h' : List PoolEvent) :
    lifecycleOf (h ++ h') = lifecycleOf h ++ lifecycleOf h' := by
  rw [lifecycleOf, sentFrames, List.filterMap_append, List.map_append, List.filter_append]
  rfl

theorem mem_sentFrames {h : List PoolEvent} {f : Frame} :
    f ∈ sentFrames h ↔ .sending f ∈ h := by
  unfold sentFrames
  rw [List.mem_filterMap]
  constructor
  · intro ⟨e, he, heq⟩
    cases e with
    | sending f' =>
        cases heq
        exact he
    | _ => cases heq
  · exact fun hf => ⟨_, hf, rfl⟩

/-- Events that say nothing of the life of a pool. -/
theorem lifecycleOf_eq_nil {es : List PoolEvent}
    (h : ∀ f, .sending f ∈ es → isLifecycle f.msg.messageType = false) : lifecycleOf es = [] := by
  rw [lifecycleOf, List.filter_eq_nil_iff]
  intro msg hmsg
  rcases List.mem_map.mp hmsg with ⟨f, hf, rfl⟩
  rw [h f (mem_sentFrames.mp hf)]
  exact Bool.false_ne_true

theorem isLifecycle_reserved {mt : MessageType} (h : isReserved mt = true) :
    isLifecycle mt = false := by
  cases mt <;> first | rfl | cases h

/-- The messages of a trace that are given to the transport. -/
theorem SendTrace.sending {f f' : Frame} {o : Fate} {es : List PoolEvent} (h : SendTrace f o es)
    (hf : .sending f' ∈ es) : f' = f := by
  cases h with
  | through => simpa using hf
  | stopped o ho => simpa using hf
  | exhausted e => simp at hf

theorem PublishTrace.sending {f : Frame} {o : Fate} {es : List PoolEvent} (h : PublishTrace d o es)
    (hf : .sending f ∈ es) : f.msg.messageType = .publicKey := by
  cases h with
  | started key f' hmt hdata =>
      have heq : f = f' := by simpa using hf
      rw [heq, hmt]
  | stopped f' o es ho hmt hsend => rw [hsend.sending hf, hmt]
  | keyless e => simp at hf

theorem RefusalTrace.sending {f : Frame} {ps : List DeferredHostResponse} {o : Fate}
    {es : List PoolEvent} (h : RefusalTrace ps o es)
    (hps : ∀ p ∈ ps, isReserved p.responseType = true) (hf : .sending f ∈ es) :
    isReserved f.msg.messageType = true := by
  induction h with
  | nil => cases hf
  | cons p ps f' o o' es es' ho hmt hsend hrest ih =>
      rcases List.mem_append.mp hf with hf | hf
      · rcases List.mem_cons.mp hf with hf | hf
        · cases hf
        · rw [hsend.sending hf, hmt]
          exact hps p List.mem_cons_self
      · exact ih (fun q hq => hps q (List.mem_cons_of_mem _ hq)) hf
  | dropped p ps f' es hmt hsend =>
      rcases List.mem_cons.mp hf with hf | hf
      · cases hf
      · rw [hsend.sending hf, hmt]
        exact hps p List.mem_cons_self

theorem isReserved_response (mt : MessageType) : isReserved (hostResponseType mt) = true := by
  unfold hostResponseType
  split <;> rfl

/-- A deed sends responses and public keys, and nothing else. -/
theorem Trace.sending {f : Frame} {o : Fate} {es : List PoolEvent} (htrace : Trace d s o es)
    (hs : Reserved s) (hf : .sending f ∈ es) : isReserved f.msg.messageType = true := by
  have hpublic : f.msg.messageType = .publicKey → isReserved f.msg.messageType = true := by
    intro hmt
    rw [hmt]
    rfl
  cases htrace with
  | unread o ho => cases hf
  | chunk o chunk ho => simp at hf
  | flushed p ps key f' o es hparked _ hsend hmt =>
      have hf : .sending f ∈ es := by
        split at hf <;> simpa using hf
      rw [hsend.sending hf, hmt]
      exact hs p (hparked ▸ List.mem_cons_self)
  | unheard msg o hmt => simp at hf
  | silent msg call hmt => simp at hf
  | replied msg call answer body f' o es hmt _ _ htype _ _ hsend =>
      have hf : .sending f ∈ es := by simpa using hf
      rw [hsend.sending hf, htype]
      exact isReserved_response _
  | parked msg call v hmt => simp at hf
  | parkedFirst msg call v o es hmt _ _ _ _ hpub =>
      have hf : .sending f ∈ es := by
        split at hf <;> simpa using hf
      exact hpublic (hpub.sending hf)
  | accepted msg key hmt => simp at hf
  | refused msg e o es hmt _ hrefusal =>
      have hf : .sending f ∈ es := by simpa using hf
      rcases hrefusal with ⟨_, hrefusal⟩ | ⟨_, hrefusal⟩
      · exact hrefusal.sending hs hf
      · exact hrefusal.sending hs hf
  | requested msg o es hmt _ hpub =>
      have hf : .sending f ∈ es := by simpa using hf
      exact hpublic (hpub.sending hf)

end Events

section Turns

/-- What an act is to the life of a pool: nothing, or one call on its machine. -/
inductive Turns (p : Platform) (s : RunspacePool τ) (es : List PoolEvent) (t : RunspacePool τ) : Prop
  | idle : t.machine = s.machine → t.closed = s.closed → lifecycleOf es = [] → Turns p s es t
  | heard (msg : PsrpMessage) : handedOf es = [msg] → lifecycleOf es = [] →
      t.machine = (s.machine.onMessage p msg).2 → t.closed = s.closed → Turns p s es t
  | opened (part : List Action) : part <+: (s.machine.open p).1 →
      lifecycleOf es = part.map (messageOf s.machine.rpid) → t.machine = (s.machine.open p).2 →
      t.closed = s.closed → Turns p s es t
  | closing (part : List Action) : s.closed = false → part <+: s.machine.close.1 →
      lifecycleOf es = part.map (messageOf s.machine.rpid) → t.machine = s.machine.close.2 →
      t.closed = true → Turns p s es t
  | buried : s.closed = true → lifecycleOf es = [] → t.machine = s.machine.markClosed →
      t.closed = s.closed → Turns p s es t

/-- Sending changes neither the machine nor what is parked, and adds its
    events. -/
structure SentBy (f : Frame) (s t : RunspacePool τ) (es : List PoolEvent) : Prop where
  history : t.history = s.history ++ es
  machine : t.machine = s.machine
  parked : t.deferredHostResponses = s.deferredHostResponses
  unhanded : handedOf es = []
  lifecycle : lifecycleOf es = [] ∨ lifecycleOf es = [f.msg].filter fun msg => isLifecycle msg.messageType

theorem Sends.sentBy {q : Bytes → Prog τ Unit} {mt : MessageType} {pid : Uuid} {body : Text}
    {o : Fate} (hsend : Sends q mt pid body s o t) :
    ∃ es, SentBy (frame mt pid body s) s t es
      ∧ (o = .through → lifecycleOf es
        = [(frame mt pid body s).msg].filter fun msg => isLifecycle msg.messageType) := by
  cases hsend with
  | through v hroom hran =>
      exact ⟨[.sending _, .sent _], ⟨List.append_assoc .., rfl, rfl, rfl, Or.inr rfl⟩, fun _ => rfl⟩
  | stopped o x v ho hfate hroom hran =>
      exact ⟨[.sending _], ⟨rfl, rfl, rfl, rfl, Or.inr rfl⟩, fun h => absurd h ho⟩
  | exhausted e hfull =>
      exact ⟨[.exhausted], ⟨rfl, rfl, rfl, rfl, Or.inl rfl⟩, fun h => by cases h⟩

/-- What the machine asks for is sent from the first message on. -/
theorem Executes.part {actions : List Action} {o : Fate} (h : Executes d actions o s t)
    (hlife : ∀ a ∈ actions, isLifecycle a.messageType = true) :
    t.machine = s.machine ∧ t.deferredHostResponses = s.deferredHostResponses
      ∧ ∃ es part, t.history = s.history ++ es ∧ handedOf es = [] ∧ part <+: actions
        ∧ lifecycleOf es = part.map (messageOf s.machine.rpid) := by
  induction h with
  | nil => exact ⟨rfl, rfl, [], [], (List.append_nil _).symm, rfl, List.nil_prefix, rfl⟩
  | cons hsend hrest ih =>
      rename_i s t u a as o
      have ha : isLifecycle a.messageType = true := hlife a List.mem_cons_self
      rcases hsend.sentBy with ⟨es, hsent, hthrough⟩
      rcases ih fun a' ha' => hlife a' (List.mem_cons_of_mem a ha')
        with ⟨hmachine, hparked, es', part, hes', hhanded, hpart, hlifecycle⟩
      refine ⟨hmachine.trans hsent.machine, hparked.trans hsent.parked, es ++ es', a :: part, ?_,
        ?_, List.cons_prefix_cons.mpr ⟨rfl, hpart⟩, ?_⟩
      · rw [hes', hsent.history, List.append_assoc]
      · rw [handedOf_append, hsent.unhanded, hhanded]
        rfl
      · rw [lifecycleOf_append, hthrough rfl, hlifecycle, hsent.machine, List.map_cons]
        rw [List.filter_cons_of_pos (by exact ha)]
        rfl
  | stopped ho hsend =>
      rename_i s t a as o
      have ha : isLifecycle a.messageType = true := hlife a List.mem_cons_self
      rcases hsend.sentBy with ⟨es, hsent, _⟩
      refine ⟨hsent.machine, hsent.parked, es, ?_⟩
      rcases hsent.lifecycle with hnone | hone
      · exact ⟨[], hsent.history, hsent.unhanded, List.nil_prefix, hnone⟩
      · refine ⟨[a], hsent.history, hsent.unhanded, List.cons_prefix_cons.mpr ⟨rfl, List.nil_prefix⟩, ?_⟩
        rw [hone]
        exact List.filter_cons_of_pos ha

theorem lifecycle_open (p : Platform) (m : RunspacePoolStateMachine) :
    ∀ a ∈ (m.open p).1, isLifecycle a.messageType = true := by
  unfold RunspacePoolStateMachine.open
  intro a ha
  split at ha
  · cases ha
  · simp only [List.mem_cons, List.not_mem_nil, or_false] at ha
    rcases ha with rfl | rfl <;> rfl

/-- The machine and the flag are as they were. -/
def Unturned (s t : RunspacePool τ) : Prop := t.machine = s.machine ∧ t.closed = s.closed

theorem Unturned.congr (h : Unturned s t) (hmachine : u.machine = t.machine)
    (hclosed : u.closed = t.closed) : Unturned s u := ⟨hmachine.trans h.1, hclosed.trans h.2⟩

theorem Sends.unturned {q : Bytes → Prog τ Unit} {mt : MessageType} {pid : Uuid} {body : Text}
    {o : Fate} (hsend : Sends q mt pid body t o u) (h : Unturned s t) : Unturned s u := by
  cases hsend with
  | through v hroom hran => exact h
  | stopped o x v ho hfate hroom hran => exact h
  | exhausted e hfull => exact h

theorem Publishes.unturned {o : Fate} (hpub : Publishes d t o u) (h : Unturned s t) :
    Unturned s u := by
  cases hpub with
  | started key v hsend => exact (hsend.unturned h).congr rfl rfl
  | stopped key o v ho hsend => exact hsend.unturned h
  | keyless e => exact h

theorem FailsEach.unturned {message : String} {ps : List DeferredHostResponse} {o : Fate}
    (hfails : FailsEach d message ps o t u) (h : Unturned s t) : Unturned s u := by
  induction hfails with
  | nil s => exact h
  | cons hne hsend hrest ih => exact ih (hsend.unturned h)
  | dropped hsend => exact hsend.unturned h

theorem Took.unturned {msg : PsrpMessage} (htook : Took msg t u) (h : Unturned s t) :
    Unturned s u := by
  rcases htook with ⟨_, rest, _, rfl⟩
  exact h

/-- The machine and the flag are not for deeds to change. -/
theorem Deed.unturned {o : Fate} (hdeed : Deed d o t u) (h : Unturned s t) : Unturned s u := by
  have hfed : ∀ {chunk : Bytes} {v : τ} {r : Except PsrpError Unit},
      feedChunk chunk (RunspacePool.note (.chunk chunk) { t with transport := v }) = (r, u) →
      Unturned s u := by
    intro chunk v r hfeed
    rcases feedChunk_eq chunk (RunspacePool.note (.chunk chunk) { t with transport := v })
      with ⟨r', pending, heq⟩
    rw [hfeed] at heq
    subst heq
    exact h
  cases hdeed with
  | unread => exact h
  | fed _ _ _ hfeed => exact hfed hfeed
  | unfed _ _ _ hfeed => exact hfed hfeed
  | flushed _ _ hsend => exact (hsend.unturned h).congr rfl rfl
  | unflushed _ _ _ hsend => exact hsend.unturned h
  | undecodable htook => exact htook.unturned h
  | asking htook => exact htook.unturned h
  | silent htook => exact (htook.unturned h).congr rfl rfl
  | replied htook _ _ _ _ hsend => exact hsend.unturned ((htook.unturned h).congr rfl rfl)
  | parked htook => exact (htook.unturned h).congr rfl rfl
  | parkedFirst htook _ _ _ _ _ _ hpub =>
      exact (hpub.unturned ((htook.unturned h).congr rfl rfl)).congr rfl rfl
  | unparked _ htook _ _ _ _ _ _ hpub =>
      exact hpub.unturned ((htook.unturned h).congr rfl rfl)
  | accepted htook => exact (htook.unturned h).congr rfl rfl
  | refused htook _ _ _ hfails => exact hfails.unturned ((htook.unturned h).congr rfl rfl)
  | refusing htook _ _ _ hfails => exact hfails.unturned ((htook.unturned h).congr rfl rfl)
  | requested htook _ _ hpub => exact hpub.unturned (htook.unturned h)

theorem Handover.unturned {msg : PsrpMessage} (hhand : Handover d msg t u) (h : Unturned s t) :
    Unturned s u := by
  cases hhand with
  | plain htook => exact (htook.unturned h).congr rfl rfl
  | after => exact h
  | ended => exact h

/-- What a handover notes: the message, and nothing that was sent. -/
theorem Handover.notes {msg : PsrpMessage} (hhand : Handover d msg s t) :
    ∃ es, t.history = s.history ++ es ∧ handedOf es = [msg] ∧ lifecycleOf es = [] := by
  cases hhand with
  | plain htook => exact ⟨_, htook.append rfl, rfl, rfl⟩
  | after => exact ⟨_, rfl, rfl, rfl⟩
  | ended => exact ⟨_, List.append_assoc .., rfl, rfl⟩

/-- Nor are they for chores. -/
theorem Chore.unturned (hchore : Chore d t u) (h : Unturned s t) : Unturned s u := by
  cases hchore with
  | deed hdeed => exact hdeed.unturned h
  | handed hhand => exact hhand.unturned h
  | requested hrequest hsend => exact hsend.unturned h
  | injected key => exact h
  | aside v haside => exact h
  | remarked e he => exact h

/-- A chore says nothing of the life of the pool. -/
theorem Chore.idle (hchore : Chore d s t) (hs : Reserved s) :
    Reserved t ∧ ∃ es, t.history = s.history ++ es ∧ lifecycleOf es = [] := by
  cases hchore with
  | deed hdeed =>
      rcases hdeed.trace with ⟨es, hes, htrace⟩
      refine ⟨(hdeed.answers (.refl hs)).reserved, es, hes, ?_⟩
      exact lifecycleOf_eq_nil fun f hf => isLifecycle_reserved (htrace.sending hs hf)
  | handed hhand =>
      rcases hhand.notes with ⟨es, hes, _, hlifecycle⟩
      exact ⟨(hhand.answers (.refl hs)).reserved, es, hes, hlifecycle⟩
  | requested hrequest hsend =>
      rename_i mt pid body o
      rcases hsend.sentBy with ⟨es, hsent, _⟩
      have hnone : [(frame mt pid body s).msg].filter (fun msg => isLifecycle msg.messageType)
          = [] := by
        cases hrequest <;> rfl
      refine ⟨?_, es, hsent.history, ?_⟩
      · unfold Reserved
        rw [hsent.parked]
        exact hs
      · rcases hsent.lifecycle with h | h
        · exact h
        · rw [h, hnone]
  | injected key => exact ⟨hs, _, rfl, rfl⟩
  | aside v haside => exact ⟨hs, [], (List.append_nil _).symm, rfl⟩
  | remarked e he =>
      refine ⟨hs, [e], rfl, lifecycleOf_eq_nil fun f hf => ?_⟩
      rw [← List.mem_singleton.mp hf] at he
      cases he

/-- Every act turns the machine by one call at most. -/
theorem Act.turns (hact : Act d s t) (hs : Reserved s) :
    Reserved t ∧ ∃ es, t.history = s.history ++ es ∧ Turns d.platform.toPlatform s es t := by
  -- The machine is only moved by what is heard, by opening and by closing.
  have hself : Unturned s s := ⟨rfl, rfl⟩
  cases hact with
  | chore hchore =>
      rcases hchore.idle hs with ⟨hreserved, es, hes, hlifecycle⟩
      have hsame := hchore.unturned hself
      exact ⟨hreserved, es, hes, .idle hsame.1 hsame.2 hlifecycle⟩
  | heard hhand =>
      rename_i u msg
      rcases hhand.notes with ⟨es, hes, hhanded, hlifecycle⟩
      have hsame := hhand.unturned hself
      refine ⟨(hhand.answers (.refl hs)).reserved, es, hes, ?_⟩
      exact .heard msg hhanded hlifecycle (by rw [hsame.1]) hsame.2
  | opened hexecutes =>
      rcases hexecutes.part (lifecycle_open d.platform.toPlatform s.machine) with
        ⟨hmachine, hparked, es, part, hes, _, hpart, hlifecycle⟩
      have hrpid := (machine_open d.platform.toPlatform s.machine).2
      refine ⟨?_, es, hes, .opened part hpart ?_ hmachine hexecutes.closed⟩
      · unfold Reserved
        rw [hparked]
        exact hs
      · rw [hlifecycle]
        exact congrArg (fun r => part.map (messageOf r)) hrpid
  | closing hclosed hexecutes =>
      -- Closing asks for one message, if any.
      have hlife : ∀ a ∈ s.machine.close.1, isLifecycle a.messageType = true := by
        unfold RunspacePoolStateMachine.close
        intro a ha
        split at ha
        · cases ha
        · rw [List.mem_singleton] at ha
          rw [ha]
          rfl
      rcases hexecutes.part hlife with ⟨hmachine, hparked, es, part, hes, _, hpart, hlifecycle⟩
      have hrpid : s.machine.close.2.rpid = s.machine.rpid := by
        unfold RunspacePoolStateMachine.close
        split <;> rfl
      refine ⟨?_, es, hes, .closing part hclosed hpart ?_ hmachine hexecutes.closed⟩
      · unfold Reserved
        rw [hparked]
        exact hs
      · rw [hlifecycle]
        exact congrArg (fun r => part.map (messageOf r)) hrpid
  | buried hclosed => exact ⟨hs, [], (List.append_nil _).symm, .buried hclosed rfl rfl rfl⟩
  | published hkey hpending hpub =>
      rcases hpub.trace with ⟨es, hes, htrace⟩
      have hsame := hpub.unturned hself
      refine ⟨(hpub.answers (.refl hs)).reserved, es, hes, .idle hsame.1 hsame.2 ?_⟩
      exact lifecycleOf_eq_nil fun f hf => by rw [htrace.sending hf]; rfl

end Turns

section Life

variable {p : Platform} {m : RunspacePoolStateMachine}

/-- A pool that began with some machine, the calls that were made on it since,
    and what was sent for each of them. -/
structure Life (p : Platform) (m : RunspacePoolStateMachine)
    (calls : List RunspacePoolStateMachine.Call) (parts : List (List Action))
    (s : RunspacePool τ) : Prop where
  machine : s.machine = reached p m calls
  /-- The machine hears what was handed over, in that order. -/
  heard : (heardOf calls).Sublist (handedOf s.history)
  /-- For each call the beginning of what it asks for is sent, and nothing
      else of the life of the pool. -/
  begun : List.Forall₂ (· <+: ·) parts (asked p m calls)
  sent : lifecycleOf s.history = parts.flatten.map (messageOf m.rpid)
  /-- The machine is never told to reconnect, and to close once. -/
  unconnected : .connect ∉ calls
  closes : calls.countP isClose = if s.closed then 1 else 0

/-- A call more. -/
theorem Life.call {calls : List RunspacePoolStateMachine.Call} {parts : List (List Action)}
    (h : Life p m calls parts s) {es : List PoolEvent} (hes : t.history = s.history ++ es)
    (c : RunspacePoolStateMachine.Call) {part : List Action} (hmachine : t.machine = (step p s.machine c).2)
    (hheard : heardOf [c] = [] ∨ heardOf [c] = handedOf es)
    (hpart : part <+: (step p s.machine c).1.actions)
    (hsent : lifecycleOf es = part.map (messageOf s.machine.rpid)) (hc : c ≠ .connect)
    (hcloses : (if t.closed then 1 else 0) = (if s.closed then 1 else 0) + [c].countP isClose) :
    Life p m (calls ++ [c]) (parts ++ [part]) t where
  machine := by
    rw [hmachine, h.machine, RunspacePoolStateMachine.reached_append]
    rfl
  heard := by
    have hsnoc : heardOf (calls ++ [c]) = heardOf calls ++ heardOf [c] := List.filterMap_append ..
    rw [hes, handedOf_append, hsnoc]
    refine h.heard.append ?_
    rcases hheard with hnone | hone
    · rw [hnone]
      exact List.nil_sublist _
    · rw [hone]
  begun := by
    rw [RunspacePoolStateMachine.asked_append]
    refine List.rel_append h.begun (.cons ?_ .nil)
    rw [← h.machine]
    exact hpart
  sent := by
    have hrpid : s.machine.rpid = m.rpid := by
      rw [h.machine]
      exact (RunspacePoolStateMachine.reached_identity p m calls).1
    rw [hes, lifecycleOf_append, h.sent, hsent, hrpid, List.flatten_append, List.map_append]
    simp
  unconnected := by
    intro hmem
    rcases List.mem_append.mp hmem with hold | hlast
    · exact h.unconnected hold
    · exact hc (List.mem_singleton.mp hlast).symm
  closes := by
    rw [List.countP_append, h.closes, hcloses]

/-- Every act goes on with a life, by one call at most. -/
theorem Act.life (hact : Act d s t) (hs : Reserved s)
    {calls : List RunspacePoolStateMachine.Call} {parts : List (List Action)}
    (h : Life d.platform.toPlatform m calls parts s) :
    ∃ calls' parts', Life d.platform.toPlatform m calls' parts' t := by
  rcases (hact.turns hs).2 with ⟨es, hes, hturns⟩
  cases hturns with
  | idle hmachine hclosed hlifecycle =>
      refine ⟨calls, parts, hmachine.trans h.machine, ?_, h.begun, ?_, h.unconnected, ?_⟩
      · rw [hes, handedOf_append]
        exact h.heard.trans (List.sublist_append_left ..)
      · rw [hes, lifecycleOf_append, hlifecycle, List.append_nil, h.sent]
      · rw [hclosed]
        exact h.closes
  | heard msg hhanded hlifecycle hmachine hclosed =>
      have hpart : [] <+: (step d.platform.toPlatform s.machine (.onMessage msg)).1.actions :=
        List.nil_prefix
      exact ⟨_, _, h.call hes (.onMessage msg) hmachine (Or.inr hhanded.symm) hpart hlifecycle
        (by intro heq; cases heq) (by rw [hclosed]; rfl)⟩
  | opened part hpart hlifecycle hmachine hclosed =>
      exact ⟨_, _, h.call hes .open hmachine (Or.inl rfl) hpart hlifecycle
        (by intro heq; cases heq) (by rw [hclosed]; rfl)⟩
  | closing part hopen hpart hlifecycle hmachine hclosed =>
      exact ⟨_, _, h.call hes .close hmachine (Or.inl rfl) hpart hlifecycle
        (by intro heq; cases heq) (by rw [hopen, hclosed]; rfl)⟩
  | buried hopen hlifecycle hmachine hclosed =>
      have hpart : [] <+: (step d.platform.toPlatform s.machine .markClosed).1.actions :=
        List.nil_prefix
      exact ⟨_, _, h.call hes .markClosed hmachine (Or.inl rfl) hpart hlifecycle
        (by intro heq; cases heq) (by rw [hclosed]; rfl)⟩

/-- A pool that is ending goes on ending. -/
theorem Act.ending (hact : Act d s t) (hs : Reserved s)
    (h : RunspacePoolStateMachine.Ending s.machine.state) :
    RunspacePoolStateMachine.Ending t.machine.state := by
  have hstep : ∀ c, RunspacePoolStateMachine.Ending (step d.platform.toPlatform s.machine c).2.state :=
    fun c => RunspacePoolStateMachine.step_ending _ _ c h
  rcases (hact.turns hs).2 with ⟨es, hes, hturns⟩
  cases hturns with
  | idle hmachine => rwa [hmachine]
  | heard msg _ _ hmachine => rw [hmachine]; exact hstep (.onMessage msg)
  | opened part _ _ hmachine => rw [hmachine]; exact hstep .open
  | closing part _ _ _ hmachine => rw [hmachine]; exact hstep .close
  | buried _ _ hmachine => rw [hmachine]; exact hstep .markClosed

theorem Act.closed (hact : Act d s t) (hs : Reserved s) (h : s.closed = true) :
    t.closed = true := by
  rcases (hact.turns hs).2 with ⟨es, hes, hturns⟩
  cases hturns with
  | idle _ hclosed => rwa [hclosed]
  | heard msg _ _ _ hclosed => rwa [hclosed]
  | opened part _ _ _ hclosed => rwa [hclosed]
  | closing part _ _ _ _ hclosed => exact hclosed
  | buried _ _ _ hclosed => rwa [hclosed]

/-- The driver refines the machine, in every run: it makes calls on it and
    sends what the machine asks for. So whatever is done with a pool, and
    wherever it is dropped, the handshake is sent once at most and from its
    beginning, the pool is closed once at most, and what is ending or closed
    stays so. -/
theorem lifecycle_refined (d : Driver τ) (transport : τ) (m : RunspacePoolStateMachine) (n : UInt64)
    (key0 : Option SessionKey) (ops more : List (Call Answer PoolOperation)) :
    let s := (play (perform d) ops (attached transport m n key0)).2
    let s' := (play (perform d) more s).2
    (∃ calls parts, Life d.platform.toPlatform m calls parts s)
      ∧ (lifecycleOf s.history).filter (fun msg => msg.messageType = .sessionCapability
          || msg.messageType = .initRunspacePool)
        <+: (if m.state = .beforeOpen then RunspacePoolStateMachine.handshake d.platform.toPlatform
            m.minRunspaces m.maxRunspaces else []).map (messageOf m.rpid)
      ∧ (lifecycleOf s.history).countP (fun msg => msg.messageType = .closeRunspacePool)
        ≤ (if s.closed then 1 else 0)
      ∧ (RunspacePoolStateMachine.Ending s.machine.state →
        RunspacePoolStateMachine.Ending s'.machine.state)
      ∧ (s.closed = true → s'.closed = true)
      ∧ s.machine.rpid = m.rpid ∧ s.machine.minRunspaces = m.minRunspaces
      ∧ s.machine.maxRunspaces = m.maxRunspaces := by
  -- What every act keeps, a run keeps.
  have hrun : ∀ (ops : List (Call Answer PoolOperation)) (I : RunspacePool τ → Prop)
      (s : RunspacePool τ), (∀ s t, Reserved s → I s → Act d s t → I t) → Reserved s → I s →
      Reserved (play (perform d) ops s).2 ∧ I (play (perform d) ops s).2 := by
    intro ops I s hstep hs hI
    exact play_acts (I := fun s => Reserved s ∧ I s)
      (fun s t ht hact => ⟨(hact.turns ht.1).1, hstep s t ht.1 ht.2 hact⟩) ops ⟨hs, hI⟩
  have hstart : Reserved (attached transport m n key0) := fun p hp => by cases hp
  -- The machine came by calls, each of which was begun on the wire.
  have hlife := hrun ops (fun s => ∃ calls parts, Life d.platform.toPlatform m calls parts s) _
    (fun s t hs ⟨calls, parts, h⟩ hact => hact.life hs h) hstart
    ⟨[], [], rfl, List.nil_sublist _, .nil, rfl, List.not_mem_nil, rfl⟩
  rcases hlife with ⟨hreserved, calls, parts, hlife⟩
  refine ⟨⟨calls, parts, hlife⟩, ?_, ?_, fun hending => ?_, fun hclosed => ?_, ?_⟩
  · -- What was sent is what the calls asked for, up to where each was cut short.
    have hbegins := (RunspacePoolStateMachine.handshake_begins d.platform.toPlatform m calls parts
      hlife.begun).map (messageOf m.rpid)
    rw [hlife.sent, List.filter_map, ← RunspacePoolStateMachine.open_handshake]
    exact hbegins
  · have hcount := RunspacePoolStateMachine.count_close_le d.platform.toPlatform m calls parts
      hlife.begun
    rw [hlife.closes] at hcount
    rw [hlife.sent, List.countP_map]
    exact hcount
  · exact (hrun more (fun s => RunspacePoolStateMachine.Ending s.machine.state) _
      (fun s t hs h hact => hact.ending hs h) hreserved hending).2
  · exact (hrun more (fun s => s.closed = true) _ (fun s t hs h hact => hact.closed hs h)
      hreserved hclosed).2
  · have hidentity := RunspacePoolStateMachine.reached_identity d.platform.toPlatform m calls
    rw [hlife.machine]
    exact hidentity

end Life

end RunspacePool

end Psrp

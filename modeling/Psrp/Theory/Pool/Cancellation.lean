import Psrp.Theory.Pool.Errors
import Psrp.Theory.Pool.Isolation
import Psrp.Theory.Pool.Notes

/-!
# Cancelling a Pipeline

What the two receive loops do with a token, whenever it fires.

A select races the token against a read that waits at many places, and drops
the read where it stands. `CancellationLaw` says what comes of it, event by
event: the stop is signalled at most once, after the token fired and before a
terminal state is read; and the last thing that is read decides how the loop
ends, together with whether the stop was signalled by then.

Nothing is lost to a dropped read. The messages of streams and states are
handed to the loop where they are taken out of the buffer, with no wait in
between (`ReadNotes`), so that a read that is dropped has taken none of them.

The invariant of a loop is that it is still going (`Going`): no read has
failed, and no message of the pipeline has decided it. `Undecided` is the part
of it that a signal on its way does not break.

## Main definitions

* `Announces`: A message announces a state of a pipeline.
* `CancellationLaw`: What a token makes of a pipeline.

## Theorems

* `cancellation_protocol`: The law holds of both loops.
-/

namespace Psrp

namespace RunspacePool

open Async (wp wp_bind wp_mono wp_and Ends Turn Call play)
open Relation (ReflTransGen)

variable {τ α : Type} {d : Driver τ} {s t u : RunspacePool τ}

section Law

variable {p : PoolPlatform} {pid rpid : Uuid} {es : List PoolEvent} {b : Bool}
  {r : PipelineResult} {msg : PsrpMessage}

/-- A message announces a state of a pipeline. -/
structure Announces (p : Platform) (pid rpid : Uuid) (state : PipelineState) (msg : PsrpMessage) :
    Prop where
  own : isOwn pid rpid msg = true
  type : msg.messageType = .pipelineState
  state : extractPipelineState p msg.data = .ok state

/-- Something was read that stops a pipeline: its own state, or an error of the
    transport. -/
def ReadsStopped (p : Platform) (pid rpid : Uuid) (es : List PoolEvent) : Prop :=
  .raised .stopped ∈ es ∨ ∃ msg, .handed msg ∈ es ∧ Announces p pid rpid .stopped msg

/-- The messages of a pipeline that were handed to whoever reads. -/
def ownHanded (pid rpid : Uuid) (es : List PoolEvent) : List PsrpMessage :=
  (handedOf es).filter (isOwn pid rpid)

/-- What a token makes of a pipeline: the events of the loop, and how it
    ends. -/
structure CancellationLaw (p : PoolPlatform) (pid rpid : Uuid) (es : List PoolEvent)
    (x : Exit PsrpError PipelineResult) : Prop where
  /-- The stop is signalled at most once, after the token fired, and before a
      terminal state of the pipeline is read. -/
  signals : ∀ before after, es = before ++ .signalling :: after →
    .signalling ∉ before ∧ .fired ∈ before
    ∧ ∀ msg state, .handed msg ∈ before → Announces p.toPlatform pid rpid state msg →
      state.isTerminal = false
  /-- The pipeline was cancelled exactly when the stop was signalled and, after
      that, something was read that stops it. -/
  cancelled : x = .err .cancelled ↔ ∃ before after, es = before ++ .signalled :: after
    ∧ ReadsStopped p.toPlatform pid rpid after
  /-- A stop that is not its own is an error of its own. -/
  stopped : .signalled ∉ es → ReadsStopped p.toPlatform pid rpid es → x = .err .stopped
  /-- A pipeline that completed returns everything that was read, signalled or
      not. -/
  completed : ∀ msg, .handed msg ∈ es → Announces p.toPlatform pid rpid .completed msg →
    x = .ok (collected p.toPlatform (ownHanded pid rpid es) .completed)
  /-- What is taken of a pipeline is handed to the loop there and then. -/
  delivered : ∀ before msg after, es = before ++ .took msg :: after →
    isPipelineMessage msg.messageType → ∃ rest, after = .handed msg :: rest

/-- The part of the law that is about one event, what came before it, and what
    comes after. -/
def Lawful (p : Platform) (pid rpid : Uuid) (before : List PoolEvent) (e : PoolEvent)
    (after : List PoolEvent) : Prop :=
  match e with
  | .signalling => .signalling ∉ before ∧ .fired ∈ before
    ∧ ∀ msg state, .handed msg ∈ before → Announces p pid rpid state msg →
      state.isTerminal = false
  | .took msg => isPipelineMessage msg.messageType → ∃ rest, after = .handed msg :: rest
  | _ => True

/-- Nothing has decided the pipeline yet. -/
structure Undecided (p : PoolPlatform) (pid rpid : Uuid) (es : List PoolEvent) : Prop where
  lawful : Throughout (Lawful p.toPlatform pid rpid) es
  unraised : ∀ e, .raised e ∉ es
  undecided : ∀ msg ∈ ownHanded pid rpid es, ending p.toPlatform msg = none

/-- A loop is going: nothing has decided it, the flag says whether the stop was
    signalled, and the result holds what was read. -/
structure Going (p : PoolPlatform) (pid rpid : Uuid) (b : Bool) (r : PipelineResult)
    (es : List PoolEvent) : Prop extends Undecided p pid rpid es where
  signalled : .signalled ∈ es ↔ b = true
  signalling : .signalling ∈ es → b = true
  collected : Collected p.toPlatform (ownHanded pid rpid es) r

theorem ownHanded_append (es es' : List PoolEvent) :
    ownHanded pid rpid (es ++ es') = ownHanded pid rpid es ++ ownHanded pid rpid es' := by
  rw [ownHanded, handedOf_append, List.filter_append]
  rfl

theorem mem_ownHanded {msg : PsrpMessage} :
    msg ∈ ownHanded pid rpid es ↔ .handed msg ∈ es ∧ isOwn pid rpid msg = true := by
  rw [ownHanded, List.mem_filter, mem_handedOf]

/-- A terminal state ends its pipeline. -/
theorem Announces.ending {p : Platform} {state : PipelineState}
    (h : Announces p pid rpid state msg) (hstate : state.isTerminal = true) :
    ending p msg = some (.reached state) := by
  rw [Psrp.ending, if_pos h.type, h.state]
  simp only [hstate, if_true]

theorem Undecided.not_terminal (h : Undecided p pid rpid es) {state : PipelineState}
    (hmsg : .handed msg ∈ es) (hannounces : Announces p.toPlatform pid rpid state msg) :
    state.isTerminal = false := by
  by_contra hterminal
  rw [Bool.not_eq_false] at hterminal
  have hnone := h.undecided msg (mem_ownHanded.mpr ⟨hmsg, hannounces.own⟩)
  rw [hannounces.ending hterminal] at hnone
  cases hnone

theorem Undecided.not_stopped (h : Undecided p pid rpid es) :
    ¬ ReadsStopped p.toPlatform pid rpid es := by
  rintro (hraised | ⟨msg, hmsg, hannounces⟩)
  · exact h.unraised _ hraised
  · cases h.not_terminal hmsg hannounces

/-- What is lawful stays so when more happens. -/
theorem lawful_append {p : Platform} (before : List PoolEvent) (e : PoolEvent)
    (after es' : List PoolEvent) (h : Lawful p pid rpid before e after) :
    Lawful p pid rpid before e (after ++ es') := by
  cases e with
  | took msg =>
      intro hmt
      rcases h hmt with ⟨rest, hrest⟩
      exact ⟨rest ++ es', by rw [hrest, List.cons_append]⟩
  | _ => exact h

/-- Where a loop stands when it ends undecided. -/
theorem Undecided.law (h : Undecided p pid rpid es) {x : Exit PsrpError PipelineResult}
    (hx : x ≠ .err .cancelled) : CancellationLaw p pid rpid es x where
  signals before after heq := h.lawful before _ after heq
  cancelled := by
    refine iff_of_false hx ?_
    rintro ⟨before, after, rfl, hstopped⟩
    refine h.not_stopped (hstopped.imp (fun hraised => ?_) fun ⟨msg, hmsg, hannounces⟩ => ?_)
    · exact List.mem_append_right _ (List.mem_cons_of_mem _ hraised)
    · exact ⟨msg, List.mem_append_right _ (List.mem_cons_of_mem _ hmsg), hannounces⟩
  stopped _ hstopped := absurd hstopped h.not_stopped
  completed msg hmsg hannounces := by cases h.not_terminal hmsg hannounces
  delivered before msg after heq := h.lawful before _ after heq

/-- An event that neither signals nor hands anything over. -/
def isPassing : PoolEvent → Prop
  | .took msg => ¬ isPipelineMessage msg.messageType
  | .handed _ | .signalling | .signalled | .raised _ => False
  | _ => True

theorem isInner.passing {e : PoolEvent} (h : isInner e) : isPassing e := by
  cases e with
  | fired | dropped => trivial
  | _ => exact h

theorem isPassing.lawful {p : Platform} {e : PoolEvent} (h : isPassing e)
    (before after : List PoolEvent) : Lawful p pid rpid before e after := by
  cases e with
  | signalling => exact h.elim
  | took msg => exact fun hmt => absurd hmt h
  | _ => trivial

theorem ownHanded_passing {es' : List PoolEvent} (h : ∀ e ∈ es', isPassing e) :
    ownHanded pid rpid es' = [] := by
  refine List.eq_nil_iff_forall_not_mem.mpr fun msg hmsg => ?_
  exact h _ (mem_ownHanded.mp hmsg).1

/-- More events that pass a loop by. -/
theorem Undecided.pass (h : Undecided p pid rpid es) {es' : List PoolEvent}
    (hpass : ∀ e ∈ es', isPassing e) : Undecided p pid rpid (es ++ es') where
  lawful := by
    refine h.lawful.append lawful_append fun before e after heq => ?_
    refine (hpass e ?_).lawful _ _
    rw [heq]
    exact List.mem_append_right _ List.mem_cons_self
  unraised e he := (List.mem_append.mp he).elim (h.unraised e) fun he => hpass _ he
  undecided msg hmsg := by
    rw [ownHanded_append, ownHanded_passing hpass, List.append_nil] at hmsg
    exact h.undecided msg hmsg

theorem Going.pass (h : Going p pid rpid b r es) {es' : List PoolEvent}
    (hpass : ∀ e ∈ es', isPassing e) : Going p pid rpid b r (es ++ es') where
  toUndecided := h.toUndecided.pass hpass
  signalled := by
    rw [List.mem_append, ← h.signalled]
    exact ⟨fun he => he.elim id fun he => absurd (hpass _ he) id, Or.inl⟩
  signalling he := (List.mem_append.mp he).elim h.signalling fun he => absurd (hpass _ he) id
  collected := by
    rw [ownHanded_append, ownHanded_passing hpass, List.append_nil]
    exact h.collected

/-- The stop is about to be signalled. -/
theorem Going.begin (h : Going p pid rpid false r es) (hfired : .fired ∈ es) :
    Undecided p pid rpid (es ++ [.signalling]) where
  lawful := by
    refine h.lawful.append lawful_append (Throughout.cons ?_ throughout_nil)
    rw [List.append_nil]
    refine ⟨fun hsignalling => ?_, hfired, fun msg state => h.not_terminal⟩
    cases h.signalling hsignalling
  unraised e he := by
    rw [List.mem_append, List.mem_singleton] at he
    exact he.elim (h.unraised e) nofun
  undecided msg hmsg := by
    rw [ownHanded_append, show ownHanded pid rpid [.signalling] = [] from rfl,
      List.append_nil] at hmsg
    exact h.undecided msg hmsg

/-- The stop was signalled. -/
theorem Going.signal (h : Going p pid rpid false r es) (hfired : .fired ∈ es) :
    Going p pid rpid true r (es ++ [.signalling] ++ [.signalled]) where
  lawful := (h.begin hfired).lawful.append lawful_append (Throughout.cons trivial throughout_nil)
  unraised e he := by
    rw [List.mem_append, List.mem_singleton] at he
    exact he.elim ((h.begin hfired).unraised e) nofun
  undecided msg hmsg := by
    rw [ownHanded_append, show ownHanded pid rpid [.signalled] = [] from rfl,
      List.append_nil] at hmsg
    exact (h.begin hfired).undecided msg hmsg
  signalled := iff_of_true (List.mem_append_right _ (List.mem_singleton_self _)) rfl
  signalling _ := rfl
  collected := by
    rw [ownHanded_append, ownHanded_append]
    change Collected p.toPlatform ((ownHanded pid rpid es ++ []) ++ []) r
    rw [List.append_nil, List.append_nil]
    exact h.collected

/-- A message is handed over. -/
theorem throughout_handing {before es' : List PoolEvent} (hes : Handing msg es') :
    Throughout (fun before' => Lawful p.toPlatform pid rpid (before ++ before')) es' := by
  rcases hes with ⟨inner, hinner, rfl | rfl⟩
  · intro before' e after heq
    rcases split_of_snoc heq with ⟨rfl, _⟩ | ⟨rest, _, hsplit⟩
    · trivial
    · refine (hinner e ?_).passing.lawful _ _
      rw [hsplit]
      exact List.mem_append_right _ List.mem_cons_self
  · intro before' e after heq
    rw [show inner ++ [PoolEvent.took msg, .handed msg] = (inner ++ [.took msg]) ++ [.handed msg] by
      rw [List.append_assoc]; rfl] at heq
    rcases split_of_snoc heq with ⟨rfl, _⟩ | ⟨rest, rfl, hsplit⟩
    · trivial
    · rcases split_of_snoc hsplit with ⟨rfl, rfl, _⟩ | ⟨rest', _, hsplit'⟩
      · exact fun _ => ⟨[], rfl⟩
      · refine (hinner e ?_).passing.lawful _ _
        rw [hsplit']
        exact List.mem_append_right _ List.mem_cons_self

theorem ownHanded_handing {es' : List PoolEvent} (hes : Handing msg es') :
    ownHanded pid rpid es' = if isOwn pid rpid msg = true then [msg] else [] := by
  rcases hes with ⟨inner, hinner, rfl | rfl⟩
  all_goals
    rw [ownHanded_append, ownHanded_passing fun e he => (hinner e he).passing, List.nil_append]
    exact List.filter_cons ..

theorem mem_handing {es' : List PoolEvent} (hes : Handing msg es') {e : PoolEvent} (he : e ∈ es') :
    e = .handed msg ∨ e = .took msg ∨ isInner e := by
  rcases hes with ⟨inner, hinner, rfl | rfl⟩
  · rw [List.mem_append, List.mem_singleton] at he
    exact he.elim (fun he => Or.inr (Or.inr (hinner e he))) Or.inl
  · rw [List.mem_append, List.mem_pair] at he
    rcases he with he | rfl | rfl
    · exact Or.inr (Or.inr (hinner e he))
    · exact Or.inr (Or.inl rfl)
    · exact Or.inl rfl

/-- A message that does not decide the pipeline. -/
theorem Going.handed {es' : List PoolEvent} {r' : PipelineResult} (h : Going p pid rpid b r es)
    (hes : Handing msg es') (hending : isOwn pid rpid msg = true → ending p.toPlatform msg = none)
    (hr : Collected p.toPlatform (ownHanded pid rpid (es ++ es')) r') :
    Going p pid rpid b r' (es ++ es') where
  lawful := h.lawful.append lawful_append (throughout_handing hes)
  unraised e he := by
    rcases List.mem_append.mp he with he | he
    · exact h.unraised e he
    · rcases mem_handing hes he with he | he | he
      · cases he
      · cases he
      · exact he
  undecided msg' hmsg := by
    rw [ownHanded_append, ownHanded_handing hes, List.mem_append] at hmsg
    refine hmsg.elim (h.undecided msg') fun hmsg => ?_
    split at hmsg
    · next hown =>
      rw [List.mem_singleton.mp hmsg]
      exact hending hown
    · exact absurd hmsg List.not_mem_nil
  signalled := by
    rw [← h.signalled, List.mem_append]
    refine ⟨fun he => he.elim id fun he => ?_, Or.inl⟩
    rcases mem_handing hes he with he | he | he
    · cases he
    · cases he
    · exact he.elim
  signalling he := by
    refine (List.mem_append.mp he).elim h.signalling fun he => ?_
    rcases mem_handing hes he with he | he | he
    · cases he
    · cases he
    · exact he.elim
  collected := hr

/-- What a message announces, when a state decides the pipeline. -/
theorem announces_of_ending {p : Platform} {state : PipelineState} (hown : isOwn pid rpid msg = true)
    (h : ending p msg = some (.reached state)) : Announces p pid rpid state msg := by
  unfold ending at h
  by_cases htype : msg.messageType = .pipelineState
  · rw [if_pos htype] at h
    cases hextract : extractPipelineState p msg.data with
    | error e =>
        rw [hextract] at h
        cases h
    | ok state' =>
        rw [hextract] at h
        simp only at h
        split at h
        · cases h
          exact ⟨hown, htype, hextract⟩
        · cases h
  · rw [if_neg htype] at h
    split at h
    · split at h <;> cases h
    · cases h

theorem extractPipelineState_raises {p : Platform} {xml : Text} {e : PsrpError}
    (h : extractPipelineState p xml = .error e) : IsLocal e := by
  unfold extractPipelineState at h
  rcases error_of_bind h with h | ⟨parsed, _, h⟩
  · exact (parseClixml_raises h).isLocal
  · simp only at h
    split at h
    · cases h
    · cases h
      exact isLocal_protocol _

/-- A malformed message is an error of the codec. -/
theorem malformed_isLocal {p : Platform} {e : PsrpError}
    (h : ending p msg = some (.malformed e)) : IsLocal e := by
  unfold ending at h
  by_cases htype : msg.messageType = .pipelineState
  · rw [if_pos htype] at h
    cases hextract : extractPipelineState p msg.data with
    | error e' =>
        rw [hextract] at h
        cases h
        exact extractPipelineState_raises hextract
    | ok state =>
        rw [hextract] at h
        simp only at h
        split at h <;> cases h
  · rw [if_neg htype] at h
    split at h
    · cases hparse : parseClixml p msg.data with
      | error e' =>
          rw [hparse] at h
          cases h
          exact (parseClixml_raises hparse).isLocal
      | ok values =>
          rw [hparse] at h
          cases h
    · cases h

/-- Only a pipeline that was stopped after the signal was cancelled. -/
theorem verdict_cancelled {before : List PsrpMessage} {e : Ending}
    (hending : ending p.toPlatform msg = some e)
    (h : exitOf (verdict p b before msg e) = .err .cancelled) : e = .reached .stopped ∧ b = true := by
  cases e with
  | malformed e' =>
      cases h
      exact absurd rfl (malformed_isLocal hending).ne_cancelled
  | reached state =>
      cases state with
      | stopped =>
          cases b with
          | true => exact ⟨rfl, rfl⟩
          | false => cases h
      | _ => cases h

/-- A state message carries nothing of a stream. -/
theorem collected_state {p : Platform} {state : PipelineState} (msgs : List PsrpMessage)
    (h : msg.messageType = .pipelineState) :
    collected p (msgs ++ [msg]) state = collected p msgs state := by
  have hnone : ∀ k, streamValues p k (msgs ++ [msg]) = streamValues p k msgs := by
    intro k
    have hk : msg.messageType ≠ k.messageType := by
      rw [h]
      cases k <;> exact MessageType.noConfusion
    have hone : streamValues p k [msg] = [] := by
      rw [streamValues, List.filter_cons_of_neg (by rw [decide_eq_true_eq]; exact hk)]
      rfl
    rw [streamValues_append, hone, List.append_nil]
  simp only [collected, hnone]

/-- The message that decides the pipeline is the last one read. -/
theorem Going.decided {es' : List PoolEvent} {e : Ending} (h : Going p pid rpid b r es)
    (hes : Handing msg es') (hown : isOwn pid rpid msg = true)
    (hending : ending p.toPlatform msg = some e) :
    CancellationLaw p pid rpid (es ++ es')
      (exitOf (verdict p b (ownHanded pid rpid es) msg e)) := by
  have hlawful : Throughout (Lawful p.toPlatform pid rpid) (es ++ es') :=
    h.lawful.append lawful_append (throughout_handing hes)
  have hhanded : .handed msg ∈ es' := by
    rcases hes with ⟨inner, _, rfl | rfl⟩
    · exact List.mem_append_right _ (List.mem_singleton_self _)
    · exact List.mem_append_right _ (List.mem_pair.mpr (Or.inr rfl))
  -- The flag says whether the stop was signalled, and handing the message signals nothing.
  have hsignalled : .signalled ∈ es ++ es' ↔ b = true := by
    rw [← h.signalled, List.mem_append]
    refine ⟨fun he => he.elim id fun he => ?_, Or.inl⟩
    rcases mem_handing hes he with he | he | he
    · cases he
    · cases he
    · exact he.elim
  -- A terminal state that was read is that of the last message.
  have hlast : ∀ {msg' state}, .handed msg' ∈ es ++ es' →
      Announces p.toPlatform pid rpid state msg' → state.isTerminal = true →
      msg' = msg ∧ e = .reached state := by
    intro msg' state hmsg hannounces hterminal
    rcases List.mem_append.mp hmsg with hmsg | hmsg
    · rw [h.not_terminal hmsg hannounces] at hterminal
      cases hterminal
    · rcases mem_handing hes hmsg with heq | heq | heq
      · cases heq
        rw [hannounces.ending hterminal] at hending
        exact ⟨rfl, (Option.some.inj hending).symm⟩
      · cases heq
      · exact heq.elim
  -- Nothing was raised, so what was read of a stop is the last message.
  have hstopped : ReadsStopped p.toPlatform pid rpid (es ++ es') → e = .reached .stopped := by
    rintro (hraised | ⟨msg', hmsg, hannounces⟩)
    · rcases List.mem_append.mp hraised with he | he
      · exact absurd he (h.unraised _)
      · rcases mem_handing hes he with he | he | he
        · cases he
        · cases he
        · exact he.elim
    · exact (hlast hmsg hannounces rfl).2
  refine ⟨fun before after heq => hlawful before _ after heq, ?_, ?_, ?_,
    fun before msg after heq => hlawful before _ after heq⟩
  · constructor
    · intro hx
      -- Cancelled: the stop was signalled, and the state followed.
      rcases verdict_cancelled hending hx with ⟨rfl, hb⟩
      rcases List.mem_iff_append.mp (h.signalled.mpr hb) with ⟨before, after, rfl⟩
      refine ⟨before, after ++ es', List.append_assoc .., Or.inr ⟨msg, ?_, ?_⟩⟩
      · exact List.mem_append_right _ hhanded
      · exact announces_of_ending hown hending
    · rintro ⟨before, after, heq, hafter⟩
      have hb : b = true := by
        rw [← hsignalled, heq]
        exact List.mem_append_right _ List.mem_cons_self
      have hall : ReadsStopped p.toPlatform pid rpid (es ++ es') := by
        rw [heq]
        exact hafter.imp (fun he => List.mem_append_right _ (List.mem_cons_of_mem _ he))
          fun ⟨msg, hmsg, ha⟩ => ⟨msg, List.mem_append_right _ (List.mem_cons_of_mem _ hmsg), ha⟩
      rw [hstopped hall, hb]
      rfl
  · intro hunsignalled hread
    have hb : b = false :=
      Bool.eq_false_iff.mpr fun hb => hunsignalled (hsignalled.mpr hb)
    rw [hstopped hread, hb]
    rfl
  · intro msg' hmsg hannounces
    -- Completed: everything received is in the result.
    rcases hlast hmsg hannounces rfl with ⟨rfl, rfl⟩
    rw [ownHanded_append, ownHanded_handing hes, if_pos hown]
    exact congrArg Exit.ok (collected_state _ hannounces.type).symm

/-- A read that fails is the end of the loop. -/
theorem Going.failed {e : PsrpError} (h : Going p pid rpid b r es) (he : e ≠ .cancelled) :
    CancellationLaw p pid rpid (es ++ [.raised e])
      (.err (if e = .stopped ∧ b = true then .cancelled else e)) := by
  have hlawful : Throughout (Lawful p.toPlatform pid rpid) (es ++ [.raised e]) :=
    h.lawful.append lawful_append (Throughout.cons trivial throughout_nil)
  have hsignalled : .signalled ∈ es ++ [.raised e] ↔ b = true := by
    rw [← h.signalled, List.mem_append, List.mem_singleton]
    exact ⟨fun hmem => hmem.elim id nofun, Or.inl⟩
  -- No terminal state was read, so a stop can only be the error itself.
  have hnot : ∀ {msg state}, .handed msg ∈ es ++ [.raised e] →
      Announces p.toPlatform pid rpid state msg → state.isTerminal = false := by
    intro msg state hmsg hannounces
    rw [List.mem_append, List.mem_singleton] at hmsg
    exact hmsg.elim (fun hmsg => h.not_terminal hmsg hannounces) nofun
  have hstopped : ReadsStopped p.toPlatform pid rpid (es ++ [.raised e]) → e = .stopped := by
    rintro (hraised | ⟨msg, hmsg, hannounces⟩)
    · rw [List.mem_append, List.mem_singleton] at hraised
      exact hraised.elim (fun hraised => absurd hraised (h.unraised _))
        fun heq => (PoolEvent.raised.inj heq).symm
    · cases hnot hmsg hannounces
  refine ⟨fun before after heq => hlawful before _ after heq, ?_, ?_, ?_,
    fun before msg after heq => hlawful before _ after heq⟩
  · constructor
    · intro hx
      -- A stop that was signalled before turns the error into a cancellation.
      by_cases hboth : e = .stopped ∧ b = true
      · rcases List.mem_iff_append.mp (h.signalled.mpr hboth.2) with ⟨before, after, rfl⟩
        refine ⟨before, after ++ [.raised e], List.append_assoc .., Or.inl ?_⟩
        rw [hboth.1]
        exact List.mem_append_right _ (List.mem_singleton_self _)
      · rw [if_neg hboth] at hx
        exact absurd (Exit.err.inj hx) he
    · rintro ⟨before, after, heq, hafter⟩
      have hb : b = true := by
        rw [← hsignalled, heq]
        exact List.mem_append_right _ List.mem_cons_self
      have hall : ReadsStopped p.toPlatform pid rpid (es ++ [.raised e]) := by
        rw [heq]
        exact hafter.imp (fun he => List.mem_append_right _ (List.mem_cons_of_mem _ he))
          fun ⟨msg, hmsg, ha⟩ => ⟨msg, List.mem_append_right _ (List.mem_cons_of_mem _ hmsg), ha⟩
      rw [if_pos ⟨hstopped hall, hb⟩]
  · intro hunsignalled hread
    rw [if_neg fun hboth => hunsignalled (hsignalled.mpr hboth.2), hstopped hread]
  · intro msg hmsg hannounces
    cases hnot hmsg hannounces

end Law

section Loops

variable {pid rpid : Uuid} {es : List PoolEvent} {b : Bool} {r : PipelineResult}

/-- What a select leaves: a message or an error, or nothing when the token
    fired. -/
def SelectNotes : Exit PsrpError (Option (Except PsrpError PsrpMessage)) → List PoolEvent → Prop
  | .ok (some (.ok msg)), es => Handing msg es
  | .ok (some (.error e)), es =>
    e ≠ .cancelled ∧ ∃ inner, (∀ e ∈ inner, isInner e) ∧ es = inner ++ [.raised e]
  | .ok none, es => .fired ∈ es ∧ ∀ e ∈ es, isPassing e
  | .err _, _ => False
  | .cut _, es | .suspended, es => ∀ e ∈ es, isInner e

/-- The events after a state, and how a program ended. -/
def Leaves (s : RunspacePool τ) (R : Exit PsrpError α → List PoolEvent → Prop)
    (x : Exit PsrpError α) (t : RunspacePool τ) : Prop :=
  ∃ es, t.history = s.history ++ es ∧ R x es

/-- What a read leaves that nothing drops. -/
def Reads (s : RunspacePool τ) : Exit PsrpError (Except PsrpError PsrpMessage) →
    RunspacePool τ → Prop
  | .ok read, t => Leaves s SelectNotes (.ok (some read)) t
  | .err e, t => Leaves s SelectNotes (.err e) t
  | .cut n, t => Leaves s SelectNotes (.cut n) t
  | .suspended, t => Leaves s SelectNotes .suspended t

theorem wp_readMessage_notes (htransport : TransportRaises (· ≠ .cancelled) d.transport) :
    wp (readMessage d) (Reads s) s := by
  have hread := wp_and (s := s) (wp_nextMessage_notes (d := d))
    ((nextMessage_raises (fun _ => IsLocal.ne_cancelled) htransport).wp s)
  refine wp_bind (Async.wp_attempt (wp_mono hread fun x t hx => ?_))
  rcases hx with ⟨⟨es, hes, hnotes⟩, herr⟩
  cases x with
  | ok msg =>
      have hreads : Reads s (.ok (.ok msg)) t := ⟨es, hes, hnotes⟩
      exact Async.wp_pure hreads
  | cut n => exact ⟨es, hes, hnotes⟩
  | suspended => exact ⟨es, hes, hnotes⟩
  | err e =>
      have hreads : Reads s (.ok (.error e)) (t.note (.raised e)) := by
        refine ⟨es ++ [.raised e], ?_, herr e rfl, es, hnotes, rfl⟩
        change t.history ++ _ = _
        rw [hes, List.append_assoc]
      exact wp_recordThen _ (Async.wp_pure hreads)

/-- What a look at a token leaves. -/
def Polled (s : RunspacePool τ) (x : Exit PsrpError Bool) (t : RunspacePool τ) : Prop :=
  (x = .ok false ∧ t = s) ∨ (x = .ok true ∧ t = s.note .fired)

theorem wp_isCancelled_notes (cancel : CancellationToken) :
    wp (isCancelled cancel : Prog (RunspacePool τ) Bool) (Polled s) s := by
  have hunfired : Polled s (.ok false) s := Or.inl ⟨rfl, rfl⟩
  have hfired : Polled s (.ok true) (s.note .fired) := Or.inr ⟨rfl, rfl⟩
  cases cancel with
  | never => exact Async.wp_pure hunfired
  | armed =>
      refine wp_bind (Async.wp_alarmed fun fired => ?_)
      cases fired with
      | false => exact Async.wp_pure hunfired
      | true => exact wp_recordThen _ (Async.wp_pure hfired)

/-- What a select leaves: without a token it always reads. -/
def Selected (s : RunspacePool τ) (cancel : CancellationToken)
    (x : Exit PsrpError (Option (Except PsrpError PsrpMessage))) (t : RunspacePool τ) : Prop :=
  Leaves s SelectNotes x t ∧ (cancel = .never → x ≠ .ok none)

/-- A select drops a read that has taken no message of a pipeline. -/
theorem wp_select_notes (htransport : TransportRaises (· ≠ .cancelled) d.transport)
    (cancel : CancellationToken) :
    wp (unlessCancelled cancel (readMessage d)) (Selected s cancel) s := by
  cases cancel with
  | never =>
      refine wp_bind (wp_mono (wp_readMessage_notes htransport) fun x t hx => ?_)
      -- Without a token the read is never cut short.
      have hselected : ∀ {x}, Leaves s SelectNotes x t → x ≠ .ok none → Selected s .never x t :=
        fun hx hne => ⟨hx, fun _ => hne⟩
      cases x with
      | ok a => exact Async.wp_pure (hselected (x := .ok (some a)) hx nofun)
      | err e => exact hselected (x := .err e) hx nofun
      | cut n => exact hselected (x := .cut n) hx nofun
      | suspended => exact hselected (x := .suspended) hx nofun
  | armed =>
      -- With a token, it is asked before the read and may cut it short.
      suffices hnotes : wp (unlessCancelled .armed (readMessage d)) (Leaves s SelectNotes) s from
        wp_mono hnotes fun x t hx => ⟨hx, fun hnever => (by cases hnever)⟩
      refine wp_bind (wp_mono (wp_isCancelled_notes .armed) fun x t hx => ?_)
      rcases hx with ⟨rfl, rfl⟩ | ⟨rfl, rfl⟩
      · refine wp_bind (Async.wp_guarded (wp_mono (wp_readMessage_notes htransport)
          fun x t hx => ?_))
        cases x with
        | ok a => exact Async.wp_pure hx
        | err e => exact hx
        | suspended => exact hx
        | cut n =>
            cases n with
            | succ n => exact hx
            | zero =>
                rcases hx with ⟨es, hes, hinner⟩
                -- The read is dropped; what it noted stays.
                refine wp_recordThen _ (wp_recordThen _ (Async.wp_pure
                  ⟨(es ++ [.fired]) ++ [.dropped], ?_, ?_, fun e he => ?_⟩))
                · change (t.history ++ _) ++ _ = _
                  rw [hes, List.append_assoc, List.append_assoc, List.append_assoc]
                · exact List.mem_append_left _ (List.mem_append_right _ (List.mem_singleton_self _))
                · rw [List.mem_append, List.mem_append, List.mem_singleton,
                    List.mem_singleton] at he
                  rcases he with (he | rfl) | rfl
                  · exact (hinner e he).passing
                  · trivial
                  · trivial
      · refine Async.wp_pure ⟨[.fired], rfl, List.mem_singleton_self _, fun e he => ?_⟩
        rw [List.mem_singleton.mp he]
        trivial

/-- What a turn of a loop leaves behind: the loop goes on, or its law holds. -/
def TurnObeys (p : PoolPlatform) (pid rpid : Uuid) :
    Exit PsrpError (Turn LoopState PipelineResult) → List PoolEvent → Prop
  | .ok (.more (b, r)), es => Going p pid rpid b r es
  | .ok (.done r), es => CancellationLaw p pid rpid es (.ok r)
  | .err e, es => CancellationLaw p pid rpid es (.err e)
  | .cut n, es => CancellationLaw p pid rpid es (.cut n)
  | .suspended, es => CancellationLaw p pid rpid es .suspended

/-- What a loop does with a message that it was handed. -/
theorem Going.absorb {es' : List PoolEvent} {msg : PsrpMessage}
    (h : Going d.platform pid rpid b r es) (hes : Handing msg es') :
    wp (Async.lift (absorb d.platform pid rpid b r msg) : Prog (RunspacePool τ) _)
      (fun x t => t = s ∧ TurnObeys d.platform pid rpid x (es ++ es')) s := by
  by_cases hown : isOwn pid rpid msg = true
  · cases hending : ending d.platform.toPlatform msg with
    | none =>
        rcases absorb_ongoing (b := b) (r := r) hown hending with ⟨r', habsorb, hr'⟩
        rw [habsorb]
        refine Async.wp_pure ⟨rfl, h.handed hes (fun _ => hending) fun k => ?_⟩
        rw [ownHanded_append, ownHanded_handing hes, if_pos hown, streamValues_append, hr' k,
          h.collected k]
    | some e =>
        have hlaw := h.decided hes hown hending
        rw [absorb_ending hown hending h.collected]
        cases hverdict : verdict d.platform b (ownHanded pid rpid es) msg e with
        | error e' =>
            rw [hverdict] at hlaw
            exact Async.wp_throw ⟨rfl, hlaw⟩
        | ok r' =>
            rw [hverdict] at hlaw
            exact Async.wp_pure ⟨rfl, hlaw⟩
  · have habsorb : Psrp.absorb d.platform pid rpid b r msg = .ok (.more (b, r)) := by
      rw [Psrp.absorb, if_pos (Bool.eq_false_iff.mpr hown)]
    rw [habsorb]
    refine Async.wp_pure ⟨rfl, h.handed hes (fun hown' => absurd hown' hown) ?_⟩
    rw [ownHanded_append, ownHanded_handing hes, if_neg hown, List.append_nil]
    exact h.collected

/-- The stop is signalled, once the token has fired. -/
theorem wp_signal (htransport : TransportRaises (· ≠ .cancelled) d.transport)
    (ht : t.history = s.history ++ es) (h : Going d.platform pid rpid false r es)
    (hfired : .fired ∈ es) {f : Unit → Prog (RunspacePool τ) (Turn LoopState PipelineResult)}
    (hthen : ∀ u es', u.history = s.history ++ es' → Going d.platform pid rpid true r es' →
      wp (f ()) (Leaves s (TurnObeys d.platform pid rpid)) u) :
    wp (signalTransportStop d >>= f) (Leaves s (TurnObeys d.platform pid rpid)) t := by
  have hbegun : (t.note .signalling).history = s.history ++ (es ++ [.signalling]) := by
    change t.history ++ _ = _
    rw [ht, List.append_assoc]
  have hstop : wp (signalTransportStop d >>= f) (Leaves s (TurnObeys d.platform pid rpid)) t := by
    rw [signalTransportStop, Async.bind_assoc]
    refine wp_recordThen _ ?_
    rw [Async.bind_assoc]
    refine wp_bind (wp_onTransport _ fun x v hran => ?_)
    cases x with
    | ok a =>
        refine wp_recordThen _ (hthen _ (es ++ [.signalling] ++ [.signalled]) ?_ (h.signal hfired))
        change (t.note .signalling).history ++ _ = _
        rw [hbegun, List.append_assoc]
    | err e =>
        rcases hran with ⟨script, turns, hrun, _⟩
        have hne : e ≠ .cancelled := htransport.signalStop _ _ hrun
        exact ⟨_, hbegun, (h.begin hfired).law (x := .err e) fun hx => hne (Exit.err.inj hx)⟩
    | cut n => exact ⟨_, hbegun, (h.begin hfired).law (x := .cut n) nofun⟩
    | suspended => exact ⟨_, hbegun, (h.begin hfired).law (x := .suspended) nofun⟩
  exact hstop

theorem wp_serve_obeys (htransport : TransportRaises (· ≠ .cancelled) d.transport)
    (cancel : CancellationToken) (ht : t.history = s.history ++ es)
    (h : Going d.platform pid rpid b r es) :
    wp (serve d pid rpid cancel b r) (Leaves s (TurnObeys d.platform pid rpid)) t := by
  have hafter : ∀ {u : RunspacePool τ} {es' : List PoolEvent}, u.history = t.history ++ es' →
      u.history = s.history ++ (es ++ es') := by
    intro u es' hu
    rw [hu, ht, List.append_assoc]
  refine wp_bind (wp_mono (wp_select_notes htransport _) fun x u hx => ?_)
  rcases hx with ⟨⟨es', hes', hnotes⟩, hnever⟩
  -- A turn that is dropped decides nothing.
  have hdropped : ∀ {x : Exit PsrpError PipelineResult}, (∀ e ∈ es', isInner e) →
      x ≠ .err .cancelled → CancellationLaw d.platform pid rpid (es ++ es') x :=
    fun hinner hx => (h.toUndecided.pass fun e he => (hinner e he).passing).law hx
  cases x with
  | err e => exact hnotes.elim
  | cut n => exact ⟨es ++ es', hafter hes', hdropped hnotes nofun⟩
  | suspended => exact ⟨es ++ es', hafter hes', hdropped hnotes nofun⟩
  | ok selected =>
      cases selected with
      | none =>
          rcases hnotes with ⟨hfired, hpass⟩
          -- The token fired: the stop is signalled, once.
          cases b with
          | true => exact absurd rfl (hnever rfl)
          | false =>
              refine wp_signal htransport (hafter hes') (h.pass hpass)
                (List.mem_append_right _ hfired) fun v es'' hv hgoing => ?_
              exact Async.wp_pure ⟨es'', hv, hgoing⟩
      | some read =>
          cases read with
          | ok msg =>
              -- A message was read.
              refine wp_mono (h.absorb (s := u) hnotes) fun x v hv => ?_
              rcases hv with ⟨rfl, hobeys⟩
              exact ⟨es ++ es', hafter hes', hobeys⟩
          | error e =>
              rcases hnotes with ⟨hne, inner, hinner, rfl⟩
              -- The read failed, which ends the loop.
              have hlaw := (h.pass fun e he => (hinner e he).passing).failed hne
              rw [List.append_assoc] at hlaw
              have hthrow : wp (if e = .stopped ∧ b = true then Async.throw .cancelled
                  else Async.throw e : Prog (RunspacePool τ) (Turn LoopState PipelineResult))
                  (Leaves s (TurnObeys d.platform pid rpid)) u := by
                by_cases hboth : e = .stopped ∧ b = true
                · rw [if_pos hboth] at hlaw ⊢
                  exact Async.wp_throw ⟨_, hafter hes', hlaw⟩
                · rw [if_neg hboth] at hlaw ⊢
                  exact Async.wp_throw ⟨_, hafter hes', hlaw⟩
              exact hthrow

theorem wp_loopTurn_obeys (htransport : TransportRaises (· ≠ .cancelled) d.transport)
    (cancel : CancellationToken) (ht : t.history = s.history ++ es)
    (h : Going d.platform pid rpid b r es) :
    wp (loopTurn d pid rpid cancel (b, r)) (Leaves s (TurnObeys d.platform pid rpid)) t := by
  cases b with
  | true =>
      rw [loopTurn_signalled]
      exact wp_serve_obeys htransport cancel ht h
  | false =>
      rw [loopTurn_unsignalled]
      refine wp_bind (wp_mono (wp_isCancelled_notes cancel) fun x u hx => ?_)
      rcases hx with ⟨rfl, rfl⟩ | ⟨rfl, rfl⟩
      · exact wp_serve_obeys htransport cancel ht h
      · -- The token fired between two reads.
        have hfired : (t.note .fired).history = s.history ++ (es ++ [.fired]) := by
          change t.history ++ _ = _
          rw [ht, List.append_assoc]
        have hgoing : Going d.platform pid rpid false r (es ++ [.fired]) := by
          refine h.pass fun e he => ?_
          rw [List.mem_singleton.mp he]
          trivial
        have hmem : PoolEvent.fired ∈ es ++ [.fired] :=
          List.mem_append_right _ (List.mem_singleton_self _)
        exact wp_signal htransport hfired hgoing hmem fun v es' hv hsignalled =>
          wp_serve_obeys htransport cancel hv hsignalled

/-- How a loop ends, and what it leaves: its law, and a buffer that holds what
    the server sent and was not taken. -/
def Obeys (d : Driver τ) (pid rpid : Uuid) (s : RunspacePool τ) (x : Exit PsrpError PipelineResult)
    (t : RunspacePool τ) : Prop :=
  Leaves s (fun x es => CancellationLaw d.platform pid rpid es x) x t
  ∧ (faultOf (streamOf t) = none →
    soundMessages (streamOf t) = tookOf t.history ++ t.pendingMessages)

theorem wp_loop_obeys (htransport : TransportRaises (· ≠ .cancelled) d.transport)
    (cancel : CancellationToken) (ht : t.history = s.history ++ es)
    (h : Going d.platform pid rpid false emptyResult es) :
    wp (Async.loop (loopTurn d pid rpid cancel) (false, emptyResult))
      (Leaves s fun x es => CancellationLaw d.platform pid rpid es x) t := by
  refine Async.wp_loop (fun loop u => ∃ es, u.history = s.history ++ es
    ∧ Going d.platform pid rpid loop.1 loop.2 es) ⟨es, ht, h⟩ (fun loop u hu => ?_)
    fun loop u hu => ?_
  · rcases hu with ⟨es', hes', hgoing⟩
    exact ⟨es', hes', hgoing.toUndecided.law nofun⟩
  · rcases hu with ⟨es', hes', hgoing⟩
    refine wp_mono (wp_loopTurn_obeys htransport cancel hes' hgoing) fun x v hv => ?_
    cases x with
    | ok turn =>
        cases turn with
        | more loop' => exact hv
        | done r => exact hv
    | err e => exact hv
    | cut n => exact hv
    | suspended => exact hv

/-- Before anything is read. -/
theorem going_empty (p : PoolPlatform) : Going p pid rpid false emptyResult [] where
  lawful := throughout_nil
  unraised e he := absurd he List.not_mem_nil
  undecided msg hmsg := absurd hmsg List.not_mem_nil
  signalled := iff_of_false List.not_mem_nil nofun
  signalling he := absurd he List.not_mem_nil
  collected k := by cases k <;> rfl

theorem wp_drainLoop_law (htransport : TransportRaises (· ≠ .cancelled) d.transport)
    (cancel : CancellationToken) : wp (drainLoop d pid rpid cancel)
      (Leaves s fun x es => CancellationLaw d.platform pid rpid es x) s := by
  have hturn : drainTurn d pid rpid cancel = loopTurn d pid rpid cancel :=
    funext fun loop => drainTurn_eq d pid rpid cancel loop
  rw [drainLoop, hturn]
  exact wp_loop_obeys htransport cancel (List.append_nil _).symm (going_empty d.platform)

theorem wp_runAllStreams_law (htransport : TransportRaises (· ≠ .cancelled) d.transport)
    (self : Pipeline) (cancel : CancellationToken) :
    wp (self.runAllStreamsWithCancel d pid cancel)
      (Leaves s fun x es => CancellationLaw d.platform pid s.machine.rpid es x) s := by
  have hturn : runTurn d pid s.machine.rpid cancel = loopTurn d pid s.machine.rpid cancel :=
    funext fun loop => runTurn_eq d pid s.machine.rpid cancel loop
  have hempty : Going d.platform pid s.machine.rpid false emptyResult [] :=
    going_empty d.platform
  unfold Pipeline.runAllStreamsWithCancel
  by_cases hcommands : self.commands.isEmpty = true
  · rw [if_pos hcommands]
    exact Async.wp_throw ⟨[], (List.append_nil _).symm, hempty.toUndecided.law nofun⟩
  · rw [if_neg hcommands]
    refine Async.wp_getThen ?_
    simp only [hturn]
    -- The message that creates the pipeline is sent, and then the loop runs.
    have hsend := wp_and (s := s) (wp_sendPipelineMessage (d := d) .createPipeline pid
      (self.createPipelineXml d.platform.toPlatform))
      ((raises_sendPipelineMessage (fun _ => IsLocal.ne_cancelled) htransport _ _ _).wp s)
    refine wp_bind (wp_mono hsend fun x t hx => ?_)
    rcases hx with ⟨hsends, herr⟩
    have hnotes : ∀ {o}, Sends (carrier d .createPipeline pid) .createPipeline pid
        (self.createPipelineXml d.platform.toPlatform) s o t → ∃ es, t.history = s.history ++ es
          ∧ Going d.platform pid s.machine.rpid false emptyResult es := by
      intro o hsent
      rcases hsent.trace with ⟨es, hes, htrace⟩
      exact ⟨es, hes, hempty.pass fun e he => (isInner_outgoing (htrace.outgoing e he)).passing⟩
    cases x with
    | ok a =>
        rcases hnotes hsends with ⟨es, hes, hgoing⟩
        exact wp_loop_obeys htransport cancel hes hgoing
    | err e =>
        rcases hnotes hsends with ⟨es, hes, hgoing⟩
        exact ⟨es, hes, hgoing.toUndecided.law (x := .err e) fun hx => herr e rfl (Exit.err.inj hx)⟩
    | cut n =>
        rcases hnotes hsends with ⟨es, hes, hgoing⟩
        exact ⟨es, hes, hgoing.toUndecided.law (x := .cut n) nofun⟩
    | suspended =>
        rcases hnotes hsends with ⟨es, hes, hgoing⟩
        exact ⟨es, hes, hgoing.toUndecided.law (x := .suspended) nofun⟩

/-- A pipeline under a token, run in one go or collected by its handle, in a
    pool that anything has been done with before: however the token, the
    messages of the server and the transport interleave, the stop is signalled
    at most once and in time, what is read last decides the end, and no message
    is lost to a read that was dropped. Cancelled is for the loops to say: the
    transport never does. -/
theorem cancellation_protocol (d : Driver τ)
    (htransport : TransportRaises (· ≠ .cancelled) d.transport) (transport : τ)
    (machine : RunspacePoolStateMachine) (n : UInt64) (key : Option SessionKey)
    (past : List (Call Answer PoolOperation)) (pid : Uuid) (cancel : CancellationToken) :
    let s := (play (perform d) past (attached transport machine n key)).2
    (∀ self : Pipeline,
      wp (self.runAllStreamsWithCancel d pid cancel) (Obeys d pid s.machine.rpid s) s)
    ∧ ∀ rpid, wp (drainLoop d pid rpid cancel) (Obeys d pid rpid s) s := by
  intro s
  have hs : Reading s := play_moves (fun _ _ h hmove => Move.reading hmove h)
    (fun _ _ h hdeed => Deed.reading hdeed h) past (reading_attached transport machine n key)
  constructor
  · intro self
    exact wp_mono (wp_and (wp_runAllStreams_law htransport self cancel)
      ((moving_runAllStreamsWithCancel self pid cancel).reading hs))
      fun x t hx => ⟨hx.1, hx.2.messages⟩
  · intro rpid
    exact wp_mono (wp_and (wp_drainLoop_law htransport cancel)
      ((moving_loops pid rpid cancel).1.reading hs)) fun x t hx => ⟨hx.1, hx.2.messages⟩

/-- A transport that waits for nothing and reads until its inbox is empty. -/
def steadyTransport : PsrpTransport MockTransport :=
  { MockTransport.transport with
    recvChunk := Async.update fun s => match s.inbox with
      | bytes :: rest => (.ok bytes, { s with inbox := rest })
      | [] => (.error (.protocol "mock inbox empty"), s) }

theorem steadyTransport_raises : TransportRaises (· ≠ .cancelled) steadyTransport := by
  have hsend : ∀ bytes, Async.Raises (· ≠ .cancelled) (MockTransport.sendFragment bytes) := by
    intro bytes
    refine Async.raises_update fun s e h => ?_
    split at h
    · cases h
      exact nofun
    · cases h
  refine ⟨hsend, fun bytes pid => ?_, fun bytes _ => hsend bytes, ?_, Async.raises_modify _⟩
  · exact Async.raises_bind (hsend bytes) fun _ => Async.raises_modify _
  · refine Async.raises_update fun s e h => ?_
    split at h
    · cases h
    · cases h
      exact nofun

/-- A driver on it. -/
def steadyDriver : Driver MockTransport := { mockDriver with transport := steadyTransport }

/-- An object comes in and then the state of a pipeline that was stopped, for a
    loop whose token fires first. -/
def stoppingWorld : World Answer (RunspacePool MockTransport) :=
  let msgs := [toPipeline Uuid.nil .pipelineOutput "<I32>7</I32>".toList,
    toPipeline Uuid.nil .pipelineState (numberBody .basic "PipelineState" 3)]
  ⟨attached { MockTransport.new with inbox := msgs.map fun msg => encodeMessage 1 msg.encode }
    freshMachine 1 none, [.alarm 0], 9⟩

/-- The stop is signalled, both messages are read, and the pipeline is cancelled
    because the second one says that it was stopped. -/
theorem cancellation_protocol_steady :
    let r := drainLoop steadyDriver Uuid.nil Uuid.nil .armed stoppingWorld
    r.1 = .err .cancelled ∧ r.2.state.transport.stopped = true
      ∧ (∃ before after, r.2.state.history = before ++ .signalled :: after
        ∧ ReadsStopped Platform.basic Uuid.nil Uuid.nil after)
      ∧ (soundMessages (streamOf r.2.state)).length = 2
      ∧ soundMessages (streamOf r.2.state) = tookOf r.2.state.history := by
  intro r
  have hrun : fateOf r.1 = .failed .cancelled ∧ r.2.state.transport.stopped = true
      ∧ (soundMessages (streamOf r.2.state)).length = 2 ∧ faultOf (streamOf r.2.state) = none
      ∧ r.2.state.pendingMessages = [] := by
    decide +kernel
  have hcancelled : r.1 = .err .cancelled := by
    cases hexit : r.1 with
    | err e =>
        have hfate := hrun.1
        rw [hexit] at hfate
        rw [Fate.failed.inj hfate]
    | ok _ | cut _ | suspended =>
        have hfate := hrun.1
        rw [hexit] at hfate
        cases hfate
  have hprotocol := cancellation_protocol steadyDriver steadyTransport_raises
    stoppingWorld.state.transport freshMachine 1 none [] Uuid.nil .armed
  rcases Async.wp_apply stoppingWorld (hprotocol.2 Uuid.nil) with ⟨⟨es, hes, hlaw⟩, hsound⟩
  have hhistory : r.2.state.history = es := hes.trans (List.nil_append es)
  refine ⟨hcancelled, hrun.2.1, ?_, hrun.2.2.1, ?_⟩
  · rw [hhistory]
    exact hlaw.cancelled.mp hcancelled
  · have hmessages := hsound hrun.2.2.2.1
    rw [hrun.2.2.2.2, List.append_nil] at hmessages
    exact hmessages

end Loops

end RunspacePool

end Psrp

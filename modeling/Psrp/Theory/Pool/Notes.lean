import Psrp.Theory.Pool.Receive
import Psrp.Theory.Pool.Traces

/-!
# The Notes of a Read

Which events a read leaves in the history of a pool.

On its way a read notes what it did for the server, and a message that it
hands over is the last thing it notes. A message of a pipeline is handed over
where it is taken out of the buffer, with no wait in between; so a read that
ends early, or is dropped, has taken none.

## Main definitions

* `handedOf`: The messages handed to whoever reads.
* `isInner`: The events on the way.
* `Handing`, `ReadNotes`: The events of a read.

## Theorems

* `Trace.inner`: A deed leaves inner events.
* `wp_nextMessage_notes`: Every read leaves such events.
-/

namespace Psrp

namespace RunspacePool

open Async (wp wp_mono Ends)

variable {τ α : Type} {d : Driver τ} {s t u : RunspacePool τ}

section Handed

/-- The messages that were handed to whoever reads. -/
def handedOf (h : List PoolEvent) : List PsrpMessage :=
  h.filterMap fun e => match e with
    | .handed msg => some msg
    | _ => none

theorem handedOf_append (h h' : List PoolEvent) : handedOf (h ++ h') = handedOf h ++ handedOf h' :=
  List.filterMap_append ..

theorem mem_handedOf {h : List PoolEvent} {msg : PsrpMessage} :
    msg ∈ handedOf h ↔ .handed msg ∈ h := by
  induction h with
  | nil => exact iff_of_false List.not_mem_nil List.not_mem_nil
  | cons e h ih =>
      cases e with
      | handed msg' =>
          change msg ∈ msg' :: handedOf h ↔ _
          rw [List.mem_cons, List.mem_cons, ih, PoolEvent.handed.injEq]
      | _ =>
          change msg ∈ handedOf h ↔ _
          rw [ih, List.mem_cons]
          exact ⟨Or.inr, fun h => h.resolve_left (by intro h; cases h)⟩

theorem handedOf_eq_nil {h : List PoolEvent} (hh : ∀ msg, .handed msg ∉ h) : handedOf h = [] := by
  refine List.eq_nil_iff_forall_not_mem.mpr fun msg hmsg => ?_
  exact hh msg (mem_handedOf.mp hmsg)

end Handed

section Inner

/-- The types of messages that a pipeline sends: its streams and its states. -/
def isPipelineMessage (mt : MessageType) : Prop :=
  mt = .pipelineState ∨ (Psrp.streamOf mt).isSome = true

/-- The events of a read before its end. -/
def isInner : PoolEvent → Prop
  | .took msg => ¬ isPipelineMessage msg.messageType
  | .handed _ | .fired | .dropped | .signalling | .signalled | .raised _ => False
  | _ => True

theorem isInner_outgoing {e : PoolEvent} (he : isOutgoing e = true) : isInner e := by
  cases e with
  | took msg | handed msg | raised e' => cases he
  | fired | dropped | signalling | signalled => cases he
  | _ => trivial

theorem isInner_took {msg : PsrpMessage} (h : isHostCall msg.messageType
    ∨ msg.messageType = .encryptedSessionKey ∨ msg.messageType = .publicKeyRequest) :
    isInner (.took msg) := by
  change ¬ isPipelineMessage msg.messageType
  intro hpipeline
  rcases h with (hmt | hmt) | hmt | hmt
  all_goals
    rw [hmt] at hpipeline
    rcases hpipeline with hstate | hstream
    · cases hstate
    · cases hstream

/-- A deed hands nothing over, and takes no message of a pipeline. -/
theorem Trace.inner {o : Fate} {es : List PoolEvent} (htrace : Trace d s o es) :
    ∀ e ∈ es, isInner e := by
  -- A message that is acted on inside the read is a call or one of the key exchange.
  have hcall : ∀ {msg : PsrpMessage} {rest : List PoolEvent}, isHostCall msg.messageType
      ∨ msg.messageType = .encryptedSessionKey ∨ msg.messageType = .publicKeyRequest →
      (∀ e ∈ rest, isInner e) → ∀ e ∈ .took msg :: rest, isInner e := by
    intro msg rest hmt hrest e he
    rcases List.mem_cons.mp he with rfl | he
    · exact isInner_took hmt
    · exact hrest e he
  have hcons : ∀ {e' : PoolEvent} {rest : List PoolEvent}, isInner e' →
      (∀ e ∈ rest, isInner e) → ∀ e ∈ e' :: rest, isInner e := by
    intro e' rest he' hrest e he
    rcases List.mem_cons.mp he with rfl | he
    · exact he'
    · exact hrest e he
  have hnil : ∀ e ∈ ([] : List PoolEvent), isInner e := fun e he => absurd he List.not_mem_nil
  -- What is noted after a send is inner, too, if it is noted at all.
  have hlast : ∀ {e' : PoolEvent} {rest : List PoolEvent} {o : Fate}, isInner e' →
      (∀ e ∈ rest, isInner e) → ∀ e ∈ rest ++ (if o = .through then [e'] else []), isInner e := by
    intro e' rest o he' hrest e he
    rcases List.mem_append.mp he with he | he
    · exact hrest e he
    · split at he
      · exact hcons he' hnil e he
      · exact hnil e he
  cases htrace with
  | unread o ho => exact hnil
  | chunk o chunk ho => exact hcons trivial hnil
  | flushed p ps key f o es _ _ hsend =>
      exact hlast trivial (hcons trivial fun e he => isInner_outgoing (hsend.outgoing e he))
  | unheard msg o hmt => exact hcall (Or.inl hmt) hnil
  | silent msg call hmt => exact hcall (Or.inl hmt) (hcons trivial hnil)
  | replied msg call answer body f o es hmt _ _ _ _ _ hsend =>
      exact hcall (Or.inl hmt) (hcons trivial fun e he => isInner_outgoing (hsend.outgoing e he))
  | parked msg call v hmt => exact hcall (Or.inl hmt) (hcons trivial (hcons trivial hnil))
  | parkedFirst msg call v o es hmt _ _ _ _ hpub =>
      exact hlast trivial (hcall (Or.inl hmt)
        (hcons trivial fun e he => isInner_outgoing (hpub.outgoing e he)))
  | accepted msg key hmt => exact hcall (Or.inr (Or.inl hmt)) (hcons trivial hnil)
  | refused msg e o es hmt _ hrefusal =>
      refine hcall (Or.inr (Or.inl hmt)) (hcons trivial fun e he => ?_)
      rcases hrefusal with ⟨_, hrefusal⟩ | ⟨_, hrefusal⟩
      · exact isInner_outgoing (hrefusal.outgoing e he)
      · exact isInner_outgoing (hrefusal.outgoing e he)
  | requested msg o es hmt _ hpub =>
      exact hcall (Or.inr (Or.inr hmt)) fun e he => isInner_outgoing (hpub.outgoing e he)

/-- A message is handed over: it was taken just before, or acted on, or made
    up. -/
def Handing (msg : PsrpMessage) (es : List PoolEvent) : Prop :=
  ∃ inner, (∀ e ∈ inner, isInner e)
    ∧ (es = inner ++ [.handed msg] ∨ es = inner ++ [.took msg, .handed msg])

/-- The events of a read. One that hands nothing over has taken no message of a
    pipeline, wherever it ended. -/
def ReadNotes : Exit PsrpError PsrpMessage → List PoolEvent → Prop
  | .ok msg, es => Handing msg es
  | _, es => ∀ e ∈ es, isInner e

/-- What was done so far, and its events. -/
def Noted (s t : RunspacePool τ) : Prop :=
  ∃ es, t.history = s.history ++ es ∧ ∀ e ∈ es, isInner e

theorem Noted.deed {o : Fate} (h : Noted s t) (hdeed : Deed d o t u) : Noted s u := by
  rcases h with ⟨es, hes, hinner⟩
  rcases hdeed.trace with ⟨es', hes', htrace⟩
  refine ⟨es ++ es', ?_, fun e he => ?_⟩
  · rw [hes', hes, List.append_assoc]
  · exact (List.mem_append.mp he).elim (hinner e) (htrace.inner e)

theorem Deeds.noted (h : Deeds d s t) : Noted s t := by
  induction h with
  | refl => exact ⟨[], (List.append_nil _).symm, fun e he => absurd he List.not_mem_nil⟩
  | tail _ hdeed ih => exact ih.deed hdeed

theorem Busy.noted {o : Fate} (h : Busy d s o t) : Noted s t := by
  cases h with
  | through hdeeds => exact hdeeds.noted
  | stopped hne hdeeds hdeed => exact hdeeds.noted.deed hdeed
  | idle hdeeds => exact hdeeds.noted

theorem Handover.handing {msg : PsrpMessage} (h : Noted s t) (hhand : Handover d msg t u) :
    ∃ es, u.history = s.history ++ es ∧ Handing msg es := by
  rcases h with ⟨es, hes, hinner⟩
  cases hhand with
  | plain htook _ _ _ =>
      refine ⟨es ++ [.took msg, .handed msg], ?_, es, hinner, Or.inr rfl⟩
      rw [htook.append rfl, hes, List.append_assoc]
  | after _ _ =>
      refine ⟨es ++ [.handed msg], ?_, es, hinner, Or.inl rfl⟩
      change t.history ++ _ = _
      rw [hes, List.append_assoc]
  | ended _ _ _ _ _ =>
      refine ⟨(es ++ [.chunk []]) ++ [.handed msg], ?_, es ++ [.chunk []], fun e he => ?_,
        Or.inl rfl⟩
      · change (t.history ++ _) ++ _ = _
        rw [hes, List.append_assoc, List.append_assoc, List.append_assoc]
      · rcases List.mem_append.mp he with he | he
        · exact hinner e he
        · rw [List.mem_singleton.mp he]
          trivial

theorem wp_nextMessage_notes : wp (nextMessage d)
    (fun x t => ∃ es, t.history = s.history ++ es ∧ ReadNotes x es) s := by
  refine wp_mono wp_nextMessage fun x t hx => ?_
  cases x with
  | ok msg =>
      rcases hx with ⟨u, hdeeds, hhand⟩
      exact hhand.handing hdeeds.noted
  | err e => exact Busy.noted hx
  | cut n => exact Busy.noted hx
  | suspended => exact Busy.noted hx

theorem handedOf_inner {es : List PoolEvent} (h : ∀ e ∈ es, isInner e) : handedOf es = [] :=
  handedOf_eq_nil fun _ hmsg => h _ hmsg

theorem handedOf_handing {msg : PsrpMessage} {es : List PoolEvent} (h : Handing msg es) :
    handedOf es = [msg] := by
  rcases h with ⟨inner, hinner, rfl | rfl⟩
  · rw [handedOf_append, handedOf_inner hinner]
    rfl
  · rw [handedOf_append, handedOf_inner hinner]
    rfl

end Inner

end RunspacePool

end Psrp

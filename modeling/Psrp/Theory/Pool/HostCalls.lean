import Psrp.Theory.Pool.KeyExchange
import Psrp.Theory.Pool.Mock

/-!
# Host Calls Are Answered Once

What becomes of the calls the server makes to the host, in runs in which
nothing is dropped and every request goes through.

A call that is taken is answered by the host at once, and then either its
response is sent, or the answer is parked; and what is parked leaves in the
order it came, each entry with one response. No response is sent otherwise. So
at any time a call whose method does not only write has one response or one
parked entry (`AnswerLaw`).

Whether everything went through is read off the history: what was given to the
transport was sent, no id and no key was missing, and no read was dropped
(`Faultless`). Every trace can only fall short of that, so a run that does not
is made of traces that do not (`shortfallOf`).

## Main definitions

* `Faultless`: Every request of a history went through.
* `Responded`, `Parks`: What follows an answer of the host.
* `AnswerLaw`: What holds of host calls.

## Theorems

* `Trace.disposes`, `MoveTrace.disposes`: One trace at a time.
* `parkedOf_play`: Parked answers leave in the order they came.
* `wp_nextMessage_settles`: Nothing that could be sent stays parked.
* `answered_once`: The law holds in every such run.
-/

namespace Psrp

/-- The types of the responses to host calls. -/
def isResponse : MessageType → Bool
  | .runspacePoolHostResponse | .pipelineHostResponse => true
  | _ => false

/-- The messages that were given to the transport, and those that went
    through. -/
def givenOf (h : List PoolEvent) : List Frame :=
  h.filterMap fun e => match e with
    | .sending f => some f
    | _ => none

def sentOf (h : List PoolEvent) : List Frame :=
  h.filterMap fun e => match e with
    | .sent f => some f
    | _ => none

/-- The answers that were parked, and those that left. -/
def parkedOf (h : List PoolEvent) : List DeferredHostResponse :=
  h.filterMap fun e => match e with
    | .parked p => some p
    | _ => none

def leftOf (h : List PoolEvent) : List DeferredHostResponse :=
  h.filterMap fun e => match e with
    | .flushed p | .failing p => some p
    | _ => none

/-- Every request went through, and no read was dropped. -/
structure Faultless (h : List PoolEvent) : Prop where
  sent : givenOf h = sentOf h
  ids : .exhausted ∉ h
  keys : .keyless ∉ h
  reads : .dropped ∉ h

/-- How far an event falls short of that. What is sent makes up for what was
    given to the transport. -/
def shortfall : PoolEvent → Int
  | .sending _ | .exhausted | .keyless | .dropped => 1
  | .sent _ => -1
  | _ => 0

def shortfallOf (h : List PoolEvent) : Int := (h.map shortfall).sum

theorem shortfallOf_append (h es : List PoolEvent) :
    shortfallOf (h ++ es) = shortfallOf h + shortfallOf es := by
  rw [shortfallOf, List.map_append, List.sum_append]
  rfl

theorem shortfallOf_cons (e : PoolEvent) (h : List PoolEvent) :
    shortfallOf (e :: h) = shortfall e + shortfallOf h := by
  rw [shortfallOf, List.map_cons, List.sum_cons]
  rfl

/-- Nothing falls short in a faultless history. -/
theorem Faultless.shortfallOf {h : List PoolEvent} (hh : Faultless h) : shortfallOf h = 0 := by
  have hcount : ∀ h : List PoolEvent, .exhausted ∉ h → .keyless ∉ h → .dropped ∉ h →
      Psrp.shortfallOf h = (givenOf h).length - (sentOf h).length := by
    intro h hids hkeys hreads
    induction h with
    | nil => rfl
    | cons e h ih =>
        have ih := ih (fun he => hids (List.mem_cons_of_mem _ he))
          (fun he => hkeys (List.mem_cons_of_mem _ he))
          fun he => hreads (List.mem_cons_of_mem _ he)
        rw [shortfallOf_cons, ih]
        cases e with
        | exhausted => exact absurd List.mem_cons_self hids
        | keyless => exact absurd List.mem_cons_self hkeys
        | dropped => exact absurd List.mem_cons_self hreads
        | sending f =>
            simp only [shortfall, givenOf, sentOf, List.filterMap_cons, List.length_cons]
            omega
        | sent f =>
            simp only [shortfall, givenOf, sentOf, List.filterMap_cons, List.length_cons]
            omega
        | _ => exact Int.zero_add _
  rw [hcount h hh.ids hh.keys hh.reads, hh.sent]
  omega

/-- Whether a program came to its end. -/
def Exit.finished {ε α : Type} : Exit ε α → Bool
  | .ok _ | .err _ => true
  | .cut _ | .suspended => false

namespace RunspacePool

open Async (wp wp_bind wp_mono andThen Call play)
open Relation (ReflTransGen)

variable {τ α : Type} {d : Driver τ} {key0 : Option SessionKey} {s t u : RunspacePool τ}
  {h : List PoolEvent}

section Shortfall

theorem SendTrace.shortfall {f : Frame} {o : Fate} {es : List PoolEvent} (hh : SendTrace f o es) :
    0 ≤ shortfallOf es ∧ (shortfallOf es = 0 → o = .through ∧ es = [.sending f, .sent f]) := by
  cases hh with
  | through => exact ⟨Int.le_refl 0, fun _ => ⟨rfl, rfl⟩⟩
  | stopped o ho => exact ⟨Int.zero_le_ofNat 1, fun h => absurd h Int.one_ne_zero⟩
  | exhausted e => exact ⟨Int.zero_le_ofNat 1, fun h => absurd h Int.one_ne_zero⟩

theorem PublishTrace.shortfall {o : Fate} {es : List PoolEvent} (hh : PublishTrace d o es) :
    0 ≤ shortfallOf es ∧ (shortfallOf es = 0 → o = .through ∧ ∃ f key,
      f.msg.messageType = .publicKey ∧ es = [.sending f, .sent f, .exchange key]) := by
  cases hh with
  | started key f hmt hdata => exact ⟨Int.le_refl 0, fun _ => ⟨rfl, f, key, hmt, rfl⟩⟩
  | stopped f o es ho hmt hsend =>
      exact ⟨hsend.shortfall.1, fun h => absurd (hsend.shortfall.2 h).1 ho⟩
  | keyless e => exact ⟨Int.zero_le_ofNat 1, fun h => absurd h Int.one_ne_zero⟩

theorem RefusalTrace.shortfall {ps : List DeferredHostResponse} {o : Fate} {es : List PoolEvent}
    (hh : RefusalTrace ps o es) : 0 ≤ shortfallOf es := by
  induction hh with
  | nil => exact Int.le_refl 0
  | cons p ps f o o' es es' ho hmt hsend hrest ih =>
      rw [shortfallOf_append, shortfallOf_cons]
      have hfirst := hsend.shortfall.1
      simp only [Psrp.shortfall]
      omega
  | dropped p ps f es hmt hsend =>
      rw [shortfallOf_cons]
      have hfirst := hsend.shortfall.1
      simp only [Psrp.shortfall]
      omega

theorem shortfallOf_ite {b : Prop} [Decidable b] {e : PoolEvent} (he : shortfall e = 0) :
    shortfallOf (if b then [e] else []) = 0 := by
  by_cases hb : b
  · rw [if_pos hb, shortfallOf_cons, he]
    rfl
  · rw [if_neg hb]
    rfl

/-- No trace makes up for what another one lacks. -/
theorem Trace.shortfall {o : Fate} {es : List PoolEvent} (hh : Trace d s o es) :
    0 ≤ shortfallOf es := by
  cases hh with
  | unread o ho => exact Int.le_refl 0
  | chunk o chunk ho => exact Int.le_refl 0
  | unheard msg o hmt ho hwhy => exact Int.le_refl 0
  | silent msg call hmt hdecode hwrites => exact Int.le_refl 0
  | parked msg call v hmt hdecode hsecure hkey hpending => exact Int.le_refl 0
  | accepted msg key hmt hpending => exact Int.le_refl 0
  | flushed p ps key f o es hparked hkey hsend hmt hpid hdata =>
      rw [List.cons_append, shortfallOf_cons, shortfallOf_append, shortfallOf_ite rfl]
      have hsent := hsend.shortfall.1
      simp only [Psrp.shortfall]
      omega
  | replied msg call answer body f o es hmt hdecode hreply htype hpid hdata hsend =>
      rw [shortfallOf_cons, shortfallOf_cons]
      have hsent := hsend.shortfall.1
      simp only [Psrp.shortfall]
      omega
  | parkedFirst msg call v o es hmt hdecode hsecure hkey hpending hpub =>
      rw [List.cons_append, List.cons_append, shortfallOf_cons, shortfallOf_cons,
        shortfallOf_append, shortfallOf_ite rfl]
      have hsent := hpub.shortfall.1
      simp only [Psrp.shortfall]
      omega
  | refused msg e o es hmt hpending hwhy =>
      rw [shortfallOf_cons, shortfallOf_cons]
      have hsent : 0 ≤ shortfallOf es := hwhy.elim (fun h => h.2.shortfall) fun h => h.2.shortfall
      simp only [Psrp.shortfall]
      omega
  | requested msg o es hmt hpending hpub =>
      rw [shortfallOf_cons]
      have hsent := hpub.shortfall.1
      simp only [Psrp.shortfall]
      omega

theorem MoveTrace.shortfall {es : List PoolEvent} (hh : MoveTrace d s es) : 0 ≤ shortfallOf es := by
  cases hh with
  | deed o es ho htrace => exact htrace.shortfall
  | sent f o es hmt hsend => exact hsend.shortfall.1
  | published o es hpub => exact hpub.shortfall.1
  | remarked e he =>
      rw [shortfallOf_cons]
      cases e <;> first | exact Int.le_refl 0 | exact Int.zero_le_ofNat 1 | cases he
  | interrupted es htrace =>
      rw [shortfallOf_append]
      have hes := htrace.shortfall
      have hlast : shortfallOf [.fired, .dropped] = 1 := rfl
      omega
  | handed msg hcall hkey => exact Int.le_refl 0
  | after msg => exact Int.le_refl 0
  | ended msg => exact Int.le_refl 0
  | injected key => exact Int.le_refl 0
  | unnoted => exact Int.le_refl 0

end Shortfall

section Laws

variable {P : List PoolEvent → PoolEvent → List PoolEvent → Prop}

/-- What every move keeps holds of a run in which no call is dropped. -/
theorem play_finished {I : RunspacePool τ → Prop} (hmove : ∀ s t, I s → Move d s t → I t)
    (calls : List (Call Answer PoolOperation)) (hstart : I s)
    (hends : ∀ p ∈ (play (perform d) calls s).1, p.2.finished = true) :
    I (play (perform d) calls s).2 := by
  have hmoves : ∀ s t, I s → Moves d s t → I t := by
    intro s t hs hst
    induction hst with
    | refl => exact hs
    | tail _ hmv ih => exact hmove _ _ ih hmv
  refine Async.play_run (f := perform d)
    (fun past s => (∀ p ∈ past, p.2.finished = true) → I s) (fun past op s hs => ?_) calls
    (fun _ => hstart) hends
  refine wp_mono (wp_perform op s) fun x t hx hends => ?_
  have hpast : I s := hs fun p hp => hends p (List.mem_append_left _ hp)
  have hend := hends (op, x) (List.mem_append_right _ (List.mem_singleton.mpr rfl))
  -- A call that comes to its end only moves the pool.
  cases x with
  | ok a => exact hmoves s t hpast hx
  | err e => exact hmoves s t hpast hx
  | cut n => cases hend
  | suspended => cases hend

/-- If everything went through besides, a law that every faultless trace keeps
    holds of the run. -/
theorem play_faultless
    (hlater : ∀ before e after es, P before e after → P before e (after ++ es))
    (transport : τ) (machine : RunspacePoolStateMachine) (n : UInt64) (key0 : Option SessionKey)
    (hmove : ∀ (s : RunspacePool τ) es, Ledger d key0 s → MoveTrace d s es → shortfallOf es = 0 →
      Throughout (fun before => P (s.history ++ before)) es)
    (calls : List (Call Answer PoolOperation))
    (hends : ∀ p ∈ (play (perform d) calls (attached transport machine n key0)).1,
      p.2.finished = true)
    (hfaultless : Faultless (play (perform d) calls (attached transport machine n key0)).2.history) :
    Throughout P (play (perform d) calls (attached transport machine n key0)).2.history := by
  have hrun := play_finished (s := attached transport machine n key0) (I := fun s =>
    Ledger d key0 s ∧ 0 ≤ shortfallOf s.history
      ∧ (shortfallOf s.history = 0 → Throughout P s.history)) ?_ calls ?_ hends
  · exact hrun.2.2 hfaultless.shortfallOf
  · rintro s t ⟨hledger, hpos, hlaw⟩ hmv
    rcases hmv.trace with ⟨es, hes, htrace⟩
    have hes' := htrace.shortfall
    refine ⟨hmv.ledger hledger, ?_, fun hzero => ?_⟩
    · rw [hes, shortfallOf_append]
      omega
    · rw [hes, shortfallOf_append] at hzero
      rw [hes]
      exact (hlaw (by omega)).append hlater (hmove s es hledger htrace (by omega))
  · exact ⟨ledger_attached d transport machine n key0, Int.le_refl 0, fun _ => throughout_nil⟩

end Laws

section Disposal

/-- Nothing, or a public key that is sent first. -/
def IsPublication (es : List PoolEvent) : Prop :=
  es = [] ∨ ∃ f key, f.msg.messageType = .publicKey ∧ es = [.sending f, .sent f, .exchange key]

/-- The host's answer was parked, perhaps after a key exchange was started for
    it. -/
def Parks (msg : PsrpMessage) (call : HostCall) (answer : Except PsrpError (Option PsValue))
    (after : List PoolEvent) : Prop :=
  ∃ v es rest, answer = .ok (some v) ∧ IsPublication es
    ∧ after = es ++ .parked (parkedFor msg call v) :: rest

/-- What follows an event of the bookkeeping. -/
def Disposes (d : Driver τ) (before : List PoolEvent) (e : PoolEvent) (after : List PoolEvent) :
    Prop :=
  match e with
  | .took msg => isHostCall msg.messageType → ∀ call,
      decodeHostCall d.platform.toPlatform msg.data = .ok call →
      ∃ answer rest, after = .answered msg call answer :: rest ∧ (writesOnly call = false →
        (∃ f rest', rest = .sending f :: .sent f :: rest'
          ∧ f.msg.messageType = hostResponseType msg.messageType)
        ∨ Parks msg call answer rest)
  | .parked p => ∃ earlier msg call v es, p = parkedFor msg call v ∧ IsPublication es
      ∧ before = earlier ++ .answered msg call (.ok (some v)) :: es
  | .flushing p => ∃ f rest, after = .sending f :: .sent f :: .flushed p :: rest
      ∧ f.msg.messageType = p.responseType
  | .failing p => ∃ f rest, after = .sending f :: .sent f :: rest
      ∧ f.msg.messageType = p.responseType
  | _ => True

theorem Disposes.later {before after : List PoolEvent} {e : PoolEvent} (es : List PoolEvent)
    (hh : Disposes d before e after) : Disposes d before e (after ++ es) := by
  cases e with
  | took msg =>
      intro hmt call hdecode
      rcases hh hmt call hdecode with ⟨answer, rest, rfl, hdone⟩
      refine ⟨answer, rest ++ es, rfl, fun hwants => (hdone hwants).imp ?_ ?_⟩
      · rintro ⟨f, rest, rfl, htype⟩
        exact ⟨f, rest ++ es, rfl, htype⟩
      · rintro ⟨v, mid, rest, hv, hmid, rfl⟩
        refine ⟨v, mid, rest ++ es, hv, hmid, ?_⟩
        rw [List.append_assoc]
        rfl
  | parked p => exact hh
  | flushing p =>
      rcases hh with ⟨f, rest, rfl, hf⟩
      exact ⟨f, rest ++ es, rfl, hf⟩
  | failing p =>
      rcases hh with ⟨f, rest, rfl, hf⟩
      exact ⟨f, rest ++ es, rfl, hf⟩
  | _ => exact trivial

/-- Events that the bookkeeping is not about. -/
def isSilent : PoolEvent → Bool
  | .took _ | .parked _ | .flushing _ | .failing _ => false
  | _ => true

theorem disposes_silent {before after : List PoolEvent} {e : PoolEvent} (he : isSilent e = true) :
    Disposes d before e after := by
  cases e <;> first | exact trivial | cases he

theorem throughout_silent {es : List PoolEvent} (hes : ∀ e ∈ es, isSilent e = true) :
    Throughout (fun before => Disposes d (h ++ before)) es := by
  rintro before e after rfl
  exact disposes_silent (hes e (List.mem_append_right _ List.mem_cons_self))

theorem SendTrace.silent {f : Frame} {o : Fate} {es : List PoolEvent} (hh : SendTrace f o es) :
    ∀ e ∈ es, isSilent e = true := by
  cases hh with
  | through => exact List.forall_mem_cons.mpr ⟨rfl, List.forall_mem_singleton.mpr rfl⟩
  | stopped o ho => exact List.forall_mem_singleton.mpr rfl
  | exhausted e => exact List.forall_mem_singleton.mpr rfl

theorem PublishTrace.silent {o : Fate} {es : List PoolEvent} (hh : PublishTrace d o es) :
    ∀ e ∈ es, isSilent e = true := by
  cases hh with
  | started key f hmt hdata =>
      exact List.forall_mem_cons.mpr ⟨rfl, List.forall_mem_cons.mpr
        ⟨rfl, List.forall_mem_singleton.mpr rfl⟩⟩
  | stopped f o es ho hmt hsend => exact hsend.silent
  | keyless e => exact List.forall_mem_singleton.mpr rfl

/-- Every refusal is sent. -/
theorem RefusalTrace.disposes {ps : List DeferredHostResponse} {o : Fate} {es : List PoolEvent}
    (hh : RefusalTrace ps o es) (hzero : shortfallOf es = 0) (h : List PoolEvent) :
    Throughout (fun before => Disposes d (h ++ before)) es := by
  induction hh generalizing h with
  | nil => exact throughout_nil
  | cons p ps f o o' es es' ho hmt hsend hrest ih =>
      rw [shortfallOf_append, shortfallOf_cons] at hzero
      have hfirst := hsend.shortfall.1
      have hlater := hrest.shortfall
      simp only [Psrp.shortfall] at hzero
      rcases hsend.shortfall.2 (by omega) with ⟨_, rfl⟩
      -- The rest of the refusals come after the first.
      refine Throughout.cons ⟨f, es', rfl, hmt⟩ ?_
      refine Throughout.cons (disposes_silent rfl) (Throughout.cons (disposes_silent rfl) ?_)
      have hrest := ih (by omega) (h ++ [.failing p, .sending f, .sent f])
      simp only [List.append_assoc, List.cons_append, List.nil_append] at hrest
      exact hrest
  | dropped p ps f es hmt hsend =>
      rw [shortfallOf_cons] at hzero
      simp only [Psrp.shortfall] at hzero
      have hthrough := (hsend.shortfall.2 (by omega)).1
      cases hthrough

/-- A call that is taken in the end, or a message of another type. -/
theorem throughout_call {msg : PsrpMessage} {es : List PoolEvent}
    (hfirst : Disposes d h (.took msg) es)
    (hrest : Throughout (fun before => Disposes d (h ++ .took msg :: before)) es) :
    Throughout (fun before => Disposes d (h ++ before)) (.took msg :: es) := by
  refine Throughout.cons ?_ hrest
  rw [List.append_nil]
  exact hfirst

theorem disposes_other {msg : PsrpMessage} {es : List PoolEvent}
    (hmt : ¬ isHostCall msg.messageType) : Disposes d h (.took msg) es :=
  fun hcall => absurd hcall hmt

theorem not_isHostCall {mt : MessageType} (hcall : mt ≠ .runspacePoolHostCall)
    (hpipeline : mt ≠ .pipelineHostCall) : ¬ isHostCall mt := fun h => h.elim hcall hpipeline

/-- Whatever a read does, if it is not dropped and everything goes through. -/
theorem Trace.disposes {o : Fate} {es : List PoolEvent} (htrace : Trace d s o es)
    (ho : o ≠ .dropped) (hzero : shortfallOf es = 0) :
    Throughout (fun before => Disposes d (s.history ++ before)) es := by
  cases htrace with
  | unread o ho => exact throughout_nil
  | chunk o chunk ho => exact throughout_silent (List.forall_mem_singleton.mpr rfl)
  | flushed p ps key f o es hparked hkey hsend hmt hpid hdata =>
      rw [List.cons_append, shortfallOf_cons, shortfallOf_append, shortfallOf_ite rfl] at hzero
      simp only [Psrp.shortfall] at hzero
      -- Nothing is missing, so what was sent went through.
      rcases hsend.shortfall.2 (by omega) with ⟨rfl, rfl⟩
      refine Throughout.cons ⟨f, [], rfl, hmt⟩ ?_
      exact Throughout.cons (disposes_silent rfl) (Throughout.cons (disposes_silent rfl)
        (Throughout.cons (disposes_silent rfl) throughout_nil))
  | unheard msg o hmt hthrough hwhy =>
      refine throughout_call (fun _ call hok => ?_) throughout_nil
      -- A call that cannot be read asks for nothing.
      rcases hwhy with ⟨e, _, herror⟩ | hdropped
      · rw [herror] at hok
        cases hok
      · exact absurd hdropped ho
  | silent msg call hmt hdecode hwrites =>
      refine throughout_call (fun _ call' hok => ?_)
        (Throughout.cons (disposes_silent rfl) throughout_nil)
      rw [hdecode] at hok
      cases hok
      refine ⟨.ok none, [], rfl, fun hwants => ?_⟩
      -- A method that only writes wants no answer.
      rw [hwrites] at hwants
      cases hwants
  | replied msg call answer body f o es hmt hdecode hreply htype hpid hdata hsend =>
      rw [shortfallOf_cons, shortfallOf_cons] at hzero
      simp only [Psrp.shortfall] at hzero
      rcases hsend.shortfall.2 (by omega) with ⟨_, rfl⟩
      refine throughout_call (fun _ call' hok => ?_) ?_
      · rw [hdecode] at hok
        cases hok
        -- The response follows at once.
        exact ⟨answer, _, rfl, fun _ => Or.inl ⟨f, [], rfl, htype⟩⟩
      · exact Throughout.cons (disposes_silent rfl) (Throughout.cons (disposes_silent rfl)
          (Throughout.cons (disposes_silent rfl) throughout_nil))
  | parked msg call v hmt hdecode hsecure hkey hpending =>
      refine throughout_call (fun _ call' hok => ?_) ?_
      · rw [hdecode] at hok
        cases hok
        -- The answer is parked, for an exchange that is in flight.
        exact ⟨.ok (some v), _, rfl, fun _ => Or.inr ⟨v, [], [], rfl, Or.inl rfl, rfl⟩⟩
      · refine Throughout.cons (disposes_silent rfl) (Throughout.cons ?_ throughout_nil)
        refine ⟨s.history ++ [.took msg], msg, call, v, [], rfl, Or.inl rfl, ?_⟩
        rw [List.append_assoc]
        rfl
  | parkedFirst msg call v o es hmt hdecode hsecure hkey hpending hpub =>
      rw [List.cons_append, List.cons_append, shortfallOf_cons, shortfallOf_cons,
        shortfallOf_append, shortfallOf_ite rfl] at hzero
      simp only [Psrp.shortfall] at hzero
      rcases hpub.shortfall.2 (by omega) with ⟨rfl, f, key, hf, rfl⟩
      -- An exchange is started first, and then the answer is parked.
      have hpublication : IsPublication [.sending f, .sent f, .exchange key] :=
        Or.inr ⟨f, key, hf, rfl⟩
      refine throughout_call (fun _ call' hok => ?_) ?_
      · rw [hdecode] at hok
        cases hok
        exact ⟨.ok (some v), _, rfl, fun _ => Or.inr ⟨v, _, [], rfl, hpublication, rfl⟩⟩
      · refine Throughout.cons (disposes_silent rfl) (Throughout.cons (disposes_silent rfl)
          (Throughout.cons (disposes_silent rfl) (Throughout.cons (disposes_silent rfl)
            (Throughout.cons ?_ throughout_nil))))
        refine ⟨s.history ++ [.took msg], msg, call, v, _, rfl, hpublication, ?_⟩
        rw [List.append_assoc]
        rfl
  | accepted msg key hmt hpending =>
      refine throughout_call (disposes_other ?_) (Throughout.cons (disposes_silent rfl) throughout_nil)
      -- The messages of the key exchange are no calls.
      rw [hmt]
      exact not_isHostCall nofun nofun
  | refused msg e o es hmt hpending hwhy =>
      rw [shortfallOf_cons, shortfallOf_cons] at hzero
      simp only [Psrp.shortfall] at hzero
      refine throughout_call (disposes_other ?_) (Throughout.cons (disposes_silent rfl) ?_)
      · rw [hmt]
        exact not_isHostCall nofun nofun
      · rcases hwhy with ⟨_, hrefusal⟩ | ⟨hdropped, _⟩
        · have hrest := hrefusal.disposes (d := d) (by omega) (s.history ++ [.took msg, .refused e])
          simp only [List.append_assoc, List.cons_append, List.nil_append] at hrest
          exact hrest
        · exact absurd hdropped ho
  | requested msg o es hmt hpending hpub =>
      refine throughout_call (disposes_other ?_) ?_
      · rw [hmt]
        exact not_isHostCall nofun nofun
      · have hrest := throughout_silent (d := d) (h := s.history ++ [.took msg])
          hpub.silent
        simp only [List.append_assoc, List.cons_append, List.nil_append] at hrest
        exact hrest

theorem MoveTrace.disposes {es : List PoolEvent} (htrace : MoveTrace d s es)
    (hzero : shortfallOf es = 0) :
    Throughout (fun before => Disposes d (s.history ++ before)) es := by
  cases htrace with
  | deed o es ho htrace => exact htrace.disposes ho hzero
  | handed msg hcall hkey =>
      exact throughout_call (disposes_other hcall) (Throughout.cons (disposes_silent rfl)
        throughout_nil)
  | after msg => exact throughout_silent (List.forall_mem_singleton.mpr rfl)
  | ended msg =>
      exact throughout_silent (List.forall_mem_cons.mpr ⟨rfl, List.forall_mem_singleton.mpr rfl⟩)
  | sent f o es hmt hsend => exact throughout_silent hsend.silent
  | published o es hpub => exact throughout_silent hpub.silent
  | injected key => exact throughout_silent (List.forall_mem_singleton.mpr rfl)
  | unnoted => exact throughout_nil
  | remarked e he =>
      refine throughout_silent (List.forall_mem_singleton.mpr ?_)
      cases e <;> first | rfl | cases he
  | interrupted es htrace =>
      -- A read that was dropped makes the trace fall short.
      rw [shortfallOf_append] at hzero
      have hes := htrace.shortfall
      have hlast : shortfallOf [.fired, .dropped] = 1 := rfl
      omega

end Disposal

section Order

/-- Everything that was parked left or is still parked, in order, and nothing is
    being refused. -/
structure Balanced (key0 : Option SessionKey) (h : List PoolEvent) : Prop where
  failing : (booksOf key0 h).failing = []
  order : parkedOf h = leftOf h ++ (booksOf key0 h).parked

/-- Events that concern parked answers. -/
def isParking : PoolEvent → Bool
  | .parked _ | .flushed _ | .failing _ | .refused _ => true
  | _ => false

theorem parkedOf_snoc (h : List PoolEvent) (e : PoolEvent) :
    parkedOf (h ++ [e]) = parkedOf h ++ parkedOf [e] := List.filterMap_append ..

theorem leftOf_snoc (h : List PoolEvent) (e : PoolEvent) :
    leftOf (h ++ [e]) = leftOf h ++ leftOf [e] := List.filterMap_append ..

/-- What has nothing to do with parked answers. -/
theorem idle_books (key0 : Option SessionKey) (h : List PoolEvent) {es : List PoolEvent}
    (hes : ∀ e ∈ es, isParking e = false) :
    (booksOf key0 (h ++ es)).failing = (booksOf key0 h).failing
      ∧ (booksOf key0 (h ++ es)).parked = (booksOf key0 h).parked
      ∧ parkedOf (h ++ es) = parkedOf h ∧ leftOf (h ++ es) = leftOf h := by
  induction es using List.reverseRecOn with
  | nil =>
      rw [List.append_nil]
      exact ⟨rfl, rfl, rfl, rfl⟩
  | append_singleton es e ih =>
      rcases ih fun e' he' => hes e' (List.mem_append_left _ he') with ⟨h₁, h₂, h₃, h₄⟩
      have he := hes e (List.mem_append_right _ (List.mem_singleton.mpr rfl))
      have hstep : (∀ b : Books, (b.step e).failing = b.failing ∧ (b.step e).parked = b.parked)
          ∧ parkedOf [e] = [] ∧ leftOf [e] = [] := by
        cases e with
        | parked p => cases he
        | flushed p => cases he
        | failing p => cases he
        | refused e => cases he
        | _ => exact ⟨fun b => ⟨rfl, rfl⟩, rfl, rfl⟩
      rcases hstep with ⟨hbooks, hin, hout⟩
      rw [← List.append_assoc, booksOf_snoc, parkedOf_snoc, leftOf_snoc, hin, hout, List.append_nil,
        List.append_nil]
      exact ⟨(hbooks _).1.trans h₁, (hbooks _).2.trans h₂, h₃, h₄⟩

theorem Balanced.idle (hh : Balanced key0 h) {es : List PoolEvent}
    (hes : ∀ e ∈ es, isParking e = false) : Balanced key0 (h ++ es) := by
  rcases idle_books key0 h hes with ⟨hfailing, hparked, hin, hout⟩
  exact ⟨hfailing.trans hh.failing, by rw [hin, hout, hparked, hh.order]⟩

theorem Balanced.parked (hh : Balanced key0 h) (p : DeferredHostResponse) :
    Balanced key0 (h ++ [.parked p]) := by
  refine ⟨?_, ?_⟩
  · rw [booksOf_snoc]
    exact hh.failing
  · rw [booksOf_snoc, parkedOf_snoc, leftOf_snoc, hh.order]
    simp only [Books.step, parkedOf, leftOf, List.filterMap_cons, List.filterMap_nil,
      List.append_nil, List.append_assoc]

/-- What is flushed is the first of what is parked. -/
theorem Balanced.flushed (hh : Balanced key0 h) {p : DeferredHostResponse}
    {ps : List DeferredHostResponse} (hps : (booksOf key0 h).parked = p :: ps) :
    Balanced key0 (h ++ [.flushed p]) := by
  refine ⟨?_, ?_⟩
  · rw [booksOf_snoc]
    exact hh.failing
  · rw [booksOf_snoc, parkedOf_snoc, leftOf_snoc, hh.order]
    simp only [Books.step, hps, parkedOf, leftOf, List.filterMap_cons, List.filterMap_nil,
      List.append_nil, List.append_assoc, List.tail_cons, List.cons_append, List.nil_append]

theorem outgoing_not_parking {es : List PoolEvent} (hes : ∀ e ∈ es, isOutgoing e = true)
    (hfailing : ∀ p, .failing p ∉ es) : ∀ e ∈ es, isParking e = false := by
  intro e he
  have hout := hes e he
  cases e with
  | failing p => exact absurd he (hfailing p)
  | _ => first | rfl | cases hout

theorem SendTrace.not_parking {f : Frame} {o : Fate} {es : List PoolEvent} (hh : SendTrace f o es) :
    ∀ e ∈ es, isParking e = false := by
  refine outgoing_not_parking hh.outgoing fun p hp => ?_
  have hsilent := hh.silent _ hp
  cases hsilent

theorem PublishTrace.not_parking {o : Fate} {es : List PoolEvent} (hh : PublishTrace d o es) :
    ∀ e ∈ es, isParking e = false := by
  refine outgoing_not_parking hh.outgoing fun p hp => ?_
  have hsilent := hh.silent _ hp
  cases hsilent

/-- A history in which some answers are still to be refused, in order. -/
theorem RefusalTrace.balanced {ps : List DeferredHostResponse} {o : Fate} {es : List PoolEvent}
    (hh : RefusalTrace ps o es) (ho : o = .through) (hfailing : (booksOf key0 h).failing = ps)
    (horder : parkedOf h = leftOf h ++ ps) (hnone : (booksOf key0 h).parked = []) :
    Balanced key0 (h ++ es) := by
  -- By induction on what is to be refused; each refusal takes the first of it.
  induction hh generalizing h with
  | nil =>
      rw [List.append_nil]
      exact ⟨hfailing, by rw [hnone, List.append_nil, horder, List.append_nil]⟩
  | cons p ps f o o' es es' hne hmt hsend hrest ih =>
      have hfirst : (booksOf key0 (h ++ [.failing p])).failing = ps := by
        rw [booksOf_snoc]
        change (booksOf key0 h).failing.tail = ps
        rw [hfailing, List.tail_cons]
      have hinOrder : parkedOf (h ++ [.failing p]) = leftOf (h ++ [.failing p]) ++ ps := by
        rw [parkedOf_snoc, leftOf_snoc, horder]
        simp only [parkedOf, leftOf, List.filterMap_cons, List.filterMap_nil, List.append_nil,
          List.append_assoc, List.cons_append, List.nil_append]
      have hempty : (booksOf key0 (h ++ [.failing p])).parked = [] := by
        rw [booksOf_snoc]
        exact hnone
      rcases idle_books key0 (h ++ [.failing p]) hsend.not_parking with ⟨h₁, h₂, h₃, h₄⟩
      rw [← h₁] at hfirst
      rw [← h₃, ← h₄] at hinOrder
      rw [← h₂] at hempty
      have hall := ih ho hfirst hinOrder hempty
      simp only [List.append_assoc, List.cons_append, List.nil_append] at hall ⊢
      exact hall
  | dropped p ps f es hmt hsend => cases ho

/-- Whatever is parked is refused in order. -/
theorem Balanced.refused (hh : Balanced key0 h) (e : PsrpError) {es : List PoolEvent}
    (hrefusal : RefusalTrace (booksOf key0 h).parked .through es) :
    Balanced key0 (h ++ .refused e :: es) := by
  have hall : Balanced key0 (h ++ [.refused e] ++ es) := by
    refine hrefusal.balanced rfl ?_ ?_ ?_
    · rw [booksOf_snoc]
      rfl
    · rw [parkedOf_snoc, leftOf_snoc, hh.order]
      simp only [parkedOf, leftOf, List.filterMap_cons, List.filterMap_nil, List.append_nil]
    · rw [booksOf_snoc]
      rfl
  rw [List.append_assoc] at hall
  exact hall

theorem Trace.balanced {o : Fate} {es : List PoolEvent} (htrace : Trace d s o es)
    (ho : o ≠ .dropped) (hledger : Ledger d key0 s) (hh : Balanced key0 s.history) :
    Balanced key0 (s.history ++ es) := by
  cases htrace with
  | unread o ho => exact hh.idle fun e he => absurd he List.not_mem_nil
  | chunk o chunk ho => exact hh.idle (List.forall_mem_singleton.mpr rfl)
  | unheard msg o hmt hthrough hwhy => exact hh.idle (List.forall_mem_singleton.mpr rfl)
  | silent msg call hmt hdecode hwrites =>
      exact hh.idle (List.forall_mem_cons.mpr ⟨rfl, List.forall_mem_singleton.mpr rfl⟩)
  | replied msg call answer body f o es hmt hdecode hreply htype hpid hdata hsend =>
      exact hh.idle (List.forall_mem_cons.mpr ⟨rfl, List.forall_mem_cons.mpr
        ⟨rfl, hsend.not_parking⟩⟩)
  | accepted msg key hmt hpending =>
      exact hh.idle (List.forall_mem_cons.mpr ⟨rfl, List.forall_mem_singleton.mpr rfl⟩)
  | requested msg o es hmt hpending hpub =>
      exact hh.idle (List.forall_mem_cons.mpr ⟨rfl, hpub.not_parking⟩)
  -- An answer joins the queue at its end,
  | parked msg call v hmt hdecode hsecure hkey hpending =>
      have hbefore : Balanced key0 (s.history ++ [.took msg, .answered msg call (.ok (some v))]) :=
        hh.idle (List.forall_mem_cons.mpr ⟨rfl, List.forall_mem_singleton.mpr rfl⟩)
      have hparked := hbefore.parked (parkedFor msg call v)
      rw [List.append_assoc] at hparked
      exact hparked
  | parkedFirst msg call v o es hmt hdecode hsecure hkey hpending hpub =>
      have hbefore : Balanced key0
          (s.history ++ .took msg :: .answered msg call (.ok (some v)) :: es) :=
        hh.idle (List.forall_mem_cons.mpr ⟨rfl, List.forall_mem_cons.mpr ⟨rfl, hpub.not_parking⟩⟩)
      rw [← List.append_assoc]
      by_cases hthrough : o = .through
      · rw [if_pos hthrough]
        exact hbefore.parked _
      · rw [if_neg hthrough, List.append_nil]
        exact hbefore
  | flushed p ps key f o es hparked hkey hsend hmt hpid hdata =>
      have hidle : ∀ e ∈ PoolEvent.flushing p :: es, isParking e = false :=
        List.forall_mem_cons.mpr ⟨rfl, hsend.not_parking⟩
      have hbefore : Balanced key0 (s.history ++ .flushing p :: es) := hh.idle hidle
      rw [← List.append_assoc]
      by_cases hthrough : o = .through
      · rw [if_pos hthrough]
        -- the one that is sent was the first of the queue,
        have hfirst : (booksOf key0 (s.history ++ .flushing p :: es)).parked = p :: ps := by
          rw [(idle_books key0 s.history hidle).2.1, ← hledger.parked]
          exact hparked
        exact hbefore.flushed hfirst
      · rw [if_neg hthrough, List.append_nil]
        exact hbefore
  | refused msg e o es hmt hpending hwhy =>
      rcases hwhy with ⟨_, hrefusal⟩ | ⟨hdropped, _⟩
      · -- and a refused reply empties it, in order.
        have htook : ∀ e ∈ [PoolEvent.took msg], isParking e = false :=
          List.forall_mem_singleton.mpr rfl
        have hbefore : Balanced key0 (s.history ++ [.took msg]) := hh.idle htook
        rw [hledger.parked, ← (idle_books key0 s.history htook).2.1] at hrefusal
        have hall := hbefore.refused e hrefusal
        rw [List.append_assoc] at hall
        exact hall
      · exact absurd hdropped ho

theorem MoveTrace.balanced {es : List PoolEvent} (htrace : MoveTrace d s es)
    (hzero : shortfallOf es = 0) (hledger : Ledger d key0 s) (hh : Balanced key0 s.history) :
    Balanced key0 (s.history ++ es) := by
  cases htrace with
  | deed o es ho htrace => exact htrace.balanced ho hledger hh
  | handed msg hcall hkey =>
      exact hh.idle (List.forall_mem_cons.mpr ⟨rfl, List.forall_mem_singleton.mpr rfl⟩)
  | after msg => exact hh.idle (List.forall_mem_singleton.mpr rfl)
  | ended msg =>
      exact hh.idle (List.forall_mem_cons.mpr ⟨rfl, List.forall_mem_singleton.mpr rfl⟩)
  | sent f o es hmt hsend => exact hh.idle hsend.not_parking
  | published o es hpub => exact hh.idle hpub.not_parking
  | injected key => exact hh.idle (List.forall_mem_singleton.mpr rfl)
  | unnoted => exact hh.idle fun e he => absurd he List.not_mem_nil
  | remarked e he =>
      refine hh.idle (List.forall_mem_singleton.mpr ?_)
      cases e <;> first | rfl | cases he
  | interrupted es htrace =>
      rw [shortfallOf_append] at hzero
      have hes := htrace.shortfall
      have hlast : shortfallOf [.fired, .dropped] = 1 := rfl
      omega

/-- As long as something is parked, there is a key or an exchange. -/
theorem Caused.awaited (hh : Caused d key0 h) (hne : (booksOf key0 h).parked ≠ []) :
    (booksOf key0 h).key.isSome = true ∨ (booksOf key0 h).pending.isSome = true := by
  induction h using List.reverseRecOn with
  | nil => exact absurd rfl hne
  | append_singleton h e ih =>
      rw [booksOf_snoc] at hne ⊢
      have ih := ih hh.last.1
      cases e with
      | parked p => exact Or.inr hh.last.2.2.2.2
      | exchange key => exact Or.inr rfl
      | keyed key => exact Or.inl rfl
      | injected key => exact Or.inl rfl
      | refused e => exact absurd rfl hne
      | flushed p =>
          refine ih fun hnil => hne ?_
          change (booksOf key0 h).parked.tail = []
          rw [hnil, List.tail_nil]
      | _ => exact ih hne

end Order

section Backing

/-- A response, and the event it is sent for: the host has just answered, or a
    parked answer is sent, or refused. -/
inductive Backs (d : Driver τ) (key0 : Option SessionKey) (before : List PoolEvent) :
    PoolEvent → Frame → Prop
  | answered (msg call answer) (f : Frame) : writesOnly call = false →
      Reply d (keyAfter key0 before) call answer f.msg.data →
      f.msg.messageType = hostResponseType msg.messageType → f.msg.pid = msg.pid →
      Backs d key0 before (.answered msg call answer) f
  | flushing (p key) (f : Frame) : keyAfter key0 before = some key →
      f.msg.data = sealedBody d key p → f.msg.messageType = p.responseType → f.msg.pid = p.pid →
      Backs d key0 before (.flushing p) f
  | failing (p e) (f : Frame) : f.msg.data = refusedBody d (refusal e) p →
      f.msg.messageType = p.responseType → f.msg.pid = p.pid →
      Backs d key0 before (.failing p) f

theorem hostResponseType_isResponse (mt : MessageType) : isResponse (hostResponseType mt) = true := by
  rcases hostResponseType_cases mt with h | h
  · rw [h]
    rfl
  · rw [h]
    rfl

theorem isReserved_of_isResponse {mt : MessageType} (hmt : isResponse mt = true) :
    isReserved mt = true := by
  cases mt <;> first | rfl | cases hmt

/-- What is parked or being refused is of the type of a response. -/
theorem Caused.isResponse {p : DeferredHostResponse} (hh : Caused d key0 h)
    (hp : p ∈ (booksOf key0 h).parked ∨ p ∈ (booksOf key0 h).failing) :
    isResponse p.responseType = true := by
  rcases List.append_of_mem (mem_parked key0 h p hp) with ⟨before, after, rfl⟩
  rcases (hh before _ after rfl).1 with ⟨msg, call, v, rfl⟩
  exact hostResponseType_isResponse msg.messageType

/-- A response is sent for what was noted right before it. -/
theorem Caused.backs {f : Frame} {before after : List PoolEvent}
    (hh : Caused d key0 (before ++ .sending f :: after))
    (hf : Psrp.isResponse f.msg.messageType = true) :
    ∃ earlier e, before = earlier ++ [e] ∧ Backs d key0 earlier e f := by
  have hsplit : ∀ e, before.getLast? = some e → before = before.dropLast ++ [e] := fun e he =>
    (List.dropLast_append_getLast? e he).symm
  have hkey : ∀ e, before.getLast? = some e →
      (∀ b : Books, (b.step e).key = b.key) →
      (booksOf key0 before).key = keyAfter key0 before.dropLast := by
    intro e he hstep
    rw [hsplit e he, booksOf_snoc, hstep, List.dropLast_concat, keyAfter_eq]
  cases hh before (.sending f) after rfl with
  | published rpid key hidle hmsg =>
      rw [hmsg] at hf
      cases hf
  | other hreserved =>
      rw [isReserved_of_isResponse hf] at hreserved
      cases hreserved
  | replied rpid msg call answer body hlast hreply hmsg =>
      refine ⟨before.dropLast, _, hsplit _ hlast, ?_⟩
      rw [hkey _ hlast fun _ => rfl] at hreply
      have hcause : Cause d key0 before.dropLast (.answered msg call answer) := by
        refine hh before.dropLast _ (.sending f :: after) ?_
        have happend := congrArg (· ++ .sending f :: after) (hsplit _ hlast)
        exact happend.trans (List.append_assoc ..)
      have hwants : writesOnly call = false := by
        rw [Bool.eq_false_iff]
        intro hwrites
        rw [hcause.2.2.2.mpr hwrites] at hreply
        cases hreply
      exact .answered msg call answer f hwants (hmsg ▸ hreply) (hmsg ▸ rfl) (hmsg ▸ rfl)
  | flushed rpid p key hlast hheld hmsg =>
      refine ⟨before.dropLast, _, hsplit _ hlast, ?_⟩
      rw [hkey _ hlast fun _ => rfl] at hheld
      exact .flushing p key f hheld (hmsg ▸ rfl) (hmsg ▸ rfl) (hmsg ▸ rfl)
  | failed rpid p e hlast hreason hmsg =>
      refine ⟨before.dropLast, _, hsplit _ hlast, ?_⟩
      exact .failing p e f (hmsg ▸ rfl) (hmsg ▸ rfl) (hmsg ▸ rfl)

end Backing

section Settling

theorem Handover.settled {msg : PsrpMessage} (hhand : Handover d msg s t) : Settled t := by
  cases hhand with
  | plain htook hcall hkey hrequest => exact htook.settled
  | after hsettled hmt => exact hsettled
  | ended hsettled hran hidle hempty hmsg => exact hsettled

/-- A read that fails leaves nothing parked that could be sent, unless it failed
    to send just that. -/
theorem Deed.settles {e : PsrpError} (hdeed : Deed d (.failed e) s t) :
    Settled t ∨ ∃ f es p, SendTrace f (.failed e) es
      ∧ t.history = s.history ++ .flushing p :: es := by
  cases hdeed with
  | unread hsettled ho hfate hran => exact Or.inl hsettled
  | unfed hsettled hpending hran hfeed =>
      rename_i chunk v
      rcases feedChunk_eq chunk (RunspacePool.note (.chunk chunk) { s with transport := v })
        with ⟨r, pending, hstate⟩
      rw [hfeed] at hstate
      rw [show t = _ from hstate]
      exact Or.inl hsettled
  | unflushed ho hparked hkey hsend =>
      rename_i p ps key
      rcases hsend.trace with ⟨es, hes, htrace⟩
      refine Or.inr ⟨_, es, p, htrace, ?_⟩
      rw [hes]
      change (s.history ++ [_]) ++ es = _
      rw [List.append_assoc]
      rfl
  | undecodable htook hmt hdecode => exact Or.inl htook.settled
  | replied htook hmt hdecode hwants hreply hsend =>
      exact Or.inl (hsend.settled (s := RunspacePool.note _ _) htook.settled)
  | unparked ho htook hmt hdecode hwants hsecure hkey hpending hpub =>
      exact Or.inl (hpub.settled (s := RunspacePool.note _ _) htook.settled)
  | refused htook hmt hpending hunwrap hfails =>
      -- Nothing is parked any more once a reply was refused.
      have hnone : ∀ {message ps o} {s t : RunspacePool τ}, FailsEach d message ps o s t →
          s.deferredHostResponses = [] → t.deferredHostResponses = [] := by
        intro message ps o s t hfails hs
        induction hfails with
        | nil s => exact hs
        | cons hne hsend hrest ih => exact ih ((hsend.beside none).parked.trans hs)
        | dropped hsend => exact (hsend.beside none).parked.trans hs
      exact Or.inl fun _ => hnone hfails rfl
  | requested htook hmt hpending hpub => exact Or.inl (hpub.settled htook.settled)

/-- A reply that was refused leaves nothing parked. -/
theorem Trace.unparked {o : Fate} {es : List PoolEvent} {e : PsrpError} (htrace : Trace d s o es)
    (he : .refused e ∈ es) : (booksOf key0 (s.history ++ es)).parked = [] := by
  rcases (htrace.refusal he).2.2 with ⟨msg, rest, rfl, hrest⟩
  clear htrace he
  induction rest using List.reverseRecOn with
  | nil =>
      have hsplit : s.history ++ [.took msg, .refused e]
          = (s.history ++ [.took msg]) ++ [.refused e] := by
        rw [List.append_assoc]
        rfl
      rw [hsplit, booksOf_snoc]
      rfl
  | append_singleton rest e' ih =>
      have hout := hrest e' (List.mem_append_right _ (List.mem_singleton.mpr rfl))
      have hsplit : s.history ++ .took msg :: .refused e :: (rest ++ [e'])
          = (s.history ++ .took msg :: .refused e :: rest) ++ [e'] := by
        rw [List.append_assoc]
        rfl
      have hih := ih fun e he => hrest e (List.mem_append_left _ he)
      rw [hsplit, booksOf_snoc]
      -- What goes out parks nothing.
      cases e' <;> first | exact hih | cases hout

/-- What deeds that go through add to a history. -/
theorem Deeds.history (hdeeds : Deeds d s t) : ∃ es, t.history = s.history ++ es
    ∧ 0 ≤ shortfallOf es ∧ ∀ e, .refused e ∉ es := by
  induction hdeeds with
  | refl => exact ⟨[], (List.append_nil _).symm, Int.le_refl 0, fun _ => List.not_mem_nil⟩
  | tail _ hdeed ih =>
      rcases ih with ⟨es, hes, hpos, hnone⟩
      rcases hdeed.trace with ⟨es', hes', htrace⟩
      have hpos' := htrace.shortfall
      refine ⟨es ++ es', ?_, ?_, fun e he => ?_⟩
      · rw [hes', hes, List.append_assoc]
      · rw [shortfallOf_append]
        omega
      · rcases List.mem_append.mp he with he | he
        · exact hnone e he
        · exact (htrace.refusal he).1 rfl

theorem Deeds.ledger (hdeeds : Deeds d s t) (hledger : Ledger d key0 s) : Ledger d key0 t := by
  induction hdeeds with
  | refl => exact hledger
  | tail _ hdeed ih => exact hdeed.ledger ih

/-- A read that comes to its end leaves nothing parked that could be sent, and
    nothing at all if it refused a reply. -/
theorem wp_nextMessage_settles (hledger : Ledger d key0 s) : wp (nextMessage d) (fun x t =>
    x.finished = true → ∃ es, t.history = s.history ++ es
      ∧ (shortfallOf t.history ≤ shortfallOf s.history → Settled t)
      ∧ ((∃ e, .refused e ∈ es) → t.deferredHostResponses = [])) s := by
  refine wp_mono (Async.wp_and wp_nextMessage wp_nextMessage_tells) fun x t hx hend => ?_
  rcases hx with ⟨hx, es, hes, htells⟩
  cases x with
  | cut n => cases hend
  | suspended => cases hend
  | ok msg =>
      rcases hx with ⟨u, hdeeds, hhand⟩
      exact ⟨es, hes, fun _ => hhand.settled, fun ⟨e, he⟩ => (htells e he).elim⟩
  | err e =>
      cases hx with
      | stopped ho hdeeds hdeed =>
          rename_i u
          rcases hdeeds.history with ⟨es₁, hes₁, hpos, hnone⟩
          rcases hdeed.trace with ⟨es₂, hes₂, htrace⟩
          have hall : t.history = s.history ++ (es₁ ++ es₂) := by
            rw [hes₂, hes₁, List.append_assoc]
          refine ⟨es₁ ++ es₂, hall, fun hzero => ?_, fun ⟨e', he'⟩ => ?_⟩
          · rcases hdeed.settles with hsettled | ⟨f, es', p, hsend, hflush⟩
            · exact hsettled
            · -- The send that failed makes the trace fall short.
              rw [hflush, hes₁, shortfallOf_append, shortfallOf_append, shortfallOf_cons] at hzero
              have hsent := hsend.shortfall
              simp only [Psrp.shortfall] at hzero
              have hthrough := (hsent.2 (by omega)).1
              cases hthrough
          · have hmem : .refused e' ∈ es₂ := (List.mem_append.mp he').resolve_left (hnone e')
            rw [(hdeed.ledger (hdeeds.ledger hledger)).parked, hes₂]
            exact htrace.unparked hmem

/-- A key that is held is never given up. -/
theorem keyAfter_isSome {es : List PoolEvent} (hh : (keyAfter key0 h).isSome = true) :
    (keyAfter key0 (h ++ es)).isSome = true := by
  induction es using List.reverseRecOn with
  | nil =>
      rw [List.append_nil]
      exact hh
  | append_singleton es e ih =>
      rw [keyAfter_eq] at ih ⊢
      rw [← List.append_assoc, booksOf_snoc]
      cases e <;> first | exact ih | rfl

end Settling

section Law

/-- The response to an event was sent. -/
def Responded (d : Driver τ) (key0 : Option SessionKey) (before : List PoolEvent) (e : PoolEvent)
    (after : List PoolEvent) : Prop :=
  ∃ f rest, after = .sending f :: .sent f :: rest ∧ Backs d key0 before e f

/-- What holds of host calls and their answers. -/
structure AnswerLaw (d : Driver τ) (key0 : Option SessionKey) (s : RunspacePool τ) : Prop where
  /-- The host answers a call that can be read as soon as it is taken, and no
      other. -/
  heard : ∀ before msg after, s.history = before ++ .took msg :: after →
    isHostCall msg.messageType → ∀ call, decodeHostCall d.platform.toPlatform msg.data = .ok call →
    ∃ answer rest, after = .answered msg call answer :: rest
  answered : ∀ before msg call answer after,
    s.history = before ++ .answered msg call answer :: after →
    (∃ earlier, before = earlier ++ [.took msg]) ∧ isHostCall msg.messageType
      ∧ decodeHostCall d.platform.toPlatform msg.data = .ok call
  /-- Unless the method only writes, the response is sent or the answer is
      parked. -/
  disposed : ∀ before msg call answer after,
    s.history = before ++ .answered msg call answer :: after → writesOnly call = false →
    Xor (Responded d key0 before (.answered msg call answer) after) (Parks msg call answer after)
  silent : ∀ before msg call answer after,
    s.history = before ++ .answered msg call answer :: after → writesOnly call = true →
    ¬ Responded d key0 before (.answered msg call answer) after ∧ ¬ Parks msg call answer after
  /-- Only such an answer is parked, and what is parked leaves in order. -/
  parked : ∀ before p after, s.history = before ++ .parked p :: after →
    ∃ earlier msg call v es, p = parkedFor msg call v ∧ IsPublication es
      ∧ before = earlier ++ .answered msg call (.ok (some v)) :: es
  order : parkedOf s.history = leftOf s.history ++ s.deferredHostResponses
  /-- One response is sent for a parked answer that leaves, and it does not
      leave otherwise. -/
  flushed : ∀ before p after, s.history = before ++ .flushing p :: after →
    ∃ f rest, after = .sending f :: .sent f :: .flushed p :: rest
      ∧ Backs d key0 before (.flushing p) f
  flushing : ∀ before p after, s.history = before ++ .flushed p :: after →
    ∃ earlier f, before = earlier ++ [.flushing p, .sending f, .sent f]
  failed : ∀ before p after, s.history = before ++ .failing p :: after →
    Responded d key0 before (.failing p) after
  /-- No other response is sent. -/
  only : ∀ before f after, s.history = before ++ .sent f :: after →
    isResponse f.msg.messageType = true →
    ∃ earlier e, before = earlier ++ [e, .sending f] ∧ Backs d key0 earlier e f
  /-- Whatever is parked waits for a key, or for the next read. -/
  awaited : s.deferredHostResponses ≠ [] →
    s.sessionKey.isSome = true ∨ s.pendingClientKey.isSome = true

/-- The books say what follows an answer, and the ledger what it is. -/
theorem Ledger.answerLaw (hledger : Ledger d key0 s) (hdisposes : Throughout (Disposes d) s.history)
    (hbalanced : Balanced key0 s.history) : AnswerLaw d key0 s := by
  -- Every response has a cause, and stands right after it.
  have hbacks : ∀ before e f after, s.history = before ++ e :: .sending f :: after →
      isResponse f.msg.messageType = true → Backs d key0 before e f := by
    intro before e f after heq hf
    have hcaused := hledger.caused
    rw [heq, show before ++ e :: .sending f :: after = (before ++ [e]) ++ .sending f :: after by
      rw [List.append_assoc]; rfl] at hcaused
    rcases hcaused.backs hf with ⟨earlier, e', hsplit, hback⟩
    rcases List.append_inj' hsplit rfl with ⟨rfl, hlast⟩
    rw [List.singleton_inj.mp hlast]
    exact hback
  -- What is parked is for a response.
  have hparked : ∀ before p after, s.history = before ++ .flushing p :: after
      ∨ s.history = before ++ .failing p :: after → isResponse p.responseType = true := by
    rintro before p after (heq | heq)
    · have hcaused := hledger.caused
      rw [heq] at hcaused
      rcases (hcaused before _ after rfl).1 with ⟨ps, hps⟩
      exact hcaused.before.isResponse (Or.inl (hps ▸ List.mem_cons_self))
    · have hcaused := hledger.caused
      rw [heq] at hcaused
      rcases hcaused before _ after rfl with ⟨ps, hps⟩
      exact hcaused.before.isResponse (Or.inr (hps ▸ List.mem_cons_self))
  -- What the host answered is the call just taken.
  have hanswered : ∀ before msg call answer after,
      s.history = before ++ .answered msg call answer :: after →
      (∃ earlier, before = earlier ++ [.took msg]) ∧ isHostCall msg.messageType
        ∧ decodeHostCall d.platform.toPlatform msg.data = .ok call
        ∧ (answer = .ok none ↔ writesOnly call = true) := by
    intro before msg call answer after heq
    rcases hledger.caused before _ after heq with ⟨hlast, hmt, hdecode, hwrites⟩
    exact ⟨⟨before.dropLast, (List.dropLast_append_getLast? _ hlast).symm⟩, hmt, hdecode, hwrites⟩
  -- A response is sent first thing, or the answer parked, or a public key sent.
  have hexclusive : ∀ before msg call answer after,
      Responded d key0 before (.answered msg call answer) after →
      ¬ Parks msg call answer after := by
    rintro before msg call answer after ⟨f, rest, rfl, hback⟩ ⟨v, es, rest', _, hes, heq⟩
    rcases hes with rfl | ⟨g, key, hg, rfl⟩
    · cases heq
    · cases heq
      cases hback with
      | answered _ _ _ _ hwants hreply htype hpid => exact hostResponseType_ne _ (htype.symm.trans hg)
  -- The parts of the law, in its order.
  refine ⟨?_, ?_, ?_, ?_, ?_, ?_, ?_, ?_, ?_, ?_, ?_⟩
  · intro before msg after heq hmt call hdecode
    rcases hdisposes before _ after heq hmt call hdecode with ⟨answer, rest, rfl, _⟩
    exact ⟨answer, rest, rfl⟩
  · intro before msg call answer after heq
    rcases hanswered before msg call answer after heq with ⟨hearlier, hmt, hdecode, _⟩
    exact ⟨hearlier, hmt, hdecode⟩
  · intro before msg call answer after heq hwants
    rcases hanswered before msg call answer after heq with ⟨⟨earlier, rfl⟩, hmt, hdecode, _⟩
    rw [List.append_assoc] at heq
    rcases hdisposes earlier _ _ heq hmt call hdecode with ⟨answer', rest, hrest, hdone⟩
    rcases List.cons.inj hrest with ⟨_, rfl⟩
    -- An answer that is wanted is either sent or parked.
    rcases hdone hwants with ⟨f, rest', rfl, htype⟩ | hparks
    · have hresponded : Responded d key0 (earlier ++ [.took msg]) (.answered msg call answer)
          (.sending f :: .sent f :: rest') := by
        refine ⟨f, rest', rfl, hbacks _ _ f (.sent f :: rest') ?_ ?_⟩
        · rw [List.append_assoc]
          exact heq
        · rw [htype]
          exact hostResponseType_isResponse _
      exact Or.inl ⟨hresponded, hexclusive _ _ _ _ _ hresponded⟩
    · cases hrest
      exact Or.inr ⟨hparks, fun hresponded => hexclusive _ _ _ _ _ hresponded hparks⟩
  · intro before msg call answer after heq hwrites
    refine ⟨?_, ?_⟩
    · -- A method that only writes is neither answered nor parked.
      rintro ⟨f, rest, rfl, hback⟩
      cases hback with
      | answered _ _ _ _ hwants hreply htype hpid =>
          rw [hwrites] at hwants
          cases hwants
    · rintro ⟨v, es, rest, hv, _⟩
      rw [(hanswered before msg call answer after heq).2.2.2.mpr hwrites] at hv
      cases hv
  · intro before p after heq
    exact hdisposes before _ after heq
  · -- The queue is the one of the books.
    rw [hledger.parked]
    exact hbalanced.order
  · intro before p after heq
    rcases hdisposes before _ after heq with ⟨f, rest, rfl, htype⟩
    refine ⟨f, rest, rfl, hbacks before _ f _ heq ?_⟩
    rw [htype]
    exact hparked before p _ (Or.inl heq)
  · intro before p after heq
    rcases hledger.caused before _ after heq with ⟨earlier, f, hsplit⟩
    exact ⟨earlier, f, hsplit⟩
  · intro before p after heq
    rcases hdisposes before _ after heq with ⟨f, rest, rfl, htype⟩
    refine ⟨f, rest, rfl, hbacks before _ f _ heq ?_⟩
    rw [htype]
    exact hparked before p _ (Or.inr heq)
  · intro before f after heq hf
    -- A send that went through is one that was begun.
    have hlast : before.getLast? = some (.sending f) := hledger.caused before _ after heq
    have hsplit := (List.dropLast_append_getLast? _ hlast).symm
    have hcaused := hledger.caused
    rw [heq, hsplit, List.append_assoc] at hcaused
    rcases hcaused.backs hf with ⟨earlier, e, hearlier, hback⟩
    refine ⟨earlier, e, ?_, hback⟩
    rw [hsplit, hearlier, List.append_assoc]
    rfl
  · intro hne
    rw [hledger.parked] at hne
    -- Whatever is parked waits for a key.
    rw [hledger.key, hledger.pending]
    exact hledger.caused.awaited hne

/-- Whatever is dropped, nothing makes up for what did not go through. -/
theorem shortfall_play (d : Driver τ) (transport : τ) (machine : RunspacePoolStateMachine)
    (n : UInt64) (key : Option SessionKey) (calls : List (Call Answer PoolOperation)) :
    0 ≤ shortfallOf (play (perform d) calls (attached transport machine n key)).2.history := by
  refine play_moves (I := fun s => 0 ≤ shortfallOf s.history) (fun s t hs hmv => ?_)
    (fun s t hs hdeed => ?_) calls (Int.le_refl 0)
  · rcases hmv.trace with ⟨es, hes, htrace⟩
    have hes' := htrace.shortfall
    rw [hes, shortfallOf_append]
    omega
  · rcases hdeed.trace with ⟨es, hes, htrace⟩
    have hes' := htrace.shortfall
    rw [hes, shortfallOf_append]
    omega

theorem play_snoc {ι : Type} (f : ι → Prog (RunspacePool τ) α) (cs : List (Call Answer ι))
    (c : Call Answer ι) (s : RunspacePool τ) :
    play f (cs ++ [c]) s
      = ((play f cs s).1 ++ [(c.operation, (f c.operation ⟨(play f cs s).2, c.script, c.turns⟩).1)],
        (f c.operation ⟨(play f cs s).2, c.script, c.turns⟩).2.state) := by
  rw [Async.play_append]
  rfl

/-- What a read leaves parked, of a pool before and after it. -/
def LeavesNothing (r s : RunspacePool τ) : Prop :=
  (r.sessionKey.isSome = true → s.deferredHostResponses = [])
    ∧ ((∃ e es, s.history = r.history ++ es ∧ .refused e ∈ es) → s.deferredHostResponses = [])

/-- In every run in which no call is dropped and everything that is sent goes
    through, every host call is answered once; and a read leaves nothing parked
    if a key is held, or if it refused a reply. -/
theorem answered_once (d : Driver τ) (transport : τ) (machine : RunspacePoolStateMachine)
    (n : UInt64) (key : Option SessionKey) (calls : List (Call Answer PoolOperation))
    (hends : ∀ p ∈ (play (perform d) calls (attached transport machine n key)).1,
      p.2.finished = true)
    (hfaultless : Faultless (play (perform d) calls (attached transport machine n key)).2.history) :
    AnswerLaw d key (play (perform d) calls (attached transport machine n key)).2
      ∧ ∀ earlier script turns, calls = earlier ++ [⟨.nextMessage, script, turns⟩] →
        LeavesNothing (play (perform d) earlier (attached transport machine n key)).2
          (play (perform d) calls (attached transport machine n key)).2 := by
  constructor
  · -- The shortfall counts what did not go through. It never falls, and at the end it is zero,
    -- so it was zero all along.
    have hbalanced := play_finished (s := attached transport machine n key) (I := fun s =>
      Ledger d key s ∧ 0 ≤ shortfallOf s.history
        ∧ (shortfallOf s.history = 0 → Balanced key s.history)) ?_ calls ?_ hends
    · refine hbalanced.1.answerLaw ?_ (hbalanced.2.2 hfaultless.shortfallOf)
      exact play_faultless (fun _ _ _ es hh => hh.later es) transport machine n key
        (fun s es _ htrace hzero => htrace.disposes hzero) calls hends hfaultless
    · rintro s t ⟨hledger, hpos, hh⟩ hmv
      rcases hmv.trace with ⟨es, hes, htrace⟩
      -- One move.
      have hes' := htrace.shortfall
      refine ⟨hmv.ledger hledger, ?_, fun hzero => ?_⟩
      · rw [hes, shortfallOf_append]
        omega
      · rw [hes, shortfallOf_append] at hzero
        rw [hes]
        exact htrace.balanced (by omega) hledger (hh (by omega))
    · exact ⟨ledger_attached d transport machine n key, Int.le_refl 0, fun _ => ⟨rfl, rfl⟩⟩
  · rintro earlier script turns rfl
    -- The last call is a read, in a pool where everything went through.
    have hledger := ledger_play d transport machine n key earlier
    have hpos := shortfall_play d transport machine n key earlier
    have hlater := ledger_play d transport machine n key (earlier ++ [⟨.nextMessage, script, turns⟩])
    rw [play_snoc] at hends hfaultless hlater ⊢
    generalize (play (perform d) earlier (attached transport machine n key)).2 = r at *
    have hread : wp (perform d .nextMessage) (fun x t => x.finished = true → ∃ es,
        t.history = r.history ++ es ∧ (shortfallOf t.history ≤ shortfallOf r.history → Settled t)
          ∧ ((∃ e, .refused e ∈ es) → t.deferredHostResponses = [])) r := by
      refine wp_bind (wp_mono (wp_nextMessage_settles hledger) fun x t hx => ?_)
      cases x with
      | ok msg =>
          simp only [andThen]
          exact Async.wp_pure fun _ => hx rfl
      | err e => exact hx
      | cut m => exact hx
      | suspended => exact hx
    have hlast := hread script turns
      (hends _ (List.mem_append_right _ (List.mem_singleton.mpr rfl)))
    generalize perform d .nextMessage ⟨r, script, turns⟩ = q at *
    rcases hlast with ⟨es, hes, hsettled, hrefused⟩
    have hzero : shortfallOf q.2.state.history = 0 := hfaultless.shortfallOf
    refine ⟨fun hkey => ?_, ?_⟩
    · -- The key that was held then is held now, so nothing is parked.
      refine hsettled (by omega) ?_
      rw [hledger.key, ← keyAfter_eq] at hkey
      have hkept : (keyAfter key (r.history ++ es)).isSome = true := keyAfter_isSome hkey
      rw [← hes, keyAfter_eq, ← hlater.key] at hkept
      exact hkept
    · rintro ⟨e, es', hes', he⟩
      rw [hes] at hes'
      exact hrefused ⟨e, List.append_cancel_left hes' ▸ he⟩

/-- A host that can be asked for a line, and for one that is a secret. -/
def askedDriver : Driver MockTransport :=
  { mockDriver with
    host := { readLine := pure (.ok ['y']), readLineAsSecureString := pure (.ok ['p']) } }

/-- A server that asks for a line, writes one and asks for a secret, and twice
    says that its pipeline is running. -/
def askedTransport : MockTransport :=
  let running := numberMessage .basic .pipelineState Uuid.nil Uuid.nil "PipelineState" 2
  { MockTransport.new with
    inbox := [serverBytes (hostCallMessage 6 51), serverBytes (hostCallMessage 8 11),
      serverBytes (hostCallMessage 7 52), serverBytes running, serverBytes running] }

/-- The key pair that is drawn. -/
def askedKey : ClientSessionKey :=
  { exponent := [1, 0, 1], modulus := List.replicate 256 255, unwrap := fun _ => none }

/-- A pool that reads, is given a key, and reads again. -/
def askedCalls : List (Call Answer PoolOperation) :=
  [⟨.nextMessage, [.answer (.drawn (.ok askedKey))], 9⟩,
    ⟨.setSessionKey ⟨Vector.replicate 32 0⟩, [], 0⟩, ⟨.nextMessage, [], 9⟩]

/-- What becomes of host calls, told by their ids. -/
inductive CallStep where
  | asked (ci : Int64)
  | responded (objectId : UInt64)
  | parked (ci : Int64)
  | left (ci : Int64)
  deriving DecidableEq

def callStep : PoolEvent → Option CallStep
  | .answered _ call _ => some (.asked call.ci)
  | .sent f => if isResponse f.msg.messageType then some (.responded f.objectId) else none
  | .parked p => some (.parked p.ci)
  | .flushed p => some (.left p.ci)
  | _ => none

theorem askedCalls_ends : ∀ p ∈ (play (perform askedDriver) askedCalls
    (attached askedTransport freshMachine 1 none)).1, p.2.finished = true := by
  have hall : (play (perform askedDriver) askedCalls
    (attached askedTransport freshMachine 1 none)).1.all (fun p => p.2.finished) = true := by
    decide +kernel
  exact List.all_eq_true.mp hall

/-- Whether something was missing, or a read was dropped. -/
def wanting : PoolEvent → Bool
  | .exhausted | .keyless | .dropped => true
  | _ => false

theorem askedCalls_faultless : Faultless (play (perform askedDriver) askedCalls
    (attached askedTransport freshMachine 1 none)).2.history := by
  have hnone : (play (perform askedDriver) askedCalls
      (attached askedTransport freshMachine 1 none)).2.history.any wanting = false := by
    decide +kernel
  have hnot := List.any_eq_false.mp hnone
  exact ⟨by decide +kernel, fun h => hnot _ h rfl, fun h => hnot _ h rfl, fun h => hnot _ h rfl⟩

/-- Such a run. The first call is answered at once, the second one only writes.
    The answer to the third is a secret: it is parked, and is sent when the pool
    that was given a key reads again. -/
theorem answered_once_asked :
    let waiting := (play (perform askedDriver) (askedCalls.take 2)
      (attached askedTransport freshMachine 1 none)).2
    let last := (play (perform askedDriver) askedCalls
      (attached askedTransport freshMachine 1 none)).2
    last.history.filterMap callStep
        = [.asked 6, .responded 1, .asked 8, .asked 7, .parked 7, .responded 3, .left 7]
      ∧ AnswerLaw askedDriver none last
      ∧ waiting.deferredHostResponses.length = 1 ∧ last.deferredHostResponses = [] := by
  have hlaw := answered_once askedDriver askedTransport freshMachine 1 none askedCalls
    askedCalls_ends askedCalls_faultless
  have hread := hlaw.2 (askedCalls.take 2) [] 9 rfl
  exact ⟨by decide +kernel, hlaw.1, by decide +kernel, hread.1 (by decide +kernel)⟩

end Law

end RunspacePool

end Psrp

import Psrp.Theory.Openings
import Psrp.Theory.Pool.Lifecycle

/-!
# What a Transport Sees of a Pool

The acts of a pool, taken apart into what its transport has a part in.

A pool does to its transport no more than four things: it gives it a message,
it asks it for a chunk, it tells it to stop or to close. Everything else is
noted in the history of the pool, and the transport does not know of it. A
`Change` is one of these five, and it says what was noted in it; so what holds
between the history of a pool and the state of its transport is proved by cases
on changes, of every run.

Every message that is given to the transport can be read back: its type is one
of the listed ones, and its body is a document, or nothing (`Legible`).

## Main definitions

* `isTraffic`: The events that a transport has part in.
* `Legible`: Messages that are read back as they were sent.
* `Change`: One thing that happens between a pool and its transport.

## Theorems

* `Act.changes`: Every act is made of changes.
* `play_changes`: What every change keeps holds of every run.
-/

namespace Psrp

namespace RunspacePool

open Async (wp wp_mono Call play)
open Relation (ReflTransGen)

variable {τ α : Type} {d : Driver τ} {s t u : RunspacePool τ}

/-- The events that a transport has part in. -/
def isTraffic : PoolEvent → Bool
  | .sending _ | .sent _ | .chunk _ => true
  | _ => false

section Legible

/-- A message that is read back as it was sent: its body does not begin with a
    byte order mark, and its type is a listed one. -/
def Legible (mt : MessageType) (body : Text) : Prop :=
  body.head? ≠ some '\uFEFF' ∧ ∀ c, mt ≠ .unknown c

theorem Legible.decode {mt : MessageType} {body : Text} (h : Legible mt body) (rpid pid : Uuid) :
    PsrpMessage.decode (PsrpMessage.toServer mt rpid pid body).encode
      = .ok (.toServer mt rpid pid body) :=
  PsrpMessage.decode_encode _ h.1 fun c hc => absurd hc (h.2 c)

/-- A body that begins with a tag. -/
theorem legible_of_begins {mt : MessageType} {body : Text} (h : ∃ rest, body = '<' :: rest)
    (hmt : ∀ c, mt ≠ .unknown c) : Legible mt body := by
  rcases h with ⟨rest, rfl⟩
  refine ⟨fun heq => ?_, hmt⟩
  have hmark : '<' ≠ '\uFEFF' := by decide
  exact hmark (Option.some.inj heq)

theorem listed_of_reserved {mt : MessageType} (h : isReserved mt = true) (c : UInt32) :
    mt ≠ .unknown c := by
  intro heq
  rw [heq] at h
  cases h

theorem listed_hostResponse (mt : MessageType) (c : UInt32) : hostResponseType mt ≠ .unknown c := by
  unfold hostResponseType
  split <;> exact fun heq => by cases heq

theorem Reply.legible {key : Option SessionKey} {call : HostCall}
    {answer : Except PsrpError (Option PsValue)} {body : Text} (h : Reply d key call answer body)
    (mt : MessageType) : Legible (hostResponseType mt) body := by
  cases h with
  | error e => exact legible_of_begins (toClixml_begins _ _) (listed_hostResponse mt)
  | plain v hplain => exact legible_of_begins (toClixml_begins _ _) (listed_hostResponse mt)
  | sealed v k hsealed hkey => exact legible_of_begins (toClixml_begins _ _) (listed_hostResponse mt)

theorem Request.legible {p : Platform} {mt : MessageType} {body : Text} (h : Request p mt body) :
    Legible mt body := by
  cases h with
  | createPipeline self hcommands =>
      exact legible_of_begins (buildCreatePipelineXml_begins ..) fun c heq => by cases heq
  | pipelineInput value =>
      exact legible_of_begins (toClixml_begins ..) fun c heq => by cases heq
  | endOfPipelineInput => exact ⟨fun heq => (by cases heq), fun c heq => (by cases heq)⟩
  | getCommandMetadata patterns commandType =>
      exact legible_of_begins (toClixml_begins ..) fun c heq => by cases heq

theorem legible_open (p : Platform) (m : RunspacePoolStateMachine) :
    ∀ a ∈ (m.open p).1, Legible a.messageType a.body := by
  unfold RunspacePoolStateMachine.open
  intro a ha
  by_cases hstate : m.state ≠ .beforeOpen
  · rw [if_pos hstate] at ha
    cases ha
  · rw [if_neg hstate] at ha
    simp only [List.mem_cons, List.not_mem_nil, or_false] at ha
    rcases ha with rfl | rfl
    · exact legible_of_begins (toClixml_begins ..) fun c heq => by cases heq
    · exact legible_of_begins (toClixml_begins ..) fun c heq => by cases heq

theorem legible_close (m : RunspacePoolStateMachine) :
    ∀ a ∈ m.close.1, Legible a.messageType a.body := by
  unfold RunspacePoolStateMachine.close
  intro a ha
  by_cases hdead : m.isTerminal = true
  · rw [if_pos hdead] at ha
    cases ha
  · rw [if_neg hdead] at ha
    rw [List.mem_singleton.mp ha]
    exact legible_of_begins ⟨_, rfl⟩ fun c heq => by cases heq

end Legible

section Changes

/-- The program of the transport that carries a message. -/
def Carries (d : Driver τ) (q : Bytes → Prog τ Unit) (mt : MessageType) (pid : Uuid) : Prop :=
  q = carrier d mt pid ∨ q = d.transport.sendFragment ∧ pid = Uuid.nil

/-- One thing that happens between a pool and its transport. -/
inductive Change (d : Driver τ) (s t : RunspacePool τ) : Prop
  /-- What the transport knows nothing of. -/
  | inner (es : List PoolEvent) : (∀ e ∈ es, isTraffic e = false) →
      t.history = s.history ++ es → t.transport = s.transport → Change d s t
  | sends {q : Bytes → Prog τ Unit} {mt : MessageType} {pid : Uuid} {body : Text} {o : Fate} :
      Carries d q mt pid → Legible mt body → Sends q mt pid body s o t → Change d s t
  | read (chunk : Bytes) : t.history = s.history ++ [.chunk chunk] →
      Ran d.transport.recvChunk (.ok chunk) s.transport t.transport → Change d s t
  | unread (x : Exit PsrpError Bytes) : (∀ chunk, x ≠ .ok chunk) → t.history = s.history →
      Ran d.transport.recvChunk x s.transport t.transport → Change d s t
  | aside : t.history = s.history → Aside d s.transport t.transport → Change d s t

/-- Any number of changes. -/
abbrev Changes (d : Driver τ) : RunspacePool τ → RunspacePool τ → Prop := ReflTransGen (Change d)

theorem changes_of_eq (hhistory : t.history = s.history) (htransport : t.transport = s.transport) :
    Changes d s t := by
  refine .single (.inner [] (fun e he => absurd he List.not_mem_nil) ?_ htransport)
  rw [hhistory, List.append_nil]

/-- Something is noted. -/
theorem changes_note {e : PoolEvent} (he : isTraffic e = false) : Changes d s (s.note e) := by
  refine .single (.inner [e] (fun e' he' => ?_) rfl rfl)
  rw [List.mem_singleton.mp he']
  exact he

/-- Something is noted last, and other fields may change with it. -/
theorem Changes.noted (h : Changes d s t) {e : PoolEvent} (he : isTraffic e = false)
    (hhistory : u.history = t.history ++ [e]) (htransport : u.transport = t.transport) :
    Changes d s u := by
  refine h.tail (.inner [e] (fun e' he' => ?_) hhistory htransport)
  rw [List.mem_singleton.mp he']
  exact he

theorem Took.changes {msg : PsrpMessage} (h : Took msg s u) : Changes d s u := by
  rcases h with ⟨_, rest, _, rfl⟩
  exact Changes.noted (e := .took msg) (.refl (a := s)) rfl rfl rfl

/-- A host call is taken and answered. -/
theorem Took.answered_changes {msg : PsrpMessage} {call : HostCall}
    {answer : Except PsrpError (Option PsValue)} (h : Took msg s u) :
    Changes d s (u.note (.answered msg call answer)) := h.changes.trans (changes_note rfl)

theorem Publishes.changes {o : Fate} (h : Publishes d s o t) : Changes d s t := by
  have hlegible : ∀ key, Legible .publicKey (publicKeyXml d.platform.toPlatform key) :=
    fun key => legible_of_begins (toClixml_begins ..) fun c heq => by cases heq
  cases h with
  | started key t hsend =>
      have hsent : Changes d s t := .single (.sends (Or.inr ⟨rfl, rfl⟩) (hlegible key) hsend)
      exact hsent.noted (e := .exchange key) rfl rfl rfl
  | stopped key o t ho hsend => exact .single (.sends (Or.inr ⟨rfl, rfl⟩) (hlegible key) hsend)
  | keyless e => exact changes_note rfl

/-- A response is carried to the pipeline that it is for. -/
theorem Sends.responds {mt : MessageType} {pid : Uuid} {body : Text} {o : Fate}
    (h : Responds d mt pid body s o t) (hlegible : Legible mt body) : Changes d s t :=
  .single (.sends (Or.inl rfl) hlegible h)

theorem FailsEach.changes {message : String} {ps : List DeferredHostResponse} {o : Fate}
    (h : FailsEach d message ps o s t) (hps : ∀ p ∈ ps, isReserved p.responseType = true) :
    Changes d s t := by
  have hlegible : ∀ p : DeferredHostResponse, isReserved p.responseType = true →
      Legible p.responseType (refusedBody d message p) :=
    fun p hp => legible_of_begins (toClixml_begins ..) (listed_of_reserved hp)
  induction h with
  | nil s => exact .refl
  | cons hne hsend hrest ih =>
      have hfirst := hsend.responds (hlegible _ (hps _ List.mem_cons_self))
      exact ((changes_note rfl).trans hfirst).trans
        (ih fun p hp => hps p (List.mem_cons_of_mem _ hp))
  | dropped hsend =>
      exact (changes_note rfl).trans (hsend.responds (hlegible _ (hps _ List.mem_cons_self)))

theorem feedChunk_changes {chunk : Bytes} {v : τ} {r : Except PsrpError Unit}
    (hran : Ran d.transport.recvChunk (.ok chunk) s.transport v)
    (hfeed : feedChunk chunk (RunspacePool.note (.chunk chunk) { s with transport := v }) = (r, t)) :
    Changes d s t := by
  have htransport : t.transport = v := by
    rcases feedChunk_eq chunk (RunspacePool.note (.chunk chunk) { s with transport := v })
      with ⟨r', pending, hstate⟩
    rw [hfeed] at hstate
    rw [show t = _ from hstate]
    rfl
  refine .single (.read chunk (feedChunk_trace hfeed) ?_)
  rw [htransport]
  exact hran

/-- Every deed is made of changes. -/
theorem Deed.changes {o : Fate} (hdeed : Deed d o s t) (hs : Reserved s) : Changes d s t := by
  have hparked : ∀ {p : DeferredHostResponse} {ps : List DeferredHostResponse},
      s.deferredHostResponses = p :: ps → isReserved p.responseType = true := by
    intro p ps hps
    refine hs p ?_
    rw [hps]
    exact List.mem_cons_self
  -- What was parked makes a body that a server can read.
  have hsealed : ∀ (key : SessionKey) {p : DeferredHostResponse},
      isReserved p.responseType = true → Legible p.responseType (sealedBody d key p) :=
    fun key p hp => legible_of_begins (toClixml_begins ..) (listed_of_reserved hp)
  -- One change of the transport for each thing sent, and the notes between them.
  cases hdeed with
  | unread hsettled ho hfate hran =>
      rename_i x v
      refine .single (.unread x (fun chunk hx => ?_) rfl hran)
      rw [hx] at hfate
      exact ho hfate.symm
  | fed hsettled hpending hran hfeed => exact feedChunk_changes hran hfeed
  | unfed hsettled hpending hran hfeed => exact feedChunk_changes hran hfeed
  | flushed hps hkey hsend =>
      rename_i t p ps key
      have hsent : Changes d s t := (changes_note (e := .flushing p) rfl).trans
        (hsend.responds (hsealed key (hparked hps)))
      exact hsent.noted (e := .flushed p) rfl rfl rfl
  | unflushed ho hps hkey hsend =>
      rename_i p ps key
      exact (changes_note rfl).trans (hsend.responds (hsealed key (hparked hps)))
  | undecodable htook hmt hdecode => exact htook.changes
  | asking htook hmt => exact htook.changes
  | silent htook hmt hdecode hwrites => exact htook.answered_changes
  | replied htook hmt hdecode hwants hreply hsend =>
      exact htook.answered_changes.trans (hsend.responds (hreply.legible _))
  | parked htook hmt hdecode hwants hsecure hkey hpending =>
      rename_i u msg call v
      have hanswered : Changes d _ (u.note (.answered msg call (.ok (some v)))) :=
        htook.answered_changes
      exact hanswered.noted (e := .parked (parkedFor msg call v)) rfl rfl rfl
  | parkedFirst htook hmt hdecode hwants hsecure hkey hpending hpub =>
      rename_i t u msg call v
      have hpublished : Changes d s t := htook.answered_changes.trans hpub.changes
      exact hpublished.noted (e := .parked (parkedFor msg call v)) rfl rfl rfl
  | unparked ho htook hmt hdecode hwants hsecure hkey hpending hpub =>
      exact htook.answered_changes.trans hpub.changes
  | accepted htook hmt hpending hunwrap =>
      rename_i u msg pair key
      exact htook.changes.noted (e := .keyed key) rfl rfl rfl
  | refused htook hmt hpending hunwrap hfails =>
      rename_i u msg pair e
      have hrefused : Changes d s (refuse e u) := htook.changes.noted (e := .refused e) rfl rfl rfl
      exact hrefused.trans (hfails.changes hs)
  | refusing htook hmt hpending hunwrap hfails =>
      rename_i u msg pair e
      have hrefused : Changes d s (refuse e u) := htook.changes.noted (e := .refused e) rfl rfl rfl
      exact hrefused.trans (hfails.changes hs)
  | requested htook hmt hpending hpub => exact htook.changes.trans hpub.changes

theorem Handover.changes {msg : PsrpMessage} (hhand : Handover d msg s t) : Changes d s t := by
  cases hhand with
  | plain htook hcall hkey hrequest => exact htook.changes.trans (changes_note rfl)
  | after hsettled hmt => exact changes_note rfl
  | ended hsettled hran hidle hempty hmsg =>
      rename_i v
      have hread : Changes d s (note (.chunk []) { s with transport := v }) :=
        .single (.read [] rfl hran)
      exact hread.trans (changes_note rfl)

theorem Executes.changes {actions : List Action} {o : Fate} (h : Executes d actions o s t)
    (hactions : ∀ a ∈ actions, Legible a.messageType a.body) : Changes d s t := by
  have hsends : ∀ {s t : RunspacePool τ} {a : Action} {o : Fate},
      Sends d.transport.sendFragment a.messageType Uuid.nil a.body s o t →
      Legible a.messageType a.body → Changes d s t :=
    fun hsend hlegible => .single (.sends (Or.inr ⟨rfl, rfl⟩) hlegible hsend)
  induction h with
  | nil => exact .refl
  | cons hsend hrest ih =>
      exact (hsends hsend (hactions _ List.mem_cons_self)).trans
        (ih fun a ha => hactions a (List.mem_cons_of_mem _ ha))
  | stopped ho hsend => exact hsends hsend (hactions _ List.mem_cons_self)

theorem Chore.changes (hchore : Chore d s t) (hs : Reserved s) : Changes d s t := by
  cases hchore with
  | deed hdeed => exact hdeed.changes hs
  | handed hhand => exact hhand.changes
  | requested hrequest hsend => exact .single (.sends (Or.inl rfl) hrequest.legible hsend)
  | injected key => exact Changes.noted (e := .injected key) (.refl (a := s)) rfl rfl rfl
  | aside v haside => exact .single (.aside rfl haside)
  | remarked e he =>
      refine changes_note ?_
      cases e with
      | sending f => cases he
      | sent f => cases he
      | chunk bytes => cases he
      | _ => rfl

/-- Every act is made of changes. -/
theorem Act.changes (hact : Act d s t) (hs : Reserved s) : Changes d s t := by
  cases hact with
  | chore hchore => exact hchore.changes hs
  | heard hhand => exact hhand.changes.trans (changes_of_eq rfl rfl)
  | opened hexecutes =>
      have hturned : Changes d s
          { s with machine := (s.machine.open d.platform.toPlatform).2 } := changes_of_eq rfl rfl
      exact hturned.trans (hexecutes.changes (legible_open _ _))
  | closing hclosed hexecutes =>
      have hturned : Changes d s { s with closed := true, machine := s.machine.close.2 } :=
        changes_of_eq rfl rfl
      exact hturned.trans (hexecutes.changes (legible_close _))
  | buried hclosed => exact changes_of_eq rfl rfl
  | published hkey hpending hpub => exact hpub.changes

/-- What every change keeps holds of every run of a pool, from any state whose
    parked answers are responses. -/
theorem play_changes {I : RunspacePool τ → Prop} (hchange : ∀ s t, I s → Change d s t → I t)
    (ops : List (Call Answer PoolOperation)) (hs : Reserved s) (h : I s) :
    I (play (perform d) ops s).2 := by
  have hstep : ∀ s t, Reserved s ∧ I s → Act d s t → Reserved t ∧ I t := by
    intro s t ht hact
    exact ⟨(hact.turns ht.1).1, Async.walk_keeps (hact.changes ht.1) hchange ht.2⟩
  exact (play_acts hstep ops ⟨hs, h⟩).2

end Changes

end RunspacePool

end Psrp

import Psrp.Theory.Pool.Operations

/-!
# The Books of a Pool

What a pool holds is what its history says it must hold, and nothing happens
without a cause.

`Books` are kept from the history alone: the key, the pair whose reply is
awaited, the answers that are parked, and those that are being refused.
`Ledger` says that the fields of the pool agree with them, and that every event
has the cause that `Cause` asks of it. A message to the server is caused by what
was noted right before it; so from the history alone one can tell which answer
a host response is for and under which key it was encrypted.

Everything about host calls and the key exchange is proved from the ledger, and
only the ledger is proved by cases on what a pool does.

## Main definitions

* `Books`, `booksOf`: What a history amounts to.
* `Reason`, `Cause`: What a message to the server, and any event, needs.
* `RunspacePool.Ledger`: The pool agrees with its books.

## Theorems

* `RunspacePool.Deed.ledger`, `RunspacePool.Move.ledger`: Whatever happens keeps
  the ledger.
* `RunspacePool.ledger_play`: It is kept in every run.
-/

namespace Psrp

/-- What a history amounts to. -/
structure Books where
  /-- The pair whose reply is awaited. -/
  pending : Option ClientSessionKey
  key : Option SessionKey
  parked : List DeferredHostResponse
  /-- What is still to be refused, and why. -/
  failing : List DeferredHostResponse
  reason : Option PsrpError
  /-- A public key went out, and its exchange has not ended. -/
  published : Bool
  /-- How many requests did not go through. -/
  lost : Nat

/-- The books of a pool that begins with a key or without one. -/
def Books.new (key : Option SessionKey) : Books :=
  { pending := none, key, parked := [], failing := [], reason := none, published := false, lost := 0 }

/-- One more event. -/
def Books.step (b : Books) : PoolEvent → Books
  | .exchange key => { b with pending := some key }
  | .keyed key => { b with key := some key, pending := none, published := false }
  | .injected key => { b with key := some key, pending := none, published := false }
  | .refused e =>
    { b with pending := none, published := false, parked := [], failing := b.parked,
             reason := some e }
  | .parked p => { b with parked := b.parked ++ [p] }
  | .flushed _ => { b with parked := b.parked.tail }
  | .failing _ => { b with failing := b.failing.tail }
  | .sending _ => { b with lost := b.lost + 1 }
  | .sent frame =>
    { b with lost := b.lost - 1, published := b.published || frame.msg.messageType = .publicKey }
  | .exhausted | .keyless => { b with lost := b.lost + 1 }
  | _ => b

/-- The books after a history. -/
def booksOf (key : Option SessionKey) (h : List PoolEvent) : Books := h.foldl Books.step (.new key)

@[simp] theorem booksOf_snoc (key : Option SessionKey) (h : List PoolEvent) (e : PoolEvent) :
    booksOf key (h ++ [e]) = (booksOf key h).step e := List.foldl_append ..

namespace RunspacePool

open Async (Call play)

variable {τ : Type}

/-- Why a message is sent to the server, given the books and the last event. -/
inductive Reason (d : Driver τ) (b : Books) (last : Option PoolEvent) (frame : Frame) : Prop
  /-- A key pair is published while no reply is awaited. -/
  | published (rpid : Uuid) (key : ClientSessionKey) : b.published = false →
      frame.msg = .toServer .publicKey rpid Uuid.nil (publicKeyXml d.platform.toPlatform key) →
      Reason d b last frame
  /-- The host has just answered a call. -/
  | replied (rpid : Uuid) (msg : PsrpMessage) (call : HostCall)
      (answer : Except PsrpError (Option PsValue)) (body : Text) :
      last = some (.answered msg call answer) → Reply d b.key call answer body →
      frame.msg = .toServer (hostResponseType msg.messageType) rpid msg.pid body →
      Reason d b last frame
  /-- A parked answer is sent, or refused. -/
  | flushed (rpid : Uuid) (p : DeferredHostResponse) (key : SessionKey) :
      last = some (.flushing p) → b.key = some key →
      frame.msg = .toServer p.responseType rpid p.pid (sealedBody d key p) → Reason d b last frame
  | failed (rpid : Uuid) (p : DeferredHostResponse) (e : PsrpError) :
      last = some (.failing p) → b.reason = some e →
      frame.msg = .toServer p.responseType rpid p.pid (refusedBody d (refusal e) p) →
      Reason d b last frame
  | other : isReserved frame.msg.messageType = false → Reason d b last frame

/-- What an event needs to have happened before. -/
def Cause (d : Driver τ) (key0 : Option SessionKey) (h : List PoolEvent) : PoolEvent → Prop
  | .sending frame => Reason d (booksOf key0 h) h.getLast? frame
  | .sent frame => h.getLast? = some (.sending frame)
  | .exchange key => ∃ frame, h.getLast? = some (.sent frame) ∧ frame.msg.messageType = .publicKey
      ∧ frame.msg.data = publicKeyXml d.platform.toPlatform key
  | .keyed key => ∃ msg pair, h.getLast? = some (.took msg)
      ∧ msg.messageType = .encryptedSessionKey ∧ (booksOf key0 h).pending = some pair
      ∧ unwrapSessionKey d.platform.toPlatform msg.data pair = .ok key
  | .refused e => ∃ msg pair, h.getLast? = some (.took msg)
      ∧ msg.messageType = .encryptedSessionKey ∧ (booksOf key0 h).pending = some pair
      ∧ unwrapSessionKey d.platform.toPlatform msg.data pair = .error e
  | .answered msg call answer => h.getLast? = some (.took msg) ∧ isHostCall msg.messageType
      ∧ decodeHostCall d.platform.toPlatform msg.data = .ok call
      ∧ (answer = .ok none ↔ writesOnly call = true)
  | .parked p => (∃ msg call v, p = parkedFor msg call v) ∧ containsSecureString p.value = true
      ∧ (booksOf key0 h).key = none ∧ (booksOf key0 h).pending.isSome = true
  | .flushing p => (∃ ps, (booksOf key0 h).parked = p :: ps) ∧ (booksOf key0 h).key.isSome = true
  | .flushed p => ∃ before frame, h = before ++ [.flushing p, .sending frame, .sent frame]
  | .failing p => ∃ ps, (booksOf key0 h).failing = p :: ps
  | _ => True

/-- Every event of a history has its cause. -/
def Caused (d : Driver τ) (key0 : Option SessionKey) (h : List PoolEvent) : Prop :=
  ∀ before e after, h = before ++ e :: after → Cause d key0 before e

/-- A pool agrees with its books, and nothing happened to it without a cause. -/
structure Ledger (d : Driver τ) (key0 : Option SessionKey) (s : RunspacePool τ) : Prop where
  pending : s.pendingClientKey = (booksOf key0 s.history).pending
  key : s.sessionKey = (booksOf key0 s.history).key
  parked : s.deferredHostResponses = (booksOf key0 s.history).parked
  published : (booksOf key0 s.history).published = s.pendingClientKey.isSome
  caused : Caused d key0 s.history

variable {d : Driver τ} {key0 : Option SessionKey} {s t u : RunspacePool τ}

section Events

theorem caused_snoc {h : List PoolEvent} {e : PoolEvent} (hh : Caused d key0 h)
    (he : Cause d key0 h e) : Caused d key0 (h ++ [e]) := by
  intro before e' after heq
  rcases split_of_snoc heq with ⟨rfl, _, rfl⟩ | ⟨rest, _, rfl⟩
  · exact he
  · exact hh before e' rest rfl

/-- What has nothing to do with the books. -/
theorem Ledger.congr (h : Ledger d key0 s) (hhistory : t.history = s.history)
    (hpending : t.pendingClientKey = s.pendingClientKey) (hkey : t.sessionKey = s.sessionKey)
    (hparked : t.deferredHostResponses = s.deferredHostResponses) : Ledger d key0 t where
  pending := by rw [hhistory, hpending, h.pending]
  key := by rw [hhistory, hkey, h.key]
  parked := by rw [hhistory, hparked, h.parked]
  published := by rw [hhistory, hpending, h.published]
  caused := by
    rw [hhistory]
    exact h.caused

/-- One more event, and a pool that takes it into account. -/
theorem Ledger.event {e : PoolEvent} (h : Ledger d key0 s) (hcause : Cause d key0 s.history e)
    (hhistory : t.history = s.history ++ [e])
    (hpending : t.pendingClientKey = ((booksOf key0 s.history).step e).pending)
    (hkey : t.sessionKey = ((booksOf key0 s.history).step e).key)
    (hparked : t.deferredHostResponses = ((booksOf key0 s.history).step e).parked)
    (hpublished : ((booksOf key0 s.history).step e).published = t.pendingClientKey.isSome) :
    Ledger d key0 t where
  pending := by rw [hhistory, booksOf_snoc, hpending]
  key := by rw [hhistory, booksOf_snoc, hkey]
  parked := by rw [hhistory, booksOf_snoc, hparked]
  published := by rw [hhistory, booksOf_snoc, hpublished]
  caused := by
    rw [hhistory]
    exact caused_snoc h.caused hcause

/-- An event that the books only count, if that. -/
theorem Ledger.note {e : PoolEvent} (h : Ledger d key0 s) (hcause : Cause d key0 s.history e)
    (hbooks : ∀ b : Books, (b.step e).pending = b.pending ∧ (b.step e).key = b.key
      ∧ (b.step e).parked = b.parked ∧ (b.step e).published = b.published) :
    Ledger d key0 (s.note e) := by
  rcases hbooks (booksOf key0 s.history) with ⟨hpending, hkey, hparked, hpublished⟩
  refine h.event hcause rfl ?_ ?_ ?_ ?_
  · rw [hpending]
    exact h.pending
  · rw [hkey]
    exact h.key
  · rw [hparked]
    exact h.parked
  · rw [hpublished]
    exact h.published

theorem getLast_note (s : RunspacePool τ) (e : PoolEvent) :
    (s.note e).history.getLast? = some e := List.getLast?_concat

end Events

section Sends

/-- A message was sent, or not, and everything else is as it was. -/
structure Beside (key0 : Option SessionKey) (s t : RunspacePool τ) : Prop where
  key : t.sessionKey = s.sessionKey
  pending : t.pendingClientKey = s.pendingClientKey
  parked : t.deferredHostResponses = s.deferredHostResponses
  failing : (booksOf key0 t.history).failing = (booksOf key0 s.history).failing
  reason : (booksOf key0 t.history).reason = (booksOf key0 s.history).reason

theorem Sends.beside {q : Bytes → Prog τ Unit} {mt : MessageType} {pid : Uuid} {body : Text}
    {o : Fate} (hsend : Sends q mt pid body s o t) (key0 : Option SessionKey) : Beside key0 s t := by
  cases hsend with
  | through v hroom hran =>
      refine ⟨rfl, rfl, rfl, ?_, ?_⟩
      · simp only [note, begun, booksOf_snoc, Books.step]
      · simp only [note, begun, booksOf_snoc, Books.step]
  | stopped o x v ho hfate hroom hran =>
      refine ⟨rfl, rfl, rfl, ?_, ?_⟩
      · simp only [note, begun, booksOf_snoc, Books.step]
      · simp only [note, begun, booksOf_snoc, Books.step]
  | exhausted e hfull =>
      refine ⟨rfl, rfl, rfl, ?_, ?_⟩
      · simp only [note, booksOf_snoc, Books.step]
      · simp only [note, booksOf_snoc, Books.step]

/-- A message is sent for a reason. -/
theorem Sends.ledger {q : Bytes → Prog τ Unit} {mt : MessageType} {pid : Uuid} {body : Text}
    {o : Fate} (hsend : Sends q mt pid body s o t) (h : Ledger d key0 s) (hmt : mt ≠ .publicKey)
    (hreason : Reason d (booksOf key0 s.history) s.history.getLast? (frame mt pid body s)) :
    Ledger d key0 t := by
  have hbegun : ∀ v, Ledger d key0 (begun (frame mt pid body s) v s) := by
    intro v
    have hnote : Ledger d key0 (s.note (.sending (frame mt pid body s))) :=
      h.note hreason fun _ => ⟨rfl, rfl, rfl, rfl⟩
    exact hnote.congr rfl rfl rfl rfl
  cases hsend with
  | through v hroom hran =>
      refine (hbegun v).note ?_ fun b => ⟨rfl, rfl, rfl, ?_⟩
      · exact getLast_note s _
      · have hother : (frame mt pid body s).msg.messageType ≠ .publicKey := hmt
        simp only [Books.step, decide_eq_false hother, Bool.or_false]
  | stopped o x v ho hfate hroom hran => exact hbegun v
  | exhausted e hfull => exact h.note trivial fun _ => ⟨rfl, rfl, rfl, rfl⟩

/-- A key pair is published while no reply is awaited. -/
theorem Publishes.ledger {o : Fate} (hpub : Publishes d s o t) (h : Ledger d key0 s)
    (hnone : s.pendingClientKey = none) : Ledger d key0 t := by
  have hidle : (booksOf key0 s.history).published = false := by
    rw [h.published, hnone]
    rfl
  have hbegun : ∀ key v, Ledger d key0 (begun
      (frame .publicKey Uuid.nil (publicKeyXml d.platform.toPlatform key) s) v s) := by
    intro key v
    have hnote : Ledger d key0 (s.note
        (.sending (frame .publicKey Uuid.nil (publicKeyXml d.platform.toPlatform key) s))) :=
      h.note (.published s.machine.rpid key hidle rfl) fun _ => ⟨rfl, rfl, rfl, rfl⟩
    exact hnote.congr rfl rfl rfl rfl
  cases hpub with
  | keyless e => exact h.note trivial fun _ => ⟨rfl, rfl, rfl, rfl⟩
  | stopped key o t ho hsend =>
      cases hsend with
      | through v hroom hran => exact absurd rfl ho
      | stopped o x v ho hfate hroom hran => exact hbegun key v
      | exhausted e hfull => exact h.note trivial fun _ => ⟨rfl, rfl, rfl, rfl⟩
  | started key t hsend =>
      cases hsend with
      | stopped o x v ho hfate hroom hran => exact absurd rfl ho
      | through v hroom hran =>
          -- The public key and the exchange are noted together.
          have hb := hbegun key v
          refine ⟨?_, ?_, ?_, ?_, ?_⟩
          · simp only [await, note, booksOf_snoc, Books.step]
          · simp only [await, note, booksOf_snoc, Books.step]
            exact hb.key
          · simp only [await, note, booksOf_snoc, Books.step]
            exact hb.parked
          · simp only [await, note, booksOf_snoc, Books.step, frame, PsrpMessage.toServer,
              decide_true, Bool.or_true, Option.isSome_some]
          · refine caused_snoc (caused_snoc hb.caused (getLast_note s _)) ?_
            exact ⟨_, List.getLast?_concat, rfl, rfl⟩

theorem Publishes.beside {o : Fate} (hpub : Publishes d s o t) :
    t.sessionKey = s.sessionKey ∧ t.deferredHostResponses = s.deferredHostResponses
      ∧ (o = .through → t.pendingClientKey.isSome = true) := by
  cases hpub with
  | keyless e => exact ⟨rfl, rfl, nofun⟩
  | stopped key o t ho hsend =>
      have hbeside := hsend.beside none
      exact ⟨hbeside.key, hbeside.parked, fun heq => absurd heq ho⟩
  | started key t hsend =>
      have hbeside := hsend.beside none
      exact ⟨hbeside.key, hbeside.parked, fun _ => rfl⟩

/-- The types of host responses. -/
theorem hostResponseType_cases (mt : MessageType) :
    hostResponseType mt = .runspacePoolHostResponse ∨ hostResponseType mt = .pipelineHostResponse := by
  unfold hostResponseType
  split
  · exact Or.inl rfl
  · exact Or.inr rfl

theorem hostResponseType_ne (mt : MessageType) : hostResponseType mt ≠ .publicKey := by
  rcases hostResponseType_cases mt with h | h
  · rw [h]
    exact nofun
  · rw [h]
    exact nofun

end Sends

section Deeds

/-- What is parked or being refused was parked once. -/
theorem mem_parked (key0 : Option SessionKey) (h : List PoolEvent) (p : DeferredHostResponse)
    (hp : p ∈ (booksOf key0 h).parked ∨ p ∈ (booksOf key0 h).failing) : .parked p ∈ h := by
  induction h using List.reverseRecOn with
  | nil => exact hp.elim (absurd · List.not_mem_nil) (absurd · List.not_mem_nil)
  | append_singleton h e ih =>
      rw [booksOf_snoc] at hp
      -- Only the event that parks it adds an answer.
      by_cases hnew : e = .parked p
      · rw [hnew]
        exact List.mem_append_right _ (List.mem_singleton.mpr rfl)
      · refine List.mem_append_left _ (ih ?_)
        cases e with
        | parked p' =>
            simp only [Books.step, List.mem_append, List.mem_singleton] at hp
            rcases hp with (hp | rfl) | hp
            · exact Or.inl hp
            · exact absurd rfl hnew
            · exact Or.inr hp
        | flushed p' => exact hp.imp_left List.mem_of_mem_tail
        | failing p' => exact hp.imp_right List.mem_of_mem_tail
        | refused e' => exact hp.elim (absurd · List.not_mem_nil) Or.inl
        | _ => exact hp

theorem Ledger.responseType (h : Ledger d key0 s) {p : DeferredHostResponse}
    (hp : p ∈ (booksOf key0 s.history).parked ∨ p ∈ (booksOf key0 s.history).failing) :
    p.responseType ≠ .publicKey := by
  rcases List.append_of_mem (mem_parked key0 s.history p hp) with ⟨before, after, heq⟩
  rcases (h.caused before _ after heq).1 with ⟨msg, call, v, rfl⟩
  exact hostResponseType_ne msg.messageType

theorem Took.ledger {msg : PsrpMessage} (htook : Took msg s u) (h : Ledger d key0 s) :
    Ledger d key0 u := by
  rcases htook with ⟨_, rest, _, rfl⟩
  have hnote : Ledger d key0 (s.note (.took msg)) := h.note trivial fun _ => ⟨rfl, rfl, rfl, rfl⟩
  exact hnote.congr rfl rfl rfl rfl

/-- The books after a message was taken are those before. -/
theorem Took.books {msg : PsrpMessage} (htook : Took msg s u) (key0 : Option SessionKey) :
    u.history = s.history ++ [.took msg] ∧ booksOf key0 u.history = booksOf key0 s.history
      ∧ u.sessionKey = s.sessionKey ∧ u.deferredHostResponses = s.deferredHostResponses := by
  rcases htook with ⟨_, rest, _, rfl⟩
  exact ⟨rfl, booksOf_snoc key0 s.history (.took msg), rfl, rfl⟩

/-- A host call is answered by the host. -/
theorem Took.answered {msg : PsrpMessage} {call : HostCall}
    {answer : Except PsrpError (Option PsValue)} (htook : Took msg s u) (h : Ledger d key0 s)
    (hmt : isHostCall msg.messageType)
    (hdecode : decodeHostCall d.platform.toPlatform msg.data = .ok call)
    (hvoid : answer = .ok none ↔ writesOnly call = true) :
    Ledger d key0 (u.note (.answered msg call answer)) := by
  refine (htook.ledger h).note ⟨?_, hmt, hdecode, hvoid⟩ fun _ => ⟨rfl, rfl, rfl, rfl⟩
  rw [(htook.books key0).1]
  exact List.getLast?_concat

theorem wants_iff {call : HostCall} {answer : Except PsrpError (Option PsValue)}
    (hwants : writesOnly call = false) (hne : answer ≠ .ok none) :
    answer = .ok none ↔ writesOnly call = true := by
  rw [hwants]
  exact ⟨fun hnone => absurd hnone hne, nofun⟩

/-- The first parked answer is sent under the key held. -/
theorem Ledger.flushing {p : DeferredHostResponse} {ps : List DeferredHostResponse}
    {key : SessionKey} {o : Fate} (h : Ledger d key0 s) (hparked : s.deferredHostResponses = p :: ps)
    (hkey : s.sessionKey = some key)
    (hsend : Responds d p.responseType p.pid (sealedBody d key p) (s.note (.flushing p)) o t) :
    Ledger d key0 t := by
  have hcause : Cause d key0 s.history (.flushing p) := by
    refine ⟨⟨ps, h.parked.symm.trans hparked⟩, ?_⟩
    rw [← h.key, hkey]
    rfl
  have hnote : Ledger d key0 (s.note (.flushing p)) := h.note hcause fun _ => ⟨rfl, rfl, rfl, rfl⟩
  refine hsend.ledger hnote (h.responseType (Or.inl ?_)) ?_
  · rw [← h.parked, hparked]
    exact List.mem_cons_self ..
  · refine .flushed s.machine.rpid p key (getLast_note s _) ?_ rfl
    rw [← hnote.key]
    exact hkey

/-- An answer that was sent is not parked any more. -/
theorem Ledger.unparked {p : DeferredHostResponse} {ps : List DeferredHostResponse} {key : SessionKey}
    (h : Ledger d key0 s) (hparked : s.deferredHostResponses = p :: ps)
    (hkey : s.sessionKey = some key)
    (hsend : Responds d p.responseType p.pid (sealedBody d key p) (s.note (.flushing p)) .through t) :
    Ledger d key0 (unpark p t) := by
  have ht := h.flushing hparked hkey hsend
  have hcause : Cause d key0 t.history (.flushed p) := by
    cases hsend with
    | stopped o x v ho hfate hroom hran => exact absurd rfl ho
    | through v hroom hran =>
        refine ⟨s.history, frame p.responseType p.pid (sealedBody d key p) (s.note (.flushing p)), ?_⟩
        change ((s.history ++ [_]) ++ [_]) ++ [_] = _
        simp only [List.append_assoc, List.cons_append, List.nil_append]
  refine ht.event hcause rfl ht.pending ht.key ?_ ht.published
  change t.deferredHostResponses.tail = (booksOf key0 t.history).parked.tail
  rw [ht.parked]

/-- A key exchange that is not in flight is started for an answer, and the
    answer parked. -/
theorem Ledger.park {msg : PsrpMessage} {call : HostCall} {v : PsValue} (h : Ledger d key0 s)
    (hsecure : containsSecureString v = true) (hkey : s.sessionKey = none)
    (hpending : s.pendingClientKey.isSome = true) : Ledger d key0 (park (parkedFor msg call v) s) := by
  have hcause : Cause d key0 s.history (.parked (parkedFor msg call v)) := by
    refine ⟨⟨msg, call, v, rfl⟩, hsecure, h.key.symm.trans hkey, ?_⟩
    rw [← h.pending]
    exact hpending
  refine h.event hcause rfl h.pending h.key ?_ h.published
  change s.deferredHostResponses ++ _ = (booksOf key0 s.history).parked ++ _
  rw [h.parked]

theorem FailsEach.ledger {e : PsrpError} {ps : List DeferredHostResponse} {o : Fate}
    (hfails : FailsEach d (refusal e) ps o s t) (h : Ledger d key0 s)
    (hfailing : (booksOf key0 s.history).failing = ps)
    (hreason : (booksOf key0 s.history).reason = some e) :
    Ledger d key0 t ∧ (o = .through → (booksOf key0 t.history).failing = []) := by
  have hfirst : ∀ {s t : RunspacePool τ} {p ps o}, Ledger d key0 s →
      (booksOf key0 s.history).failing = p :: ps → (booksOf key0 s.history).reason = some e →
      Responds d p.responseType p.pid (refusedBody d (refusal e) p) (s.note (.failing p)) o t →
      Ledger d key0 t ∧ (booksOf key0 t.history).failing = ps
        ∧ (booksOf key0 t.history).reason = some e := by
    intro s t p ps o h hfailing hreason hsend
    have hnote : Ledger d key0 (s.note (.failing p)) :=
      h.note ⟨ps, hfailing⟩ fun _ => ⟨rfl, rfl, rfl, rfl⟩
    have hbooks : (booksOf key0 (s.note (.failing p)).history).failing = ps
        ∧ (booksOf key0 (s.note (.failing p)).history).reason = some e := by
      rw [note, booksOf_snoc]
      refine ⟨?_, hreason⟩
      change (booksOf key0 s.history).failing.tail = ps
      rw [hfailing, List.tail_cons]
    have hbeside := hsend.beside key0
    refine ⟨hsend.ledger hnote (h.responseType (Or.inr ?_)) ?_, hbeside.failing.trans hbooks.1,
      hbeside.reason.trans hbooks.2⟩
    · rw [hfailing]
      exact List.mem_cons_self ..
    · exact .failed s.machine.rpid p e (getLast_note s _) hbooks.2 rfl
  induction hfails with
  | nil s => exact ⟨h, fun _ => hfailing⟩
  | cons hne hsend hrest ih =>
      rcases hfirst h hfailing hreason hsend with ⟨ht, hfailing', hreason'⟩
      exact ih ht hfailing' hreason'
  | dropped hsend =>
      refine ⟨(hfirst h hfailing hreason hsend).1, ?_⟩
      intro ho
      cases ho

/-- An unusable reply ends the exchange, and everything parked is refused. -/
theorem Ledger.refuse {msg : PsrpMessage} {pair : ClientSessionKey} {e : PsrpError}
    (h : Ledger d key0 s) (htook : Took msg s u) (hmt : msg.messageType = .encryptedSessionKey)
    (hpending : s.pendingClientKey = some pair)
    (hunwrap : unwrapSessionKey d.platform.toPlatform msg.data pair = .error e) :
    Ledger d key0 (refuse e u)
      ∧ (booksOf key0 (refuse e u).history).failing = s.deferredHostResponses
      ∧ (booksOf key0 (refuse e u).history).reason = some e := by
  have hu := htook.ledger h
  rcases htook.books key0 with ⟨hhistory, hbooks, _, hdeferred⟩
  have hcause : Cause d key0 u.history (.refused e) := by
    refine ⟨msg, pair, ?_, hmt, ?_, hunwrap⟩
    · rw [hhistory]
      exact List.getLast?_concat
    · rw [hbooks, ← h.pending]
      exact hpending
  refine ⟨hu.event hcause rfl rfl hu.key rfl rfl, ?_, ?_⟩
  · change (booksOf key0 (u.history ++ [.refused e])).failing = _
    rw [booksOf_snoc, ← hdeferred]
    exact hu.parked.symm
  · change (booksOf key0 (u.history ++ [.refused e])).reason = _
    rw [booksOf_snoc]
    rfl

/-- Whatever a read does keeps the ledger. -/
theorem Deed.ledger {o : Fate} (hdeed : Deed d o s t) (h : Ledger d key0 s) : Ledger d key0 t := by
  -- A chunk is noted, and none of the books is about it.
  have hfed : ∀ {chunk v r t}, feedChunk chunk
      (RunspacePool.note (.chunk chunk) { s with transport := v }) = (r, t) → Ledger d key0 t := by
    intro chunk v r t hfeed
    have hquiet : Ledger d key0 { s with transport := v } := h.congr rfl rfl rfl rfl
    have hchunk : Ledger d key0 (RunspacePool.note (.chunk chunk) { s with transport := v }) :=
      hquiet.note trivial fun _ => ⟨rfl, rfl, rfl, rfl⟩
    rcases feedChunk_eq chunk (RunspacePool.note (.chunk chunk) { s with transport := v })
      with ⟨r', pending, hstate⟩
    rw [hfeed] at hstate
    rw [show t = _ from hstate]
    exact hchunk.congr rfl rfl rfl rfl
  -- Every deed enters what it did in the books, with its cause.
  cases hdeed with
  | unread hsettled ho hfate hran => exact h.congr rfl rfl rfl rfl
  | fed hsettled hpending hran hfeed => exact hfed hfeed
  | unfed hsettled hpending hran hfeed => exact hfed hfeed
  | flushed hparked hkey hsend => exact h.unparked hparked hkey hsend
  | unflushed ho hparked hkey hsend => exact h.flushing hparked hkey hsend
  | undecodable htook hmt hdecode => exact htook.ledger h
  | asking htook hmt => exact htook.ledger h
  | silent htook hmt hdecode hwrites =>
      exact htook.answered h hmt hdecode ⟨fun _ => hwrites, fun _ => rfl⟩
  | replied htook hmt hdecode hwants hreply hsend =>
      rename_i u msg call answer body
      have hne : answer ≠ .ok none := by
        rintro rfl
        cases hreply
      have hanswered := htook.answered h hmt hdecode (wants_iff hwants hne)
      refine hsend.ledger hanswered (hostResponseType_ne _) ?_
      refine .replied u.machine.rpid msg call answer body (getLast_note u _) ?_ rfl
      rw [← hanswered.key]
      exact (htook.books key0).2.2.1 ▸ hreply
  | parked htook hmt hdecode hwants hsecure hkey hpending =>
      rename_i u msg call v
      have hwanted : (Except.ok (some v) : Except PsrpError _) = .ok none ↔ writesOnly call = true :=
        wants_iff hwants nofun
      have hanswered := htook.answered h hmt hdecode hwanted
      refine hanswered.park hsecure ((htook.books key0).2.2.1.trans hkey) ?_
      rw [← Took.pending htook] at hpending
      exact hpending
  | parkedFirst htook hmt hdecode hwants hsecure hkey hpending hpub =>
      rename_i w u msg call v
      have hwanted : (Except.ok (some v) : Except PsrpError _) = .ok none ↔ writesOnly call = true :=
        wants_iff hwants nofun
      have hanswered := htook.answered h hmt hdecode hwanted
      rcases hpub.beside with ⟨hkept, _, hstarted⟩
      refine (hpub.ledger hanswered ((Took.pending htook).trans hpending)).park hsecure ?_
        (hstarted rfl)
      exact hkept.trans ((htook.books key0).2.2.1.trans hkey)
  | unparked ho htook hmt hdecode hwants hsecure hkey hpending hpub =>
      rename_i u msg call v
      have hwanted : (Except.ok (some v) : Except PsrpError _) = .ok none ↔ writesOnly call = true :=
        wants_iff hwants nofun
      have hanswered := htook.answered h hmt hdecode hwanted
      exact hpub.ledger hanswered ((Took.pending htook).trans hpending)
  | accepted htook hmt hpending hunwrap =>
      rename_i u msg pair key
      have hu := htook.ledger h
      rcases htook.books key0 with ⟨hhistory, hbooks, _, _⟩
      -- The key was taken from the reply right before.
      have hcause : Cause d key0 u.history (.keyed key) := by
        refine ⟨msg, pair, ?_, hmt, ?_, hunwrap⟩
        · rw [hhistory]
          exact List.getLast?_concat
        · rw [hbooks, ← h.pending]
          exact hpending
      exact hu.event hcause rfl rfl rfl hu.parked rfl
  | refused htook hmt hpending hunwrap hfails | refusing htook hmt hpending hunwrap hfails =>
      rcases h.refuse htook hmt hpending hunwrap with ⟨hrefused, hfailing, hreason⟩
      exact (hfails.ledger hrefused hfailing hreason).1
  | requested htook hmt hpending hpub =>
      exact hpub.ledger (htook.ledger h) ((Took.pending htook).trans hpending)

theorem Move.ledger (hmove : Move d s t) (h : Ledger d key0 s) : Ledger d key0 t := by
  cases hmove with
  | deed ho hdeed => exact hdeed.ledger h
  | handed hhand =>
      cases hhand with
      | plain htook hcall hkey hrequest =>
          exact (htook.ledger h).note trivial fun _ => ⟨rfl, rfl, rfl, rfl⟩
      | after hsettled hmt => exact h.note trivial fun _ => ⟨rfl, rfl, rfl, rfl⟩
      | ended hsettled hran hidle hempty hmsg =>
          rename_i msg v
          have hquiet : Ledger d key0 { s with transport := v } := h.congr rfl rfl rfl rfl
          have hchunk : Ledger d key0 (RunspacePool.note (.chunk []) { s with transport := v }) :=
            hquiet.note trivial fun _ => ⟨rfl, rfl, rfl, rfl⟩
          exact hchunk.note trivial fun _ => ⟨rfl, rfl, rfl, rfl⟩
  | sent hmt hq hsend =>
      refine hsend.ledger h ?_ (.other hmt)
      rintro rfl
      cases hmt
  | published hkey hpending hpub => exact hpub.ledger h hpending
  | injected key => exact h.event (e := .injected key) trivial rfl rfl rfl h.parked rfl
  | turned machine closed hrpid => exact h.congr rfl rfl rfl rfl
  | aside v haside => exact h.congr rfl rfl rfl rfl
  | remarked e he =>
      refine h.note ?_ fun b => ?_
      · cases e <;> first | exact trivial | cases he
      · cases e <;> first | exact ⟨rfl, rfl, rfl, rfl⟩ | cases he
  | interrupted hdeed =>
      have hfired := (hdeed.ledger h).note (e := .fired) trivial fun _ => ⟨rfl, rfl, rfl, rfl⟩
      exact hfired.note trivial fun _ => ⟨rfl, rfl, rfl, rfl⟩

end Deeds

theorem ledger_attached (d : Driver τ) (transport : τ) (machine : RunspacePoolStateMachine)
    (n : UInt64) (key : Option SessionKey) : Ledger d key (attached transport machine n key) := by
  refine ⟨rfl, rfl, rfl, rfl, fun before e after heq => ?_⟩
  cases before <;> cases heq

/-- The ledger is kept in every run, whatever is dropped in it. -/
theorem ledger_play (d : Driver τ) (transport : τ) (machine : RunspacePoolStateMachine) (n : UInt64)
    (key : Option SessionKey) (calls : List (Call Answer PoolOperation)) :
    Ledger d key (play (perform d) calls (attached transport machine n key)).2 :=
  play_moves (fun _ _ h hmove => Move.ledger hmove h) (fun _ _ h hdeed => Deed.ledger hdeed h) calls
    (ledger_attached d transport machine n key)

end RunspacePool

end Psrp

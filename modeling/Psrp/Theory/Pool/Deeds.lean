import Mathlib.Logic.Relation
import Psrp.Core.Pipeline

/-!
# What a Read Does

Reading a message takes any number of deeds: a chunk is put into the buffer, a
host call is answered or its answer parked, a parked answer is sent, the key
exchange makes a step. Each deed goes through, fails or is dropped where it
waits, and the last one hands a message to whoever is reading.

A deed says everything that it does to a pool, its guards included, so that an
invariant of a pool is proved by cases on deeds and never by taking a program
apart again.

What the transport does is left to it: `Ran` says that a program of it ran and
ended in some way.

## Main definitions

* `Fate`: How a deed ends.
* `Ran`: A run of a program of the transport.
* `Sends`, `Publishes`: A message is sent; a key pair is published.
* `Reply`: The body that answers a host call.
* `Deed`, `Handover`: What a read does on its way, and at its end.

## Theorems

* `wp_sendPipelineMessage`, `wp_handleHostCall`,
  `wp_acceptEncryptedSessionKey`: The parts of a read.
* `wp_nextMessage`: A read is deeds and a handover.
-/

namespace Psrp

namespace RunspacePool

open Async (wp wp_bind wp_mono wp_ends wp_seq Ends Turn)
open Relation (ReflTransGen)

variable {τ α : Type} {d : Driver τ} {s t u : RunspacePool τ}

/-- How a deed ends. -/
inductive Fate where
  | through
  | failed (e : PsrpError)
  | dropped
  deriving DecidableEq

/-- A program that ends as a deed does. -/
def Ended (R : Fate → RunspacePool τ → Prop) : Exit PsrpError α → RunspacePool τ → Prop :=
  Ends (R .dropped) (fun e => R (.failed e)) fun _ => R .through

/-- How an exit counts. -/
def fateOf : Exit PsrpError α → Fate
  | .ok _ => .through
  | .err e => .failed e
  | .cut _ | .suspended => .dropped

/-- A program of the transport ran, and this is how it ended and what it left
    behind. -/
def Ran (q : Prog τ α) (x : Exit PsrpError α) (v v' : τ) : Prop :=
  ∃ script turns, (q ⟨v, script, turns⟩).1 = x ∧ (q ⟨v, script, turns⟩).2.state = v'

section States

/-- The next message to the server. -/
def frame (mt : MessageType) (pid : Uuid) (body : Text) (s : RunspacePool τ) : Frame :=
  { objectId := s.nextObjectId, msg := .toServer mt s.machine.rpid pid body }

/-- A message was given to the transport. -/
def begun (f : Frame) (transport : τ) (s : RunspacePool τ) : RunspacePool τ :=
  { s.note (.sending f) with nextObjectId := f.objectId + 1, transport }

def park (p : DeferredHostResponse) (s : RunspacePool τ) : RunspacePool τ :=
  { s.note (.parked p) with deferredHostResponses := s.deferredHostResponses ++ [p] }

def unpark (p : DeferredHostResponse) (s : RunspacePool τ) : RunspacePool τ :=
  { s.note (.flushed p) with deferredHostResponses := s.deferredHostResponses.tail }

def await (key : ClientSessionKey) (s : RunspacePool τ) : RunspacePool τ :=
  { s.note (.exchange key) with pendingClientKey := some key }

def accept (key : SessionKey) (s : RunspacePool τ) : RunspacePool τ :=
  { s.note (.keyed key) with sessionKey := some key, pendingClientKey := none }

def refuse (e : PsrpError) (s : RunspacePool τ) : RunspacePool τ :=
  { s.note (.refused e) with pendingClientKey := none, deferredHostResponses := [] }

/-- Nothing is parked that could be sent. Every turn of a read begins with
    that. -/
def Settled (s : RunspacePool τ) : Prop :=
  s.sessionKey.isSome = true → s.deferredHostResponses = []

/-- The next message of the buffer was taken. -/
def Took (msg : PsrpMessage) (s u : RunspacePool τ) : Prop :=
  Settled s ∧ ∃ rest, s.pendingMessages = msg :: rest
    ∧ u = { s.note (.took msg) with pendingMessages := rest }

end States

section Relations

/-- A message is sent, by some program of the transport. -/
inductive Sends (q : Bytes → Prog τ Unit) (mt : MessageType) (pid : Uuid) (body : Text)
    (s : RunspacePool τ) : Fate → RunspacePool τ → Prop
  | through (v) : s.nextObjectId.toNat + 1 < 2 ^ 64 →
      Ran (q (frame mt pid body s).bytes) (.ok ()) s.transport v →
      Sends q mt pid body s .through
        ((begun (frame mt pid body s) v s).note (.sent (frame mt pid body s)))
  | stopped (o x v) : o ≠ .through → fateOf x = o → s.nextObjectId.toNat + 1 < 2 ^ 64 →
      Ran (q (frame mt pid body s).bytes) x s.transport v →
      Sends q mt pid body s o (begun (frame mt pid body s) v s)
  | exhausted (e) : ¬ s.nextObjectId.toNat + 1 < 2 ^ 64 →
      Sends q mt pid body s (.failed e) (s.note .exhausted)

/-- What carries a message to a pipeline. -/
def carrier (d : Driver τ) (mt : MessageType) (pid : Uuid) (bytes : Bytes) : Prog τ Unit :=
  if mt = .createPipeline then d.transport.executePipeline bytes pid
  else d.transport.sendPipelineFragment bytes pid

/-- A response to a host call is sent. -/
abbrev Responds (d : Driver τ) (mt : MessageType) (pid : Uuid) :=
  Sends (carrier d mt pid) mt pid

/-- A key pair is generated and published. -/
inductive Publishes (d : Driver τ) (s : RunspacePool τ) : Fate → RunspacePool τ → Prop
  | started (key : ClientSessionKey) (t : RunspacePool τ) :
      Sends d.transport.sendFragment .publicKey Uuid.nil
        (publicKeyXml d.platform.toPlatform key) s .through t →
      Publishes d s .through (await key t)
  | stopped (key : ClientSessionKey) (o : Fate) (t : RunspacePool τ) : o ≠ .through →
      Sends d.transport.sendFragment .publicKey Uuid.nil
        (publicKeyXml d.platform.toPlatform key) s o t →
      Publishes d s o t
  | keyless (e) : Publishes d s (.failed e) (s.note .keyless)

/-- The body that answers a call, under the key held. -/
inductive Reply (d : Driver τ) (key : Option SessionKey) (call : HostCall) :
    Except PsrpError (Option PsValue) → Text → Prop
  | error (e : PsrpError) : Reply d key call (.error e)
      (buildHostResponseErrorBody d.platform.toPlatform call.ci call.mi e.message)
  | plain (v) : containsSecureString v = false → Reply d key call (.ok (some v))
      (buildHostResponseBody d.platform.toPlatform call.ci call.mi v)
  | sealed (v k) : containsSecureString v = true → key = some k → Reply d key call (.ok (some v))
      (buildHostResponseBody d.platform.toPlatform call.ci call.mi
        (encryptSecureStrings d.platform.cipher k v))

/-- The answer that is parked for a call. -/
def parkedFor (msg : PsrpMessage) (call : HostCall) (v : PsValue) : DeferredHostResponse :=
  { responseType := hostResponseType msg.messageType, pid := msg.pid, ci := call.ci,
    mi := call.mi, value := v }

/-- What says that a parked answer could not be sent. -/
def refusal (e : PsrpError) : String := s!"the SecureString could not be sent: {e.message}"

/-- A parked answer is sent, or an error in its place. -/
def sealedBody (d : Driver τ) (key : SessionKey) (p : DeferredHostResponse) : Text :=
  buildHostResponseBody d.platform.toPlatform p.ci p.mi
    (encryptSecureStrings d.platform.cipher key p.value)

def refusedBody (d : Driver τ) (message : String) (p : DeferredHostResponse) : Text :=
  buildHostResponseErrorBody d.platform.toPlatform p.ci p.mi message

/-- Errors are sent in place of some parked answers, whether each goes through
    or not. -/
inductive FailsEach (d : Driver τ) (message : String) :
    List DeferredHostResponse → Fate → RunspacePool τ → RunspacePool τ → Prop
  | nil (s : RunspacePool τ) : FailsEach d message [] .through s s
  | cons {s t u p ps o o'} : o ≠ .dropped →
      Responds d p.responseType p.pid (refusedBody d message p) (s.note (.failing p)) o t →
      FailsEach d message ps o' t u → FailsEach d message (p :: ps) o' s u
  | dropped {s t p ps} :
      Responds d p.responseType p.pid (refusedBody d message p) (s.note (.failing p)) .dropped t →
      FailsEach d message (p :: ps) .dropped s t

/-- Whether a call is of a method that only writes. -/
def writesOnly (call : HostCall) : Bool := (HostMethodId.fromI64 call.mi).isVoid

/-- A host call. -/
def isHostCall (mt : MessageType) : Prop :=
  mt = .runspacePoolHostCall ∨ mt = .pipelineHostCall

/-- One thing a read does on its way. -/
inductive Deed (d : Driver τ) : Fate → RunspacePool τ → RunspacePool τ → Prop
  /-- A chunk is read, and put into the buffer or not. -/
  | unread {s o x v} : Settled s → o ≠ .through → fateOf x = o →
      Ran d.transport.recvChunk x s.transport v → Deed d o s { s with transport := v }
  | fed {s t chunk v} : Settled s → s.pendingMessages = [] →
      Ran d.transport.recvChunk (.ok chunk) s.transport v →
      feedChunk chunk (note (.chunk chunk) { s with transport := v }) = (.ok (), t) →
      Deed d .through s t
  | unfed {s t chunk v e} : Settled s → s.pendingMessages = [] →
      Ran d.transport.recvChunk (.ok chunk) s.transport v →
      feedChunk chunk (note (.chunk chunk) { s with transport := v }) = (.error e, t) →
      Deed d (.failed e) s t
  /-- The first parked answer is sent under the key held. -/
  | flushed {s t p ps key} : s.deferredHostResponses = p :: ps → s.sessionKey = some key →
      Responds d p.responseType p.pid (sealedBody d key p) (s.note (.flushing p)) .through t →
      Deed d .through s (unpark p t)
  | unflushed {s t p ps key o} : o ≠ .through →
      s.deferredHostResponses = p :: ps → s.sessionKey = some key →
      Responds d p.responseType p.pid (sealedBody d key p) (s.note (.flushing p)) o t →
      Deed d o s t
  /-- A host call is taken that cannot be read, or whose host is still asked. -/
  | undecodable {s u msg e} : Took msg s u → isHostCall msg.messageType →
      decodeHostCall d.platform.toPlatform msg.data = .error e → Deed d (.failed e) s u
  | asking {s u msg} : Took msg s u → isHostCall msg.messageType → Deed d .dropped s u
  /-- A host call that wants no answer. -/
  | silent {s u msg call} : Took msg s u → isHostCall msg.messageType →
      decodeHostCall d.platform.toPlatform msg.data = .ok call → writesOnly call = true →
      Deed d .through s (u.note (.answered msg call (.ok none)))
  /-- A host call is answered. -/
  | replied {s t u msg call answer body o} : Took msg s u → isHostCall msg.messageType →
      decodeHostCall d.platform.toPlatform msg.data = .ok call → writesOnly call = false →
      Reply d s.sessionKey call answer body →
      Responds d (hostResponseType msg.messageType) msg.pid body
        (u.note (.answered msg call answer)) o t →
      Deed d o s t
  /-- An answer is parked: behind an exchange in flight, or after one is
      started for it. -/
  | parked {s u msg call v} : Took msg s u → isHostCall msg.messageType →
      decodeHostCall d.platform.toPlatform msg.data = .ok call → writesOnly call = false →
      containsSecureString v = true → s.sessionKey = none → s.pendingClientKey.isSome = true →
      Deed d .through s (park (parkedFor msg call v) (u.note (.answered msg call (.ok (some v)))))
  | parkedFirst {s t u msg call v} : Took msg s u → isHostCall msg.messageType →
      decodeHostCall d.platform.toPlatform msg.data = .ok call → writesOnly call = false →
      containsSecureString v = true → s.sessionKey = none → s.pendingClientKey = none →
      Publishes d (u.note (.answered msg call (.ok (some v)))) .through t →
      Deed d .through s (park (parkedFor msg call v) t)
  | unparked {s t u msg call v o} : o ≠ .through → Took msg s u → isHostCall msg.messageType →
      decodeHostCall d.platform.toPlatform msg.data = .ok call → writesOnly call = false →
      containsSecureString v = true → s.sessionKey = none → s.pendingClientKey = none →
      Publishes d (u.note (.answered msg call (.ok (some v)))) o t →
      Deed d o s t
  /-- The awaited reply is taken. -/
  | accepted {s u msg pair key} : Took msg s u → msg.messageType = .encryptedSessionKey →
      s.pendingClientKey = some pair →
      unwrapSessionKey d.platform.toPlatform msg.data pair = .ok key →
      Deed d .through s (accept key u)
  | refused {s t u msg pair e} : Took msg s u → msg.messageType = .encryptedSessionKey →
      s.pendingClientKey = some pair →
      unwrapSessionKey d.platform.toPlatform msg.data pair = .error e →
      FailsEach d (refusal e) s.deferredHostResponses .through (refuse e u) t →
      Deed d (.failed e) s t
  | refusing {s t u msg pair e} : Took msg s u → msg.messageType = .encryptedSessionKey →
      s.pendingClientKey = some pair →
      unwrapSessionKey d.platform.toPlatform msg.data pair = .error e →
      FailsEach d (refusal e) s.deferredHostResponses .dropped (refuse e u) t →
      Deed d .dropped s t
  /-- The server asks for a key. -/
  | requested {s t u msg o} : Took msg s u → msg.messageType = .publicKeyRequest →
      s.pendingClientKey = none → Publishes d u o t → Deed d o s t

/-- Deeds that all go through. -/
abbrev Deeds (d : Driver τ) : RunspacePool τ → RunspacePool τ → Prop :=
  ReflTransGen (Deed d .through)

/-- A message is handed to whoever is reading. -/
inductive Handover (d : Driver τ) (msg : PsrpMessage) : RunspacePool τ → RunspacePool τ → Prop
  /-- What is not the pool's own business, or no longer. -/
  | plain {s u : RunspacePool τ} : Took msg s u → ¬ isHostCall msg.messageType →
      (msg.messageType = .encryptedSessionKey → s.pendingClientKey = none) →
      (msg.messageType = .publicKeyRequest → s.pendingClientKey.isSome = true) →
      Handover d msg s (u.note (.handed msg))
  /-- A message of the key exchange, after what it asked for was done. -/
  | after {s : RunspacePool τ} : Settled s →
      msg.messageType = .encryptedSessionKey ∨ msg.messageType = .publicKeyRequest →
      Handover d msg s (s.note (.handed msg))
  /-- The end, when nothing is left. -/
  | ended {s : RunspacePool τ} {v} : Settled s → Ran d.transport.recvChunk (.ok []) s.transport v →
      s.reassembler.isIdle = true → s.pendingMessages = [] →
      msg = syntheticCompletion d.platform.toPlatform s.machine.rpid →
      Handover d msg s
        (note (.handed msg) (note (.chunk []) { s with transport := v }))

end Relations

section Facts

theorem FailsEach.not_failed {message : String} {ps : List DeferredHostResponse} {e : PsrpError} :
    ¬ FailsEach d message ps (.failed e) s t := by
  intro h
  generalize ho : Fate.failed e = o at h
  induction h with
  | nil s => cases ho
  | cons hne hsend hrest ih => exact ih ho
  | dropped hsend => cases ho

theorem Took.pending {msg : PsrpMessage} (h : Took msg s u) :
    u.pendingClientKey = s.pendingClientKey := by
  rcases h with ⟨_, rest, _, rfl⟩
  rfl

theorem Took.settled {msg : PsrpMessage} (h : Took msg s u) : Settled u := by
  rcases h with ⟨hsettled, rest, _, rfl⟩
  exact hsettled

/-- Sending a message changes nothing else. -/
theorem Sends.settled {q : Bytes → Prog τ Unit} {mt : MessageType} {pid : Uuid} {body : Text}
    {o : Fate} (h : Sends q mt pid body s o t) (hs : Settled s) : Settled t := by
  cases h <;> exact hs

theorem Publishes.settled {o : Fate} (h : Publishes d s o t) (hs : Settled s) : Settled t := by
  cases h with
  | started key v hsend => exact hsend.settled hs
  | stopped key o v ho hsend => exact hsend.settled hs
  | keyless e => exact hs

/-- What follows a program of the host, which may be dropped but does not
    fail. -/
theorem wp_hostThen {β γ : Type} {q : HostProg β} {f : β → HostProg γ}
    {Q : Exit Empty γ → Unit → Prop} (hok : ∀ b, wp (f b) Q ()) (hcut : ∀ n, Q (.cut n) ())
    (hsuspended : Q .suspended ()) : wp (q >>= f) Q () := by
  refine wp_bind fun script turns => ?_
  generalize q ⟨(), script, turns⟩ = r
  rcases r with ⟨x, w⟩
  cases x with
  | ok b => exact hok b
  | err e => exact e.elim
  | cut n => exact hcut n
  | suspended => exact hsuspended

/-- What an answer says about the method that was called. -/
def FitsMethod (mi : HostMethodId) (x : Exit Empty (Except PsrpError (Option PsValue)))
    (_ : Unit) : Prop :=
  ∀ answer, x = .ok answer → (answer = .ok none ↔ mi.isVoid = true)

/-- A host has no answer to what only writes, and one to everything else. -/
theorem wp_dispatchHostCall (host : PsHost HostProg) (mi : HostMethodId) (mp : List PsValue) :
    wp (dispatchHostCall host mi mp) (FitsMethod mi) () := by
  have hdropped : (∀ n, FitsMethod mi (.cut n) ()) ∧ FitsMethod mi .suspended () :=
    ⟨fun _ _ heq => (by cases heq), fun _ heq => by cases heq⟩
  have hnothing : mi.isVoid = true → wp (pure (.ok none) : HostProg _) (FitsMethod mi) () := by
    intro hvoid
    refine Async.wp_pure ?_
    intro answer heq
    cases heq
    exact ⟨fun _ => hvoid, fun _ => rfl⟩
  have hsome : ∀ answer : Except PsrpError (Option PsValue), mi.isVoid = false →
      answer ≠ .ok none → wp (pure answer : HostProg _) (FitsMethod mi) () := by
    intro answer hvoid hne
    refine Async.wp_pure ?_
    intro answer' heq
    cases heq
    rw [hvoid]
    exact ⟨fun heq => absurd heq hne, nofun⟩
  have hmap : ∀ {β : Type} (q : HostProg (Except PsrpError β)) (f : β → PsValue),
      mi.isVoid = false → wp (do
        let answer ← q
        return answer.map fun b => some (f b)) (FitsMethod mi) () := by
    intro β q f hvoid
    refine wp_hostThen (fun answer => hsome _ hvoid ?_) hdropped.1 hdropped.2
    cases answer <;> exact nofun
  have hwrite : ∀ q : HostProg Unit, mi.isVoid = true → wp (do
      q
      return .ok none) (FitsMethod mi) () := by
    intro q hvoid
    exact wp_hostThen (fun _ => hnothing hvoid) hdropped.1 hdropped.2
  unfold dispatchHostCall
  cases mi with
  | readLine => exact hmap _ _ rfl
  | readLineAsSecureString => exact hmap _ _ rfl
  | promptForChoice => exact hmap _ _ rfl
  | prompt => exact hmap _ _ rfl
  | promptForCredential => exact hmap _ _ rfl
  | other id => exact hsome _ rfl nofun
  | _ => exact hwrite _ rfl

/-- Feeding a chunk touches the buffer alone. -/
theorem feedChunk_eq (chunk : Bytes) (s : RunspacePool τ) : ∃ r pending,
    (feedChunk chunk s).2 = { s with reassembler := r, pendingMessages := pending } := by
  unfold feedChunk
  rcases s.reassembler.feed chunk with ⟨fed, r⟩
  cases fed with
  | error e => exact ⟨r, s.pendingMessages, rfl⟩
  | ok completed =>
      cases hdecoded : completed.mapM PsrpMessage.decode with
      | error e => exact ⟨r, s.pendingMessages, by simp only [hdecoded]⟩
      | ok decoded => exact ⟨r, decoded ++ s.pendingMessages, by simp only [hdecoded]⟩

end Facts

section Sending

theorem wp_onTransport (q : Prog τ α) {Q : Exit PsrpError α → RunspacePool τ → Prop}
    (h : ∀ x v, Ran q x s.transport v → Q x { s with transport := v }) :
    wp (onTransport q) Q s :=
  fun script turns => h _ _ ⟨script, turns, rfl, rfl⟩

theorem wp_record (e : PoolEvent) {Q : Exit PsrpError Unit → RunspacePool τ → Prop}
    (h : Q (.ok ()) (s.note e)) : wp (record e) Q s := Async.wp_modify h

theorem wp_recordThen {β : Type} (e : PoolEvent) {f : Unit → Prog (RunspacePool τ) β}
    {Q : Exit PsrpError β → RunspacePool τ → Prop} (h : wp (f ()) Q (s.note e)) :
    wp (record e >>= f) Q s := Async.wp_modifyThen h

/-- An end is of one of three kinds. -/
theorem ended_of_fate {R : Fate → RunspacePool τ → Prop} {x : Exit PsrpError α}
    (h : R (fateOf x) s) : Ended R x s := by
  cases x <;> exact h

theorem Ended.mono {R R' : Fate → RunspacePool τ → Prop} {x : Exit PsrpError α}
    (h : Ended R x s) (hR : ∀ o t, R o t → R' o t) : Ended R' x s :=
  Ends.mono h (hR _) (fun _ => hR _) fun _ => hR _

theorem wp_ended {R R' : Fate → RunspacePool τ → Prop} {q : Prog (RunspacePool τ) α}
    (h : wp q (Ended R) s) (hR : ∀ o t, R o t → R' o t) : wp q (Ended R') s :=
  wp_mono h fun _ _ hx => hx.mono hR

/-- A sequence of deeds: what does not go through ends the whole. -/
theorem wp_andThen {β : Type} {R R' : Fate → RunspacePool τ → Prop} {q : Prog (RunspacePool τ) α}
    {f : α → Prog (RunspacePool τ) β} (h : wp q (Ended R) s)
    (hstop : ∀ o t, o ≠ .through → R o t → R' o t)
    (hgo : ∀ a t, R .through t → wp (f a) (Ended R') t) : wp (q >>= f) (Ended R') s :=
  wp_seq h (fun t => hstop _ t Fate.noConfusion) (fun _ t => hstop _ t Fate.noConfusion) hgo

/-- The same when what does not go through ends with something else. -/
theorem wp_stopThen {β : Type} {R : Fate → RunspacePool τ → Prop}
    {Q : Exit PsrpError β → RunspacePool τ → Prop} {q : Prog (RunspacePool τ) α}
    {f : α → Prog (RunspacePool τ) β} (h : wp q (Ended R) s)
    (hstop : ∀ (x : Exit PsrpError β) t, (∀ b, x ≠ .ok b) → R (fateOf x) t → Q x t)
    (hgo : ∀ a t, R .through t → wp (f a) Q t) : wp (q >>= f) Q s := by
  refine wp_bind (wp_mono h fun x t hx => ?_)
  cases x with
  | ok a => exact hgo a t hx
  | err e => exact hstop (.err e) t (fun _ => nofun) hx
  | cut n => exact hstop (.cut n) t (fun _ => nofun) hx
  | suspended => exact hstop .suspended t (fun _ => nofun) hx

/-- Send a message by some program of the transport. -/
def sendBy (q : Bytes → Prog τ Unit) (mt : MessageType) (pid : Uuid) (body : Text) :
    Prog (RunspacePool τ) Unit := do
  let frame ← Async.update (takeFrame mt pid body)
  onTransport (q frame.bytes)
  record (.sent frame)

theorem wp_sendBy (q : Bytes → Prog τ Unit) (mt : MessageType) (pid : Uuid) (body : Text) :
    wp (sendBy q mt pid body) (Ended (Sends q mt pid body s)) s := by
  unfold sendBy
  refine wp_bind (Async.wp_update (fun f t htake => ?_) fun e t htake => ?_)
  all_goals
    rw [takeFrame, takeObjectId] at htake
    by_cases hroom : s.nextObjectId.toNat + 1 < 2 ^ 64
  · rw [if_pos hroom] at htake
    cases htake
    refine wp_bind (wp_onTransport _ fun x v hran => ?_)
    cases x with
    | ok a => exact wp_record _ (.through v hroom hran)
    | err e => exact .stopped (.failed e) (.err e) v nofun rfl hroom hran
    | cut n => exact .stopped .dropped (.cut n) v nofun rfl hroom hran
    | suspended => exact .stopped .dropped .suspended v nofun rfl hroom hran
  · rw [if_neg hroom] at htake
    cases htake
  · rw [if_pos hroom] at htake
    cases htake
  · rw [if_neg hroom] at htake
    cases htake
    exact .exhausted _ hroom

theorem wp_sendPsrpMessage (mt : MessageType) (body : Text) : wp (sendPsrpMessage d mt body)
    (Ended (Sends d.transport.sendFragment mt Uuid.nil body s)) s :=
  wp_sendBy d.transport.sendFragment mt Uuid.nil body

theorem wp_sendPipelineMessage (mt : MessageType) (pid : Uuid) (body : Text) :
    wp (sendPipelineMessage d mt pid body) (Ended (Sends (carrier d mt pid) mt pid body s)) s := by
  have hsame : sendPipelineMessage d mt pid body
      = sendBy (carrier d mt pid) mt pid body := by
    unfold sendPipelineMessage sendBy carrier
    by_cases hmt : mt = .createPipeline
    · simp only [if_pos hmt]
    · simp only [if_neg hmt]
  rw [hsame]
  exact wp_sendBy (carrier d mt pid) mt pid body

/-- A key pair is generated and published, unless one is awaited. -/
theorem wp_publish : wp (generateClientKey >>= startExchange d) (Ended (Publishes d s)) s := by
  refine wp_bind ?_
  unfold generateClientKey
  refine wp_bind (Async.wp_choose fun drawn => ?_)
  cases drawn with
  | error e =>
      refine wp_recordThen _ ?_
      exact Async.wp_throw (.keyless _)
  | ok key =>
      refine Async.wp_pure ?_
      refine wp_andThen (wp_sendPsrpMessage _ _) (fun o t ho h => .stopped key o t ho h)
        fun _ t h => ?_
      exact Async.wp_modify (.started key t h)

end Sending

section Reading

/-- Deeds that go through, and then perhaps one that does not. -/
inductive Busy (d : Driver τ) (s : RunspacePool τ) : Fate → RunspacePool τ → Prop
  | through {t : RunspacePool τ} : Deeds d s t → Busy d s .through t
  | stopped {u t : RunspacePool τ} {o : Fate} : o ≠ .through → Deeds d s u → Deed d o u t →
      Busy d s o t
  | idle {t : RunspacePool τ} : Deeds d s t → Busy d s .dropped t

theorem Busy.after {o : Fate} (h : Deeds d s t) (h' : Busy d t o u) : Busy d s o u := by
  cases h' with
  | through hdeeds => exact .through (h.trans hdeeds)
  | stopped ho hdeeds hdeed => exact .stopped ho (h.trans hdeeds) hdeed
  | idle hdeeds => exact .idle (h.trans hdeeds)

theorem Deed.busy {o : Fate} (h : Deed d o s t) : Busy d s o t := by
  cases o with
  | through => exact .through (.single h)
  | failed e => exact .stopped nofun .refl h
  | dropped => exact .stopped nofun .refl h

/-- An exchange is started unless one is in flight. -/
theorem wp_startExchangeUnlessPending : wp (startExchangeUnlessPending d)
    (Ended fun o t => (s.pendingClientKey.isSome = true ∧ o = .through ∧ t = s)
      ∨ (s.pendingClientKey = none ∧ Publishes d s o t)) s := by
  unfold startExchangeUnlessPending
  refine Async.wp_getThen ?_
  by_cases hpending : s.pendingClientKey.isSome = true
  · simp only [if_pos hpending]
    exact Async.wp_pure (Or.inl ⟨hpending, rfl, rfl⟩)
  · simp only [if_neg hpending]
    rw [Bool.not_eq_true, Option.isSome_eq_false_iff, Option.isNone_iff_eq_none] at hpending
    exact wp_ended wp_publish fun o t h => Or.inr ⟨hpending, h⟩

/-- Parked answers are sent one after the other, as long as there are turns. -/
theorem wp_flushTurns {key : SessionKey} (n : Nat) (hkey : s.sessionKey = some key) :
    wp (flushTurns d key n) (Ends (Busy d s .dropped) (fun e => Busy d s (.failed e))
      fun _ t => Deeds d s t ∧ t.sessionKey = some key
        ∧ (s.deferredHostResponses.length ≤ n → t.deferredHostResponses = [])) s := by
  induction n generalizing s with
  | zero =>
      exact Async.wp_pure ⟨.refl, hkey, fun hn => List.eq_nil_of_length_eq_zero (Nat.le_zero.mp hn)⟩
  | succ n ih =>
      unfold flushTurns
      refine Async.wp_getThen ?_
      cases hparked : s.deferredHostResponses with
      | nil => exact Async.wp_pure ⟨.refl, hkey, fun _ => hparked⟩
      | cons p ps =>
          refine wp_recordThen _ ?_
          refine wp_seq (wp_sendPipelineMessage _ _ _)
            (fun t h => (Deed.unflushed (o := .dropped) nofun hparked hkey h).busy)
            (fun e t h => (Deed.unflushed (o := .failed e) nofun hparked hkey h).busy) fun _ t h => ?_
          refine Async.wp_modifyThen ?_
          have hdeed : Deed d .through s (unpark p t) := .flushed hparked hkey h
          -- A send leaves the rest of the pool alone.
          have hkept : (unpark p t).sessionKey = some key
              ∧ (unpark p t).deferredHostResponses = ps := by
            cases h with
            | through v hroom hran =>
                exact ⟨hkey, by simp only [unpark, note, begun, hparked, List.tail_cons]⟩
            | stopped o x v ho hfate hroom hran => exact absurd rfl ho
          refine wp_ends (s := unpark p t) (ih hkept.1) (fun u => Busy.after (.single hdeed))
            (fun e u => Busy.after (.single hdeed)) fun _ u ⟨hdeeds, hkey', hnone⟩ => ?_
          refine ⟨.head hdeed hdeeds, hkey', fun hn => hnone ?_⟩
          rw [hkept.2]
          rw [List.length_cons] at hn
          omega

/-- The parked answers are sent if there is a key. -/
theorem wp_flushDeferredHostResponses : wp (flushDeferredHostResponses d)
    (Ends (Busy d s .dropped) (fun e => Busy d s (.failed e))
      fun _ t => Deeds d s t ∧ Settled t) s := by
  unfold flushDeferredHostResponses
  refine Async.wp_getThen ?_
  cases hkey : s.sessionKey with
  | none =>
      refine Async.wp_pure ⟨.refl, fun hsome => ?_⟩
      rw [hkey] at hsome
      cases hsome
  | some key =>
      exact wp_ends (wp_flushTurns _ hkey) (fun _ h => h) (fun _ _ h => h)
        fun _ t ⟨hdeeds, _, hnone⟩ => ⟨hdeeds, fun _ => hnone (Nat.le_refl _)⟩

/-- Every parked answer gets an error, or the sequence is dropped. -/
theorem wp_failEach (message : String) (ps : List DeferredHostResponse) :
    wp (failEach d message ps) (Ended fun o t => FailsEach d message ps o s t) s := by
  induction ps generalizing s with
  | nil => exact Async.wp_pure (.nil s)
  | cons p ps ih =>
      unfold failEach
      refine wp_recordThen _ ?_
      refine wp_bind (Async.wp_attempt (wp_mono (wp_sendPipelineMessage _ _ _) fun x t h => ?_))
      cases x with
      | ok a => exact wp_ended ih fun o u hrest => .cons (o := .through) nofun h hrest
      | err e => exact wp_ended ih fun o u hrest => .cons (o := .failed e) nofun h hrest
      | cut n => exact .dropped h
      | suspended => exact .dropped h

/-- A host call is answered, its answer parked, or nothing is to be said. -/
theorem wp_handleHostCall {msg : PsrpMessage} (htook : Took msg s u)
    (hmt : isHostCall msg.messageType) :
    wp (handleHostCall d msg) (Ended fun o t => Deed d o s t) u := by
  unfold handleHostCall
  refine wp_bind (Async.wp_lift (fun call hdecode => ?_) fun e hdecode => ?_)
  swap
  · exact .undecodable htook hmt hdecode
  refine wp_bind (Async.wp_outside_of (wp_dispatchHostCall _ _ _) (fun answer hvoid => ?_)
    (fun n => .asking htook hmt) (.asking htook hmt))
  refine wp_recordThen _ ?_
  -- Taking the message touched neither key.
  have hkept : u.sessionKey = s.sessionKey ∧ u.pendingClientKey = s.pendingClientKey := by
    rcases htook with ⟨_, rest, _, rfl⟩
    exact ⟨rfl, rfl⟩
  -- Only what writes gets no answer.
  have hwants : answer ≠ .ok none → writesOnly call = false := fun hne =>
    Bool.eq_false_iff.mpr fun hwrites => hne (hvoid.mpr hwrites)
  cases answer with
  | error e =>
      exact wp_ended (wp_sendPipelineMessage _ _ _) fun o t h =>
        .replied htook hmt hdecode (hwants nofun) (.error e) h
  | ok answer =>
      cases answer with
      | none => exact Async.wp_pure (.silent htook hmt hdecode (hvoid.mp rfl))
      | some v =>
          have hvalue := hwants nofun
          -- A secret is sealed, or parked until there is a key.
          by_cases hsecure : containsSecureString v = true
          · simp only [if_pos hsecure]
            refine Async.wp_getThen ?_
            cases hkey : (u.note (.answered msg call (.ok (some v)))).sessionKey with
            | some key =>
                exact wp_ended (wp_sendPipelineMessage _ _ _) fun o t h =>
                  .replied htook hmt hdecode hvalue (.sealed v key hsecure (hkept.1 ▸ hkey)) h
            | none =>
                have hnokey : s.sessionKey = none := hkept.1 ▸ hkey
                -- Without a key, the exchange is started first, unless one is pending.
                refine wp_stopThen (R := fun o t =>
                    (u.pendingClientKey.isSome = true ∧ o = .through
                      ∧ t = u.note (.answered msg call (.ok (some v))))
                    ∨ (u.pendingClientKey = none
                      ∧ Publishes d (u.note (.answered msg call (.ok (some v)))) o t)) ?_ ?_ ?_
                · unfold ensureKeyExchangeStarted
                  refine Async.wp_getThen ?_
                  simp only [hkey, Option.isSome_none, Bool.false_eq_true, if_false]
                  exact wp_startExchangeUnlessPending
                · intro x t hx h
                  rcases h with ⟨_, hthrough, _⟩ | ⟨hnone, hpub⟩
                  · cases x with
                    | ok a => exact absurd rfl (hx a)
                    | err e => cases hthrough
                    | cut n => cases hthrough
                    | suspended => cases hthrough
                  · refine ended_of_fate (.unparked ?_ htook hmt hdecode hvalue hsecure hnokey
                      (hkept.2 ▸ hnone) hpub)
                    cases x with
                    | ok a => exact absurd rfl (hx a)
                    | err e => exact nofun
                    | cut n => exact nofun
                    | suspended => exact nofun
                · intro _ t h
                  refine Async.wp_modify ?_
                  rcases h with ⟨hsome, _, rfl⟩ | ⟨hnone, hpub⟩
                  · exact .parked htook hmt hdecode hvalue hsecure hnokey (hkept.2 ▸ hsome)
                  · exact .parkedFirst htook hmt hdecode hvalue hsecure hnokey (hkept.2 ▸ hnone) hpub
          · -- Nothing secret: the answer goes out as it is.
            simp only [if_neg hsecure]
            exact wp_ended (wp_sendPipelineMessage _ _ _) fun o t h =>
              .replied htook hmt hdecode hvalue (.plain v (Bool.eq_false_iff.mpr hsecure)) h

/-- The reply is taken, if one is awaited, and every parked answer sent. -/
theorem wp_acceptEncryptedSessionKey {msg : PsrpMessage} (htook : Took msg s u)
    (hmt : msg.messageType = .encryptedSessionKey) :
    wp (acceptEncryptedSessionKey d msg) (Ends (Busy d s .dropped) (fun e => Busy d s (.failed e))
      fun _ t => (s.pendingClientKey = none ∧ t = u) ∨ (Deeds d s t ∧ Settled t)) u := by
  unfold acceptEncryptedSessionKey
  refine Async.wp_getThen ?_
  -- Taking the message touched neither the key pair nor what is parked.
  have hkept : u.pendingClientKey = s.pendingClientKey
      ∧ u.deferredHostResponses = s.deferredHostResponses := by
    rcases htook with ⟨_, rest, _, rfl⟩
    exact ⟨rfl, rfl⟩
  cases hpending : u.pendingClientKey with
  | none => exact Async.wp_pure (Or.inl ⟨hkept.1 ▸ hpending, rfl⟩)
  | some pair =>
      have hpair : s.pendingClientKey = some pair := hkept.1 ▸ hpending
      refine Async.wp_modifyThen ?_
      cases hunwrap : unwrapSessionKey d.platform.toPlatform msg.data pair with
      | error e =>
          -- Refused: what was parked is failed, and the operation with it.
          refine wp_recordThen _ ?_
          refine wp_stopThen (R := fun o t => FailsEach d (refusal e) s.deferredHostResponses o
            (refuse e u) t) ?_ ?_ ?_
          · unfold failDeferredHostResponses
            refine wp_bind (Async.wp_update (fun taken t htaken => ?_) fun e t htaken => ?_)
            · cases htaken
              rw [← hkept.2]
              exact wp_failEach (refusal e) _
            · cases htaken
          · intro x t hx h
            cases x with
            | ok a => exact absurd rfl (hx a)
            | err e' => exact absurd h FailsEach.not_failed
            | cut n => exact (Deed.refusing htook hmt hpair hunwrap h).busy
            | suspended => exact (Deed.refusing htook hmt hpair hunwrap h).busy
          · intro _ t h
            exact Async.wp_throw (Deed.refused htook hmt hpair hunwrap h).busy
      | ok key =>
          -- Accepted: what was parked is flushed.
          have hdeed : Deed d .through s (accept key u) := .accepted htook hmt hpair hunwrap
          refine Async.wp_modifyThen ?_
          exact wp_ends (s := accept key u) wp_flushDeferredHostResponses
            (fun t => Busy.after (.single hdeed)) (fun e t => Busy.after (.single hdeed))
            fun _ t ⟨hdeeds, hsettled⟩ => Or.inr ⟨.head hdeed hdeeds, hsettled⟩

/-- What a turn of a read ends with. -/
def TurnEnds (d : Driver τ) (s : RunspacePool τ) :
    Exit PsrpError (Turn Unit PsrpMessage) → RunspacePool τ → Prop :=
  Ends (Busy d s .dropped) (fun e => Busy d s (.failed e)) fun turn t => match turn with
    | .more () => Deeds d s t
    | .done msg => ∃ u, Deeds d s u ∧ Handover d msg u t

theorem TurnEnds.after {x : Exit PsrpError (Turn Unit PsrpMessage)} (h : Deeds d s t)
    (h' : TurnEnds d t x u) : TurnEnds d s x u := by
  refine Ends.mono h' (fun v => Busy.after h) (fun e v => Busy.after h) fun turn v hturn => ?_
  cases turn with
  | more => exact h.trans hturn
  | done msg =>
      rcases hturn with ⟨w, hdeeds, hhand⟩
      exact ⟨w, h.trans hdeeds, hhand⟩

theorem wp_hand {msg : PsrpMessage} (hdeeds : Deeds d s t)
    (h : Handover d msg t (u.note (.handed msg))) : wp (hand msg) (TurnEnds d s) u :=
  wp_recordThen _ (Async.wp_pure ⟨t, hdeeds, h⟩)

/-- What becomes of a message that was taken. -/
theorem wp_handleMessage {msg : PsrpMessage} (htook : Took msg s u) :
    wp (handleMessage d msg) (TurnEnds d s) u := by
  -- A host call is answered, and the read goes on.
  have hcall : isHostCall msg.messageType → wp (do
      handleHostCall d msg
      return Turn.more ()) (TurnEnds d s) u := fun hmt =>
    wp_stopThen (wp_handleHostCall htook hmt)
      (fun x t hx h => by
        cases x with
        | ok a => exact absurd rfl (hx a)
        | err e => exact h.busy
        | cut n => exact h.busy
        | suspended => exact h.busy)
      fun _ t h => Async.wp_pure (.single h)
  -- Other messages are handed out.
  have hplain : ¬ isHostCall msg.messageType → msg.messageType ≠ .encryptedSessionKey →
      msg.messageType ≠ .publicKeyRequest → wp (hand msg) (TurnEnds d s) u :=
    fun hmt hkey hrequest => wp_hand .refl (.plain htook hmt (absurd · hkey) (absurd · hrequest))
  unfold handleMessage
  cases hmt : msg.messageType with
  | runspacePoolHostCall => exact hcall (Or.inl hmt)
  | pipelineHostCall => exact hcall (Or.inr hmt)
  | encryptedSessionKey =>
      refine wp_seq (wp_acceptEncryptedSessionKey htook hmt) (fun t h => h) (fun e t h => h)
        fun _ t h => ?_
      -- A reply nobody waits for is handed out like any message.
      rcases h with ⟨hnone, rfl⟩ | ⟨hdeeds, hsettled⟩
      · refine wp_hand .refl (.plain htook ?_ (fun _ => hnone) fun hrequest => ?_)
        · rw [hmt, isHostCall]
          exact nofun
        · rw [hmt] at hrequest
          cases hrequest
      · exact wp_hand hdeeds (.after hsettled (Or.inl hmt))
  | publicKeyRequest =>
      have hsettled : Settled s := htook.1
      refine wp_stopThen wp_startExchangeUnlessPending ?_ ?_
      · intro x t hx h
        rcases h with ⟨_, hthrough, _⟩ | ⟨hnone, hpub⟩
        · cases x with
          | ok a => exact absurd rfl (hx a)
          | err e => cases hthrough
          | cut n => cases hthrough
          | suspended => cases hthrough
        · -- The request starts an exchange, and is handed out after it.
          have hdeed := Deed.requested htook hmt (Took.pending htook ▸ hnone) hpub
          cases x with
          | ok a => exact absurd rfl (hx a)
          | err e => exact hdeed.busy
          | cut n => exact hdeed.busy
          | suspended => exact hdeed.busy
      · intro _ t h
        rcases h with ⟨hsome, _, rfl⟩ | ⟨hnone, hpub⟩
        · refine wp_hand .refl (.plain htook ?_ (fun hkey => ?_)
            fun _ => Took.pending htook ▸ hsome)
          · rw [hmt, isHostCall]
            exact nofun
          · rw [hmt] at hkey
            cases hkey
        · have hdeed := Deed.requested htook hmt (Took.pending htook ▸ hnone) hpub
          exact wp_hand (.single hdeed) (.after (hpub.settled (htook.settled)) (Or.inr hmt))
  | _ =>
      refine hplain ?_ ?_ ?_
      all_goals rw [hmt]
      all_goals exact nofun

/-- A chunk is read: more in the buffer, or the end. -/
theorem wp_receiveChunk (hsettled : Settled s) (hpending : s.pendingMessages = []) :
    wp (receiveChunk d) (TurnEnds d s) s := by
  unfold receiveChunk
  refine wp_bind (wp_onTransport _ fun x v hran => ?_)
  cases x with
  | err e => exact (Deed.unread (o := .failed e) hsettled nofun rfl hran).busy
  | cut n => exact (Deed.unread (o := .dropped) hsettled nofun rfl hran).busy
  | suspended => exact (Deed.unread (o := .dropped) hsettled nofun rfl hran).busy
  | ok chunk =>
      refine wp_recordThen _ ?_
      refine Async.wp_getThen ?_
      split
      · next hend =>
        rcases hend with ⟨rfl, hidle, hempty⟩
        exact wp_hand .refl (.ended hsettled hran hidle hempty rfl)
      · refine wp_bind (Async.wp_update (fun _ t hfeed => ?_) fun e t hfeed => ?_)
        · exact Async.wp_pure (.single (.fed hsettled hpending hran hfeed))
        · exact (Deed.unfed hsettled hpending hran hfeed).busy

/-- What is left of a turn once whatever was parked is sent. -/
theorem wp_popThen (hsettled : Settled s) : wp (do
    let popped ← Async.update fun s =>
      let (popped, s) := popMessage s
      ((.ok popped : Except PsrpError (Option PsrpMessage)), s)
    match popped with
    | some msg => handleMessage d msg
    | none => receiveChunk d) (TurnEnds d s) s := by
  refine wp_bind (Async.wp_update (fun popped v hpop => ?_) fun e v hpop => (by cases hpop))
  cases hpending : s.pendingMessages with
  | nil =>
      simp only [popMessage, hpending] at hpop
      cases hpop
      exact wp_receiveChunk hsettled hpending
  | cons msg rest =>
      simp only [popMessage, hpending] at hpop
      cases hpop
      exact wp_handleMessage ⟨hsettled, rest, hpending, rfl⟩

theorem wp_readTurn : wp (readTurn d) (TurnEnds d s) s := by
  unfold readTurn
  refine Async.wp_getThen ?_
  -- Whatever is parked is sent first, so that the rest begins settled.
  by_cases hparked : s.deferredHostResponses ≠ [] ∧ s.sessionKey.isSome = true
  · rw [if_pos hparked]
    refine wp_seq wp_flushDeferredHostResponses (fun t h => h) (fun e t h => h)
      fun _ t ⟨hdeeds, hsettled⟩ => ?_
    exact wp_mono (wp_popThen hsettled) fun x v h => h.after hdeeds
  · rw [if_neg hparked]
    refine wp_popThen fun hkey => ?_
    by_contra hne
    exact hparked ⟨hne, hkey⟩

/-- A read is deeds, and at its end a message is handed over or a deed does not
    go through. -/
theorem wp_nextMessage : wp (nextMessage d) (Ends (Busy d s .dropped)
    (fun e => Busy d s (.failed e)) fun msg t => ∃ u, Deeds d s u ∧ Handover d msg u t) s := by
  refine Async.wp_loop (fun _ t => Deeds d s t) .refl (fun _ t h => .idle h) fun _ t h => ?_
  refine wp_mono wp_readTurn fun x v hx => ?_
  have hx := hx.after h
  cases x with
  | ok turn =>
      cases turn with
      | more => exact hx
      | done msg => exact hx
  | err e => exact hx
  | cut n => exact hx
  | suspended => exact hx

end Reading

end RunspacePool

end Psrp

import Psrp.Theory.ClixmlErrors
import Psrp.Theory.Pool.Faults

/-!
# What a Read Fails With

Reading a message fails with an error of the transport, or with one that the
pool makes up for what it cannot decode or send. The two kinds are apart: the
errors that end a pipeline, `stopped` and `cancelled`, are never made up by a
pool, so that one that comes out of a read came from the transport.

## Main definitions

* `IsLocal`: The errors a pool makes up.
* `TransportRaises`: What a transport fails with.

## Theorems

* `nextMessage_raises`: A read fails with nothing else.
-/

namespace Psrp

open Async (Raises Turn)

/-- An error that a pool makes up: something could not be decoded or sent. -/
def IsLocal (e : PsrpError) : Prop :=
  (∃ m, e = .protocol m) ∨ (∃ m, e = .clixml m) ∨ ∃ m, e = .fragment m

theorem isLocal_protocol (m : String) : IsLocal (.protocol m) := Or.inl ⟨m, rfl⟩

theorem IsClixml.isLocal {e : PsrpError} (h : IsClixml e) : IsLocal e := Or.inr (Or.inl h)

/-- A pool does not make up what a loop says when it was cancelled. -/
theorem IsLocal.ne_cancelled {e : PsrpError} (h : IsLocal e) : e ≠ .cancelled := by
  rcases h with ⟨m, rfl⟩ | ⟨m, rfl⟩ | ⟨m, rfl⟩ <;> exact PsrpError.noConfusion

/-- Whatever a transport fails with, while it sends, reads or stops, satisfies
    a predicate. -/
structure TransportRaises {τ : Type} (E : PsrpError → Prop) (transport : PsrpTransport τ) : Prop where
  sendFragment : ∀ bytes, Raises E (transport.sendFragment bytes)
  sendPipelineFragment : ∀ bytes pid, Raises E (transport.sendPipelineFragment bytes pid)
  executePipeline : ∀ bytes pid, Raises E (transport.executePipeline bytes pid)
  recvChunk : Raises E transport.recvChunk
  signalStop : Raises E transport.signalStop

section Decoding

variable {e : PsrpError}

/-- A sequence fails where its first part does, or where what follows does. -/
theorem error_of_bind {α β : Type} {x : Except PsrpError α} {f : α → Except PsrpError β}
    (h : (x >>= f) = .error e) : x = .error e ∨ ∃ a, x = .ok a ∧ f a = .error e := by
  cases x with
  | error e' =>
      cases h
      exact Or.inl rfl
  | ok a => exact Or.inr ⟨a, rfl, h⟩

/-- A destination is the client or the server. -/
theorem destination_raises {v : UInt32} (h : Destination.fromU32 v = .error e) : IsLocal e := by
  unfold Destination.fromU32 at h
  split at h
  · cases h
  · split at h
    · cases h
    · cases h
      exact isLocal_protocol _

/-- Reading a message fails for its length, its header or its text. -/
theorem decode_raises {bytes : Bytes} (h : PsrpMessage.decode bytes = .error e) : IsLocal e := by
  unfold PsrpMessage.decode at h
  simp only at h
  split at h
  · cases h
    exact isLocal_protocol _
  split at h
  · cases h
    exact isLocal_protocol _
  split at h
  · cases h
    exact isLocal_protocol _
  split at h
  · cases h
    exact isLocal_protocol _
  · -- The header is long enough; its fields and the text may still be wrong.
    next dest rest _ _ mt rest' _ _ rpid rest'' _ _ pid body _ =>
    cases hdest : Destination.fromU32 (UInt32.ofNat (ofLe dest)) with
    | error e' =>
        rw [hdest] at h
        cases h
        exact destination_raises hdest
    | ok destination =>
        rw [hdest] at h
        simp only [bind, Except.bind] at h
        split at h
        · cases h
          exact isLocal_protocol _
        · cases h

/-- The first of several messages that fails. -/
theorem decodeAll_raises {payloads : List Bytes}
    (h : payloads.mapM PsrpMessage.decode = .error e) : IsLocal e := by
  induction payloads with
  | nil => cases h
  | cons payload payloads ih =>
      rw [List.mapM_cons] at h
      rcases error_of_bind h with h | ⟨msg, _, h⟩
      · exact decode_raises h
      · rcases error_of_bind h with h | ⟨msgs, _, h⟩
        · exact ih h
        · cases h

/-- A call is malformed in its CLIXML or by what it lacks. -/
theorem decodeHostCall_raises {p : Platform} {data : Text}
    (h : decodeHostCall p data = .error e) : IsLocal e := by
  unfold decodeHostCall at h
  rcases error_of_bind h with h | ⟨parsed, _, h⟩
  · exact (parseClixml_raises h).isLocal
  · split at h
    · cases h
      exact isLocal_protocol _
    · split at h
      · cases h
        exact isLocal_protocol _
      · split at h
        · cases h
          exact isLocal_protocol _
        · cases h
    · cases h
      exact isLocal_protocol _

/-- A key that cannot be unwrapped, or has the wrong length. -/
theorem decryptSessionKey_raises {key : ClientSessionKey} {blob : Bytes}
    (h : key.decryptSessionKey blob = .error e) : IsLocal e := by
  unfold ClientSessionKey.decryptSessionKey at h
  split at h
  · cases h
    exact isLocal_protocol _
  · simp only at h
    split at h
    · cases h
      exact isLocal_protocol _
    · split at h
      · cases h
        exact isLocal_protocol _
      · split at h
        · cases h
        · cases h
          exact isLocal_protocol _

/-- The reply of the key exchange is malformed or holds no key. -/
theorem unwrapSessionKey_raises {p : Platform} {data : Text} {key : ClientSessionKey}
    (h : unwrapSessionKey p data key = .error e) : IsLocal e := by
  unfold unwrapSessionKey at h
  rcases error_of_bind h with h | ⟨parsed, _, h⟩
  · exact (parseClixml_raises h).isLocal
  · simp only at h
    split at h
    · cases h
      exact isLocal_protocol _
    · split at h
      · cases h
        exact isLocal_protocol _
      · rcases error_of_bind h with h | ⟨raw, _, h⟩
        · exact decryptSessionKey_raises h
        · cases h

/-- A stream fails with the fault of a fragment. -/
theorem feed_raises {r : Reassembler} {bytes : Bytes} (h : (r.feed bytes).1 = .error e) :
    IsLocal e := by
  rw [feed_eq_drained] at h
  rcases hdrained : drained { r with buffer := r.buffer ++ bytes } with ⟨x, r'⟩
  rw [hdrained] at h
  cases (show x = .error e from h)
  exact Or.inr (Or.inr (drained_error hdrained))

end Decoding

namespace RunspacePool

variable {τ α : Type} {d : Driver τ} {E : PsrpError → Prop}

section Programs

theorem raises_record (e : PoolEvent) : Raises E (record e : Prog (RunspacePool τ) Unit) :=
  Async.raises_modify _

theorem raises_onTransport {q : Prog τ α} (h : Raises E q) :
    Raises E (onTransport q : Prog (RunspacePool τ) α) := Async.raises_zoom h

theorem raises_failDeferredHostResponses (why : PsrpError) :
    Raises E (failDeferredHostResponses d why) := by
  have hfail : ∀ (message : String) (ps : List DeferredHostResponse),
      Raises E (failEach d message ps) := by
    intro message ps
    induction ps with
    | nil => exact Async.raises_pure _
    | cons p ps ih =>
        refine Async.raises_bind (raises_record _) fun _ => ?_
        exact Async.raises_bind (Async.raises_attempt _) fun _ => ih
  exact Async.raises_bind (Async.raises_update fun s e h => by cases h) fun taken => hfail _ taken

variable (hlocal : ∀ e, IsLocal e → E e)

include hlocal

/-- What a pool makes up it may fail with. -/
theorem raises_protocol (m : String) :
    Raises E (Async.throw (.protocol m) : Prog (RunspacePool τ) α) :=
  Async.raises_throw (hlocal _ (isLocal_protocol m))

/-- There may be no id left. -/
theorem raises_takeFrame (mt : MessageType) (pid : Uuid) (body : Text) :
    Raises E (Async.update (takeFrame mt pid body) : Prog (RunspacePool τ) Frame) := by
  refine Async.raises_update fun s e h => ?_
  unfold takeFrame takeObjectId at h
  by_cases hroom : s.nextObjectId.toNat + 1 < 2 ^ 64
  · simp only [if_pos hroom, reduceCtorEq] at h
  · simp only [if_neg hroom, Except.error.injEq] at h
    rw [← h]
    exact hlocal _ (isLocal_protocol _)

theorem raises_generateClientKey :
    Raises E (generateClientKey : Prog (RunspacePool τ) ClientSessionKey) := by
  refine Async.raises_bind (Async.raises_choose _ _) fun drawn => ?_
  cases drawn with
  | ok key => exact Async.raises_pure key
  | error e => exact Async.raises_bind (raises_record _) fun _ => raises_protocol hlocal _

theorem raises_feedChunk (chunk : Bytes) :
    Raises E (Async.update (feedChunk chunk) : Prog (RunspacePool τ) Unit) := by
  refine Async.raises_update fun s e h => ?_
  unfold feedChunk at h
  rcases hfeed : s.reassembler.feed chunk with ⟨x, r⟩
  rw [hfeed] at h
  -- Either the fragments are refused, or a message they complete.
  cases x with
  | error e' =>
      cases h
      exact hlocal _ (feed_raises (congrArg Prod.fst hfeed))
  | ok completed =>
      simp only at h
      cases hdecode : completed.mapM PsrpMessage.decode with
      | error e' =>
          rw [hdecode] at h
          cases h
          exact hlocal _ (decodeAll_raises hdecode)
      | ok decoded =>
          rw [hdecode] at h
          cases h

variable (htransport : TransportRaises E d.transport)

include htransport

/-- A send fails as the transport does, or for want of an id. -/
theorem raises_sendPsrpMessage (mt : MessageType) (body : Text) :
    Raises E (sendPsrpMessage d mt body) :=
  Async.raises_bind (raises_takeFrame hlocal _ _ _) fun _ =>
    Async.raises_bind (raises_onTransport (htransport.sendFragment _)) fun _ => raises_record _

theorem raises_sendPipelineMessage (mt : MessageType) (pid : Uuid) (body : Text) :
    Raises E (sendPipelineMessage d mt pid body) := by
  refine Async.raises_bind (raises_takeFrame hlocal _ _ _) fun frame => ?_
  by_cases hmt : mt = .createPipeline
  · simp only [if_pos hmt]
    exact Async.raises_bind (raises_onTransport (htransport.executePipeline _ _)) fun _ =>
      raises_record _
  · simp only [if_neg hmt]
    exact Async.raises_bind (raises_onTransport (htransport.sendPipelineFragment _ _)) fun _ =>
      raises_record _

theorem raises_startExchangeUnlessPending : Raises E (startExchangeUnlessPending d) := by
  refine Async.raises_bind Async.raises_get fun s => Async.raises_ite (Async.raises_pure _) ?_
  refine Async.raises_bind (raises_generateClientKey hlocal) fun key => ?_
  exact Async.raises_bind (raises_sendPsrpMessage hlocal htransport _ _) fun _ =>
    Async.raises_modify _

/-- By induction on the answers that are left. -/
theorem raises_flushTurns (key : SessionKey) (n : Nat) : Raises E (flushTurns d key n) := by
  induction n with
  | zero => exact Async.raises_pure _
  | succ n ih =>
      refine Async.raises_bind Async.raises_get fun s => ?_
      cases s.deferredHostResponses with
      | nil => exact Async.raises_pure _
      | cons p ps =>
          refine Async.raises_bind (raises_record _) fun _ => ?_
          refine Async.raises_bind (raises_sendPipelineMessage hlocal htransport _ _ _) fun _ => ?_
          exact Async.raises_bind (Async.raises_modify _) fun _ => ih

theorem raises_flushDeferredHostResponses : Raises E (flushDeferredHostResponses d) := by
  refine Async.raises_bind Async.raises_get fun s => ?_
  cases s.sessionKey with
  | none => exact Async.raises_pure _
  | some key => exact raises_flushTurns hlocal htransport key _

/-- An unusable reply fails the read that took it. -/
theorem raises_acceptEncryptedSessionKey (msg : PsrpMessage) :
    Raises E (acceptEncryptedSessionKey d msg) := by
  refine Async.raises_bind Async.raises_get fun s => ?_
  cases s.pendingClientKey with
  | none => exact Async.raises_pure _
  | some pair =>
      refine Async.raises_bind (Async.raises_modify _) fun _ => ?_
      cases hunwrap : unwrapSessionKey d.platform.toPlatform msg.data pair with
      | error e =>
          refine Async.raises_bind (raises_record _) fun _ => ?_
          refine Async.raises_bind (raises_failDeferredHostResponses e) fun _ => ?_
          exact Async.raises_throw (hlocal _ (unwrapSessionKey_raises hunwrap))
      | ok key =>
          refine Async.raises_bind (Async.raises_modify _) fun _ => ?_
          exact raises_flushDeferredHostResponses hlocal htransport

/-- A call that is malformed fails the read that took it; an error of the host does
    not. -/
theorem raises_handleHostCall (msg : PsrpMessage) : Raises E (handleHostCall d msg) := by
  refine Async.raises_bind (Async.raises_lift fun e h => hlocal _ (decodeHostCall_raises h))
    fun call => ?_
  refine Async.raises_bind (Async.raises_outside _) fun answer => ?_
  refine Async.raises_bind (raises_record _) fun _ => ?_
  cases answer with
  | error e => exact raises_sendPipelineMessage hlocal htransport _ _ _
  | ok value =>
      cases value with
      | none => exact Async.raises_pure _
      | some v =>
          refine Async.raises_ite ?_ (raises_sendPipelineMessage hlocal htransport _ _ _)
          refine Async.raises_bind Async.raises_get fun s => ?_
          cases s.sessionKey with
          | some key => exact raises_sendPipelineMessage hlocal htransport _ _ _
          | none =>
              refine Async.raises_bind ?_ fun _ => Async.raises_modify _
              refine Async.raises_bind Async.raises_get fun s => ?_
              exact Async.raises_ite (Async.raises_pure _)
                (raises_startExchangeUnlessPending hlocal htransport)

/-- What becomes of a message, by its type. -/
theorem raises_handleMessage (msg : PsrpMessage) : Raises E (handleMessage d msg) := by
  have hhand : Raises E (hand msg : Prog (RunspacePool τ) (Turn Unit PsrpMessage)) :=
    Async.raises_bind (raises_record _) fun _ => Async.raises_pure _
  unfold handleMessage
  cases msg.messageType with
  | runspacePoolHostCall | pipelineHostCall =>
      exact Async.raises_bind (raises_handleHostCall hlocal htransport msg) fun _ =>
        Async.raises_pure _
  | encryptedSessionKey =>
      exact Async.raises_bind (raises_acceptEncryptedSessionKey hlocal htransport msg) fun _ => hhand
  | publicKeyRequest =>
      exact Async.raises_bind (raises_startExchangeUnlessPending hlocal htransport) fun _ => hhand
  | _ => exact hhand

/-- The only place where a read of the transport fails. -/
theorem raises_receiveChunk : Raises E (receiveChunk d) := by
  refine Async.raises_bind (raises_onTransport htransport.recvChunk) fun chunk => ?_
  refine Async.raises_bind (raises_record _) fun _ => ?_
  refine Async.raises_bind Async.raises_get fun s => Async.raises_ite ?_ ?_
  · exact Async.raises_bind (raises_record _) fun _ => Async.raises_pure _
  · exact Async.raises_bind (raises_feedChunk hlocal chunk) fun _ => Async.raises_pure _

/-- A read fails with an error of the transport or with one of its own. -/
theorem nextMessage_raises : Raises E (nextMessage d) := by
  refine Async.raises_loop (fun _ => ?_) ()
  -- What a turn does after the flush, if there is one.
  have hrest (pop : RunspacePool τ → Except PsrpError (Option PsrpMessage) × RunspacePool τ)
      (next : Option PsrpMessage → Prog (RunspacePool τ) (Turn Unit PsrpMessage))
      (hpop : ∀ s, ∃ popped, (pop s).1 = .ok popped)
      (hsome : ∀ msg, next (some msg) = handleMessage d msg)
      (hnone : next none = receiveChunk d) : Raises E (Async.update pop >>= next) := by
    refine Async.raises_bind (Async.raises_update fun s e h => ?_) fun popped => ?_
    · rcases hpop s with ⟨popped, heq⟩
      cases heq.symm.trans h
    cases popped with
    | some msg =>
        rw [hsome]
        exact raises_handleMessage hlocal htransport msg
    | none =>
        rw [hnone]
        exact raises_receiveChunk hlocal htransport
  refine Async.raises_bind Async.raises_get fun s => ?_
  by_cases hparked : s.deferredHostResponses ≠ [] ∧ s.sessionKey.isSome = true
  · simp only [if_pos hparked]
    exact Async.raises_bind (raises_flushDeferredHostResponses hlocal htransport) fun _ =>
      hrest _ _ (fun _ => ⟨_, rfl⟩) (fun _ => rfl) rfl
  · simp only [if_neg hparked]
    exact hrest _ _ (fun _ => ⟨_, rfl⟩) (fun _ => rfl) rfl

end Programs

end RunspacePool

end Psrp

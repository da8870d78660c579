import Psrp.Theory.Pool.Ledger

/-!
# The Traces of Deeds

What each deed and each move adds to the history, event by event.

A trace is short: a message that is taken is followed by what is done about it,
and a message that is sent by the note that it went through. Laws that look at
what comes after an event are proved by cases on traces, while those that look
at what came before are in the ledger.

A law says something of every event, of what came before it and of what comes
after (`Throughout`). It is proved of every run by looking at one trace at a
time.

## Main definitions

* `SendTrace`, `PublishTrace`, `RefusalTrace`: The traces of messages to the
  server.
* `Trace`, `MoveTrace`: The traces of deeds and moves.
* `Throughout`: A law about every event of a history.

## Theorems

* `Deed.trace`, `Move.trace`: Every deed and every move leaves its trace.
* `play_throughout`: What holds of every trace holds of every run.
-/

namespace Psrp

namespace RunspacePool

variable {τ : Type} {d : Driver τ} {s t u : RunspacePool τ}

section Traces

/-- A message is given to the transport, and goes through or not. -/
inductive SendTrace (frame : Frame) : Fate → List PoolEvent → Prop
  | through : SendTrace frame .through [.sending frame, .sent frame]
  | stopped (o : Fate) : o ≠ .through → SendTrace frame o [.sending frame]
  | exhausted (e : PsrpError) : SendTrace frame (.failed e) [.exhausted]

/-- A key pair is published, or cannot be. -/
inductive PublishTrace (d : Driver τ) : Fate → List PoolEvent → Prop
  | started (key : ClientSessionKey) (frame : Frame) : frame.msg.messageType = .publicKey →
      frame.msg.data = publicKeyXml d.platform.toPlatform key →
      PublishTrace d .through [.sending frame, .sent frame, .exchange key]
  | stopped (frame : Frame) (o : Fate) (es : List PoolEvent) : o ≠ .through →
      frame.msg.messageType = .publicKey → SendTrace frame o es → PublishTrace d o es
  | keyless (e : PsrpError) : PublishTrace d (.failed e) [.keyless]

/-- Parked answers are refused one after the other. -/
inductive RefusalTrace : List DeferredHostResponse → Fate → List PoolEvent → Prop
  | nil : RefusalTrace [] .through []
  | cons (p : DeferredHostResponse) (ps : List DeferredHostResponse) (frame : Frame) (o o' : Fate)
      (es es' : List PoolEvent) : o ≠ .dropped → frame.msg.messageType = p.responseType →
      SendTrace frame o es → RefusalTrace ps o' es' →
      RefusalTrace (p :: ps) o' (.failing p :: es ++ es')
  | dropped (p : DeferredHostResponse) (ps : List DeferredHostResponse) (frame : Frame)
      (es : List PoolEvent) : frame.msg.messageType = p.responseType → SendTrace frame .dropped es →
      RefusalTrace (p :: ps) .dropped (.failing p :: es)

/-- What a deed adds to the history of a pool. -/
inductive Trace (d : Driver τ) (s : RunspacePool τ) : Fate → List PoolEvent → Prop
  | unread (o : Fate) : o ≠ .through → Trace d s o []
  | chunk (o : Fate) (chunk : Bytes) : o ≠ .dropped → Trace d s o [.chunk chunk]
  | flushed (p : DeferredHostResponse) (ps : List DeferredHostResponse) (key : SessionKey)
      (frame : Frame) (o : Fate) (es : List PoolEvent) : s.deferredHostResponses = p :: ps →
      s.sessionKey = some key → SendTrace frame o es →
      frame.msg.messageType = p.responseType → frame.msg.pid = p.pid →
      frame.msg.data = sealedBody d key p →
      Trace d s o (.flushing p :: es ++ if o = .through then [.flushed p] else [])
  | unheard (msg : PsrpMessage) (o : Fate) : isHostCall msg.messageType → o ≠ .through →
      ((∃ e, o = .failed e ∧ decodeHostCall d.platform.toPlatform msg.data = .error e)
        ∨ o = .dropped) → Trace d s o [.took msg]
  | silent (msg : PsrpMessage) (call : HostCall) : isHostCall msg.messageType →
      decodeHostCall d.platform.toPlatform msg.data = .ok call → writesOnly call = true →
      Trace d s .through [.took msg, .answered msg call (.ok none)]
  | replied (msg : PsrpMessage) (call : HostCall) (answer : Except PsrpError (Option PsValue))
      (body : Text) (frame : Frame) (o : Fate) (es : List PoolEvent) : isHostCall msg.messageType →
      decodeHostCall d.platform.toPlatform msg.data = .ok call →
      Reply d s.sessionKey call answer body →
      frame.msg.messageType = hostResponseType msg.messageType → frame.msg.pid = msg.pid →
      frame.msg.data = body → SendTrace frame o es →
      Trace d s o (.took msg :: .answered msg call answer :: es)
  | parked (msg : PsrpMessage) (call : HostCall) (v : PsValue) : isHostCall msg.messageType →
      decodeHostCall d.platform.toPlatform msg.data = .ok call → containsSecureString v = true →
      s.sessionKey = none → s.pendingClientKey.isSome = true →
      Trace d s .through [.took msg, .answered msg call (.ok (some v)), .parked (parkedFor msg call v)]
  | parkedFirst (msg : PsrpMessage) (call : HostCall) (v : PsValue) (o : Fate)
      (es : List PoolEvent) : isHostCall msg.messageType →
      decodeHostCall d.platform.toPlatform msg.data = .ok call → containsSecureString v = true →
      s.sessionKey = none → s.pendingClientKey = none → PublishTrace d o es →
      Trace d s o (.took msg :: .answered msg call (.ok (some v)) :: es
        ++ if o = .through then [.parked (parkedFor msg call v)] else [])
  | accepted (msg : PsrpMessage) (key : SessionKey) : msg.messageType = .encryptedSessionKey →
      s.pendingClientKey.isSome = true → Trace d s .through [.took msg, .keyed key]
  | refused (msg : PsrpMessage) (e : PsrpError) (o : Fate) (es : List PoolEvent) :
      msg.messageType = .encryptedSessionKey → s.pendingClientKey.isSome = true →
      (o = .failed e ∧ RefusalTrace s.deferredHostResponses .through es
        ∨ o = .dropped ∧ RefusalTrace s.deferredHostResponses .dropped es) →
      Trace d s o (.took msg :: .refused e :: es)
  | requested (msg : PsrpMessage) (o : Fate) (es : List PoolEvent) :
      msg.messageType = .publicKeyRequest → s.pendingClientKey = none → PublishTrace d o es →
      Trace d s o (.took msg :: es)

/-- What a move adds to the history of a pool. -/
inductive MoveTrace (d : Driver τ) (s : RunspacePool τ) : List PoolEvent → Prop
  | deed (o : Fate) (es : List PoolEvent) : o ≠ .dropped → Trace d s o es → MoveTrace d s es
  | handed (msg : PsrpMessage) : ¬ isHostCall msg.messageType →
      (msg.messageType = .encryptedSessionKey → s.pendingClientKey = none) →
      MoveTrace d s [.took msg, .handed msg]
  | after (msg : PsrpMessage) : MoveTrace d s [.handed msg]
  | ended (msg : PsrpMessage) : MoveTrace d s [.chunk [], .handed msg]
  | sent (frame : Frame) (o : Fate) (es : List PoolEvent) :
      isReserved frame.msg.messageType = false → SendTrace frame o es → MoveTrace d s es
  | published (o : Fate) (es : List PoolEvent) : PublishTrace d o es → MoveTrace d s es
  | injected (key : SessionKey) : MoveTrace d s [.injected key]
  | unnoted : MoveTrace d s []
  | remarked (e : PoolEvent) : isRemark e = true → MoveTrace d s [e]
  | interrupted (es : List PoolEvent) : Trace d s .dropped es →
      MoveTrace d s (es ++ [.fired, .dropped])

end Traces

section Deeds

theorem Sends.trace {q : Bytes → Prog τ Unit} {mt : MessageType} {pid : Uuid} {body : Text}
    {o : Fate} (hsend : Sends q mt pid body s o t) :
    ∃ es, t.history = s.history ++ es ∧ SendTrace (frame mt pid body s) o es := by
  cases hsend with
  | through v hroom hran =>
      refine ⟨_, ?_, .through⟩
      exact List.append_assoc ..
  | stopped o x v ho hfate hroom hran => exact ⟨_, rfl, .stopped o ho⟩
  | exhausted e hfull => exact ⟨_, rfl, .exhausted e⟩

theorem Publishes.trace {o : Fate} (hpub : Publishes d s o t) :
    ∃ es, t.history = s.history ++ es ∧ PublishTrace d o es := by
  cases hpub with
  | keyless e => exact ⟨_, rfl, .keyless e⟩
  | stopped key o t ho hsend =>
      rcases hsend.trace with ⟨es, hes, htrace⟩
      exact ⟨es, hes, .stopped _ o es ho rfl htrace⟩
  | started key t hsend =>
      cases hsend with
      | stopped o x v ho hfate hroom hran => exact absurd rfl ho
      | through v hroom hran =>
          refine ⟨_, ?_, .started key
            (frame .publicKey Uuid.nil (publicKeyXml d.platform.toPlatform key) s) rfl rfl⟩
          change ((s.history ++ [_]) ++ [_]) ++ [_] = _
          rw [List.append_assoc, List.append_assoc]
          rfl

theorem FailsEach.trace {message : String} {ps : List DeferredHostResponse} {o : Fate}
    (hfails : FailsEach d message ps o s t) :
    ∃ es, t.history = s.history ++ es ∧ RefusalTrace ps o es := by
  induction hfails with
  | nil s => exact ⟨[], (List.append_nil _).symm, .nil⟩
  -- One is refused, and then the rest, also if the response did not go out.
  | cons hne hsend hrest ih =>
      rename_i s t u p ps o o'
      rcases hsend.trace with ⟨es, hes, htrace⟩
      rcases ih with ⟨es', hes', hrefusal⟩
      refine ⟨_, ?_, .cons p ps _ o o' es es' hne rfl htrace hrefusal⟩
      rw [hes', hes]
      change ((s.history ++ [_]) ++ es) ++ es' = _
      rw [List.append_assoc, List.append_assoc]
      rfl
  | dropped hsend =>
      rename_i s t p ps
      rcases hsend.trace with ⟨es, hes, htrace⟩
      refine ⟨_, ?_, .dropped p ps _ es rfl htrace⟩
      rw [hes]
      change (s.history ++ [_]) ++ es = _
      rw [List.append_assoc]
      rfl

/-- A message was taken, and something followed. -/
theorem Took.append {msg : PsrpMessage} (htook : Took msg s u) {es : List PoolEvent}
    (ht : t.history = u.history ++ es) : t.history = s.history ++ .took msg :: es := by
  rcases htook with ⟨_, rest, _, rfl⟩
  rw [ht]
  change (s.history ++ [_]) ++ es = _
  rw [List.append_assoc]
  rfl

/-- The host answered, and something followed. -/
theorem Took.answered_append {msg : PsrpMessage} {call : HostCall}
    {answer : Except PsrpError (Option PsValue)} (htook : Took msg s u) {es : List PoolEvent}
    (ht : t.history = (u.note (.answered msg call answer)).history ++ es) :
    t.history = s.history ++ .took msg :: .answered msg call answer :: es := by
  refine htook.append ?_
  rw [ht]
  change (u.history ++ [_]) ++ es = _
  rw [List.append_assoc]
  rfl

theorem feedChunk_trace {chunk : Bytes} {v : τ} {r : Except PsrpError Unit}
    (hfeed : feedChunk chunk (RunspacePool.note (.chunk chunk) { s with transport := v }) = (r, t)) :
    t.history = s.history ++ [.chunk chunk] := by
  rcases feedChunk_eq chunk (RunspacePool.note (.chunk chunk) { s with transport := v })
    with ⟨r', pending, hstate⟩
  rw [hfeed] at hstate
  rw [show t = _ from hstate]
  rfl

/-- Every deed leaves its trace. -/
theorem Deed.trace {o : Fate} (hdeed : Deed d o s t) :
    ∃ es, t.history = s.history ++ es ∧ Trace d s o es := by
  -- What is noted of a deed, in the order it is noted.
  cases hdeed with
  | unread hsettled ho hfate hran => exact ⟨[], (List.append_nil _).symm, .unread o ho⟩
  | fed hsettled hpending hran hfeed =>
      rename_i chunk v
      exact ⟨_, feedChunk_trace hfeed, .chunk _ chunk nofun⟩
  | unfed hsettled hpending hran hfeed =>
      rename_i chunk v e
      exact ⟨_, feedChunk_trace hfeed, .chunk _ chunk nofun⟩
  | flushed hparked hkey hsend =>
      rename_i t p ps key
      rcases hsend.trace with ⟨es, hes, htrace⟩
      refine ⟨_, ?_, .flushed p ps key _ .through es hparked hkey htrace rfl rfl rfl⟩
      change t.history ++ [_] = _
      -- A response that went through is noted as flushed after it was sent.
      rw [hes, if_pos rfl]
      change ((s.history ++ [_]) ++ es) ++ [_] = _
      rw [List.append_assoc, List.append_assoc]
      rfl
  | unflushed ho hparked hkey hsend =>
      rename_i p ps key
      rcases hsend.trace with ⟨es, hes, htrace⟩
      refine ⟨_, ?_, .flushed p ps key _ o es hparked hkey htrace rfl rfl rfl⟩
      rw [hes, if_neg ho, List.append_nil]
      change (s.history ++ [_]) ++ es = _
      rw [List.append_assoc]
      rfl
  | undecodable htook hmt hdecode =>
      rename_i msg e
      refine ⟨_, htook.append (List.append_nil _).symm, ?_⟩
      exact .unheard msg _ hmt nofun (Or.inl ⟨e, rfl, hdecode⟩)
  | asking htook hmt =>
      rename_i msg
      refine ⟨_, htook.append (List.append_nil _).symm, ?_⟩
      exact .unheard msg _ hmt nofun (Or.inr rfl)
  | silent htook hmt hdecode hwrites =>
      rename_i u msg call
      exact ⟨_, htook.append rfl, .silent msg call hmt hdecode hwrites⟩
  | replied htook hmt hdecode hwants hreply hsend =>
      rename_i u msg call answer body
      rcases hsend.trace with ⟨es, hes, htrace⟩
      exact ⟨_, htook.answered_append hes,
        .replied msg call answer body _ o es hmt hdecode hreply rfl rfl rfl htrace⟩
  | parked htook hmt hdecode hwants hsecure hkey hpending =>
      rename_i u msg call v
      exact ⟨_, htook.answered_append rfl, .parked msg call v hmt hdecode hsecure hkey hpending⟩
  | parkedFirst htook hmt hdecode hwants hsecure hkey hpending hpub =>
      rename_i w u msg call v
      rcases hpub.trace with ⟨es, hes, htrace⟩
      refine ⟨_, ?_, .parkedFirst msg call v .through es hmt hdecode hsecure hkey hpending htrace⟩
      rw [if_pos rfl]
      refine htook.answered_append ?_
      change w.history ++ [_] = _
      rw [hes, List.append_assoc]
      rfl
  | unparked ho htook hmt hdecode hwants hsecure hkey hpending hpub =>
      rename_i u msg call v
      rcases hpub.trace with ⟨es, hes, htrace⟩
      refine ⟨_, ?_, .parkedFirst msg call v o es hmt hdecode hsecure hkey hpending htrace⟩
      rw [if_neg ho, List.append_nil]
      exact htook.answered_append hes
  | accepted htook hmt hpending hunwrap =>
      rename_i u msg pair key
      exact ⟨_, htook.append rfl, .accepted msg key hmt (hpending ▸ rfl)⟩
  | refused htook hmt hpending hunwrap hfails =>
      rename_i u msg pair e
      rcases hfails.trace with ⟨es, hes, htrace⟩
      refine ⟨.took msg :: .refused e :: es, htook.append ?_,
        .refused msg e _ es hmt (hpending ▸ rfl) (Or.inl ⟨rfl, htrace⟩)⟩
      rw [hes]
      change (u.history ++ [_]) ++ es = _
      rw [List.append_assoc]
      rfl
  | refusing htook hmt hpending hunwrap hfails =>
      rename_i u msg pair e
      rcases hfails.trace with ⟨es, hes, htrace⟩
      refine ⟨.took msg :: .refused e :: es, htook.append ?_,
        .refused msg e _ es hmt (hpending ▸ rfl) (Or.inr ⟨rfl, htrace⟩)⟩
      rw [hes]
      change (u.history ++ [_]) ++ es = _
      rw [List.append_assoc]
      rfl
  | requested htook hmt hpending hpub =>
      rename_i u msg
      rcases hpub.trace with ⟨es, hes, htrace⟩
      exact ⟨_, htook.append hes, .requested msg o es hmt hpending htrace⟩

/-- And so does every move. -/
theorem Move.trace (hmove : Move d s t) : ∃ es, t.history = s.history ++ es ∧ MoveTrace d s es := by
  -- Some moves leave no trace at all.
  have hunnoted : t.history = s.history → ∃ es, t.history = s.history ++ es ∧ MoveTrace d s es :=
    fun heq => ⟨[], heq.trans (List.append_nil _).symm, .unnoted⟩
  cases hmove with
  | deed ho hdeed =>
      rcases hdeed.trace with ⟨es, hes, htrace⟩
      exact ⟨es, hes, .deed _ es ho htrace⟩
  | handed hhand =>
      rename_i msg
      cases hhand with
      | plain htook hcall hkey hrequest => exact ⟨_, htook.append rfl, .handed msg hcall hkey⟩
      | after hsettled hmt => exact ⟨_, rfl, .after msg⟩
      | ended hsettled hran hidle hempty hmsg =>
          refine ⟨_, ?_, .ended msg⟩
          exact List.append_assoc ..
  | sent hmt hq hsend =>
      rcases hsend.trace with ⟨es, hes, htrace⟩
      exact ⟨es, hes, .sent _ _ es hmt htrace⟩
  | published hkey hpending hpub =>
      rcases hpub.trace with ⟨es, hes, htrace⟩
      exact ⟨es, hes, .published _ es htrace⟩
  | injected key => exact ⟨_, rfl, .injected key⟩
  | turned machine closed hrpid => exact hunnoted rfl
  | aside v haside => exact hunnoted rfl
  | remarked e he => exact ⟨_, rfl, .remarked e he⟩
  | interrupted hdeed =>
      rename_i t
      rcases hdeed.trace with ⟨es, hes, htrace⟩
      refine ⟨_, ?_, .interrupted es htrace⟩
      change (t.history ++ [_]) ++ [_] = _
      rw [hes, List.append_assoc, List.append_assoc]
      rfl

end Deeds

section Outgoing

/-- The events of a message to the server. -/
def isOutgoing : PoolEvent → Bool
  | .sending _ | .sent _ | .exhausted | .keyless | .exchange _ | .failing _ => true
  | _ => false

theorem SendTrace.outgoing {f : Frame} {o : Fate} {es : List PoolEvent} (h : SendTrace f o es) :
    ∀ e ∈ es, isOutgoing e = true := by
  intro e he
  cases h with
  | through =>
      rcases List.mem_pair.mp he with rfl | rfl
      · rfl
      · rfl
  | stopped o ho =>
      rw [List.mem_singleton.mp he]
      rfl
  | exhausted e' =>
      rw [List.mem_singleton.mp he]
      rfl

theorem PublishTrace.outgoing {o : Fate} {es : List PoolEvent} (h : PublishTrace d o es) :
    ∀ e ∈ es, isOutgoing e = true := by
  cases h with
  | started key f hmt hdata =>
      intro e he
      simp only [List.mem_cons, List.not_mem_nil, or_false] at he
      rcases he with rfl | rfl | rfl
      · rfl
      · rfl
      · rfl
  | stopped f o es ho hmt hsend => exact hsend.outgoing
  | keyless e' =>
      intro e he
      rw [List.mem_singleton.mp he]
      rfl

theorem RefusalTrace.outgoing {ps : List DeferredHostResponse} {o : Fate} {es : List PoolEvent}
    (h : RefusalTrace ps o es) : ∀ e ∈ es, isOutgoing e = true := by
  induction h with
  | nil => exact fun e he => absurd he List.not_mem_nil
  | cons p ps f o o' es es' ho hmt hsend hrest ih =>
      intro e he
      rcases List.mem_append.mp he with he | he
      · rcases List.mem_cons.mp he with rfl | he
        · rfl
        · exact hsend.outgoing e he
      · exact ih e he
  | dropped p ps f es hmt hsend =>
      intro e he
      rcases List.mem_cons.mp he with rfl | he
      · rfl
      · exact hsend.outgoing e he

end Outgoing

section Laws

/-- What is said of an event, of what came before it and of what comes after,
    holds of every event of a history. -/
def Throughout (P : List PoolEvent → PoolEvent → List PoolEvent → Prop) (h : List PoolEvent) :
    Prop :=
  ∀ before e after, h = before ++ e :: after → P before e after

variable {P : List PoolEvent → PoolEvent → List PoolEvent → Prop}

theorem throughout_nil : Throughout P [] := by
  intro before e after heq
  cases before <;> cases heq

/-- The first event, and the rest with that event before it. -/
theorem Throughout.cons {e : PoolEvent} {es : List PoolEvent} (hfirst : P [] e es)
    (hrest : Throughout (fun before => P (e :: before)) es) : Throughout P (e :: es) := by
  intro before e' after heq
  cases before with
  | nil =>
      rcases List.cons.inj heq with ⟨rfl, rfl⟩
      exact hfirst
  | cons e'' before =>
      rcases List.cons.inj heq with ⟨rfl, rfl⟩
      exact hrest before e' after rfl

/-- A history that grows. What was said of its events is not undone by what
    comes later. -/
theorem Throughout.append {h es : List PoolEvent} (hh : Throughout P h)
    (hlater : ∀ before e after es, P before e after → P before e (after ++ es))
    (hes : Throughout (fun before => P (h ++ before)) es) : Throughout P (h ++ es) := by
  intro before e after heq
  rcases List.append_eq_append_iff.mp heq with ⟨mid, rfl, hmid⟩ | ⟨mid, rfl, hmid⟩
  · exact hes mid e after hmid
  · cases mid with
    | nil =>
        have hlast := hes [] e after hmid.symm
        rw [List.append_nil, List.append_nil] at hlast
        exact hlast
    | cons e' mid =>
        rcases List.cons.inj hmid with ⟨rfl, rfl⟩
        exact hlater before e mid es (hh before e mid rfl)

/-- A law that every trace keeps holds of every run. -/
theorem play_throughout
    (hlater : ∀ before e after es, P before e after → P before e (after ++ es))
    (transport : τ) (machine : RunspacePoolStateMachine) (n : UInt64) (key0 : Option SessionKey)
    (hmove : ∀ (s : RunspacePool τ) es, Ledger d key0 s → MoveTrace d s es →
      Throughout (fun before => P (s.history ++ before)) es)
    (hdropped : ∀ (s : RunspacePool τ) es, Ledger d key0 s → Trace d s .dropped es →
      Throughout (fun before => P (s.history ++ before)) es)
    (calls : List (Async.Call Answer PoolOperation)) :
    Throughout P (Async.play (perform d) calls (attached transport machine n key0)).2.history := by
  have hstart : Ledger d key0 (attached transport machine n key0)
      ∧ Throughout P (attached transport machine n key0).history := by
    exact ⟨ledger_attached d transport machine n key0, throughout_nil⟩
  refine (play_moves (I := fun s => Ledger d key0 s ∧ Throughout P s.history) ?_ ?_ calls
    hstart).2
  · -- One move: what it notes satisfies the law beside what was noted before.
    intro s t hs hmv
    rcases hmv.trace with ⟨es, hes, htrace⟩
    refine ⟨hmv.ledger hs.1, ?_⟩
    rw [hes]
    exact hs.2.append hlater (hmove s es hs.1 htrace)
  · -- A read that is dropped in the middle, likewise.
    intro s t hs hdeed
    rcases hdeed.trace with ⟨es, hes, htrace⟩
    refine ⟨hdeed.ledger hs.1, ?_⟩
    rw [hes]
    exact hs.2.append hlater (hdropped s es hs.1 htrace)

end Laws

end RunspacePool

end Psrp

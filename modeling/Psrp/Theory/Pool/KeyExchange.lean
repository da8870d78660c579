import Psrp.Theory.Pool.Traces

/-!
# The Key Exchange

Of all that may start a key exchange or end one, in any order: one exchange is
in flight at a time, and only the reply that is awaited counts.

A public key is sent by a caller who wants a key, for an answer that needs one,
or because the server asks. All three look at the same slot, and the slot is
filled from the moment the public key went out until a reply is taken or a key
is given from outside. Said of histories, a pair is awaited if its public key
was the last to be sent and nothing has ended the exchange since (`Awaits`);
the ledger makes that the same as the slot.

What a reply does is said in both directions. A key that was accepted, or a
reply that was refused, was awaited; and a reply that is taken is accepted or
refused if one was awaited, and otherwise handed over with nothing done.

That a refused reply is an error of whoever was reading is said of every
operation (`Reports`). Only a read that is dropped reports nothing.

## Main definitions

* `Awaits`: The pair whose reply is awaited, by the history.
* `keyAfter`: The session key, by the history.
* `Reports`: An operation ends with the error of a refused reply.
* `ExchangeLaw`: What holds of the key exchange.

## Theorems

* `awaits_iff`: The slot of the pool is what the history says.
* `wp_perform_reports`: Every operation reports what was refused.
* `single_flight`: The law holds in every run.
-/

namespace Psrp

/-- What ends an exchange. -/
def endsExchange : PoolEvent → Bool
  | .keyed _ | .injected _ | .refused _ => true
  | _ => false

/-- A reply that was used, for a key or in vain. -/
def isUse : PoolEvent → Bool
  | .keyed _ | .refused _ => true
  | _ => false

/-- A public key that was sent. -/
def isPublication : PoolEvent → Bool
  | .sent f => f.msg.messageType = .publicKey
  | _ => false

/-- What starts an exchange or ends one. -/
def isExchange : PoolEvent → Bool
  | .exchange _ => true
  | e => isPublication e || endsExchange e

/-- The pair of the last public key that was sent, as long as nothing has ended
    its exchange. -/
def Awaits {τ : Type} (d : Driver τ) (h : List PoolEvent) (pair : ClientSessionKey) : Prop :=
  ∃ before f after, h = before ++ .sent f :: .exchange pair :: after
    ∧ f.msg.messageType = .publicKey ∧ f.msg.data = publicKeyXml d.platform.toPlatform pair
    ∧ ∀ e ∈ after, isExchange e = false

/-- The key that a pool holds after a history. -/
def keyAfter (key0 : Option SessionKey) (h : List PoolEvent) : Option SessionKey :=
  h.foldl (fun key e => match e with
    | .keyed key | .injected key => some key
    | _ => key) key0

namespace RunspacePool

open Async (wp wp_bind wp_mono andThen Stays Turn Call play)

variable {τ α β γ : Type} {d : Driver τ} {key0 : Option SessionKey} {s t u : RunspacePool τ}
  {h : List PoolEvent}

section Awaiting

theorem keyAfter_eq (key0 : Option SessionKey) (h : List PoolEvent) :
    keyAfter key0 h = (booksOf key0 h).key := by
  induction h using List.reverseRecOn with
  | nil => rfl
  | append_singleton h e ih =>
      rw [booksOf_snoc, keyAfter, List.foldl_append]
      change (match e with
        | .keyed key | .injected key => some key
        | _ => keyAfter key0 h) = _
      rw [ih]
      cases e <;> rfl

/-- What is no step of an exchange leaves it where it is. -/
theorem step_idle {e : PoolEvent} (he : isExchange e = false) (b : Books) :
    (b.step e).pending = b.pending ∧ (b.step e).published = b.published := by
  cases e with
  | sent f =>
      refine ⟨rfl, ?_⟩
      simp only [isExchange, isPublication, endsExchange, Bool.or_false] at he
      rw [Books.step, he, Bool.or_false]
  | exchange pair => cases he
  | keyed key => cases he
  | injected key => cases he
  | refused e => cases he
  | _ => exact ⟨rfl, rfl⟩

/-- A cause does not look ahead. -/
theorem Caused.before {es : List PoolEvent} (hh : Caused d key0 (h ++ es)) : Caused d key0 h := by
  intro before e after heq
  refine hh before e (after ++ es) ?_
  rw [heq, List.append_assoc]
  rfl

/-- A history with a cause for everything, and its last event. -/
theorem Caused.last {e : PoolEvent} (hh : Caused d key0 (h ++ [e])) :
    Caused d key0 h ∧ Cause d key0 h e := ⟨hh.before, hh h e [] rfl⟩

/-- Only a key pair is published as a public key, while no other is. -/
theorem Caused.publishing {f : Frame} (hh : Caused d key0 h) (hmt : f.msg.messageType = .publicKey)
    (hcause : Cause d key0 h (.sending f)) : (booksOf key0 h).published = false := by
  have hother : ∀ mt rpid pid body, f.msg = .toServer mt rpid pid body → mt ≠ .publicKey → False := by
    intro mt rpid pid body hmsg hne
    rw [hmsg] at hmt
    exact hne hmt
  have hparked : ∀ p, p ∈ (booksOf key0 h).parked ∨ p ∈ (booksOf key0 h).failing →
      p.responseType ≠ .publicKey := by
    intro p hp
    rcases List.append_of_mem (mem_parked key0 h p hp) with ⟨before, after, heq⟩
    rcases (hh before _ after heq).1 with ⟨msg, call, v, rfl⟩
    exact hostResponseType_ne msg.messageType
  have hbefore : ∀ e, h.getLast? = some e → ∃ h', h = h' ++ [e] := by
    intro e he
    exact ⟨h.dropLast, (List.dropLast_append_getLast? e he).symm⟩
  cases hcause with
  | published rpid key hidle hmsg => exact hidle
  | replied rpid msg call answer body hlast hreply hmsg =>
      exact (hother _ _ _ _ hmsg (hostResponseType_ne _)).elim
  | flushed rpid p key hlast hkey hmsg =>
      -- What is being sent was parked, so its type is one of a response.
      rcases hbefore _ hlast with ⟨h', rfl⟩
      rcases hh.last.2.1 with ⟨ps, hps⟩
      refine (hother _ _ _ _ hmsg (hparked p (Or.inl ?_))).elim
      rw [booksOf_snoc]
      change p ∈ (booksOf key0 h').parked
      rw [hps]
      exact List.mem_cons_self
  | failed rpid p e hlast hreason hmsg =>
      rcases hbefore _ hlast with ⟨h', rfl⟩
      rcases hh.last.2 with ⟨ps, hps⟩
      have hmem : PoolEvent.parked p ∈ h' :=
        mem_parked key0 h' p (Or.inr (hps ▸ List.mem_cons_self))
      rcases List.append_of_mem hmem with ⟨before, after, rfl⟩
      rcases (hh.last.1 before _ after rfl).1 with ⟨msg, call, v, rfl⟩
      exact (hother _ _ _ _ hmsg (hostResponseType_ne msg.messageType)).elim
  | other hreserved =>
      rw [hmt] at hreserved
      cases hreserved

/-- What is no step of an exchange does not end it either. -/
theorem awaits_idle {pair : ClientSessionKey} {e : PoolEvent} (hh : Awaits d h pair)
    (he : isExchange e = false) : Awaits d (h ++ [e]) pair := by
  rcases hh with ⟨before, f, after, rfl, hmt, hdata, hidle⟩
  refine ⟨before, f, after ++ [e], ?_, hmt, hdata, fun e' he' => ?_⟩
  · rw [List.append_assoc]
    rfl
  · rcases List.mem_append.mp he' with he' | he'
    · exact hidle e' he'
    · rw [List.mem_singleton.mp he']
      exact he

/-- A pair that the books have awaits its reply. -/
theorem awaits_of_pending {pair : ClientSessionKey} (hh : Caused d key0 h)
    (hpending : (booksOf key0 h).pending = some pair) :
    Awaits d h pair ∧ (booksOf key0 h).published = true := by
  -- By induction on the history, one event at a time.
  induction h using List.reverseRecOn with
  | nil => cases hpending
  | append_singleton h e ih =>
      rw [booksOf_snoc] at hpending ⊢
      have hkept := ih hh.last.1
      have hcause := hh.last.2
      by_cases hidle : isExchange e = false
      · rw [(step_idle hidle _).1] at hpending
        rw [(step_idle hidle _).2]
        exact ⟨awaits_idle (hkept hpending).1 hidle, (hkept hpending).2⟩
      · cases e with
        | sent f =>
            -- A second public key would have been sent while a reply was awaited.
            have hmt : f.msg.messageType = .publicKey := by
              by_contra hne
              refine hidle ?_
              simp only [isExchange, isPublication, endsExchange, Bool.or_false]
              exact decide_eq_false hne
            exfalso
            have hpub := (hkept hpending).2
            have hsplit := (List.dropLast_append_getLast? _ hcause).symm
            have hearlier : Caused d key0 (h.dropLast ++ [.sending f]) := hsplit ▸ hh.last.1
            rw [hsplit, booksOf_snoc] at hpub
            have hfree := hearlier.last.1.publishing hmt hearlier.last.2
            exact absurd (hfree.symm.trans hpub) Bool.false_ne_true
        | exchange pair' =>
            rcases hcause with ⟨f, hlast, hmt, hdata⟩
            have hsplit := (List.dropLast_append_getLast? _ hlast).symm
            have hpub : (booksOf key0 h).published = true := by
              rw [hsplit, booksOf_snoc, Books.step, hmt]
              simp only [decide_true, Bool.or_true]
            cases hpending
            refine ⟨⟨h.dropLast, f, [], ?_, hmt, hdata, fun e he => absurd he List.not_mem_nil⟩,
              hpub⟩
            rw [hsplit, List.append_assoc]
            simp only [List.dropLast_concat, List.cons_append, List.nil_append]
        | keyed key => cases hpending
        | injected key => cases hpending
        | refused e => cases hpending
        | _ => exact absurd rfl hidle

theorem pending_of_awaits {pair : ClientSessionKey} (key0 : Option SessionKey)
    (hh : Awaits d h pair) : (booksOf key0 h).pending = some pair := by
  rcases hh with ⟨before, f, after, rfl, hmt, hdata, hidle⟩
  induction after using List.reverseRecOn with
  | nil =>
      have hsplit : before ++ [.sent f, .exchange pair] = (before ++ [.sent f]) ++ [.exchange pair] := by
        rw [List.append_assoc]
        rfl
      rw [hsplit, booksOf_snoc]
      rfl
  | append_singleton after e ih =>
      have hsplit : before ++ .sent f :: .exchange pair :: (after ++ [e])
          = (before ++ .sent f :: .exchange pair :: after) ++ [e] := by
        rw [List.append_assoc]
        rfl
      rw [hsplit, booksOf_snoc, (step_idle (hidle e ?_) _).1]
      · exact ih fun e' he' => hidle e' (List.mem_append_left _ he')
      · exact List.mem_append_right _ (List.mem_singleton.mpr rfl)

/-- The pair that a pool has is the one that its history awaits. -/
theorem awaits_iff (hh : Caused d key0 h) (pair : ClientSessionKey) :
    (booksOf key0 h).pending = some pair ↔ Awaits d h pair :=
  ⟨fun hpending => (awaits_of_pending hh hpending).1, pending_of_awaits key0⟩

/-- As long as nothing ends an exchange, its public key counts as sent. -/
theorem published_until {f : Frame} {before mid : List PoolEvent}
    (hmt : f.msg.messageType = .publicKey) (hmid : ∀ e ∈ mid, endsExchange e = false) :
    (booksOf key0 (before ++ .sent f :: mid)).published = true := by
  induction mid using List.reverseRecOn with
  | nil =>
      rw [booksOf_snoc, Books.step, hmt]
      simp only [decide_true, Bool.or_true]
  | append_singleton mid e ih =>
      have hsplit : before ++ .sent f :: (mid ++ [e]) = (before ++ .sent f :: mid) ++ [e] := by
        rw [List.append_assoc]
        rfl
      have hkept := ih fun e' he' => hmid e' (List.mem_append_left _ he')
      have he : endsExchange e = false := hmid e (List.mem_append_right _ (List.mem_singleton.mpr rfl))
      rw [hsplit, booksOf_snoc]
      cases e with
      | keyed key => cases he
      | injected key => cases he
      | refused e => cases he
      | sent g =>
          rw [Books.step, hkept]
          rfl
      | _ => exact hkept

/-- Between two public keys the exchange of the first one was ended. -/
theorem Caused.ended_between {f g : Frame} {before mid after : List PoolEvent}
    (hh : Caused d key0 (before ++ .sent f :: (mid ++ .sent g :: after)))
    (hf : f.msg.messageType = .publicKey) (hg : g.msg.messageType = .publicKey) :
    ∃ e ∈ mid, endsExchange e = true := by
  by_contra hnone
  push Not at hnone
  have hopen : ∀ e ∈ mid, endsExchange e = false := fun e he => by
    rw [← Bool.not_eq_true]
    exact hnone e he
  -- The second one was given to the transport right before it was sent.
  have hlast : (before ++ .sent f :: mid).getLast? = some (.sending g) := by
    refine hh (before ++ .sent f :: mid) (.sent g) after ?_
    rw [List.append_assoc]
    rfl
  rcases List.eq_nil_or_concat' mid with rfl | ⟨mid', e, rfl⟩
  · rw [List.getLast?_concat] at hlast
    cases hlast
  · have hsplit : before ++ .sent f :: (mid' ++ [e]) = (before ++ .sent f :: mid') ++ [e] := by
      rw [List.append_assoc]
      rfl
    rw [hsplit, List.getLast?_concat, Option.some.injEq] at hlast
    rw [hlast] at hh hopen
    have hregroup : before ++ .sent f :: ((mid' ++ [.sending g]) ++ .sent g :: after)
        = (before ++ .sent f :: mid') ++ .sending g :: .sent g :: after := by
      simp only [List.append_assoc, List.cons_append, List.nil_append]
    rw [hregroup] at hh
    have hfree := hh.before.publishing hg (hh _ (.sending g) _ rfl)
    have hpub : (booksOf key0 (before ++ .sent f :: mid')).published = true :=
      published_until hf fun e he => hopen e (List.mem_append_left _ he)
    exact absurd (hfree.symm.trans hpub) Bool.false_ne_true

end Awaiting

section Replies

/-- What becomes of a reply that is taken. -/
def Answered (d : Driver τ) (before : List PoolEvent) (e : PoolEvent) (after : List PoolEvent) :
    Prop :=
  ∀ msg, e = .took msg → msg.messageType = .encryptedSessionKey →
    (∃ pair use rest, Awaits d before pair ∧ after = use :: rest ∧ isUse use = true)
    ∨ (∀ pair, ¬ Awaits d before pair) ∧ ∃ rest, after = .handed msg :: rest

theorem Answered.later {before after : List PoolEvent} {e : PoolEvent} (es : List PoolEvent)
    (hh : Answered d before e after) : Answered d before e (after ++ es) := by
  intro msg he hmt
  rcases hh msg he hmt with ⟨pair, use, rest, hawaits, rfl, huse⟩ | ⟨hnone, rest, rfl⟩
  · exact Or.inl ⟨pair, use, rest ++ es, hawaits, rfl, huse⟩
  · exact Or.inr ⟨hnone, rest ++ es, rfl⟩

/-- A message that comes in. -/
def isIncoming : PoolEvent → Bool
  | .took _ => true
  | _ => false

theorem outgoing_not_incoming {es : List PoolEvent} (hes : ∀ e ∈ es, isOutgoing e = true) :
    ∀ e ∈ es, isIncoming e = false := by
  intro e he
  have hout := hes e he
  cases e <;> first | rfl | cases hout

/-- A trace without messages that come in. -/
theorem throughout_quiet {es : List PoolEvent} (hes : ∀ e ∈ es, isIncoming e = false) :
    Throughout (fun before => Answered d (h ++ before)) es := by
  rintro before e after rfl msg rfl hmt
  have hin := hes (.took msg) (List.mem_append_right _ List.mem_cons_self)
  cases hin

/-- A trace with one of them, at its beginning. -/
theorem throughout_took {msg : PsrpMessage} {es : List PoolEvent}
    (hfirst : Answered d h (.took msg) es) (hrest : ∀ e ∈ es, isIncoming e = false) :
    Throughout (fun before => Answered d (h ++ before)) (.took msg :: es) := by
  rintro before e' after heq
  cases before with
  | nil =>
      rcases List.cons.inj heq with ⟨rfl, rfl⟩
      rw [List.append_nil]
      exact hfirst
  | cons e'' before =>
      rintro msg rfl hmt
      rcases List.cons.inj heq with ⟨rfl, rfl⟩
      have hin := hrest (.took msg) (List.mem_append_right _ List.mem_cons_self)
      cases hin

/-- A message of another type. -/
theorem answered_other {msg : PsrpMessage} {es : List PoolEvent}
    (hmt : msg.messageType ≠ .encryptedSessionKey) : Answered d h (.took msg) es := by
  rintro msg' heq hreply
  cases heq
  exact absurd hreply hmt

theorem isHostCall_ne {mt : MessageType} (hmt : isHostCall mt) : mt ≠ .encryptedSessionKey := by
  rcases hmt with rfl | rfl
  · exact nofun
  · exact nofun

theorem not_incoming_ite {b : Prop} [Decidable b] {e : PoolEvent} (he : isIncoming e = false) :
    ∀ e' ∈ (if b then [e] else []), isIncoming e' = false := by
  intro e' he'
  by_cases hb : b
  · rw [if_pos hb, List.mem_singleton] at he'
    rw [he', he]
  · rw [if_neg hb] at he'
    exact absurd he' List.not_mem_nil

/-- Whatever a read does, a reply is used or handed over. -/
theorem Trace.answered {o : Fate} {es : List PoolEvent} (htrace : Trace d s o es)
    (hledger : Ledger d key0 s) : Throughout (fun before => Answered d (s.history ++ before)) es := by
  -- A reply that is used was awaited: a key pair is pending, and it went out before.
  have hawaited : ∀ msg use rest, s.pendingClientKey.isSome = true → isUse use = true →
      Answered d s.history (.took msg) (use :: rest) := by
    intro msg use rest hpending huse msg' heq hmt
    rcases Option.isSome_iff_exists.mp hpending with ⟨pair, hpair⟩
    rw [hledger.pending] at hpair
    exact Or.inl ⟨pair, use, rest, (awaits_iff hledger.caused pair).mp hpair, rfl, huse⟩
  -- Only the two steps that use a reply took one; the others took something else, or nothing.
  cases htrace with
  | unread o ho => exact throughout_quiet fun e he => absurd he List.not_mem_nil
  | chunk o chunk ho =>
      refine throughout_quiet fun e he => ?_
      rw [List.mem_singleton.mp he]
      rfl
  | flushed p ps key f o es hparked hkey hsend hmt hpid hdata =>
      refine throughout_quiet ?_
      refine List.forall_mem_cons.mpr ⟨rfl, fun e he => ?_⟩
      rcases List.mem_append.mp he with he | he
      · exact outgoing_not_incoming hsend.outgoing e he
      · exact not_incoming_ite rfl e he
  | unheard msg o hmt ho hwhy =>
      exact throughout_took (answered_other (isHostCall_ne hmt)) fun e he => absurd he List.not_mem_nil
  | silent msg call hmt hdecode hwrites =>
      refine throughout_took (answered_other (isHostCall_ne hmt)) fun e he => ?_
      rw [List.mem_singleton.mp he]
      rfl
  | replied msg call answer body f o es hmt hdecode hreply htype hpid hdata hsend =>
      refine throughout_took (answered_other (isHostCall_ne hmt)) ?_
      exact List.forall_mem_cons.mpr ⟨rfl, outgoing_not_incoming hsend.outgoing⟩
  | parked msg call v hmt hdecode hsecure hkey hpending =>
      refine throughout_took (answered_other (isHostCall_ne hmt)) ?_
      exact List.forall_mem_cons.mpr ⟨rfl, List.forall_mem_singleton.mpr rfl⟩
  | parkedFirst msg call v o es hmt hdecode hsecure hkey hpending hpub =>
      refine throughout_took (answered_other (isHostCall_ne hmt)) ?_
      refine List.forall_mem_cons.mpr ⟨rfl, fun e he => ?_⟩
      rcases List.mem_append.mp he with he | he
      · exact outgoing_not_incoming hpub.outgoing e he
      · exact not_incoming_ite rfl e he
  | accepted msg key hmt hpending =>
      refine throughout_took (hawaited msg _ _ hpending rfl) fun e he => ?_
      rw [List.mem_singleton.mp he]
      rfl
  | refused msg e o es hmt hpending hwhy =>
      refine throughout_took (hawaited msg _ _ hpending rfl) ?_
      refine List.forall_mem_cons.mpr ⟨rfl, outgoing_not_incoming ?_⟩
      exact hwhy.elim (fun h => h.2.outgoing) fun h => h.2.outgoing
  | requested msg o es hmt hpending hpub =>
      refine throughout_took (answered_other ?_) (outgoing_not_incoming hpub.outgoing)
      rw [hmt]
      exact nofun

theorem MoveTrace.answered {es : List PoolEvent} (htrace : MoveTrace d s es)
    (hledger : Ledger d key0 s) : Throughout (fun before => Answered d (s.history ++ before)) es := by
  cases htrace with
  | deed o es ho htrace => exact htrace.answered hledger
  | handed msg hcall hkey =>
      refine throughout_took (fun msg' heq hmt => ?_) fun e he => ?_
      · cases heq
        refine Or.inr ⟨fun pair hawaits => ?_, [], rfl⟩
        have hpair := pending_of_awaits key0 hawaits
        rw [← hledger.pending, hkey hmt] at hpair
        cases hpair
      · rw [List.mem_singleton.mp he]
        rfl
  | after msg =>
      refine throughout_quiet fun e he => ?_
      rw [List.mem_singleton.mp he]
      rfl
  | ended msg =>
      exact throughout_quiet (List.forall_mem_cons.mpr ⟨rfl, List.forall_mem_singleton.mpr rfl⟩)
  | sent f o es hmt hsend => exact throughout_quiet (outgoing_not_incoming hsend.outgoing)
  | published o es hpub => exact throughout_quiet (outgoing_not_incoming hpub.outgoing)
  | injected key =>
      refine throughout_quiet fun e he => ?_
      rw [List.mem_singleton.mp he]
      rfl
  | unnoted => exact throughout_quiet fun e he => absurd he List.not_mem_nil
  | remarked e he =>
      refine throughout_quiet fun e' he' => ?_
      rw [List.mem_singleton.mp he']
      cases e <;> first | rfl | cases he
  | interrupted es htrace =>
      -- What was dropped is followed by the notes of the loop.
      refine (htrace.answered hledger).append (fun _ _ _ es hh => hh.later es) ?_
      intro before e after heq
      rw [← List.append_assoc]
      have hquiet : ∀ e ∈ [PoolEvent.fired, PoolEvent.dropped], isIncoming e = false :=
        List.forall_mem_cons.mpr ⟨rfl, List.forall_mem_singleton.mpr rfl⟩
      exact throughout_quiet hquiet before e after heq

end Replies

section Reports

/-- Only a read that fails or is dropped refuses a reply, and its error is why. -/
theorem Trace.refusal {o : Fate} {es : List PoolEvent} {e : PsrpError} (htrace : Trace d s o es)
    (he : .refused e ∈ es) : o ≠ .through ∧ (o = .failed e ∨ o = .dropped)
      ∧ ∃ msg rest, es = .took msg :: .refused e :: rest ∧ ∀ e ∈ rest, isOutgoing e = true := by
  -- Nothing that goes out is a refusal,
  have houtgoing : ∀ {es : List PoolEvent}, (∀ e ∈ es, isOutgoing e = true) → .refused e ∉ es := by
    intro es hes he
    have hout := hes _ he
    cases hout
  -- and neither is what is noted at the end of such a step.
  have hlast : ∀ {b : Prop} [Decidable b] {e' : PoolEvent}, endsExchange e' = false →
      .refused e ∉ (if b then [e'] else []) := by
    intro b _ e' hne he
    by_cases hb : b
    · rw [if_pos hb, List.mem_singleton] at he
      rw [← he] at hne
      cases hne
    · rw [if_neg hb] at he
      exact List.not_mem_nil he
  cases htrace with
  | unread o ho => exact absurd he List.not_mem_nil
  | chunk o chunk ho | unheard msg o hmt ho hwhy =>
      cases List.mem_singleton.mp he
  | silent msg call hmt hdecode hwrites | accepted msg key hmt hpending
  | parked msg call v hmt hdecode hsecure hkey hpending =>
      simp only [List.mem_cons, reduceCtorEq, List.not_mem_nil, or_self] at he
  | flushed p ps key f o es hparked hkey hsend hmt hpid hdata =>
      simp only [List.cons_append, List.mem_cons, reduceCtorEq, false_or, List.mem_append] at he
      exact (he.elim (houtgoing hsend.outgoing) (hlast rfl)).elim
  | replied msg call answer body f o es hmt hdecode hreply htype hpid hdata hsend =>
      simp only [List.mem_cons, reduceCtorEq, false_or] at he
      exact absurd he (houtgoing hsend.outgoing)
  | parkedFirst msg call v o es hmt hdecode hsecure hkey hpending hpub =>
      simp only [List.cons_append, List.mem_cons, reduceCtorEq, false_or, List.mem_append] at he
      exact (he.elim (houtgoing hpub.outgoing) (hlast rfl)).elim
  | requested msg o es hmt hpending hpub =>
      simp only [List.mem_cons, reduceCtorEq, false_or] at he
      exact absurd he (houtgoing hpub.outgoing)
  | refused msg e' o es hmt hpending hwhy =>
      have hes : ∀ e ∈ es, isOutgoing e = true :=
        hwhy.elim (fun h => h.2.outgoing) fun h => h.2.outgoing
      -- The refusal is the second event, right after the reply was taken.
      have heq : e = e' := by
        rcases List.mem_cons.mp he with he | he
        · cases he
        · rcases List.mem_cons.mp he with he | he
          · cases he
            rfl
          · exact absurd he (houtgoing hes)
      rw [heq]
      rcases hwhy with ⟨rfl, _⟩ | ⟨rfl, _⟩
      · exact ⟨nofun, Or.inl rfl, msg, es, rfl, hes⟩
      · exact ⟨nofun, Or.inr rfl, msg, es, rfl, hes⟩

/-- An end that tells of an error. -/
def Tells (e : PsrpError) : Exit PsrpError α → Prop
  | .ok _ => False
  | .err e' => e' = e
  | .cut _ | .suspended => True

/-- The same of a loop: one that signalled a stop says of a stopped pipeline
    that it was cancelled. -/
def Heard (e : PsrpError) : Exit PsrpError α → Prop
  | .ok _ => False
  | .err e' => e' = e ∨ (e = .stopped ∧ e' = .cancelled)
  | .cut _ | .suspended => True

/-- The same of an error that is a value, and of one that was selected. -/
def TellsResult (e : PsrpError) : Exit PsrpError (Except PsrpError α) → Prop
  | .ok (.error e') => e' = e
  | .ok _ | .err _ => False
  | .cut _ | .suspended => True

def TellsValue (e : PsrpError) : Exit PsrpError (Option (Except PsrpError α)) → Prop
  | .ok (some (.error e')) => e' = e
  | .ok _ | .err _ => False
  | .cut _ | .suspended => True

/-- An operation tells of every reply that was refused, unless it dropped a
    read. -/
def Reports (s : RunspacePool τ) (x : Exit PsrpError α) (t : RunspacePool τ) : Prop :=
  ∃ es, t.history = s.history ++ es ∧ (.dropped ∉ es → ∀ e, .refused e ∈ es → Heard e x)

/-- A program that tells of refused replies. -/
def Reporting (q : Prog (RunspacePool τ) α) : Prop := ∀ s, wp q (Reports s) s

/-- Nothing was refused since a history. -/
def Unrefused (h : List PoolEvent) (t : RunspacePool τ) : Prop :=
  ∃ es, t.history = h ++ es ∧ ∀ e, .refused e ∉ es

/-- A program that refuses nothing, to begin with. -/
def Plain (q : Prog (RunspacePool τ) α) : Prop := ∀ h, Stays (Unrefused h) q

theorem Unrefused.add {es : List PoolEvent} (hs : Unrefused h s) (ht : t.history = s.history ++ es)
    (hes : ∀ e, .refused e ∉ es) : Unrefused h t := by
  rcases hs with ⟨es', hs, hes'⟩
  refine ⟨es' ++ es, ?_, fun e he => ?_⟩
  · rw [ht, hs, List.append_assoc]
  · exact (List.mem_append.mp he).elim (hes' e) (hes e)

theorem plain_record {e : PoolEvent} (he : endsExchange e = false) :
    Plain (record e : Prog (RunspacePool τ) Unit) := by
  refine fun h => Async.stays_modify fun s hs => hs.add rfl fun e' he' => ?_
  rw [← List.mem_singleton.mp he'] at he
  cases he

theorem plain_onTransport (q : Prog τ α) : Plain (onTransport q : Prog (RunspacePool τ) α) :=
  fun _ _ hs => wp_onTransport q fun _ _ _ => hs

theorem plain_turn {f : RunspacePool τ → Except PsrpError α × RunspacePool τ}
    (hf : ∀ s, (f s).2.history = s.history) : Plain (Async.update f) := by
  intro h s hs
  have hkept := hf s
  refine Async.wp_update (fun a t ht => ?_) fun e t ht => ?_
  all_goals
    rw [ht] at hkept
    exact hs.add (hkept.trans (List.append_nil _).symm) fun _ => List.not_mem_nil

theorem Sends.unrefused {q : Bytes → Prog τ Unit} {mt : MessageType} {pid : Uuid} {body : Text}
    {o : Fate} (hsend : Sends q mt pid body s o t) (hs : Unrefused h s) : Unrefused h t := by
  rcases hsend.trace with ⟨es, hes, htrace⟩
  refine hs.add hes fun e he => ?_
  have hout := htrace.outgoing _ he
  cases hout

theorem plain_sendPsrpMessage (mt : MessageType) (body : Text) :
    Plain (sendPsrpMessage d mt body) := by
  intro h s hs
  refine wp_mono (wp_sendPsrpMessage mt body) fun x t hx => ?_
  cases x <;> exact Sends.unrefused hx hs

theorem plain_sendPipelineMessage (mt : MessageType) (pid : Uuid) (body : Text) :
    Plain (sendPipelineMessage d mt pid body) := by
  intro h s hs
  refine wp_mono (wp_sendPipelineMessage mt pid body) fun x t hx => ?_
  cases x <;> exact Sends.unrefused hx hs

theorem plain_signalTransportStop : Plain (signalTransportStop d) := fun h =>
  Async.stays_bind (plain_record rfl h) fun _ =>
    Async.stays_bind (plain_onTransport _ h) fun _ => plain_record rfl h

theorem plain_isCancelled (cancel : CancellationToken) :
    Plain (isCancelled cancel : Prog (RunspacePool τ) Bool) := by
  intro h
  cases cancel with
  | never => exact Async.stays_pure false
  | armed =>
      refine Async.stays_bind Async.stays_alarmed fun fired => ?_
      cases fired with
      | false => exact Async.stays_bind (Async.stays_pure ()) fun _ => Async.stays_pure false
      | true => exact Async.stays_bind (plain_record rfl h) fun _ => Async.stays_pure true

theorem plain_publish : Plain (do
    let key ← generateClientKey
    startExchange d key) := by
  intro h s hs
  refine wp_mono wp_publish fun x t hx => ?_
  have hpub : ∀ o, Publishes d s o t → Unrefused h t := by
    intro o hpub
    rcases hpub.trace with ⟨es, hes, htrace⟩
    refine hs.add hes fun e he => ?_
    have hout := htrace.outgoing _ he
    cases hout
  cases x <;> exact hpub _ hx

theorem plain_execute (actions : List Action) : Plain (execute d actions) := by
  intro h
  induction actions with
  | nil => exact Async.stays_pure ()
  | cons action actions ih => exact Async.stays_bind (plain_sendPsrpMessage _ _ h) fun _ => ih

theorem Plain.reporting {q : Prog (RunspacePool τ) α} (hq : Plain q) : Reporting q := by
  intro s
  refine wp_mono (hq s.history s ⟨[], (List.append_nil _).symm, fun _ => List.not_mem_nil⟩)
    fun x t hx => ?_
  rcases hx with ⟨es, hes, hnone⟩
  exact ⟨es, hes, fun _ e he => absurd he (hnone e)⟩

theorem reporting_pure (a : α) : Reporting (pure a : Prog (RunspacePool τ) α) :=
  Plain.reporting fun _ => Async.stays_pure a

theorem reporting_throw (e : PsrpError) : Reporting (Async.throw e : Prog (RunspacePool τ) α) :=
  Plain.reporting fun _ => Async.stays_throw e

theorem reporting_lift (r : Except PsrpError α) :
    Reporting (Async.lift r : Prog (RunspacePool τ) α) := Plain.reporting fun _ => Async.stays_lift r

/-- What was done before, with nothing refused unless a read was dropped. -/
theorem Reports.after {x : Exit PsrpError β} {es : List PoolEvent}
    (ht : t.history = s.history ++ es) (hes : .dropped ∉ es → ∀ e, .refused e ∉ es)
    (hx : Reports t x u) : Reports s x u := by
  rcases hx with ⟨es', hu, hheard⟩
  refine ⟨es ++ es', ?_, fun hnone e he => ?_⟩
  · rw [hu, ht, List.append_assoc]
  · rcases List.mem_append.mp he with he | he
    · exact absurd he (hes (fun hd => hnone (List.mem_append_left _ hd)) e)
    · exact hheard (fun hd => hnone (List.mem_append_right _ hd)) e he

theorem Reports.ok_after {a : α} {x : Exit PsrpError β} (hs : Reports s (.ok a) t)
    (hx : Reports t x u) : Reports s x u := by
  rcases hs with ⟨es, ht, hes⟩
  exact hx.after ht hes

theorem reporting_bind {q : Prog (RunspacePool τ) α} {f : α → Prog (RunspacePool τ) β}
    (hq : Reporting q) (hf : ∀ a, Reporting (f a)) : Reporting (q >>= f) := by
  intro s
  refine wp_bind (wp_mono (hq s) fun x t hx => ?_)
  cases x with
  | ok a => exact wp_mono (hf a t) fun _ _ hy => hx.ok_after hy
  | err e => exact hx
  | cut n => exact hx
  | suspended => exact hx

theorem reporting_get {f : RunspacePool τ → Prog (RunspacePool τ) β} (hf : ∀ s, Reporting (f s)) :
    Reporting (Async.get >>= f) := fun s => Async.wp_getThen (hf s s)

theorem reporting_ite {b : Prop} [Decidable b] {q r : Prog (RunspacePool τ) α} (hq : Reporting q)
    (hr : Reporting r) : Reporting (if b then q else r) := by
  by_cases hb : b
  · rw [if_pos hb]
    exact hq
  · rw [if_neg hb]
    exact hr

theorem reporting_loop {body : β → Prog (RunspacePool τ) (Turn β γ)} (hbody : ∀ b, Reporting (body b))
    (b : β) : Reporting (Async.loop body b) := by
  intro s
  -- Every turn so far ended well, so nothing was refused.
  refine Async.wp_loop (fun _ t => Reports s (.ok ()) t)
    ⟨[], (List.append_nil _).symm, fun _ _ he => absurd he List.not_mem_nil⟩
    (fun b t ht => ?_) fun b t ht => wp_mono (hbody b t) fun x u hx => ?_
  · rcases ht with ⟨es, hes, hnone⟩
    exact ⟨es, hes, fun _ _ _ => trivial⟩
  · cases x with
    | ok turn => cases turn <;> exact ht.ok_after hx
    | err e => exact ht.ok_after hx
    | cut n => exact ht.ok_after hx
    | suspended => exact ht.ok_after hx

/-- A read tells of the reply it refused. -/
theorem wp_nextMessage_tells : wp (nextMessage d) (fun x t => ∃ es, t.history = s.history ++ es
    ∧ ∀ e, .refused e ∈ es → Tells e x) s := by
  -- A deed that goes through refuses nothing, so only the last one can.
  have hdeeds : ∀ t, Deeds d s t → Unrefused s.history t := by
    intro t h
    induction h with
    | refl => exact ⟨[], (List.append_nil _).symm, fun _ => List.not_mem_nil⟩
    | tail _ hdeed ih =>
        rcases hdeed.trace with ⟨es, hes, htrace⟩
        exact ih.add hes fun e he => absurd rfl (htrace.refusal he).1
  -- The deed that stops the read reports what it refused.
  have hstopped : ∀ (o : Fate) (x : Exit PsrpError PsrpMessage) t, o ≠ .through →
      (∀ e, o = .failed e ∨ o = .dropped → Tells e x) → Busy d s o t →
      ∃ es, t.history = s.history ++ es ∧ ∀ e, .refused e ∈ es → Tells e x := by
    intro o x t ho htells hbusy
    cases hbusy with
    | through h => exact absurd rfl ho
    | idle h =>
        rcases hdeeds t h with ⟨es, hes, hnone⟩
        exact ⟨es, hes, fun e he => absurd he (hnone e)⟩
    | stopped _ h hdeed =>
        rcases hdeeds _ h with ⟨es, hes, hnone⟩
        rcases hdeed.trace with ⟨es', hes', htrace⟩
        refine ⟨es ++ es', by rw [hes', hes, List.append_assoc], fun e he => ?_⟩
        rcases List.mem_append.mp he with he | he
        · exact absurd he (hnone e)
        · exact htells e (htrace.refusal he).2.1
  refine wp_mono wp_nextMessage fun x t hx => ?_
  cases x with
  | ok msg =>
      rcases hx with ⟨u, hdone, hhand⟩
      -- A message was handed on, and nothing was refused on the way.
      have hhanded : Unrefused s.history t := by
        have hu := hdeeds u hdone
        cases hhand with
        | plain htook hcall hkey hrequest =>
            rename_i v
            have ht : (v.note (.handed msg)).history = u.history ++ [.took msg, .handed msg] :=
              htook.append rfl
            refine hu.add ht fun e he => ?_
            simp only [List.mem_cons, reduceCtorEq, List.not_mem_nil, or_self] at he
        | after hsettled hmt =>
            have ht : (u.note (.handed msg)).history = u.history ++ [.handed msg] := rfl
            refine hu.add ht fun e he => ?_
            cases List.mem_singleton.mp he
        | ended hsettled hran hidle hempty hmsg =>
            have ht : u.history ++ [.chunk []] ++ [.handed msg]
                = u.history ++ [.chunk [], .handed msg] := List.append_assoc ..
            refine hu.add ht fun e he => ?_
            simp only [List.mem_cons, reduceCtorEq, List.not_mem_nil, or_self] at he
      rcases hhanded with ⟨es, hes, hnone⟩
      exact ⟨es, hes, fun e he => absurd he (hnone e)⟩
  | err e =>
      refine hstopped (.failed e) _ t nofun (fun e' he => ?_) hx
      rcases he with heq | heq
      · cases heq
        rfl
      · cases heq
  | cut n => exact hstopped .dropped _ t nofun (fun _ _ => trivial) hx
  | suspended => exact hstopped .dropped _ t nofun (fun _ _ => trivial) hx

theorem reporting_nextMessage : Reporting (nextMessage d) := by
  intro s
  refine wp_mono wp_nextMessage_tells fun x t hx => ?_
  rcases hx with ⟨es, hes, htells⟩
  refine ⟨es, hes, fun _ e he => ?_⟩
  have he := htells e he
  cases x with
  | ok msg => exact he
  | err e' => exact Or.inl he
  | cut n => exact he
  | suspended => exact he

/-- A select tells of what was refused, or dropped the read. -/
theorem wp_select_tells (cancel : CancellationToken) :
    wp (unlessCancelled cancel (readMessage d)) (fun x t => ∃ es, t.history = s.history ++ es
      ∧ (.dropped ∉ es → ∀ e, .refused e ∈ es → TellsValue e x)) s := by
  -- A read as a value, its error noted.
  have hread : ∀ s : RunspacePool τ, wp (readMessage d) (fun x t => ∃ es, t.history = s.history ++ es
      ∧ ∀ e, .refused e ∈ es → TellsResult e x) s := by
    intro s
    refine wp_bind (Async.wp_attempt (wp_mono wp_nextMessage_tells fun x t hx => ?_))
    rcases hx with ⟨es, hes, htells⟩
    cases x with
    | ok msg =>
        simp only [andThen]
        exact Async.wp_pure ⟨es, hes, fun e he => (htells e he).elim⟩
    | err e =>
        simp only [andThen]
        refine wp_recordThen _ (Async.wp_pure ?_)
        refine ⟨es ++ [.raised e], ?_, fun e' he' => ?_⟩
        · rw [note, hes, List.append_assoc]
        · rcases List.mem_append.mp he' with he' | he'
          · exact htells e' he'
          · cases List.mem_singleton.mp he'
    | cut n => exact ⟨es, hes, fun _ _ => trivial⟩
    | suspended => exact ⟨es, hes, fun _ _ => trivial⟩
  -- Without a token the select is the read.
  cases cancel with
  | never =>
      refine wp_bind (wp_mono (hread s) fun x t hx => ?_)
      rcases hx with ⟨es, hes, htells⟩
      cases x with
      | ok r =>
          simp only [andThen]
          refine Async.wp_pure ⟨es, hes, fun _ e he => ?_⟩
          cases r with
          | ok msg => exact htells e he
          | error e' => exact htells e he
      | err e => exact ⟨es, hes, fun _ e he => (htells e he).elim⟩
      | cut n => exact ⟨es, hes, fun _ _ _ => trivial⟩
      | suspended => exact ⟨es, hes, fun _ _ _ => trivial⟩
  | armed =>
      -- With one, the token is asked first, which takes nothing.
      have hplain := plain_isCancelled (τ := τ) .armed s.history s
        ⟨[], (List.append_nil _).symm, fun _ => List.not_mem_nil⟩
      refine wp_bind (wp_mono hplain fun x t hx => ?_)
      rcases hx with ⟨es, hes, hnone⟩
      have hbefore : ∀ {x : Exit PsrpError (Option (Except PsrpError PsrpMessage))},
          ∃ es, t.history = s.history ++ es
            ∧ (.dropped ∉ es → ∀ e, .refused e ∈ es → TellsValue e x) :=
        ⟨es, hes, fun _ e he => absurd he (hnone e)⟩
      cases x with
      | err e => exact hbefore
      | cut n => exact hbefore
      | suspended => exact hbefore
      | ok fired =>
          cases fired with
          | true =>
              simp only [andThen, if_true]
              exact Async.wp_pure hbefore
          | false =>
              simp only [andThen, Bool.false_eq_true, if_false]
              refine wp_bind (Async.wp_guarded (wp_mono (hread t) fun x u hx => ?_))
              rcases hx with ⟨es', hes', htells⟩
              have hall : u.history = s.history ++ (es ++ es') := by
                rw [hes', hes, List.append_assoc]
              have hlater : ∀ e, .refused e ∈ es ++ es' → .refused e ∈ es' := fun e he =>
                (List.mem_append.mp he).resolve_left (hnone e)
              cases x with
              | ok r =>
                  simp only [andThen]
                  refine Async.wp_pure ⟨es ++ es', hall, fun _ e he => ?_⟩
                  cases r with
                  | ok msg => exact htells e (hlater e he)
                  | error e' => exact htells e (hlater e he)
              | err e => exact ⟨es ++ es', hall, fun _ e he => (htells e (hlater e he)).elim⟩
              | suspended => exact ⟨es ++ es', hall, fun _ _ _ => trivial⟩
              | cut n =>
                  cases n with
                  | succ n => exact ⟨es ++ es', hall, fun _ _ _ => trivial⟩
                  | zero =>
                      simp only [andThen]
                      -- The token fired, and the read was dropped.
                      refine wp_recordThen _ (wp_recordThen _ (Async.wp_pure ?_))
                      refine ⟨es ++ es' ++ [.fired, .dropped], ?_, fun hnone => ?_⟩
                      · change (u.history ++ [_]) ++ [_] = _
                        rw [hall]
                        simp only [List.append_assoc, List.cons_append, List.nil_append]
                      · refine absurd (List.mem_append_right _ ?_) hnone
                        exact List.mem_cons_of_mem _ (List.mem_singleton.mpr rfl)

theorem reporting_serve (pid rpid : Uuid) (cancel : CancellationToken) (signalled : Bool)
    (result : PipelineResult) : Reporting (serve d pid rpid cancel signalled result) := by
  intro s
  refine wp_bind (wp_mono (wp_select_tells _) fun x t hx => ?_)
  rcases hx with ⟨es, hes, htells⟩
  cases x with
  | err e => exact ⟨es, hes, fun hnone e he => (htells hnone e he).elim⟩
  | cut n => exact ⟨es, hes, fun _ _ _ => trivial⟩
  | suspended => exact ⟨es, hes, fun _ _ _ => trivial⟩
  | ok selected =>
      cases selected with
      | none =>
          have hrest : Reporting (do
              signalTransportStop d
              return Turn.more (true, result) : Prog (RunspacePool τ) (Turn LoopState PipelineResult)) :=
            reporting_bind plain_signalTransportStop.reporting fun _ => reporting_pure _
          exact wp_mono (hrest t) fun y u hy => hy.after hes fun hnone e he => htells hnone e he
      | some r =>
          cases r with
          | ok msg =>
              exact wp_mono (reporting_lift _ t) fun y u hy =>
                hy.after hes fun hnone e he => htells hnone e he
          | error e' =>
              -- The error of the read is thrown, under one of two names.
              change wp (if e' = .stopped ∧ signalled = true then Async.throw .cancelled
                else Async.throw e') _ t
              by_cases hstopped : e' = .stopped ∧ signalled = true
              · rw [if_pos hstopped]
                refine Async.wp_throw ⟨es, hes, fun hnone e he => Or.inr ⟨?_, rfl⟩⟩
                rw [← show e' = e from htells hnone e he, hstopped.1]
              · rw [if_neg hstopped]
                exact Async.wp_throw ⟨es, hes, fun hnone e he => Or.inl (htells hnone e he)⟩

theorem reporting_loopTurn (pid rpid : Uuid) (cancel : CancellationToken) (loop : LoopState) :
    Reporting (loopTurn d pid rpid cancel loop) := by
  rcases loop with ⟨signalled, result⟩
  cases signalled with
  | true => exact reporting_serve pid rpid cancel true result
  | false =>
      rw [loopTurn_unsignalled]
      refine reporting_bind (plain_isCancelled cancel).reporting fun fired => reporting_ite ?_ ?_
      · exact reporting_bind plain_signalTransportStop.reporting fun _ =>
          reporting_serve pid rpid cancel true result
      · exact reporting_serve pid rpid cancel false result

theorem reporting_loops (pid rpid : Uuid) (cancel : CancellationToken) :
    Reporting (drainLoop d pid rpid cancel)
      ∧ Reporting (Async.loop (runTurn d pid rpid cancel) (false, emptyResult)) := by
  constructor
  · refine reporting_loop (fun loop => ?_) _
    rw [drainTurn_eq]
    exact reporting_loopTurn pid rpid cancel loop
  · refine reporting_loop (fun loop => ?_) _
    rw [runTurn_eq]
    exact reporting_loopTurn pid rpid cancel loop

theorem reporting_metadataTurn (out : List CommandMetadata) : Reporting (metadataTurn d out) := by
  refine reporting_bind reporting_nextMessage fun msg => ?_
  cases hmt : msg.messageType with
  | pipelineOutput => exact reporting_bind (reporting_lift _) fun _ => reporting_pure _
  | pipelineState =>
      cases stateFromXml d.platform.toPlatform msg.data with
      | none => exact reporting_pure _
      | some state =>
          exact reporting_ite (reporting_ite (reporting_throw _) (reporting_pure _))
            (reporting_pure _)
  | _ => exact reporting_pure _

theorem reporting_onMessage (msg : PsrpMessage) : Reporting (Async.update (onMessage d msg)) :=
  Plain.reporting (plain_turn fun _ => rfl)

theorem reporting_drainUntilOpened : Reporting (drainUntilOpened d) :=
  reporting_loop (fun _ => reporting_bind reporting_nextMessage fun msg =>
    reporting_bind (reporting_onMessage msg) fun _ => reporting_get fun _ =>
      reporting_ite (reporting_pure _) (reporting_pure _)) ()

theorem reporting_awaitSessionKey : Reporting (awaitSessionKey d) := by
  refine reporting_loop (fun _ => reporting_get fun s => reporting_ite (reporting_pure _) ?_) ()
  refine reporting_bind reporting_nextMessage fun msg => reporting_ite ?_ ?_
  · exact reporting_bind (reporting_onMessage msg) fun _ => reporting_pure _
  · exact reporting_pure _

theorem reporting_requestSessionKey : Reporting (requestSessionKey d) := by
  refine reporting_get fun s => reporting_ite (reporting_pure _) (reporting_ite ?_ ?_)
  · show Reporting (generateClientKey >>= fun key => startExchange d key >>= fun _ =>
      awaitSessionKey d)
    rw [← Async.bind_assoc]
    exact reporting_bind plain_publish.reporting fun _ => reporting_awaitSessionKey
  · exact reporting_awaitSessionKey

theorem reporting_open : Reporting («open» d) :=
  reporting_bind (plain_turn fun _ => rfl).reporting fun actions =>
    reporting_bind (plain_execute actions).reporting fun _ => reporting_drainUntilOpened

theorem reporting_close : Reporting (close d) := by
  refine reporting_get fun s => reporting_ite (reporting_pure _) ?_
  refine reporting_bind (plain_turn fun _ => rfl).reporting fun actions => ?_
  refine reporting_bind (Plain.reporting fun h => Async.stays_attempt (plain_execute actions h))
    fun sent => ?_
  refine reporting_bind (plain_onTransport _).reporting fun _ => ?_
  exact reporting_bind (Plain.reporting fun _ => Async.stays_modify fun _ hs => hs) fun _ =>
    reporting_lift sent

theorem reporting_onPool {q : Prog (RunspacePool τ) α} (hq : Reporting q) (h : PipelineHandle τ) :
    wp (PipelineHandle.onPool q) (fun x h' => Reports h.pool x h'.pool) h :=
  Async.wp_zoom (hq h.pool)

/-- A program of a handle, as one of the pool that it borrows. -/
theorem reporting_borrow {q : Prog (PipelineHandle τ) α}
    (hq : ∀ h, wp q (fun x h' => Reports h.pool x h'.pool) h) (handle : Handle) :
    Reporting (borrow handle q) := fun s =>
  Async.wp_zoom (hq ⟨s, handle.pid, handle.rpid, handle.inputClosed⟩)

theorem reports_endInput (h : PipelineHandle τ) :
    wp (PipelineHandle.endInput d) (fun x h' => Reports h.pool x h'.pool) h := by
  unfold PipelineHandle.endInput
  refine Async.wp_getThen ?_
  by_cases hclosed : h.inputClosed = true
  · rw [if_pos hclosed]
    exact reporting_pure (τ := τ) () h.pool
  · rw [if_neg hclosed]
    refine Async.wp_modifyThen ?_
    exact reporting_onPool (plain_sendPipelineMessage _ _ _).reporting _

theorem reports_writeInput (value : PsValue) (h : PipelineHandle τ) :
    wp (PipelineHandle.writeInput d value) (fun x h' => Reports h.pool x h'.pool) h := by
  unfold PipelineHandle.writeInput
  refine Async.wp_getThen ?_
  by_cases hclosed : h.inputClosed = true
  · rw [if_pos hclosed]
    exact reporting_throw (τ := τ) _ h.pool
  · rw [if_neg hclosed]
    exact reporting_onPool (plain_sendPipelineMessage _ _ _).reporting h

theorem reports_collect (cancel : CancellationToken) (h : PipelineHandle τ) :
    wp (PipelineHandle.collectWithCancel d cancel) (fun x h' => Reports h.pool x h'.pool) h := by
  refine wp_bind (wp_mono (reports_endInput h) fun x h' hx => ?_)
  cases x with
  | ok a =>
      simp only [andThen]
      refine Async.wp_getThen ?_
      exact wp_mono (reporting_onPool (reporting_loops h'.pid h'.rpid cancel).1 h') fun _ _ hy =>
        hx.ok_after hy
  | err e => exact hx
  | cut n => exact hx
  | suspended => exact hx

/-- Every operation reports what was refused. -/
theorem wp_perform_reports (op : PoolOperation) : Reporting (perform d op) := by
  have hunit : ∀ {β : Type} {q : Prog (RunspacePool τ) β}, Reporting q → Reporting (do
      let _ ← q
      return ()) := fun hq => reporting_bind hq fun _ => reporting_pure ()
  cases op with
  | nextMessage => exact hunit reporting_nextMessage
  | «open» => exact reporting_open
  | requestSessionKey => exact reporting_requestSessionKey
  | setSessionKey key =>
      refine Plain.reporting fun h => Async.stays_modify fun s hs => ?_
      have ht : (setSessionKey key s).history = s.history ++ [.injected key] := rfl
      refine hs.add ht fun e he => ?_
      cases List.mem_singleton.mp he
  | runAllStreams self pid cancel =>
      refine hunit (reporting_ite (reporting_throw _) (reporting_get fun s => ?_))
      exact reporting_bind (plain_sendPipelineMessage _ _ _).reporting fun _ =>
        (reporting_loops pid _ cancel).2
  | start self pid =>
      refine hunit (reporting_ite (reporting_throw _) (reporting_get fun s => ?_))
      exact reporting_bind (plain_sendPipelineMessage _ _ _).reporting fun _ => reporting_pure _
  | writeInput h value => exact reporting_borrow (reports_writeInput value) h
  | endInput h => exact reporting_borrow reports_endInput h
  | collect h cancel => exact hunit (reporting_borrow (reports_collect cancel) h)
  | stop h => exact reporting_borrow (reporting_onPool plain_signalTransportStop.reporting) h
  | getCommandMetadata pid patterns commandType =>
      exact hunit (reporting_bind (plain_sendPipelineMessage _ _ _).reporting fun _ =>
        reporting_loop reporting_metadataTurn [])
  | close => exact reporting_close

end Reports

section Law

/-- What holds of the key exchange of a pool that began with a key or without
    one. -/
structure ExchangeLaw (d : Driver τ) (key0 : Option SessionKey) (s : RunspacePool τ) : Prop where
  /-- Between two public keys, the exchange of the first one was ended. -/
  single : ∀ before f mid g after, s.history = before ++ .sent f :: (mid ++ .sent g :: after) →
    f.msg.messageType = .publicKey → g.msg.messageType = .publicKey →
    ∃ e ∈ mid, endsExchange e = true
  /-- The slot is filled while a reply is awaited. -/
  awaited : ∀ pair, s.pendingClientKey = some pair ↔ Awaits d s.history pair
  /-- The key changes when a key is given or a reply accepted, and then only. -/
  key : s.sessionKey = keyAfter key0 s.history
  keyed : ∀ before key after, s.history = before ++ .keyed key :: after →
    ∃ earlier msg pair, before = earlier ++ [.took msg] ∧ msg.messageType = .encryptedSessionKey
      ∧ Awaits d earlier pair ∧ unwrapSessionKey d.platform.toPlatform msg.data pair = .ok key
  /-- A reply that was refused was awaited, and its pair is consumed. -/
  refused : ∀ before e after, s.history = before ++ .refused e :: after →
    (∃ earlier msg pair, before = earlier ++ [.took msg] ∧ msg.messageType = .encryptedSessionKey
      ∧ Awaits d earlier pair ∧ unwrapSessionKey d.platform.toPlatform msg.data pair = .error e)
    ∧ (∀ pair, ¬ Awaits d (before ++ [.refused e]) pair)
    ∧ keyAfter key0 (before ++ [.refused e]) = keyAfter key0 before
  /-- A reply that is taken is used if one was awaited, and otherwise handed over
      with nothing done. -/
  taken : ∀ before msg after, s.history = before ++ .took msg :: after →
    msg.messageType = .encryptedSessionKey →
    (∃ pair use rest, Awaits d before pair ∧ after = use :: rest ∧ isUse use = true)
    ∨ (∀ pair, ¬ Awaits d before pair) ∧ ∃ rest, after = .handed msg :: rest
  /-- Between two replies that were used, another pair was published. -/
  once : ∀ before e mid e' after, s.history = before ++ e :: (mid ++ e' :: after) →
    isUse e = true → isUse e' = true → ∃ pair, .exchange pair ∈ mid

/-- A reply is used while a pair is awaited. -/
theorem Caused.use {before after : List PoolEvent} {e : PoolEvent}
    (hh : Caused d key0 (before ++ e :: after)) (he : isUse e = true) :
    ∃ earlier msg pair, before = earlier ++ [.took msg] ∧ msg.messageType = .encryptedSessionKey
      ∧ Awaits d earlier pair ∧ (∀ key, e = .keyed key →
        unwrapSessionKey d.platform.toPlatform msg.data pair = .ok key)
      ∧ ∀ e', e = .refused e' →
        unwrapSessionKey d.platform.toPlatform msg.data pair = .error e' := by
  have hawaits : ∀ msg pair, before.getLast? = some (.took msg) →
      (booksOf key0 before).pending = some pair →
      before = before.dropLast ++ [.took msg] ∧ Awaits d before.dropLast pair := by
    intro msg pair hlast hpending
    have hsplit := (List.dropLast_append_getLast? _ hlast).symm
    rw [hsplit, booksOf_snoc] at hpending
    refine ⟨hsplit, (awaits_iff ?_ pair).mp hpending⟩
    rw [hsplit] at hh
    exact hh.before.before
  cases e with
  | keyed key =>
      rcases hh before _ after rfl with ⟨msg, pair, hlast, hmt, hpending, hunwrap⟩
      rcases hawaits msg pair hlast hpending with ⟨hsplit, hpair⟩
      refine ⟨before.dropLast, msg, pair, hsplit, hmt, hpair, fun key' heq => ?_, nofun⟩
      cases heq
      exact hunwrap
  | refused e =>
      rcases hh before _ after rfl with ⟨msg, pair, hlast, hmt, hpending, hunwrap⟩
      rcases hawaits msg pair hlast hpending with ⟨hsplit, hpair⟩
      refine ⟨before.dropLast, msg, pair, hsplit, hmt, hpair, nofun, fun e' heq => ?_⟩
      cases heq
      exact hunwrap
  | _ => cases he

/-- A pair that is awaited was published after whatever ended an exchange. -/
theorem exchange_after {pair : ClientSessionKey} {before mid : List PoolEvent} {e : PoolEvent}
    (he : endsExchange e = true) (hawaits : Awaits d (before ++ e :: mid) pair) :
    .exchange pair ∈ mid := by
  rcases hawaits with ⟨first, f, after, heq, hmt, hdata, hidle⟩
  have hexchange : isExchange e = true := by
    cases e with
    | keyed key => rfl
    | injected key => rfl
    | refused e => rfl
    | _ => cases he
  rcases List.append_eq_append_iff.mp heq with ⟨rest, hfirst, hrest⟩ | ⟨rest, hbefore, hrest⟩
  · -- The event is before the public key, so the pair comes after it.
    cases rest with
    | nil =>
        rcases List.cons.inj hrest with ⟨rfl, _⟩
        cases he
    | cons e' rest =>
        rcases List.cons.inj hrest with ⟨_, rfl⟩
        refine List.mem_append_right _ (List.mem_cons_of_mem _ List.mem_cons_self)
  · -- Otherwise it would have ended the exchange.
    exfalso
    match rest, hrest with
    | [], hrest =>
        rcases List.cons.inj hrest with ⟨rfl, _⟩
        cases he
    | [_], hrest =>
        rcases List.cons.inj (List.cons.inj hrest).2 with ⟨rfl, _⟩
        cases he
    | _ :: _ :: rest, hrest =>
        have hafter := (List.cons.inj (List.cons.inj hrest).2).2
        have hfree := hidle e (hafter ▸ List.mem_append_right _ List.mem_cons_self)
        exact absurd (hfree.symm.trans hexchange) Bool.false_ne_true

theorem Ledger.law (hledger : Ledger d key0 s) (htaken : Throughout (Answered d) s.history) :
    ExchangeLaw d key0 s where
  single before f mid g after heq hf hg := (heq ▸ hledger.caused).ended_between hf hg
  awaited pair := by
    rw [hledger.pending]
    exact awaits_iff hledger.caused pair
  key := by rw [keyAfter_eq, hledger.key]
  keyed before key after heq := by
    rcases (heq ▸ hledger.caused).use rfl with ⟨earlier, msg, pair, hsplit, hmt, hpair, hok, _⟩
    exact ⟨earlier, msg, pair, hsplit, hmt, hpair, hok key rfl⟩
  refused before e after heq := by
    refine ⟨?_, fun pair hawaits => ?_, ?_⟩
    · rcases (heq ▸ hledger.caused).use rfl with ⟨earlier, msg, pair, hsplit, hmt, hpair, _, herr⟩
      exact ⟨earlier, msg, pair, hsplit, hmt, hpair, herr e rfl⟩
    · exact List.not_mem_nil (exchange_after rfl hawaits)
    · rw [keyAfter_eq, keyAfter_eq, booksOf_snoc]
      rfl
  taken before msg after heq hmt := htaken before (.took msg) after heq msg rfl hmt
  once before e mid e' after heq he he' := by
    have hregroup : before ++ e :: (mid ++ e' :: after) = (before ++ e :: mid) ++ e' :: after := by
      rw [List.append_assoc, List.cons_append]
    rw [hregroup] at heq
    rcases (heq ▸ hledger.caused).use he' with ⟨earlier, msg, pair, hsplit, _, hpair, _⟩
    have hends : endsExchange e = true := by
      cases e with
      | keyed key => rfl
      | refused e => rfl
      | _ => cases he
    -- The message that was taken is the last of what lies between.
    rcases List.eq_nil_or_concat' mid with rfl | ⟨mid', e'', rfl⟩
    · rcases List.append_inj' hsplit rfl with ⟨_, hlast⟩
      rw [List.singleton_inj.mp hlast] at he
      cases he
    · have hregroup' : before ++ e :: (mid' ++ [e'']) = (before ++ e :: mid') ++ [e''] := by
        rw [List.append_assoc, List.cons_append]
      rw [hregroup'] at hsplit
      rcases List.append_inj' hsplit rfl with ⟨hearlier, _⟩
      rw [← hearlier] at hpair
      exact ⟨pair, List.mem_append_left _ (exchange_after hends hpair)⟩

/-- A reply that nobody awaits is returned, and nothing else is done with it. -/
def Ignored (d : Driver τ) : Prop :=
  ∀ (s : RunspacePool τ) msg rest script turns, Settled s → s.pendingMessages = msg :: rest →
    msg.messageType = .encryptedSessionKey → s.pendingClientKey = none →
    nextMessage d ⟨s, script, turns + 1⟩ = (.ok msg, ⟨{ s with
      pendingMessages := rest, history := s.history ++ [.took msg, .handed msg] }, script, turns + 1⟩)

theorem ignored (d : Driver τ) : Ignored d := by
  intro s msg rest script turns hsettled hbuffer hmt hpending
  have hflush : ¬ (s.deferredHostResponses ≠ [] ∧ s.sessionKey.isSome = true) :=
    fun h => h.1 (hsettled h.2)
  have hturn : readTurn d ⟨s, script, turns + 1⟩ = (.ok (.done msg), ⟨{ s with
      pendingMessages := rest, history := s.history ++ [.took msg, .handed msg] },
      script, turns + 1⟩) := by
    simp only [readTurn, Async.bind_apply, Async.get, if_neg hflush, Async.pure_apply, Async.update,
      popMessage, hbuffer, handleMessage, hmt, acceptEncryptedSessionKey, note, hpending, hand,
      record, Async.modify, List.append_assoc, List.cons_append, List.nil_append]
  rw [nextMessage, Async.loop, Async.turnsOf, Async.bind_apply, hturn]
  rfl

/-- In every run one key exchange is in flight at a time, and only the reply
    that is awaited counts; and every operation reports what was refused. -/
theorem single_flight (d : Driver τ) (transport : τ) (machine : RunspacePoolStateMachine)
    (n : UInt64) (key : Option SessionKey) (calls : List (Call Answer PoolOperation)) :
    ExchangeLaw d key (play (perform d) calls (attached transport machine n key)).2
      ∧ Ignored d ∧ ∀ op s, wp (perform d op) (Reports s) s := by
  refine ⟨(ledger_play d transport machine n key calls).law ?_, ignored d, wp_perform_reports⟩
  exact play_throughout (fun _ _ _ es hh => hh.later es) transport machine n key
    (fun s es hledger htrace => htrace.answered hledger)
    (fun s es hledger htrace => htrace.answered hledger) calls

end Law

end RunspacePool

end Psrp

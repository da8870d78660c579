import Psrp.Theory.Pool.Mock
import Psrp.Theory.Pool.Secrets
import Psrp.Theory.RoundTrip
import Psrp.Theory.SecureLeaves

/-!
# What a Server Reads in a Response

The answers of a host, read on the other side.

A server that holds the session key decodes the body of a response, looks up
the identifiers of the call and opens the `SecureString`s of the value
(`readHostResponse`). What it reads is what the host answered, up to the normal
form every value takes in a document: the value, the text of the error, or,
when the key exchange failed over a value that was parked for it, the text that
says so. It reads this off every response of every run, whether the answer was
sent at once or parked, and whatever key it was sealed under.

## Main definitions

* `HostResponse`: What a response says.
* `readHostResponse`: Reading a response.
* `ReadsAs`: What is read of an answer.

## Theorems

* `host_answers_read`: Every response is read as the answer of the host.
-/

namespace Psrp

open PsValue (relabel norm nest)

/-- What a response to a host call says. -/
structure HostResponse where
  ci : Int64
  mi : Int64
  /-- The text of an error, or the value. -/
  outcome : Except Text PsValue

/-- The text of the error in a response. -/
def messageText : PsValue → Option Text
  | .object e => (PsObject.get e "Message".toList).bind PsValue.asStr
  | _ => none

/-- What stands in a response, the `SecureString`s opened with a key. -/
def outcomeOf (decipher : BlockCipher) (key : Option SessionKey) (obj : PsObject) :
    Option (Except Text PsValue) :=
  match PsObject.get obj "mr".toList with
  | some v => some (.ok (match key with
    | some key => relabel (opened decipher key) v
    | none => v))
  | none => ((PsObject.get obj "me".toList).bind messageText).map .error

/-- Read a response. -/
def readHostResponse (p : Platform) (decipher : BlockCipher) (key : Option SessionKey)
    (data : Text) : Option HostResponse :=
  match parseClixml p data with
  | .ok [.object obj] => do
    let ci ← (PsObject.get obj "ci".toList).bind PsValue.asI64
    let mi ← (PsObject.get obj "mi".toList).bind PsValue.asI64
    let outcome ← outcomeOf decipher key obj
    return { ci, mi, outcome }
  | _ => none

section Bodies

variable {p : Platform} {decipher : BlockCipher} {key : Option SessionKey} {ci mi : Int64}

/-- The body of a value is read back. -/
theorem read_responseBody (hp : p.Lawful) {v : PsValue} (hv : v.Valid)
    (hnest : v.nest < MAX_NESTING_DEPTH) :
    readHostResponse p decipher key (buildHostResponseBody p ci mi v) = some ⟨ci, mi, .ok
      (match key with
        | some key => relabel (opened decipher key) v.norm
        | none => v.norm)⟩ := by
  have hvalid : PsValue.Valid (.object ⟨[("ci".toList, .i64 ci), ("mi".toList, .i64 mi),
      ("mr".toList, v)], [], none⟩) := by
    have hkeyed : ["ci".toList, "mi".toList, "mr".toList].Nodup := by decide
    refine (PsValue.valid_object _).mpr ⟨hkeyed, fun q hq => ?_⟩
    simp only [List.mem_cons, List.not_mem_nil, or_false] at hq
    rcases hq with rfl | rfl | rfl
    · trivial
    · trivial
    · exact hv
  have hdeep : nest (.object ⟨[("ci".toList, .i64 ci), ("mi".toList, .i64 mi),
      ("mr".toList, v)], [], none⟩) ≤ MAX_NESTING_DEPTH := by
    have hkeys : "ci".toList ≠ valueKey ∧ "mi".toList ≠ valueKey ∧ "mr".toList ≠ valueKey := by
      decide
    have hmax : 2 ≤ MAX_NESTING_DEPTH := by decide
    simp only [nest, PsValue.nestValue, PsValue.nestMembers, if_neg hkeys.1, if_neg hkeys.2.1,
      if_neg hkeys.2.2, Option.isSome_none, Bool.false_eq_true, if_false]
    omega
  have hparse : parseClixml p (buildHostResponseBody p ci mi v) = .ok [.object
      ⟨[("ci".toList, .i64 ci), ("mi".toList, .i64 mi), ("mr".toList, v.norm)], [], none⟩] := by
    have hbody := Machine.parseClixml_toClixml hp _ hvalid
    rw [if_pos hdeep] at hbody
    exact hbody
  unfold readHostResponse
  rw [hparse]
  rfl

/-- The body of an error is read back. -/
theorem read_errorBody (hp : p.Lawful) (message : String) :
    readHostResponse p decipher key (buildHostResponseErrorBody p ci mi message)
      = some ⟨ci, mi, .error message.toList⟩ := by
  have hvalid : PsValue.Valid (.object ⟨[("ci".toList, .i64 ci), ("mi".toList, .i64 mi),
      ("me".toList, .object ⟨[("Message".toList, .string message.toList)],
        ["System.Exception".toList], none⟩)], [], none⟩) := by
    have hkeyed : ["ci".toList, "mi".toList, "me".toList].Nodup := by decide
    refine (PsValue.valid_object _).mpr ⟨hkeyed, fun q hq => ?_⟩
    simp only [List.mem_cons, List.not_mem_nil, or_false] at hq
    rcases hq with rfl | rfl | rfl
    · trivial
    · trivial
    · refine (PsValue.valid_object _).mpr ⟨List.nodup_singleton _, fun q hq => ?_⟩
      rw [List.mem_singleton.mp hq]
      trivial
  have hparse : parseClixml p (buildHostResponseErrorBody p ci mi message) = .ok [.object
      ⟨[("ci".toList, .i64 ci), ("mi".toList, .i64 mi),
        ("me".toList, .object ⟨[("Message".toList, .string message.toList)],
          ["System.Exception".toList], none⟩)], [], none⟩] := by
    have hbody := Machine.parseClixml_toClixml hp _ hvalid
    have hdeep : nest (.object ⟨[("ci".toList, .i64 ci), ("mi".toList, .i64 mi),
        ("me".toList, .object ⟨[("Message".toList, .string message.toList)],
          ["System.Exception".toList], none⟩)], [], none⟩) ≤ MAX_NESTING_DEPTH :=
      show 3 ≤ 64 by decide
    rw [if_pos hdeep] at hbody
    exact hbody
  unfold readHostResponse
  rw [hparse]
  rfl

/-- A value without `SecureString`s is read with a key or without one. -/
theorem read_plain (hp : p.Lawful) {v : PsValue} (hv : v.Valid) (hnest : v.nest < MAX_NESTING_DEPTH)
    (hplain : containsSecureString v = false) :
    readHostResponse p decipher key (buildHostResponseBody p ci mi v) = some ⟨ci, mi, .ok v.norm⟩ := by
  rw [read_responseBody hp hv hnest]
  cases key with
  | none => rfl
  | some key =>
      have hsame : relabel (opened decipher key) v.norm = v.norm := by
        rw [← PsValue.norm_relabel, PsValue.relabel_plain v hplain]
      simp only [hsame]

/-- A sealed value is read with the key it was sealed under. -/
theorem read_sealed (hp : p.Lawful) (cipher : CipherPair) {key : SessionKey} {v : PsValue}
    (hv : v.Valid) (hnest : v.nest < MAX_NESTING_DEPTH) :
    readHostResponse p cipher.decipher (some key)
        (buildHostResponseBody p ci mi (encryptSecureStrings cipher.encipher key v))
      = some ⟨ci, mi, .ok v.norm⟩ := by
  have hsealed := PsValue.encryptSecureStrings_eq cipher.encipher key v
  have hvalid : (encryptSecureStrings cipher.encipher key v).Valid := by
    rw [hsealed]
    exact (PsValue.valid_relabel v).mpr hv
  have hdeep : (encryptSecureStrings cipher.encipher key v).nest < MAX_NESTING_DEPTH := by
    rw [hsealed, PsValue.nest_relabel]
    exact hnest
  rw [read_responseBody hp hvalid hdeep]
  simp only [opened_norm]

end Bodies

namespace RunspacePool

open Async (Call play)

variable {τ : Type} {d : Driver τ} {key0 : Option SessionKey} {before after : List PoolEvent}

/-- What a response says of the call it is for, by what was noted right before
    it was sent. -/
inductive Conveys (before : List PoolEvent) (msg : PsrpMessage) (call : HostCall) :
    Except Text PsValue → Prop
  /-- The host has just answered. -/
  | answered (v) : before.getLast? = some (.answered msg call (.ok (some v))) →
      Conveys before msg call (.ok v)
  | rejected (e) : before.getLast? = some (.answered msg call (.error e)) →
      Conveys before msg call (.error e.message.toList)
  /-- The answer was parked, and there is a key now. -/
  | flushed (v) : before.getLast? = some (.flushing (parkedFor msg call v)) →
      .answered msg call (.ok (some v)) ∈ before → Conveys before msg call (.ok v)
  /-- The answer was parked, and the exchange failed. -/
  | refused (v e) : before.getLast? = some (.failing (parkedFor msg call v)) →
      .answered msg call (.ok (some v)) ∈ before → .refused e ∈ before →
      Conveys before msg call (.error (refusal e).toList)

/-- What is conveyed is what the host answered. -/
theorem Conveys.ok {msg : PsrpMessage} {call : HostCall} {v : PsValue}
    (h : Conveys before msg call (.ok v)) : .answered msg call (.ok (some v)) ∈ before := by
  cases h with
  | answered v hlast => exact List.mem_of_getLast? hlast
  | flushed v hlast hanswered => exact hanswered

/-- The call that a response is for, and what is read of the response. -/
structure Read (d : Driver τ) (decipher : BlockCipher) (key : Option SessionKey)
    (before : List PoolEvent) (f : Frame) (msg : PsrpMessage) (call : HostCall)
    (outcome : Except Text PsValue) : Prop where
  isCall : isHostCall msg.messageType
  decoded : decodeHostCall d.platform.toPlatform msg.data = .ok call
  messageType : f.msg.messageType = hostResponseType msg.messageType
  pid : f.msg.pid = msg.pid
  conveys : Conveys before msg call outcome
  /-- A value of the host comes back in its normal form. -/
  reads : (∀ v, outcome = .ok v → v.Valid ∧ v.nest < MAX_NESTING_DEPTH) →
    readHostResponse d.platform.toPlatform decipher key f.msg.data
      = some ⟨call.ci, call.mi, outcome.map norm⟩

/-- What was answered was the answer to a call. -/
theorem Caused.answered {h : List PoolEvent} {msg : PsrpMessage} {call : HostCall}
    {answer : Except PsrpError (Option PsValue)} (hh : Caused d key0 h)
    (hmem : .answered msg call answer ∈ h) :
    isHostCall msg.messageType ∧ decodeHostCall d.platform.toPlatform msg.data = .ok call := by
  rcases List.append_of_mem hmem with ⟨earlier, later, heq⟩
  have hcause := hh earlier _ later heq
  exact ⟨hcause.2.1, hcause.2.2.1⟩

/-- What is parked or being refused is an answer of the host. -/
theorem parked_answered {h : List PoolEvent} {p : DeferredHostResponse}
    (hh : Throughout FromHost h)
    (hp : p ∈ (booksOf key0 h).parked ∨ p ∈ (booksOf key0 h).failing) :
    ∃ msg call v, p = parkedFor msg call v ∧ .answered msg call (.ok (some v)) ∈ h := by
  rcases List.append_of_mem (mem_parked key0 h p hp) with ⟨earlier, later, heq⟩
  rcases hh earlier _ later heq p rfl with ⟨first, msg, call, v, es, hparked, _, hbefore⟩
  refine ⟨msg, call, v, hparked, ?_⟩
  rw [heq, hbefore]
  exact List.mem_append_left _ (List.mem_append_right _ List.mem_cons_self)

/-- A response is read as the answer it was sent for. -/
theorem Caused.read {f : Frame} (hp : d.platform.toPlatform.Lawful) (cipher : CipherPair)
    (hcipher : d.platform.cipher = cipher.encipher)
    (hh : Caused d key0 (before ++ .sending f :: after))
    (hfrom : Throughout FromHost (before ++ .sending f :: after))
    (htype : f.msg.messageType = .runspacePoolHostResponse
      ∨ f.msg.messageType = .pipelineHostResponse) :
    ∃ msg call outcome, Read d cipher.decipher (keyAfter key0 before) before f msg call outcome := by
  have hanswered : ∀ {msg call answer}, .answered msg call answer ∈ before →
      isHostCall msg.messageType ∧ decodeHostCall d.platform.toPlatform msg.data = .ok call :=
    fun hmem => hh.answered (List.mem_append_left _ hmem)
  -- A parked answer is taken from the books right before the last event.
  have hparked : ∀ {e p}, before.getLast? = some e →
      (Cause d key0 before.dropLast e → p ∈ (booksOf key0 before.dropLast).parked
        ∨ p ∈ (booksOf key0 before.dropLast).failing) →
      ∃ msg call v, p = parkedFor msg call v ∧ .answered msg call (.ok (some v)) ∈ before := by
    intro e p hlast htaken
    have hsplit : before ++ .sending f :: after
        = before.dropLast ++ e :: .sending f :: after := by
      calc before ++ .sending f :: after
          = (before.dropLast ++ [e]) ++ .sending f :: after := by
            rw [List.dropLast_append_getLast? e hlast]
        _ = before.dropLast ++ e :: .sending f :: after := List.append_assoc ..
    have hbefore : Throughout FromHost before.dropLast := by
      rintro first e' later hfirst p rfl
      refine hfrom first _ (later ++ e :: .sending f :: after) ?_ p rfl
      rw [hsplit, hfirst, List.append_assoc]
      rfl
    rcases parked_answered hbefore (htaken (hh _ e _ hsplit)) with ⟨msg, call, v, heq, hmem⟩
    exact ⟨msg, call, v, heq, List.dropLast_subset before hmem⟩
  -- Why a response was sent, by the event that caused it.
  cases hh before (.sending f) after rfl with
  | published rpid pair hidle hmsg =>
      rw [hmsg] at htype
      rcases htype with h | h <;> cases h
  | other hreserved =>
      rcases htype with h | h <;> rw [h] at hreserved <;> cases hreserved
  | replied rpid msg call answer body hlast hreply hmsg =>
      have hcall := hanswered (List.mem_of_getLast? hlast)
      have hdata : f.msg.data = body := by
        rw [hmsg]
        rfl
      have hmt : f.msg.messageType = hostResponseType msg.messageType := by
        rw [hmsg]
        rfl
      have hpid : f.msg.pid = msg.pid := by
        rw [hmsg]
        rfl
      -- An answer at once: an error, a plain value, or one sealed under the key held.
      cases hreply with
      | error e =>
          refine ⟨msg, call, _, hcall.1, hcall.2, hmt, hpid, .rejected e hlast, fun _ => ?_⟩
          rw [hdata]
          exact read_errorBody hp e.message
      | plain v hplain =>
          refine ⟨msg, call, _, hcall.1, hcall.2, hmt, hpid, .answered v hlast, fun hv => ?_⟩
          rw [hdata]
          exact read_plain hp (hv v rfl).1 (hv v rfl).2 hplain
      | sealed v key hsecure hheld =>
          refine ⟨msg, call, _, hcall.1, hcall.2, hmt, hpid, .answered v hlast, fun hv => ?_⟩
          rw [hdata, keyAfter_eq, hheld, hcipher]
          exact read_sealed hp cipher (hv v rfl).1 (hv v rfl).2
  | flushed rpid p key hlast hheld hmsg =>
      -- Parked, and sealed when the key came.
      rcases hparked hlast fun hcause => Or.inl (hcause.1.elim fun ps hps => hps ▸ List.mem_cons_self)
        with ⟨msg, call, v, rfl, hmem⟩
      have hcall := hanswered hmem
      have hdata : f.msg.data = sealedBody d key (parkedFor msg call v) := by
        rw [hmsg]
        rfl
      refine ⟨msg, call, .ok v, hcall.1, hcall.2, ?_, ?_, .flushed v hlast hmem, fun hv => ?_⟩
      · rw [hmsg]
        rfl
      · rw [hmsg]
        rfl
      · rw [hdata, keyAfter_eq, hheld, sealedBody, hcipher]
        exact read_sealed hp cipher (hv v rfl).1 (hv v rfl).2
  | failed rpid p e hlast hreason hmsg =>
      -- Parked, and failed when the key was refused.
      rcases hparked hlast fun hcause => Or.inr (hcause.elim fun ps hps => hps ▸ List.mem_cons_self)
        with ⟨msg, call, v, rfl, hmem⟩
      have hcall := hanswered hmem
      have hdata : f.msg.data = refusedBody d (refusal e) (parkedFor msg call v) := by
        rw [hmsg]
        rfl
      refine ⟨msg, call, _, hcall.1, hcall.2, ?_, ?_,
        .refused v e hlast hmem (refused_of_reason hreason), fun _ => ?_⟩
      · rw [hmsg]
        rfl
      · rw [hmsg]
        rfl
      · rw [hdata]
        exact read_errorBody hp (refusal e)

/-- In every run, whatever is dropped, refused or injected in it, a server that
    holds the key of the pool reads in each response to a host call what the
    host answered, with the identifiers of the call and for its pipeline: the
    value in its normal form, the text of the error, or why an answer that was
    parked could not be sent. -/
theorem host_answers_read (d : Driver τ) (hp : d.platform.toPlatform.Lawful) (cipher : CipherPair)
    (hcipher : d.platform.cipher = cipher.encipher) (transport : τ)
    (machine : RunspacePoolStateMachine) (n : UInt64) (key : Option SessionKey)
    (calls : List (Call Answer PoolOperation)) (before after : List PoolEvent) (f : Frame)
    (hhistory : (play (perform d) calls (attached transport machine n key)).2.history
      = before ++ .sending f :: after)
    (htype : f.msg.messageType = .runspacePoolHostResponse
      ∨ f.msg.messageType = .pipelineHostResponse) :
    ∃ msg call outcome, Read d cipher.decipher (keyAfter key before) before f msg call outcome := by
  have hcaused := (ledger_play d transport machine n key calls).caused
  have hfrom : Throughout FromHost (play (perform d) calls (attached transport machine n key)).2.history :=
    play_throughout (fun _ _ _ _ hh => hh) transport machine n key
      (fun _ _ _ htrace => htrace.fromHost) (fun _ _ _ htrace => htrace.fromHost) calls
  rw [hhistory] at hcaused hfrom
  exact hcaused.read hp cipher hcipher hfrom htype

/-- A server asks for a password. -/
def passwordCall : PsrpMessage := hostCallMessage 7 52

/-- A host that knows it. -/
def passwordDriver : Driver MockTransport :=
  { mockDriver with host := { readLineAsSecureString := pure (.ok ['p']) } }

def passwordTransport : MockTransport :=
  { MockTransport.new with inbox := [serverBytes passwordCall] }

/-- A pool that is given a key, and reads. -/
def passwordCalls : List (Call Answer PoolOperation) :=
  [⟨.setSessionKey ⟨Vector.replicate 32 0⟩, [], 0⟩, ⟨.nextMessage, [], 5⟩]

def sendsResponse : PoolEvent → Bool
  | .sending f => f.msg.messageType = .pipelineHostResponse
  | _ => false

def answersOpenly : PoolEvent → Bool
  | .answered _ _ (.ok (some (.secureString _))) => false
  | .answered .. => true
  | _ => false

/-- The server learns the password. -/
theorem host_answers_read_password : ∃ before f after msg call outcome,
    (play (perform passwordDriver) passwordCalls
        (attached passwordTransport freshMachine 1 none)).2.history = before ++ .sending f :: after
      ∧ Read passwordDriver (default : CipherPair).decipher (keyAfter none before) before f msg call
        outcome
      ∧ readHostResponse .basic (default : CipherPair).decipher (keyAfter none before) f.msg.data
        = some ⟨call.ci, call.mi, outcome.map norm⟩ := by
  have hrun : (play (perform passwordDriver) passwordCalls
        (attached passwordTransport freshMachine 1 none)).2.history.any sendsResponse = true
      ∧ (play (perform passwordDriver) passwordCalls
        (attached passwordTransport freshMachine 1 none)).2.history.any answersOpenly = false := by
    decide +kernel
  rcases List.any_eq_true.mp hrun.1 with ⟨e, hmem, he⟩
  cases e with
  | sending f =>
      rcases List.append_of_mem hmem with ⟨before, after, heq⟩
      rcases host_answers_read passwordDriver Platform.basic_lawful default rfl
        passwordTransport freshMachine 1 none passwordCalls before after f heq
        (Or.inr (of_decide_eq_true he)) with ⟨msg, call, outcome, hread⟩
      refine ⟨before, f, after, msg, call, outcome, heq, hread, hread.reads fun v hv => ?_⟩
      have hconveys := hread.conveys
      rw [hv] at hconveys
      have hclosed := (List.any_eq_false.mp hrun.2) _
        (heq ▸ List.mem_append_left _ hconveys.ok)
      cases v with
      | secureString s =>
          have hleaf : nest (.secureString s) = 1 := by simp only [nest]
          rw [hleaf]
          exact ⟨trivial, by decide⟩
      | _ => exact absurd rfl hclosed
  | _ => cases he

end RunspacePool

end Psrp

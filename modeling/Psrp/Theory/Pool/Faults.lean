import Psrp.Theory.Message
import Psrp.Theory.Reassembly
import Psrp.Theory.Pool.Mock
import Psrp.Theory.Pool.Operations

/-!
# Messages before a Fault

Which messages a pool delivers before it reports a fragment that does not fit
or a payload that cannot be read.

A reader that looked at one fragment after the other would deliver every
message that is whole before the first fault, however the bytes were cut
(`survey`). The pool reads chunk by chunk: a chunk is put together as a whole
and read as a whole, and a fault in it takes along what came before it in the
same chunk. So the pool agrees with that reader as long as there is no fault,
and at a fault exactly when the chunk that brings it holds nothing before it.

The invariant is that what was taken out of the buffer and what is in it are
the messages of the stream so far (`Reading`); only a chunk that is read
changes either side (`Deed.reads`).

## Main definitions

* `survey`, `soundMessages`, `faultOf`: The stream, one fragment at a time.
* `chunksOf`, `tookOf`: The chunks that came in, the messages taken.
* `Undisturbed`: A chunk with nothing before its fault.
* `Reading`: How the buffer and the stream fit together.

## Theorems

* `survey_append`: A stream in two parts.
* `Deed.reads`: What a deed does to the buffer.
* `messages_before_fault_iff`: When nothing before a fault is lost.
* `terminal_state_lost`: A terminal state that shares a chunk with a fault.
-/

namespace Psrp

open Reassembler

section Stream

/-- What can be wrong with a stream: a fragment that does not fit, or a payload
    that is no message. -/
inductive Fault where
  | refused (e : PsrpError)
  | unreadable (e : PsrpError)
  deriving DecidableEq

/-- What a reader reports. -/
def Fault.error : Fault → PsrpError
  | refused e => e
  | unreadable e => e

/-- Read a payload, if there is one, before the rest. -/
def readThen : Option Bytes → List PsrpMessage × Option Fault → List PsrpMessage × Option Fault
  | none, rest => rest
  | some payload, rest =>
    match PsrpMessage.decode payload with
    | .error e => ([], some (.unreadable e))
    | .ok msg => (msg :: rest.1, rest.2)

/-- The messages of some fragments before their first fault, and the fault. -/
def survey (r : Reassembler) : List Fragment → List PsrpMessage × Option Fault
  | [] => ([], none)
  | f :: fs =>
    match accept r f with
    | (.error e, _) => ([], some (.refused e))
    | (.ok done, r) => readThen done (survey r fs)

/-- The messages of a stream that are whole before its first fault. -/
def soundMessages (stream : Bytes) : List PsrpMessage :=
  (survey Reassembler.new (wholeFragments stream)).1

/-- The first fault of a stream. -/
def faultOf (stream : Bytes) : Option Fault :=
  (survey Reassembler.new (wholeFragments stream)).2

/-- What is read of some payloads, and what is wrong behind them. -/
def readAll (e : Option PsrpError) : List Bytes → List PsrpMessage × Option Fault
  | [] => ([], e.map .refused)
  | payload :: payloads => readThen (some payload) (readAll e payloads)

theorem readAll_append (e : Option PsrpError) (done : Option Bytes) (payloads : List Bytes) :
    readAll e (done.toList ++ payloads) = readThen done (readAll e payloads) := by
  cases done <;> rfl

/-- Payloads that can be read are read. -/
theorem readAll_ok (e : Option PsrpError) {payloads : List Bytes} {msgs : List PsrpMessage}
    (h : payloads.mapM PsrpMessage.decode = .ok msgs) :
    readAll e payloads = (msgs, e.map .refused) := by
  induction payloads generalizing msgs with
  | nil =>
      cases h
      rfl
  | cons payload payloads ih =>
      rw [List.mapM_cons] at h
      cases hmsg : PsrpMessage.decode payload with
      | error f =>
          rw [hmsg] at h
          cases h
      | ok msg =>
          rw [hmsg] at h
          cases hrest : payloads.mapM PsrpMessage.decode with
          | error f =>
              rw [hrest] at h
              cases h
          | ok rest =>
              rw [hrest] at h
              cases h
              rw [readAll, ih hrest, readThen, hmsg]

theorem mapM_error {α β ε : Type} {f : α → Except ε β} {xs : List α} {e : ε}
    (h : xs.mapM f = .error e) : ∃ x ∈ xs, f x = .error e := by
  induction xs with
  | nil => cases h
  | cons x xs ih =>
      rw [List.mapM_cons] at h
      cases hx : f x with
      | error e' =>
          rw [hx] at h
          cases h
          exact ⟨x, List.mem_cons_self, hx⟩
      | ok y =>
          rw [hx] at h
          cases hrest : xs.mapM f with
          | error e' =>
              rw [hrest] at h
              cases h
              obtain ⟨z, hz, hfz⟩ := ih hrest
              exact ⟨z, List.mem_cons_of_mem x hz, hfz⟩
          | ok ys =>
              rw [hrest] at h
              cases h

theorem mapM_append_ok {α β ε : Type} {f : α → Except ε β} {xs xs' : List α} {ys ys' : List β}
    (h : xs.mapM f = .ok ys) (h' : xs'.mapM f = .ok ys') : (xs ++ xs').mapM f = .ok (ys ++ ys') := by
  rw [List.mapM_append, h, h']
  rfl

/-- The first payload that cannot be read is the fault. -/
theorem readAll_error (e : Option PsrpError) {payloads : List Bytes} {f : PsrpError}
    (h : payloads.mapM PsrpMessage.decode = .error f) :
    (readAll e payloads).2 = some (.unreadable f) := by
  induction payloads with
  | nil => cases h
  | cons payload payloads ih =>
      rw [List.mapM_cons] at h
      rw [readAll, readThen]
      cases hmsg : PsrpMessage.decode payload with
      | error g =>
          rw [hmsg] at h
          cases h
          rfl
      | ok msg =>
          rw [hmsg] at h
          cases hrest : payloads.mapM PsrpMessage.decode with
          | error g =>
              rw [hrest] at h
              cases h
              exact ih hrest
          | ok rest =>
              rw [hrest] at h
              cases h

/-- Nothing looks at the buffer. -/
theorem survey_buffer (r : Reassembler) (b : Bytes) (fs : List Fragment) :
    survey { r with buffer := b } fs = survey r fs := by
  induction fs generalizing r with
  | nil => rfl
  | cons f fs ih =>
      rw [survey, survey, accept_buffer]
      rcases accept r f with ⟨x, r'⟩
      cases x with
      | error e => rfl
      | ok done => simp only [ih r']

/-- One fragment and then the others. -/
theorem survey_cons {r r' : Reassembler} {f : Fragment} {done : Option Bytes}
    (fs : List Fragment) (h : accept r f = (.ok done, r')) :
    survey r (f :: fs) = readThen done (survey r' fs) := by
  rw [survey, h]

/-- Taking all fragments off a buffer shows the same, but all or nothing. -/
theorem survey_drained (r : Reassembler) :
    match drained r with
    | (.ok out, _) => survey r (wholeFragments r.buffer) = readAll none out
    | (.error e, _) => ∃ out, survey r (wholeFragments r.buffer) = readAll (some e) out := by
  -- Every fragment taken off makes the buffer shorter.
  induction hn : r.buffer.length using Nat.strong_induction_on generalizing r with
  | _ n ih =>
      cases hdecode : decodeOne r.buffer with
      | none =>
          rw [wholeFragments_none hdecode, drained_none r hdecode]
          rfl
      | some x =>
          obtain ⟨f, consumed⟩ := x
          have hsome := decodeOne_eq_some hdecode
          have hheader : FRAGMENT_HEADER_LEN = 21 := rfl
          rw [wholeFragments_some hdecode, drained_some r f consumed hdecode, accept_buffer]
          rcases haccept : accept r f with ⟨x, r'⟩
          cases x with
          | error e =>
              refine ⟨[], ?_⟩
              rw [survey, haccept]
              rfl
          | ok done =>
              have hrec := ih (r.buffer.drop consumed).length
                (by rw [List.length_drop]; omega) { r' with buffer := r.buffer.drop consumed } rfl
              rw [survey_cons _ haccept]
              simp only [survey_buffer] at hrec ⊢
              rcases hdrained : drained { r' with buffer := r.buffer.drop consumed } with ⟨y, s⟩
              rw [hdrained] at hrec
              cases y with
              | error e =>
                  obtain ⟨out, hrec⟩ := hrec
                  exact ⟨done.toList ++ out, by rw [hrec, readAll_append]⟩
              | ok out =>
                  simp only [Except.map] at hrec ⊢
                  rw [hrec, readAll_append]

/-- What is drained without a fault comes first, and then what follows it. -/
theorem survey_append {r s : Reassembler} (ext : Bytes) {out : List Bytes}
    {msgs : List PsrpMessage} (h : drained r = (.ok out, s))
    (hread : out.mapM PsrpMessage.decode = .ok msgs) :
    survey r (wholeFragments (r.buffer ++ ext))
      = (msgs ++ (survey s (wholeFragments (s.buffer ++ ext))).1,
        (survey s (wholeFragments (s.buffer ++ ext))).2) := by
  induction hn : r.buffer.length using Nat.strong_induction_on generalizing r out msgs with
  | _ n ih =>
      -- The induction is on what is buffered: a whole fragment is at its front, or none is.
      cases hdecode : decodeOne r.buffer with
      | none =>
          rw [drained_none r hdecode] at h
          obtain ⟨hout, rfl⟩ := Prod.mk.inj h
          cases hout
          cases hread
          rfl
      | some x =>
          obtain ⟨f, consumed⟩ := x
          have hsome := decodeOne_eq_some hdecode
          have hheader : FRAGMENT_HEADER_LEN = 21 := rfl
          have hdrop : (r.buffer ++ ext).drop consumed = r.buffer.drop consumed ++ ext :=
            List.drop_append_of_le_length hsome.2.1
          have hshort : (r.buffer.drop consumed).length < n := by
            rw [List.length_drop]
            omega
          rw [drained_some r f consumed hdecode, accept_buffer] at h
          rw [wholeFragments_some (hsome.2.2 ext), hdrop]
          rcases haccept : accept r f with ⟨x, r'⟩
          rw [haccept] at h
          cases x with
          | error e => cases h
          | ok done =>
              simp only at h
              rcases hdrained : drained { r' with buffer := r.buffer.drop consumed } with ⟨y, s'⟩
              rw [hdrained] at h
              cases y with
              | error e => cases h
              | ok more =>
                  simp only [Except.map, Prod.mk.injEq, Except.ok.injEq] at h
                  obtain ⟨rfl, rfl⟩ := h
                  rw [survey_cons _ haccept]
                  -- The fragment may complete a message, which was read.
                  cases done with
                  | none =>
                      have hrec := ih _ hshort hdrained hread rfl
                      rwa [survey_buffer] at hrec
                  | some payload =>
                      rw [Option.toList_some, List.singleton_append, List.mapM_cons] at hread
                      cases hmsg : PsrpMessage.decode payload with
                      | error e =>
                          rw [hmsg] at hread
                          cases hread
                      | ok msg =>
                          rw [hmsg] at hread
                          cases hrest : more.mapM PsrpMessage.decode with
                          | error e =>
                              rw [hrest] at hread
                              cases hread
                          | ok rest =>
                              rw [hrest] at hread
                              cases hread
                              have hrec := ih _ hshort hdrained hrest rfl
                              rw [survey_buffer] at hrec
                              rw [hrec, readThen, hmsg]
                              rfl

/-- A longer buffer begins with the same fragments. -/
theorem wholeFragments_append (bs ext : Bytes) :
    ∃ more, wholeFragments (bs ++ ext) = wholeFragments bs ++ more := by
  induction hn : bs.length using Nat.strong_induction_on generalizing bs with
  | _ n ih =>
      cases hdecode : decodeOne bs with
      | none => exact ⟨_, by rw [wholeFragments_none hdecode, List.nil_append]⟩
      | some x =>
          obtain ⟨f, consumed⟩ := x
          have hsome := decodeOne_eq_some hdecode
          have hheader : FRAGMENT_HEADER_LEN = 21 := rfl
          obtain ⟨more, hmore⟩ := ih (bs.drop consumed).length (by rw [List.length_drop]; omega)
            (bs.drop consumed) rfl
          refine ⟨more, ?_⟩
          rw [wholeFragments_some (hsome.2.2 ext), List.drop_append_of_le_length hsome.2.1,
            wholeFragments_some hdecode, hmore, List.cons_append]

/-- Nothing behind a fault matters. -/
theorem survey_fault (r : Reassembler) (fs more : List Fragment) {fault : Fault}
    (h : (survey r fs).2 = some fault) : survey r (fs ++ more) = survey r fs := by
  induction fs generalizing r with
  | nil => cases h
  | cons f fs ih =>
      rw [List.cons_append]
      rcases haccept : accept r f with ⟨x, r'⟩
      cases x with
      | error e => rw [survey, survey, haccept]
      | ok done =>
          rw [survey_cons _ haccept] at h
          rw [survey_cons _ haccept, survey_cons _ haccept]
          cases done with
          | none => exact ih r' h
          | some payload =>
              unfold readThen at h ⊢
              cases hmsg : PsrpMessage.decode payload with
              | error e => simp only [hmsg]
              | ok msg =>
                  simp only [hmsg] at h
                  simp only [ih r' h]

/-- A stream that went wrong stays so. -/
theorem faultOf_append {stream : Bytes} {fault : Fault} (ext : Bytes)
    (h : faultOf stream = some fault) : faultOf (stream ++ ext) = some fault := by
  obtain ⟨more, hmore⟩ := wholeFragments_append stream ext
  rw [faultOf, hmore, survey_fault _ _ _ h]
  exact h

section Kinds

theorem add_error {entry : InFlight} {f : Fragment} {e : PsrpError} (h : entry.add f = .error e) :
    ∃ m, e = .fragment m := by
  unfold InFlight.add at h
  by_cases hstart : f.start = true
  · by_cases hstarted : entry.started = true
    · rw [if_pos hstart, if_pos hstarted] at h
      cases h
      exact ⟨_, rfl⟩
    · by_cases hzero : f.fragmentId ≠ 0
      · rw [if_pos hstart, if_neg hstarted, if_pos hzero] at h
        cases h
        exact ⟨_, rfl⟩
      · rw [if_pos hstart, if_neg hstarted, if_neg hzero, pure_bind] at h
        simp only [if_neg hzero] at h
        split_ifs at h
        · cases h
        · cases h
          exact ⟨_, rfl⟩
  · by_cases hstarted : entry.started = true
    · have hnot : ¬ (!entry.started) = true := by rw [hstarted]; decide
      rw [if_neg hstart, if_neg hnot, pure_bind] at h
      simp only at h
      split_ifs at h <;> cases h <;> exact ⟨_, rfl⟩
    · have hnot : (!entry.started) = true := by
        rw [eq_false_of_ne_true hstarted]
        rfl
      rw [if_neg hstart, if_pos hnot] at h
      cases h
      exact ⟨_, rfl⟩

theorem accept_error {r r' : Reassembler} {f : Fragment} {e : PsrpError}
    (h : accept r f = (.error e, r')) : ∃ m, e = .fragment m := by
  unfold accept at h
  simp only at h
  cases hadd : ((IndexMap.get f.objectId r.inFlight).getD InFlight.default).add f with
  | error e' =>
      rw [hadd] at h
      cases h
      exact add_error hadd
  | ok entry =>
      simp only [hadd] at h
      split_ifs at h <;> cases h

theorem drained_error {r s : Reassembler} {e : PsrpError} (h : drained r = (.error e, s)) :
    ∃ m, e = .fragment m := by
  induction hn : r.buffer.length using Nat.strong_induction_on generalizing r with
  | _ n ih =>
      cases hdecode : decodeOne r.buffer with
      | none =>
          rw [drained_none r hdecode] at h
          cases h
      | some x =>
          obtain ⟨f, consumed⟩ := x
          have hsome := decodeOne_eq_some hdecode
          have hheader : FRAGMENT_HEADER_LEN = 21 := rfl
          rw [drained_some r f consumed hdecode, accept_buffer] at h
          rcases haccept : accept r f with ⟨x, r'⟩
          rw [haccept] at h
          cases x with
          | error e' =>
              cases h
              exact accept_error haccept
          | ok done =>
              simp only at h
              rcases hdrained : drained { r' with buffer := r.buffer.drop consumed } with ⟨y, s'⟩
              rw [hdrained] at h
              cases y with
              | ok out => cases h
              | error e' =>
                  cases h
                  exact ih (r.buffer.drop consumed).length (by rw [List.length_drop]; omega)
                    hdrained rfl

end Kinds

end Stream

/-- The chunks that came in. -/
def chunksOf (h : List PoolEvent) : List Bytes :=
  h.filterMap fun e => match e with
    | .chunk bytes => some bytes
    | _ => none

/-- The messages that were taken, to be handled or delivered. -/
def tookOf (h : List PoolEvent) : List PsrpMessage :=
  h.filterMap fun e => match e with
    | .took msg => some msg
    | _ => none

/-- The chunk that brings a fault completes no message before it, and a payload
    that cannot be read shares the stream with no fragment that does not
    fit. -/
def Undisturbed (chunks : List Bytes) : Prop :=
  soundMessages chunks.flatten = soundMessages chunks.dropLast.flatten
  ∧ ∀ e, faultOf chunks.flatten = some (.unreadable e) →
    ∀ pre f post, wholeFragments chunks.flatten = pre ++ f :: post → ¬ Refused pre f

namespace RunspacePool

open Async (wp wp_mono Ends Call play)

variable {τ : Type} {d : Driver τ} {s t u : RunspacePool τ}

/-- What came in so far. -/
def streamOf (s : RunspacePool τ) : Bytes := (chunksOf s.history).flatten

theorem chunksOf_snoc (h : List PoolEvent) (e : PoolEvent) :
    chunksOf (h ++ [e]) = chunksOf h ++ chunksOf [e] := List.filterMap_append ..

theorem tookOf_snoc (h : List PoolEvent) (e : PoolEvent) :
    tookOf (h ++ [e]) = tookOf h ++ tookOf [e] := List.filterMap_append ..

/-- No chunk came in, and messages were only taken out of the buffer. -/
structure Still (s t : RunspacePool τ) : Prop where
  chunks : chunksOf t.history = chunksOf s.history
  reassembler : t.reassembler = s.reassembler
  messages : tookOf t.history ++ t.pendingMessages = tookOf s.history ++ s.pendingMessages
  suffix : t.pendingMessages <:+ s.pendingMessages

section Steps

theorem Still.refl (s : RunspacePool τ) : Still s s := ⟨rfl, rfl, rfl, List.suffix_rfl⟩

/-- What looks neither at the buffer nor at the history changes nothing. -/
theorem Still.congr (h : Still s t) (hhistory : u.history = t.history)
    (hreassembler : u.reassembler = t.reassembler)
    (hpending : u.pendingMessages = t.pendingMessages) : Still s u where
  chunks := by rw [hhistory]; exact h.chunks
  reassembler := hreassembler.trans h.reassembler
  messages := by rw [hhistory, hpending]; exact h.messages
  suffix := by rw [hpending]; exact h.suffix

theorem Still.note (h : Still s t) {e : PoolEvent} (hchunk : chunksOf [e] = [])
    (htook : tookOf [e] = []) : Still s (t.note e) where
  chunks := by
    rw [RunspacePool.note, chunksOf_snoc, hchunk, List.append_nil]
    exact h.chunks
  reassembler := h.reassembler
  messages := by
    rw [RunspacePool.note, tookOf_snoc, htook, List.append_nil]
    exact h.messages
  suffix := h.suffix

theorem Sends.still {q : Bytes → Prog τ Unit} {mt : MessageType} {pid : Uuid} {body : Text}
    {o : Fate} (hsend : Sends q mt pid body s o t) (h : Still u s) : Still u t := by
  cases hsend with
  | through v hroom hran =>
      have hbegun : Still u (begun (frame mt pid body s) v s) :=
        (h.note (e := .sending (frame mt pid body s)) rfl rfl).congr rfl rfl rfl
      exact hbegun.note rfl rfl
  | stopped o x v ho hfate hroom hran =>
      exact (h.note (e := .sending (frame mt pid body s)) rfl rfl).congr rfl rfl rfl
  | exhausted e hfull => exact h.note rfl rfl

theorem Publishes.still {o : Fate} (hpub : Publishes d s o t) (h : Still u s) : Still u t := by
  cases hpub with
  | started key v hsend =>
      exact ((hsend.still h).note (e := .exchange key) rfl rfl).congr rfl rfl rfl
  | stopped key o v ho hsend => exact hsend.still h
  | keyless e => exact h.note rfl rfl

theorem FailsEach.still {message : String} {ps : List DeferredHostResponse} {o : Fate}
    (hfails : FailsEach d message ps o s t) (h : Still u s) : Still u t := by
  induction hfails with
  | nil s => exact h
  | cons hne hsend hrest ih => exact ih (hsend.still (h.note rfl rfl))
  | dropped hsend => exact hsend.still (h.note rfl rfl)

theorem Took.still {msg : PsrpMessage} (htook : Took msg s u) : Still s u := by
  obtain ⟨_, rest, hpending, rfl⟩ := htook
  refine ⟨?_, rfl, ?_, ?_⟩
  · rw [RunspacePool.note, chunksOf_snoc]
    exact List.append_nil _
  · rw [RunspacePool.note, tookOf_snoc, hpending, List.append_assoc]
    rfl
  · rw [hpending]
    exact List.suffix_cons msg rest

/-- What a deed does to the buffer: nothing but take out of it, or a chunk is
    put into it, or cannot be. -/
theorem Deed.reads {o : Fate} (hdeed : Deed d o s t) :
    Still s t
    ∨ (s.pendingMessages = [] ∧ ∃ chunk v r,
      feedChunk chunk (RunspacePool.note (.chunk chunk) { s with transport := v }) = (r, t)
      ∧ (o = .through ∧ r = .ok () ∨ ∃ e, o = .failed e ∧ r = .error e)) := by
  -- Only the two deeds that feed a chunk read the stream.
  have hquiet : ∀ v : τ, Still s { s with transport := v } := fun v =>
    (Still.refl s).congr rfl rfl rfl
  cases hdeed with
  | unread hsettled ho hfate hran => exact Or.inl (hquiet _)
  | fed hsettled hpending hran hfeed =>
      exact Or.inr ⟨hpending, _, _, _, hfeed, Or.inl ⟨rfl, rfl⟩⟩
  | unfed hsettled hpending hran hfeed =>
      exact Or.inr ⟨hpending, _, _, _, hfeed, Or.inr ⟨_, rfl, rfl⟩⟩
  | flushed hparked hkey hsend =>
      rename_i v p ps key
      have hsent := (hsend.still ((Still.refl s).note rfl rfl)).note (e := .flushed p) rfl rfl
      exact Or.inl (hsent.congr rfl rfl rfl)
  | unflushed ho hparked hkey hsend =>
      exact Or.inl (hsend.still ((Still.refl s).note rfl rfl))
  | undecodable htook hmt hdecode => exact Or.inl htook.still
  | asking htook hmt => exact Or.inl htook.still
  | silent htook hmt hdecode hwrites => exact Or.inl (htook.still.note rfl rfl)
  | replied htook hmt hdecode hwants hreply hsend =>
      exact Or.inl (hsend.still (htook.still.note rfl rfl))
  | parked htook hmt hdecode hwants hsecure hkey hpending =>
      rename_i v msg call value
      have hnoted := (htook.still.note (e := .answered msg call (.ok (some value))) rfl rfl).note
        (e := .parked (parkedFor msg call value)) rfl rfl
      exact Or.inl (hnoted.congr rfl rfl rfl)
  | parkedFirst htook hmt hdecode hwants hsecure hkey hpending hpub =>
      rename_i v u msg call value
      have hnoted := (hpub.still (htook.still.note rfl rfl)).note
        (e := .parked (parkedFor msg call value)) rfl rfl
      exact Or.inl (hnoted.congr rfl rfl rfl)
  | unparked ho htook hmt hdecode hwants hsecure hkey hpending hpub =>
      exact Or.inl (hpub.still (htook.still.note rfl rfl))
  | accepted htook hmt hpending hunwrap =>
      rename_i u msg pair key
      exact Or.inl ((htook.still.note (e := .keyed key) rfl rfl).congr rfl rfl rfl)
  | refused htook hmt hpending hunwrap hfails | refusing htook hmt hpending hunwrap hfails =>
      rename_i u msg pair e
      have hnoted := htook.still.note (e := .refused e) rfl rfl
      exact Or.inl (hfails.still (hnoted.congr rfl rfl rfl))
  | requested htook hmt hpending hpub => exact Or.inl (hpub.still htook.still)

/-- What happens to the buffer in a move: the same, or an empty chunk ends the
    stream. -/
theorem Move.reads (hmove : Move d s t) :
    Still s t
    ∨ (s.pendingMessages = [] ∧ ∃ chunk v r,
      feedChunk chunk (RunspacePool.note (.chunk chunk) { s with transport := v }) = (r, t))
    ∨ (s.pendingMessages = [] ∧ t.pendingMessages = [] ∧ t.reassembler = s.reassembler
      ∧ tookOf t.history = tookOf s.history ∧ chunksOf t.history = chunksOf s.history ++ [[]]) := by
  have hdeeds : ∀ {o t}, Deed d o s t → Still s t
      ∨ (s.pendingMessages = [] ∧ ∃ chunk v r,
        feedChunk chunk (RunspacePool.note (.chunk chunk) { s with transport := v }) = (r, t)) := by
    intro o t hdeed
    rcases hdeed.reads with hstill | ⟨hpending, chunk, v, r, hfeed, _⟩
    · exact Or.inl hstill
    · exact Or.inr ⟨hpending, chunk, v, r, hfeed⟩
  cases hmove with
  | deed ho hdeed => exact (hdeeds hdeed).imp_right Or.inl
  | handed hhand =>
      cases hhand with
      | plain htook hcall hkey hrequest => exact Or.inl (htook.still.note rfl rfl)
      | after hsettled hmt => exact Or.inl ((Still.refl s).note rfl rfl)
      | ended hsettled hran hidle hempty hmsg =>
          -- The end of the stream counts as an empty chunk.
          refine Or.inr (Or.inr ⟨hempty, hempty, rfl, ?_, ?_⟩)
          · simp only [RunspacePool.note, tookOf_snoc]
            exact (List.append_nil _).trans (List.append_nil _)
          · simp only [RunspacePool.note, chunksOf_snoc]
            exact List.append_nil _
  | sent hmt hq hsend => exact Or.inl (hsend.still (Still.refl s))
  | published hkey hpending hpub => exact Or.inl (hpub.still (Still.refl s))
  | injected key =>
      exact Or.inl (((Still.refl s).note (e := .injected key) rfl rfl).congr rfl rfl rfl)
  | turned machine closed hrpid => exact Or.inl ((Still.refl s).congr rfl rfl rfl)
  | aside v haside => exact Or.inl ((Still.refl s).congr rfl rfl rfl)
  | remarked e he =>
      refine Or.inl ((Still.refl s).note ?_ ?_)
      · cases e <;> first | rfl | cases he
      · cases e <;> first | rfl | cases he
  | interrupted hdeed =>
      rcases hdeed.reads with hstill | ⟨_, _, _, _, _, ⟨hfate, _⟩ | ⟨_, hfate, _⟩⟩
      · exact Or.inl ((hstill.note rfl rfl).note rfl rfl)
      · cases hfate
      · cases hfate

end Steps

/-- How the buffer and the stream fit together. As long as there is no fault,
    what was taken and what is left are the messages of the stream; when the
    last chunk brought the first fault, they are those of the chunks before. -/
structure Reading (s : RunspacePool τ) : Prop where
  sound : faultOf (streamOf s) = none → ∃ payloads,
    drained { Reassembler.new with buffer := streamOf s } = (.ok payloads, s.reassembler)
    ∧ payloads.mapM PsrpMessage.decode = .ok (tookOf s.history ++ s.pendingMessages)
  faulty : ∀ before chunk, chunksOf s.history = before ++ [chunk] → faultOf before.flatten = none →
    faultOf (streamOf s) ≠ none →
    s.pendingMessages = [] ∧ tookOf s.history = soundMessages before.flatten

section Invariant

/-- The messages of a stream without a fault. -/
theorem soundMessages_drained {stream : Bytes} {r : Reassembler} {payloads : List Bytes}
    {msgs : List PsrpMessage}
    (h : drained { Reassembler.new with buffer := stream } = (.ok payloads, r))
    (hread : payloads.mapM PsrpMessage.decode = .ok msgs) : soundMessages stream = msgs := by
  have hsurvey := survey_drained { Reassembler.new with buffer := stream }
  rw [h, survey_buffer] at hsurvey
  simp only at hsurvey
  rw [soundMessages, hsurvey, readAll_ok none hread]

theorem Reading.messages (h : Reading s) (hsound : faultOf (streamOf s) = none) :
    soundMessages (streamOf s) = tookOf s.history ++ s.pendingMessages := by
  obtain ⟨payloads, hdrained, hread⟩ := h.sound hsound
  exact soundMessages_drained hdrained hread

theorem Reading.still (h : Reading s) (hstill : Still s t) : Reading t := by
  have hstream : streamOf t = streamOf s := by
    rw [streamOf, hstill.chunks]
    rfl
  refine ⟨fun hsound => ?_, fun before chunk hchunks hbefore hfault => ?_⟩
  · rw [hstream] at hsound ⊢
    rw [hstill.reassembler, hstill.messages]
    exact h.sound hsound
  · rw [hstream] at hfault
    rw [hstill.chunks] at hchunks
    obtain ⟨hpending, htook⟩ := h.faulty before chunk hchunks hbefore hfault
    have hsuffix := hstill.suffix
    rw [hpending, List.suffix_nil] at hsuffix
    refine ⟨hsuffix, ?_⟩
    have hmessages := hstill.messages
    rwa [hpending, hsuffix, List.append_nil, List.append_nil, htook] at hmessages

/-- A stream in two parts, of which the first was read. -/
theorem Reading.extend (h : Reading s) (hsound : faultOf (streamOf s) = none) (chunk : Bytes) :
    soundMessages (streamOf s ++ chunk) = (tookOf s.history ++ s.pendingMessages)
      ++ (survey s.reassembler (wholeFragments (s.reassembler.buffer ++ chunk))).1
    ∧ faultOf (streamOf s ++ chunk)
      = (survey s.reassembler (wholeFragments (s.reassembler.buffer ++ chunk))).2 := by
  obtain ⟨payloads, hdrained, hread⟩ := h.sound hsound
  have hsurvey := survey_append chunk hdrained hread
  rw [survey_buffer] at hsurvey
  rw [soundMessages, faultOf, hsurvey]
  exact ⟨rfl, rfl⟩

/-- What the buffer makes of a chunk: its messages, or the fault. -/
theorem feedChunk_cases {chunk : Bytes} {v : τ} {r : Except PsrpError Unit}
    (h : feedChunk chunk (RunspacePool.note (.chunk chunk) { s with transport := v }) = (r, t)) :
    chunksOf t.history = chunksOf s.history ++ [chunk] ∧ tookOf t.history = tookOf s.history
    ∧ ((∃ e r', r = .error e ∧ t.pendingMessages = s.pendingMessages
        ∧ feed s.reassembler chunk = (.error e, r'))
      ∨ ∃ completed r', feed s.reassembler chunk = (.ok completed, r') ∧ t.reassembler = r'
        ∧ ((∃ e, r = .error e ∧ t.pendingMessages = s.pendingMessages
            ∧ completed.mapM PsrpMessage.decode = .error e)
          ∨ ∃ decoded, r = .ok () ∧ t.pendingMessages = decoded ++ s.pendingMessages
            ∧ completed.mapM PsrpMessage.decode = .ok decoded)) := by
  have hchunks : chunksOf (s.history ++ [.chunk chunk]) = chunksOf s.history ++ [chunk] :=
    chunksOf_snoc _ _
  have htook : tookOf (s.history ++ [.chunk chunk]) = tookOf s.history := by
    rw [tookOf_snoc]
    exact List.append_nil _
  unfold feedChunk at h
  rcases hfeed : feed s.reassembler chunk with ⟨fed, r'⟩
  simp only [RunspacePool.note, hfeed] at h
  cases fed with
  | error e =>
      cases h
      exact ⟨hchunks, htook, Or.inl ⟨e, r', rfl, rfl, rfl⟩⟩
  | ok completed =>
      cases hdecoded : completed.mapM PsrpMessage.decode with
      | error e =>
          simp only [hdecoded] at h
          cases h
          exact ⟨hchunks, htook, Or.inr ⟨completed, r', rfl, rfl, Or.inl ⟨e, rfl, rfl, hdecoded⟩⟩⟩
      | ok decoded =>
          simp only [hdecoded] at h
          cases h
          exact ⟨hchunks, htook, Or.inr ⟨completed, r', rfl, rfl, Or.inr ⟨decoded, rfl, rfl, hdecoded⟩⟩⟩

/-- A chunk that cannot be put into the buffer brings a fault, and the error is
    of the first fragment that does not fit, or else of the first payload that
    cannot be read. -/
theorem survey_unfed {r r' : Reassembler} {chunk : Bytes} {e : PsrpError}
    (h : feed r chunk = (.error e, r')
      ∨ ∃ completed, feed r chunk = (.ok completed, r')
        ∧ completed.mapM PsrpMessage.decode = .error e) :
    (survey r (wholeFragments (r.buffer ++ chunk))).2 = some (.refused e)
    ∨ ∃ e', (survey r (wholeFragments (r.buffer ++ chunk))).2 = some (.unreadable e')
      ∧ (e' = e ↔ ∃ completed r', feed r chunk = (.ok completed, r')) := by
  have hsurvey := survey_drained { r with buffer := r.buffer ++ chunk }
  rw [← feed_eq_drained, survey_buffer] at hsurvey
  rcases h with hfeed | ⟨completed, hfeed, hdecoded⟩
  · rw [hfeed] at hsurvey
    obtain ⟨out, hsurvey⟩ := hsurvey
    rw [hsurvey]
    cases hread : out.mapM PsrpMessage.decode with
    | ok msgs => exact Or.inl (by rw [readAll_ok _ hread]; rfl)
    | error e' =>
        refine Or.inr ⟨e', readAll_error _ hread, ?_⟩
        -- A payload and a fragment never fail alike.
        rw [hfeed]
        constructor
        · intro heq
          obtain ⟨payload, _, hpayload⟩ := mapM_error hread
          obtain ⟨m, hprotocol⟩ := PsrpMessage.decode_error hpayload
          rw [feed_eq_drained] at hfeed
          obtain ⟨m', hfragment⟩ := drained_error hfeed
          rw [heq, hfragment] at hprotocol
          cases hprotocol
        · intro h
          obtain ⟨completed, r'', h⟩ := h
          cases h
  · rw [hfeed] at hsurvey
    simp only at hsurvey
    rw [hsurvey, readAll_error _ hdecoded]
    exact Or.inr ⟨e, rfl, fun _ => ⟨completed, r', hfeed⟩, fun _ => rfl⟩

theorem Reading.fed (h : Reading s) (hpending : s.pendingMessages = []) {chunk : Bytes} {v : τ}
    {r : Except PsrpError Unit}
    (hfeed : feedChunk chunk (RunspacePool.note (.chunk chunk) { s with transport := v }) = (r, t)) :
    Reading t := by
  obtain ⟨hchunks, htook, hcases⟩ := feedChunk_cases hfeed
  have hstream : streamOf t = streamOf s ++ chunk := by
    rw [streamOf, hchunks, List.flatten_append, List.flatten_singleton]
    rfl
  -- Whatever the chunk brings, the stream before it was without a fault.
  have hbefore : faultOf (streamOf t) = none → faultOf (streamOf s) = none := by
    intro hsound
    cases hs : faultOf (streamOf s) with
    | none => rfl
    | some fault =>
        rw [hstream, faultOf_append chunk hs] at hsound
        cases hsound
  refine ⟨fun hsound => ?_, fun before c hsplit hclean hfault => ?_⟩
  · -- The stream is still sound: the chunk was fed whole, and its messages follow the others.
    have hs := hbefore hsound
    have hextend := (h.extend hs chunk).2
    rw [← hstream, hsound] at hextend
    -- An error would be a fault of the stream.
    rcases hcases with ⟨e, r', _, _, hfed⟩ | ⟨completed, r', hfed, hr', hdecoded⟩
    · rcases survey_unfed (Or.inl hfed) with hno | ⟨e', hno, _⟩ <;> rw [hno] at hextend <;>
        cases hextend
    · rcases hdecoded with ⟨e, _, _, hdecoded⟩ | ⟨decoded, _, hmore, hdecoded⟩
      · rcases survey_unfed (Or.inr ⟨completed, hfed, hdecoded⟩) with hno | ⟨e', hno, _⟩ <;>
          rw [hno] at hextend <;> cases hextend
      · obtain ⟨payloads, hdrained, hread⟩ := h.sound hs
        have happend := drained_append { Reassembler.new with buffer := streamOf s } chunk
        rw [hdrained] at happend
        simp only [← feed_eq_drained, hfed, Except.map] at happend
        refine ⟨payloads ++ completed, ?_, ?_⟩
        · rw [hstream, hr']
          exact happend.2
        · rw [htook, hmore, hpending, List.append_nil]
          rw [hpending, List.append_nil] at hread
          exact mapM_append_ok hread hdecoded
  · -- The chunk brought the fault: nothing was completed with it.
    rw [hchunks] at hsplit
    obtain ⟨hbefore', hc⟩ := List.append_inj' hsplit rfl
    cases hc
    have hsound : faultOf (streamOf s) = none := by
      rw [streamOf, hbefore']
      exact hclean
    have hmessages := h.messages hsound
    rw [hpending, List.append_nil, streamOf, hbefore'] at hmessages
    refine ⟨?_, by rw [htook, hmessages]⟩
    rcases hcases with ⟨e, r', _, hsame, _⟩ | ⟨completed, r', hfed, _, hdecoded⟩
    · rw [hsame, hpending]
    · rcases hdecoded with ⟨e, _, hsame, _⟩ | ⟨decoded, _, _, hdecoded⟩
      · rw [hsame, hpending]
      · -- Everything was read, so there was no fault.
        have hsurvey := survey_drained
          { s.reassembler with buffer := s.reassembler.buffer ++ chunk }
        rw [← feed_eq_drained, survey_buffer, hfed] at hsurvey
        rw [hstream, (h.extend hsound chunk).2] at hfault
        simp only at hsurvey
        rw [hsurvey, readAll_ok none hdecoded] at hfault
        exact absurd rfl hfault

/-- The end of the stream is no fault. -/
theorem Reading.ended (h : Reading s) (hpending : s.pendingMessages = [])
    (hpending' : t.pendingMessages = []) (hreassembler : t.reassembler = s.reassembler)
    (htook : tookOf t.history = tookOf s.history)
    (hchunks : chunksOf t.history = chunksOf s.history ++ [[]]) : Reading t := by
  have hstream : streamOf t = streamOf s := by
    rw [streamOf, hchunks, List.flatten_append, List.flatten_singleton, List.append_nil]
    rfl
  refine ⟨fun hsound => ?_, fun before chunk hsplit hclean hfault => ?_⟩
  · rw [hstream] at hsound ⊢
    rw [hreassembler, htook, hpending', ← hpending]
    exact h.sound hsound
  · rw [hchunks] at hsplit
    obtain ⟨hbefore, _⟩ := List.append_inj' hsplit rfl
    rw [hstream, streamOf, hbefore] at hfault
    exact absurd hclean hfault

theorem Move.reading (hmove : Move d s t) (h : Reading s) : Reading t := by
  rcases hmove.reads with hstill | ⟨hpending, chunk, v, r, hfeed⟩
    | ⟨hpending, hpending', hreassembler, htook, hchunks⟩
  · exact h.still hstill
  · exact h.fed hpending hfeed
  · exact h.ended hpending hpending' hreassembler htook hchunks

theorem Deed.reading {o : Fate} (hdeed : Deed d o s t) (h : Reading s) : Reading t := by
  rcases hdeed.reads with hstill | ⟨hpending, chunk, v, r, hfeed, _⟩
  · exact h.still hstill
  · exact h.fed hpending hfeed

/-- A program that only moves the pool keeps what is known of the buffer and
    the stream, however it ends. -/
theorem Moving.reading {α : Type} {q : Prog (RunspacePool τ) α} (hq : Moving d q) (h : Reading s) :
    wp q (fun _ t => Reading t) s := by
  refine wp_mono (hq s) fun x t ht => ?_
  have hmoves : ∀ {u}, Moves d s u → Reading u := by
    intro u hu
    induction hu with
    | refl => exact h
    | tail _ hmove ih => exact hmove.reading ih
  cases x with
  | ok a => exact hmoves ht
  | err e => exact hmoves ht
  | cut n | suspended =>
      rcases ht with ⟨u, hu, rfl | hdeed⟩
      · exact hmoves hu
      · exact hdeed.reading (hmoves hu)

theorem reading_attached (transport : τ) (machine : RunspacePoolStateMachine) (n : UInt64)
    (key : Option SessionKey) : Reading (attached transport machine n key) where
  sound := fun _ => ⟨[], drained_none _ rfl, rfl⟩
  faulty := fun before chunk hsplit => by
    have hlen := congrArg List.length hsplit
    rw [List.length_append] at hlen
    exact absurd hlen (by simp [attached, chunksOf])

end Invariant

section Faults

/-- All fragments fit if and only if they can be put together. -/
theorem fits_iff (stream : Bytes) :
    (∃ out r, drained { Reassembler.new with buffer := stream } = (.ok out, r))
      ↔ ∀ pre f post, wholeFragments stream = pre ++ f :: post → ¬ Refused pre f := by
  rcases drained_assembled { Reassembler.new with buffer := stream } [] [] assembled_new with
    ⟨pre, f, post, e, hsplit, hrefused, he⟩ | ⟨done, r, hdrained, _, hfit⟩
  · constructor
    · intro h
      obtain ⟨out, r, h⟩ := h
      rw [h] at he
      cases he
    · intro h
      exact absurd hrefused (h pre f post hsplit)
  · exact ⟨fun _ => hfit, fun _ => ⟨_, r, hdrained⟩⟩

/-- A chunk that cannot be put into the buffer. -/
theorem Reading.unfed (h : Reading s) (hsound : faultOf (streamOf s) = none)
    (hpending : s.pendingMessages = []) {chunk : Bytes} {v : τ} {e : PsrpError}
    (hfeed : feedChunk chunk (RunspacePool.note (.chunk chunk) { s with transport := v })
      = (.error e, t)) :
    ∃ fault, faultOf (streamOf t) = some fault
      ∧ ((e = fault.error ∧ tookOf t.history = soundMessages (streamOf t))
        ↔ Undisturbed (chunksOf t.history)) := by
  obtain ⟨hchunks, htook, hcases⟩ := feedChunk_cases hfeed
  have hstream : streamOf t = streamOf s ++ chunk := by
    rw [streamOf, hchunks, List.flatten_append, List.flatten_singleton]
    rfl
  have hlast : (chunksOf t.history).dropLast.flatten = streamOf s := by
    rw [hchunks, List.dropLast_concat]
    rfl
  have hmessages := h.messages hsound
  rw [hpending, List.append_nil] at hmessages
  -- What was taken is what came before the chunk.
  have hlost : tookOf t.history = soundMessages (streamOf t)
      ↔ soundMessages (streamOf t) = soundMessages (streamOf s) := by
    rw [htook, hmessages]
    exact eq_comm
  have hunfed : (survey s.reassembler (wholeFragments (s.reassembler.buffer ++ chunk))).2
        = some (.refused e)
      ∨ ∃ e', (survey s.reassembler (wholeFragments (s.reassembler.buffer ++ chunk))).2
          = some (.unreadable e')
        ∧ (e' = e ↔ ∃ completed r', feed s.reassembler chunk = (.ok completed, r')) := by
    rcases hcases with ⟨e', r', heq, _, hfed⟩ | ⟨completed, r', hfed, _, hdecoded⟩
    · cases heq
      exact survey_unfed (Or.inl hfed)
    · rcases hdecoded with ⟨e', heq, _, hdecoded⟩ | ⟨decoded, heq, _⟩
      · cases heq
        exact survey_unfed (Or.inr ⟨completed, hfed, hdecoded⟩)
      · cases heq
  rw [← (h.extend hsound chunk).2, ← hstream] at hunfed
  rcases hunfed with hfault | ⟨e', hfault, herror⟩
  · refine ⟨_, hfault, ?_⟩
    rw [Undisturbed, hlast, hlost]
    constructor
    · intro hwhole
      refine ⟨hwhole.2, fun e' hno => ?_⟩
      rw [← streamOf, hfault] at hno
      cases hno
    · intro hquiet
      exact ⟨rfl, hquiet.1⟩
  · refine ⟨_, hfault, ?_⟩
    -- The chunk can be put together if and only if the stream can.
    have hfits : (∃ completed r', feed s.reassembler chunk = (.ok completed, r'))
        ↔ ∀ pre f post, wholeFragments (streamOf t) = pre ++ f :: post → ¬ Refused pre f := by
      rw [← fits_iff, hstream]
      obtain ⟨payloads, hdrained, _⟩ := h.sound hsound
      have happend := drained_append { Reassembler.new with buffer := streamOf s } chunk
      rw [hdrained] at happend
      have hwhole : drained { Reassembler.new with buffer := streamOf s ++ chunk }
          = ((feed s.reassembler chunk).1.map (payloads ++ ·), (feed s.reassembler chunk).2) :=
        happend.2
      rw [hwhole]
      rcases feed s.reassembler chunk with ⟨x, r'⟩
      cases x with
      | error e'' =>
          constructor
          · intro h
            obtain ⟨_, _, h⟩ := h
            cases h
          · intro h
            obtain ⟨_, _, h⟩ := h
            cases h
      | ok completed => exact ⟨fun _ => ⟨_, _, rfl⟩, fun _ => ⟨_, _, rfl⟩⟩
    rw [Undisturbed, hlast, hlost, ← streamOf, hfault]
    constructor
    · intro hwhole
      refine ⟨hwhole.2, fun e'' _ => ?_⟩
      exact hfits.mp (herror.mp hwhole.1.symm)
    · intro hquiet
      exact ⟨(herror.mpr (hfits.mpr (hquiet.2 e' rfl))).symm, hquiet.1⟩

/-- Nothing that goes through brings a fault. -/
theorem Deed.sound (hdeed : Deed d .through s t) (h : Reading s)
    (hsound : faultOf (streamOf s) = none) : faultOf (streamOf t) = none := by
  rcases hdeed.reads with hstill | ⟨_, chunk, v, r, hfeed, ⟨_, rfl⟩ | ⟨_, hfate, _⟩⟩
  · rw [streamOf, hstill.chunks]
    exact hsound
  · obtain ⟨hchunks, _, hcases⟩ := feedChunk_cases hfeed
    rcases hcases with ⟨_, _, heq, _⟩ | ⟨completed, r', hfed, _, hdecoded⟩
    · cases heq
    · rcases hdecoded with ⟨_, heq, _⟩ | ⟨decoded, _, _, hdecoded⟩
      · cases heq
      · have hsurvey := survey_drained
          { s.reassembler with buffer := s.reassembler.buffer ++ chunk }
        rw [← feed_eq_drained, survey_buffer, hfed] at hsurvey
        simp only at hsurvey
        rw [streamOf, hchunks, List.flatten_append, List.flatten_singleton, ← streamOf,
          (h.extend hsound chunk).2, hsurvey, readAll_ok none hdecoded]
        rfl
  · cases hfate

theorem Deeds.sound (hdeeds : Deeds d s t) (h : Reading s)
    (hsound : faultOf (streamOf s) = none) : Reading t ∧ faultOf (streamOf t) = none := by
  induction hdeeds with
  | refl => exact ⟨h, hsound⟩
  | tail _ hdeed ih => exact ⟨hdeed.reading ih.1, hdeed.sound ih.1 ih.2⟩

/-- A read that meets no fault, and one that does. -/
theorem wp_nextMessage_fault (h : Reading s) (hsound : faultOf (streamOf s) = none) :
    wp (nextMessage d) (fun x t => ∀ fault, faultOf (streamOf t) = some fault →
      ((x = .err fault.error ∧ tookOf t.history = soundMessages (streamOf t))
        ↔ Undisturbed (chunksOf t.history))) s := by
  -- What stops a read either feeds the fault, and has its error, or leaves the stream sound.
  have hquiet : ∀ {o u t}, o ≠ .through → Deeds d s u → Deed d o u t →
      (∃ e, o = .failed e ∧ ∃ fault, faultOf (streamOf t) = some fault
        ∧ ((e = fault.error ∧ tookOf t.history = soundMessages (streamOf t))
          ↔ Undisturbed (chunksOf t.history)))
      ∨ faultOf (streamOf t) = none := by
    intro o u t ho hdeeds hdeed
    obtain ⟨hreading, hclean⟩ := Deeds.sound hdeeds h hsound
    rcases hdeed.reads with hstill | ⟨hpending, chunk, v, r, hfeed, ⟨hfate, _⟩ | ⟨e, hfate, rfl⟩⟩
    · right
      rw [streamOf, hstill.chunks]
      exact hclean
    · exact absurd hfate ho
    · exact Or.inl ⟨e, hfate, hreading.unfed hclean hpending hfeed⟩
  refine wp_mono wp_nextMessage fun x t hx fault hfault => ?_
  -- A read that is dropped fed nothing that has a fault.
  have hdropped : Busy d s .dropped t → faultOf (streamOf t) = none := by
    intro hbusy
    cases hbusy with
    | stopped hne hdeeds hdeed =>
        rcases hquiet hne hdeeds hdeed with ⟨e, hfate, _⟩ | hnone
        · cases hfate
        · exact hnone
    | idle hdeeds => exact (Deeds.sound hdeeds h hsound).2
  cases x with
  | ok msg =>
      -- A message was handed out, so every chunk was sound.
      obtain ⟨u, hdeeds, hhand⟩ := hx
      obtain ⟨hreading, hclean⟩ := Deeds.sound hdeeds h hsound
      have hnone : faultOf (streamOf t) = none := by
        cases hhand with
        | plain htook hcall hkey hrequest =>
            rw [streamOf, (htook.still.note rfl rfl).chunks]
            exact hclean
        | after hsettled hmt =>
            rw [streamOf, ((Still.refl u).note (e := .handed msg) rfl rfl).chunks]
            exact hclean
        | ended hsettled hran hidle hempty hmsg =>
            simp only [streamOf, RunspacePool.note, chunksOf_snoc, List.flatten_append]
            exact (congrArg faultOf ((List.append_nil _).trans (List.append_nil _))).trans hclean
      rw [hnone] at hfault
      cases hfault
  | err e =>
      have hbusy : Busy d s (.failed e) t := hx
      cases hbusy with
      | stopped hne hdeeds hdeed =>
          -- The read failed: with the error of the fault, or of something else.
          rcases hquiet hne hdeeds hdeed with ⟨e', hfate, fault', hfault', hiff⟩ | hnone
          · cases hfate
            rw [hfault'] at hfault
            cases hfault
            rw [← hiff]
            constructor
            · intro hwhole
              exact ⟨Exit.err.inj hwhole.1, hwhole.2⟩
            · intro hwhole
              exact ⟨congrArg _ hwhole.1, hwhole.2⟩
          · rw [hnone] at hfault
            cases hfault
  | cut n =>
      rw [hdropped hx] at hfault
      cases hfault
  | suspended =>
      rw [hdropped hx] at hfault
      cases hfault

/-- In every run of a pool that begins with nothing read: as long as the stream
    of the server has no fault, what was taken and what is buffered are its
    messages in order. A read that meets the first fault has delivered or
    handled every message before it, and reports that fault, if and only if
    the chunk that brings the fault is undisturbed; and a run in which another
    call met the fault has done so if and only if that chunk completes no
    message before it. -/
theorem messages_before_fault_iff (d : Driver τ) (transport : τ)
    (machine : RunspacePoolStateMachine) (n : UInt64) (key : Option SessionKey)
    (calls : List (Call Answer PoolOperation)) :
    let s := (play (perform d) calls (attached transport machine n key)).2
    (faultOf (streamOf s) = none →
      soundMessages (streamOf s) = tookOf s.history ++ s.pendingMessages
      ∧ ∀ script turns fault,
        faultOf (streamOf (nextMessage d ⟨s, script, turns⟩).2.state) = some fault →
        (((nextMessage d ⟨s, script, turns⟩).1 = .err fault.error
            ∧ tookOf (nextMessage d ⟨s, script, turns⟩).2.state.history
              = soundMessages (streamOf (nextMessage d ⟨s, script, turns⟩).2.state))
          ↔ Undisturbed (chunksOf (nextMessage d ⟨s, script, turns⟩).2.state.history)))
    ∧ ∀ before chunk, chunksOf s.history = before ++ [chunk] → faultOf before.flatten = none →
      faultOf (streamOf s) ≠ none →
      (tookOf s.history = soundMessages (streamOf s)
        ↔ soundMessages (streamOf s) = soundMessages before.flatten) := by
  intro s
  have hreading : Reading s := play_moves (fun _ _ h hmove => Move.reading hmove h)
    (fun _ _ h hdeed => Deed.reading hdeed h) calls (reading_attached transport machine n key)
  refine ⟨fun hsound => ⟨hreading.messages hsound, fun script turns => ?_⟩, ?_⟩
  · exact wp_nextMessage_fault hreading hsound script turns
  · intro before chunk hsplit hclean hfault
    rw [(hreading.faulty before chunk hsplit hclean hfault).2]
    exact eq_comm

/-- A terminal state, and a fragment of an object that never started. -/
def completedMessage : PsrpMessage :=
  { destination := .client, messageType := .pipelineState, rpid := .nil, pid := .nil,
    data := "<I32>4</I32>".toList }

def strayFragment : Fragment :=
  { objectId := 9, fragmentId := 0, start := false, isEnd := true, blob := [] }

/-- What is reported of the fragment. -/
def strayFault : Fault :=
  .refused (.fragment "continuation fragment before start for object 9")

/-- The two in chunks of their own, and in one chunk. -/
def cutTransport : MockTransport :=
  { MockTransport.new with inbox := [serverBytes completedMessage, strayFragment.encode] }

def sharedTransport : MockTransport :=
  { MockTransport.new with inbox := [serverBytes completedMessage ++ strayFragment.encode] }

/-- A pool that has read the first of two chunks. -/
def cutPool : RunspacePool MockTransport :=
  (play (perform mockDriver) [⟨.nextMessage, [], 2⟩] (attached cutTransport freshMachine 1 none)).2

/-- In chunks of their own, the state is delivered and then the fault is
    reported. -/
theorem messages_before_fault_iff_cut :
    (nextMessage mockDriver ⟨cutPool, [], 1⟩).1 = .err strayFault.error
      ∧ tookOf (nextMessage mockDriver ⟨cutPool, [], 1⟩).2.state.history
        = soundMessages (streamOf (nextMessage mockDriver ⟨cutPool, [], 1⟩).2.state) := by
  have hsound : faultOf (streamOf cutPool) = none := by
    decide +kernel
  have hfault : faultOf (streamOf (nextMessage mockDriver ⟨cutPool, [], 1⟩).2.state)
      = some strayFault := by
    decide +kernel
  have hrun := messages_before_fault_iff mockDriver cutTransport freshMachine 1 none
    [⟨.nextMessage, [], 2⟩]
  have hcut : (play (perform mockDriver) [⟨.nextMessage, [], 2⟩]
      (attached cutTransport freshMachine 1 none)).2 = cutPool := by rw [cutPool]
  rw [hcut] at hrun
  have hread := (hrun.1 hsound).2 [] 1 strayFault hfault
  refine hread.mpr ⟨by decide +kernel, fun e hno => ?_⟩
  rw [← streamOf, hfault] at hno
  cases hno

/-- A state that shares a chunk with such a fragment is lost. -/
theorem terminal_state_lost : ¬ ∀ (τ : Type) (d : Driver τ) (transport : τ)
    (machine : RunspacePoolStateMachine) (n : UInt64) (key : Option SessionKey)
    (script : List (Psrp.Wake Answer)) (turns : Nat) (fault : Fault),
    let r := nextMessage d ⟨attached transport machine n key, script, turns⟩
    faultOf (streamOf r.2.state) = some fault →
    r.1 = .err fault.error ∧ tookOf r.2.state.history = soundMessages (streamOf r.2.state) := by
  intro h
  have hfault : faultOf (streamOf (nextMessage mockDriver
      ⟨attached sharedTransport freshMachine 1 none, [], 1⟩).2.state) = some strayFault := by
    decide +kernel
  have hlost := (h MockTransport mockDriver sharedTransport freshMachine 1 none [] 1 strayFault
    hfault).2
  have hdiffer : tookOf (nextMessage mockDriver
        ⟨attached sharedTransport freshMachine 1 none, [], 1⟩).2.state.history
      ≠ soundMessages (streamOf (nextMessage mockDriver
        ⟨attached sharedTransport freshMachine 1 none, [], 1⟩).2.state) := by
    decide +kernel
  exact hdiffer hlost

end Faults

end RunspacePool

end Psrp

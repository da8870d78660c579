import Psrp.Theory.OutOfProc.Session

/-!
# Stop and Wait

The rules a client of the out-of-process protocol must keep, and that the
session keeps them whatever becomes of its operations.

`Ledger` is the book an observer of the pipe keeps: which line is not yet
acknowledged, and which acknowledgements have been read for a line that was
waiting for them. It knows nothing of the session. `openAfter` reads off it
which command the server has been confirmed to have open, and `Permitted` says
which lines may be written then.

The session keeps the same book in two of its fields (`Disciplined`), so what
it decides by these fields it decides by the book. Listening keeps the two in
step, and so does beginning a line, which happens only in a request and only
with nothing unacknowledged.

## Main definitions

* `Ledger`, `ledger`: What an observer of the pipe knows.
* `openAfter`: The command the server has open.
* `Permitted`: What may be written.
* `Disciplined`: The session knows what the observer does.

## Theorems

* `stop_and_wait`: The rules are kept in every run.
-/

namespace Psrp

namespace OutOfProc

open OutOfProcSession
open Async (wp wp_bind wp_mono andThen Call play)

/-- What an observer of the pipe knows: the acknowledgement that is still to
    come for the last line, and those that have come, in order. -/
structure Ledger where
  unacked : Option Packet
  acked : List Packet

/-- An acknowledgement counts when it is the one to come. -/
def Ledger.step (p : PacketPlatform) (l : Ledger) : PipeEvent → Ledger
  | .line packet => { l with unacked := some packet.ack }
  | .sent _ | .chunk _ => l
  | .heard line => match parseLine p line with
    | .ok (some packet) =>
      if packet.isAck = true ∧ l.unacked = some packet then
        { unacked := none, acked := l.acked ++ [packet] }
      else l
    | _ => l

/-- What is known after some events. -/
def ledger (p : PacketPlatform) (h : List PipeEvent) : Ledger :=
  h.foldl (Ledger.step p) { unacked := none, acked := [] }

theorem ledger_snoc (p : PacketPlatform) (h : List PipeEvent) (e : PipeEvent) :
    ledger p (h ++ [e]) = (ledger p h).step p e := by
  rw [ledger, List.foldl_append]
  rfl

theorem ledger_line (p : PacketPlatform) (h : List PipeEvent) (packet : Packet)
    (sent : List Bytes) :
    ledger p (h ++ .line packet :: sent.map .sent)
      = { ledger p h with unacked := some packet.ack } := by
  induction sent using List.reverseRecOn with
  | nil => exact ledger_snoc p h (.line packet)
  | append_singleton sent bytes ih =>
      rw [List.map_append, ← List.cons_append, ← List.append_assoc, List.map_singleton,
        ledger_snoc, ih]
      rfl

/-- The command the server has open after some acknowledgements. -/
def openAfter (acked : List Packet) : Option Uuid := acked.foldl openStep none

theorem openAfter_snoc (acked : List Packet) (a : Packet) :
    openAfter (acked ++ [a]) = openStep (openAfter acked) a := by
  rw [openAfter, List.foldl_append]
  rfl

/-- Which lines may be written with a command open, or none. The nil GUID is
    the session's. -/
def Permitted (opened : Option Uuid) : Packet → Prop
  | .data _ g _ => g = Uuid.nil ∨ opened = some g
  | .command g => g ≠ Uuid.nil ∧ opened = none
  | .signal g => opened = some g
  | .close g => if g = Uuid.nil then opened = none else opened = some g
  | _ => False

/-- Every line was permitted when it was begun, and nothing was then
    unacknowledged. -/
def Follows (p : PacketPlatform) (h : List PipeEvent) : Prop :=
  ∀ before packet after, h = before ++ .line packet :: after →
    (ledger p before).unacked = none ∧ Permitted (openAfter (ledger p before).acked) packet

theorem follows_snoc {p : PacketPlatform} {h : List PipeEvent} {e : PipeEvent} (hf : Follows p h)
    (he : ∀ packet, e = .line packet →
      (ledger p h).unacked = none ∧ Permitted (openAfter (ledger p h).acked) packet) :
    Follows p (h ++ [e]) := by
  intro before packet after heq
  induction after using List.reverseRecOn with
  | nil =>
      rcases List.append_inj' heq rfl with ⟨rfl, hlast⟩
      exact he packet (List.singleton_inj.mp hlast)
  | append_singleton after b _ =>
      rw [← List.cons_append, ← List.append_assoc] at heq
      exact hf before packet after (List.append_inj' heq rfl).1

theorem follows_init {p : PacketPlatform} {h : List PipeEvent} {e : PipeEvent}
    (hf : Follows p (h ++ [e])) : Follows p h := by
  rintro before packet after rfl
  exact hf before packet (after ++ [e]) (by rw [List.append_assoc, List.cons_append])

/-- What is begun last was permitted. -/
theorem follows_last {p : PacketPlatform} {h : List PipeEvent} {packet : Packet}
    (hf : Follows p (h ++ [.line packet])) :
    (ledger p h).unacked = none ∧ Permitted (openAfter (ledger p h).acked) packet :=
  hf h packet [] rfl

/-- What a received line can do to the book: nothing, or what it acknowledges
    has come. -/
theorem step_heard (p : PacketPlatform) (l : Ledger) (line : Text) :
    l.step p (.heard line) = l
    ∨ ∃ ack, parseLine p line = .ok (some ack) ∧ l.unacked = some ack
      ∧ l.step p (.heard line) = { unacked := none, acked := l.acked ++ [ack] } := by
  rw [Ledger.step]
  split
  · next packet hparse =>
      split
      · next hack => exact Or.inr ⟨packet, hparse, hack.2, rfl⟩
      · exact Or.inl rfl
  · exact Or.inl rfl

/-- The session is never open as a command. -/
theorem follows_ne_nil {p : PacketPlatform} {h : List PipeEvent} (hf : Follows p h) :
    (ledger p h).unacked ≠ some (.commandAck Uuid.nil)
      ∧ openAfter (ledger p h).acked ≠ some Uuid.nil := by
  induction h using List.reverseRecOn with
  | nil => exact ⟨fun h => (by cases h), fun h => (by cases h)⟩
  | append_singleton h e ih =>
      have hih := ih (follows_init hf)
      rw [ledger_snoc]
      cases e with
      | line packet =>
          refine ⟨fun hack => ?_, hih.2⟩
          have hperm := (follows_last hf).2
          cases packet with
          | command g =>
              cases hack
              exact hperm.1 rfl
          | dataAck _ | commandAck _ | signalAck _ | closeAck _ => exact hperm
          | data _ _ _ | signal _ | close _ => cases hack
      | sent bytes => exact hih
      | chunk bytes => exact hih
      | heard line =>
          rcases step_heard p (ledger p h) line with hsame | ⟨ack, _, hun, hstep⟩
          · rw [hsame]
            exact hih
          · rw [hstep]
            refine ⟨fun hack => (by cases hack), ?_⟩
            rw [openAfter_snoc]
            cases ack with
            | commandAck g =>
                rintro hg
                rw [openStep, Option.some.injEq] at hg
                exact hih.1 (hg ▸ hun)
            | closeAck g =>
                rw [openStep]
                split
                · exact fun hack => by cases hack
                · exact hih.2
            | data _ _ _ | dataAck _ | command _ | signal _ | signalAck _ | close _ => exact hih.2

/-- The session knows what an observer of the pipe does. -/
structure Disciplined (p : PacketPlatform) (s : OutOfProcSession) : Prop where
  awaiting : s.awaiting = (ledger p s.history).unacked
  openCommand : s.openCommand = openAfter (ledger p s.history).acked
  follows : Follows p s.history

variable {p : PacketPlatform} {s t u : OutOfProcSession}

/-- A received line keeps session and observer in step. -/
theorem Disciplined.onLine (h : Disciplined p s) (line : Text) :
    Disciplined p (s.onLine p line).2 := by
  have hfollows : Follows p (s.history ++ [.heard line]) :=
    follows_snoc h.follows fun packet heq => by cases heq
  -- Whatever the session does, the observer makes one step.
  have hsame : (∀ packet, parseLine p line = .ok (some packet) →
      ¬ (packet.isAck = true ∧ s.awaiting = some packet)) →
      (ledger p s.history).step p (.heard line) = ledger p s.history := by
    intro hnot
    rw [Ledger.step]
    split
    · next packet hparse => exact if_neg (by rw [← h.awaiting]; exact hnot packet hparse)
    · rfl
  -- Nothing the observer counts is changed.
  have hkeep : (ledger p s.history).step p (.heard line) = ledger p s.history →
      ∀ t : OutOfProcSession, t.history = s.history ++ [.heard line] → t.awaiting = s.awaiting →
      t.openCommand = s.openCommand → Disciplined p t := by
    intro hstep t hhistory hawaiting hopen
    refine ⟨?_, ?_, hhistory ▸ hfollows⟩
    · rw [hawaiting, hhistory, ledger_snoc, hstep, h.awaiting]
    · rw [hopen, hhistory, ledger_snoc, hstep, h.openCommand]
  rcases onLine_cases (p := p) line s with ⟨e, hparse, hl⟩ | ⟨hparse, hl⟩ | ⟨packet, hparse, hl⟩
  · rw [hl]
    exact hkeep (hsame fun packet hp => by rw [hparse] at hp; cases hp) _ rfl rfl rfl
  · rw [hl]
    exact hkeep (hsame fun packet hp => by rw [hparse] at hp; cases hp) _ rfl rfl rfl
  · rw [hl]
    -- A line is one packet.
    have honly : ∀ packet', parseLine p line = .ok (some packet') → packet' = packet := by
      intro packet' hp
      rw [hparse] at hp
      cases hp
      rfl
    rcases onPacket_cases packet (s.note (.heard line)) with
      ⟨stream, guid, payload, rfl, hp⟩ | ⟨hisAck, hawait, hp⟩ | ⟨hisAck, hawait, hp⟩
        | ⟨e, hp, hisAck, _⟩
    · have hdata := hsame fun packet' hp' h' => by
        rw [honly packet' hp'] at h'
        cases h'.1
      rw [hp]
      rcases queue_cases payload (s.note (.heard line)) with ⟨_, hq⟩ | ⟨_, e, hq⟩
      · rw [hq]
        exact hkeep hdata _ rfl rfl rfl
      · rw [hq]
        exact hkeep hdata _ rfl rfl rfl
    · -- The acknowledgement that was due: the command is over, for the session and the
      -- observer.
      have hstep : (ledger p s.history).step p (.heard line)
          = { unacked := none, acked := (ledger p s.history).acked ++ [packet] } := by
        rw [Ledger.step, hparse]
        exact if_pos ⟨hisAck, h.awaiting ▸ hawait⟩
      rw [hp, acknowledged_eq]
      refine ⟨?_, ?_, hfollows⟩
      · change none = (ledger p (s.history ++ [.heard line])).unacked
        rw [ledger_snoc, hstep]
      · change openStep s.openCommand packet
          = openAfter (ledger p (s.history ++ [.heard line])).acked
        rw [ledger_snoc, hstep, openAfter_snoc, h.openCommand]
    · rw [hp]
      refine hkeep (hsame fun packet' hp' h' => ?_) _ rfl rfl rfl
      rw [honly packet' hp'] at h'
      exact hawait h'.2
    · rw [hp]
      refine hkeep (hsame fun packet' hp' h' => ?_) _ rfl rfl rfl
      rw [honly packet' hp', hisAck] at h'
      cases h'.1

/-- So does listening. -/
theorem Disciplined.quiet (h : Disciplined p s) (hq : Quiet p s t) : Disciplined p t := by
  refine hq.preserves (I := Disciplined p) ?_ (fun line t ht => ht.onLine line) ?_ h
  · intro chunk t ht
    have hstep : ledger p (t.history ++ [.chunk chunk]) = ledger p t.history := ledger_snoc _ _ _
    refine ⟨?_, ?_, follows_snoc ht.follows fun packet heq => by cases heq⟩
    · change t.awaiting = (ledger p (t.history ++ [.chunk chunk])).unacked
      rw [hstep, ht.awaiting]
    · change t.openCommand = openAfter (ledger p (t.history ++ [.chunk chunk])).acked
      rw [hstep, ht.openCommand]
  · exact fun e t ht => ⟨ht.awaiting, ht.openCommand, ht.follows⟩

/-- A line may be begun when nothing is awaited and the open command allows
    it. -/
theorem Disciplined.writing (h : Disciplined p s) (packet : Packet) (sent : List Bytes)
    (hawait : s.awaiting = none) (hperm : Permitted s.openCommand packet) :
    Disciplined p (writing packet packet.ack sent s) := by
  have hledger := ledger_line p s.history packet sent
  refine ⟨?_, ?_, ?_⟩
  · change some packet.ack = (ledger p (s.history ++ .line packet :: sent.map .sent)).unacked
    rw [hledger]
  · change s.openCommand = openAfter (ledger p (s.history ++ .line packet :: sent.map .sent)).acked
    rw [hledger, h.openCommand]
  · change Follows p (s.history ++ .line packet :: sent.map .sent)
    have hline : Follows p (s.history ++ [.line packet]) := by
      refine follows_snoc h.follows fun packet' heq => ?_
      cases heq
      exact ⟨h.awaiting ▸ hawait, h.openCommand ▸ hperm⟩
    induction sent using List.reverseRecOn with
    | nil => exact hline
    | append_singleton sent bytes ih =>
        rw [List.map_append, ← List.cons_append, ← List.append_assoc, List.map_singleton]
        exact follows_snoc (ih (ledger_line p s.history packet sent)) fun packet' heq => by cases heq

theorem Disciplined.wrote (h : Disciplined p s) (packet : Packet) (sent : List Bytes)
    (hawait : s.awaiting = none) (hperm : Permitted s.openCommand packet) :
    Disciplined p (wrote packet packet.ack sent s) := by
  have hwriting := h.writing packet sent hawait hperm
  exact ⟨hwriting.awaiting, hwriting.openCommand, hwriting.follows⟩

/-- What a request is allowed: its line may be written wherever listening
    takes the session before it. -/
def Allowed (p : PacketPlatform) (packet : Packet) (s : OutOfProcSession) : Prop :=
  ∀ u, Quiet p s u → u.awaiting = none → Permitted u.openCommand packet

theorem allowed_of_awaiting {packet : Packet} (hs : s.awaiting = none)
    (h : Permitted s.openCommand packet) : Allowed p packet s := by
  intro u hq _
  rw [(hq.awaiting_none hs).2]
  exact h

theorem Disciplined.stopped (h : Disciplined p s) {packet : Packet} (hallowed : Allowed p packet s)
    (hstop : Stopped p packet packet.ack s t) : Disciplined p t := by
  cases hstop with
  | unwritten hq => exact h.quiet hq
  | cut hq _ hawait _ ht =>
      exact ((h.quiet hq).writing packet _ hawait (hallowed _ hq hawait)).quiet ht
  | failed hq _ hawait _ ht =>
      exact (((h.quiet hq).wrote packet _ hawait (hallowed _ hq hawait)).quiet (.fail _)).quiet ht
  | unanswered hq _ hawait _ ht =>
      exact ((h.quiet hq).wrote packet _ hawait (hallowed _ hq hawait)).quiet ht

theorem Disciplined.completed (h : Disciplined p s) {packet : Packet}
    (hallowed : Allowed p packet s) (hdone : Completed p packet packet.ack s t) :
    Disciplined p t := by
  rcases hdone.written with ⟨u, sent, hq, _, hawait, _, _, ht⟩
  exact ((h.quiet hq).wrote packet _ hawait (hallowed _ hq hawait)).quiet ht

theorem completed_openCommand {packet : Packet} (hs : s.awaiting = none)
    (hdone : Completed p packet packet.ack s t) :
    t.openCommand = openStep s.openCommand packet.ack := by
  rcases hdone.written with ⟨u, sent, _, _, _, hsame, _, ht⟩
  have hack := ht.acknowledged (s := OutOfProcSession.wrote packet packet.ack sent u) rfl
    hdone.awaiting
  rw [hack, acknowledged_openCommand, hsame hs]
  rfl

/-- A request that is allowed keeps to the rules. -/
theorem wp_request_disciplined (h : Disciplined p s) {packet : Packet}
    (hallowed : Allowed p packet s) :
    wp (request p packet packet.ack) (Stops (Disciplined p) fun _ t =>
      Disciplined p t ∧ t.awaiting = none
        ∧ (s.awaiting = none → t.openCommand = openStep s.openCommand packet.ack)) s :=
  Async.wp_ends (wp_request packet packet.ack) (fun _ ht => h.stopped hallowed ht)
    (fun _ _ ht => ⟨h.stopped hallowed ht.1, ht.2⟩) fun _ _ ht =>
      ⟨h.completed hallowed ht, ht.awaiting, fun hs => completed_openCommand hs ht⟩

section Operations

theorem wp_closeOpen (h : Disciplined p s) (hawait : s.awaiting = none)
    (hnil : s.openCommand ≠ some Uuid.nil) : wp (closeOpen p s.openCommand)
    (Stops (Disciplined p) fun _ t =>
      Disciplined p t ∧ t.awaiting = none ∧ t.openCommand = none) s := by
  unfold closeOpen
  split
  · next prev hprev =>
      have hne : prev ≠ Uuid.nil := by
        rintro rfl
        exact hnil hprev
      have hperm : Permitted s.openCommand (.close prev) := by
        rw [Permitted, if_neg hne]
        exact hprev
      refine Async.wp_ends (wp_request_disciplined h (allowed_of_awaiting hawait hperm))
        (fun _ ht => ht) (fun _ _ ht => ht) ?_
      rintro _ t ⟨ht, hnone, hopen⟩
      refine ⟨ht, hnone, ?_⟩
      rw [hopen hawait, hprev]
      exact if_pos rfl
  · next hnone => exact Async.wp_pure ⟨h, hawait, hnone⟩

theorem wp_switchTo (h : Disciplined p s) {guid : Uuid} (hguid : guid ≠ Uuid.nil) :
    wp (switchTo p guid) (Stops (Disciplined p) fun _ t =>
      Disciplined p t ∧ t.awaiting = none ∧ t.openCommand = some guid) s := by
  unfold switchTo
  refine wp_then wp_settleBounded (fun t ht => h.quiet ht) ?_
  rintro _ t ⟨hq, hawait, _⟩
  have ht := h.quiet hq
  refine wp_bind (Async.wp_get ?_)
  simp only [andThen]
  split
  · refine wp_then (wp_closeOpen ht hawait (ht.openCommand ▸ (follows_ne_nil ht.follows).2)) (fun _ h => h) ?_
    rintro _ u ⟨hu, hnone, hopen⟩
    have hperm : Permitted u.openCommand (.command guid) := ⟨hguid, hopen⟩
    refine Async.wp_ends (wp_request_disciplined hu (allowed_of_awaiting hnone hperm))
      (fun _ ht => ht) (fun _ _ ht => ht) ?_
    rintro _ v ⟨hv, hnone', hopen'⟩
    exact ⟨hv, hnone', hopen' hnone⟩
  · next hsame =>
      rw [ne_eq, Decidable.not_not] at hsame
      exact Async.wp_pure ⟨ht, hawait, hsame⟩

/-- The pieces of a payload go to the session, or to the open command. -/
theorem wp_sendChunks (h : Disciplined p s) (guid : Uuid) (chunks : List Bytes)
    (hguid : guid = Uuid.nil ∨ s.awaiting = none ∧ s.openCommand = some guid) :
    wp (sendChunks p guid chunks) (Stops (Disciplined p) fun _ t => Disciplined p t) s := by
  induction chunks generalizing s with
  | nil => exact Async.wp_pure h
  | cons chunk chunks ih =>
      have hallowed : Allowed p (.data .default guid chunk) s := by
        rcases hguid with hnil | ⟨hawait, hopen⟩
        · exact fun u _ _ => Or.inl hnil
        · exact allowed_of_awaiting hawait (Or.inr hopen)
      refine wp_then (wp_request_disciplined h hallowed) (fun _ ht => ht) ?_
      rintro _ t ⟨ht, hnone, hopen⟩
      refine ih ht (hguid.imp id fun hs => ⟨hnone, ?_⟩)
      rw [hopen hs.1]
      exact hs.2

theorem wp_sendPayload (h : Disciplined p s) (guid : Uuid) (payload : Bytes)
    (hguid : guid = Uuid.nil ∨ s.awaiting = none ∧ s.openCommand = some guid) :
    wp (sendPayload p guid payload) (Stops (Disciplined p) fun _ t => Disciplined p t) s := by
  unfold sendPayload
  refine wp_bind (Async.wp_modify ?_)
  have hstart : Disciplined p
      { s with payloadInProgress := decide (MAX_DATA_PAYLOAD < payload.length) } := ⟨h.1, h.2, h.3⟩
  refine wp_then (wp_sendChunks hstart guid (dataChunks payload) hguid) (fun _ ht => ht) ?_
  exact fun _ t ht => Async.wp_modify ⟨ht.1, ht.2, ht.3⟩

theorem wp_send (h : Disciplined p s) (guid : Uuid) (payload : Bytes) :
    wp (send p guid payload) (Stops (Disciplined p) fun _ t => Disciplined p t) s := by
  unfold send
  split
  · exact Async.wp_pure h
  · refine wp_then (wp_ready (p := p)) (fun t ht => h.quiet ht) ?_
    rintro _ t ⟨rfl, _, _⟩
    by_cases hguid : guid = Uuid.nil
    · simp only [hguid, ne_eq, not_true, if_false]
      exact wp_sendPayload h _ payload (Or.inl rfl)
    · simp only [ne_eq, hguid, not_false_eq_true, if_true]
      refine wp_then (wp_switchTo h hguid) (fun _ ht => ht) ?_
      rintro _ u ⟨hu, hnone, hopen⟩
      exact wp_sendPayload hu guid payload (Or.inr ⟨hnone, hopen⟩)

theorem wp_recv (h : Disciplined p s) :
    wp (recv p) (Stops (Disciplined p) fun _ t => Disciplined p t) s :=
  wp_recv_preserves (fun _ _ hq ht => ht.quiet hq)
    (fun _ ht => ⟨ht.awaiting, ht.openCommand, ht.follows⟩) h

theorem wp_signal (h : Disciplined p s) :
    wp (signal p) (Stops (Disciplined p) fun _ t => Disciplined p t) s := by
  unfold signal
  refine wp_then (wp_ready (p := p)) (fun t ht => h.quiet ht) ?_
  rintro _ t ⟨rfl, _, _⟩
  refine wp_then wp_settleBounded (fun u hu => h.quiet hu) ?_
  rintro _ u ⟨hq, hawait, _⟩
  have hu := h.quiet hq
  refine wp_bind (Async.wp_get ?_)
  simp only [andThen]
  cases hopen : u.openCommand with
  | none => exact Async.wp_pure hu
  | some pid =>
      have hperm : Permitted u.openCommand (.signal pid) := hopen
      exact Async.wp_ends (wp_request_disciplined hu (allowed_of_awaiting hawait hperm))
        (fun _ ht => ht) (fun _ _ ht => ht) fun _ _ ht => ht.1

theorem wp_close (h : Disciplined p s) :
    wp (close p) (Stops (Disciplined p) fun _ t => Disciplined p t) s := by
  unfold close
  refine wp_then (wp_ready (p := p)) (fun t ht => h.quiet ht) ?_
  rintro _ t ⟨rfl, _, _⟩
  refine wp_then wp_settleBounded (fun u hu => h.quiet hu) ?_
  rintro _ u ⟨hq, hawait, _⟩
  have hu := h.quiet hq
  refine wp_bind (Async.wp_get ?_)
  refine wp_then (wp_closeOpen hu hawait (hu.openCommand ▸ (follows_ne_nil hu.follows).2))
    (fun _ ht => ht) ?_
  rintro _ v ⟨hv, hnone, hopen⟩
  have hperm : Permitted v.openCommand (.close Uuid.nil) := by
    rw [Permitted, if_pos rfl]
    exact hopen
  exact Async.wp_ends (wp_request_disciplined hv (allowed_of_awaiting hnone hperm))
    (fun _ ht => ht) (fun _ _ ht => ht) fun _ _ ht => ht.1

/-- Every operation keeps to the rules, however it ends. -/
theorem wp_perform (h : Disciplined p s) (op : Operation) :
    wp (perform p op) (fun _ t => Disciplined p t) s := by
  cases op with
  | send guid payload => exact wp_return (wp_send h guid payload)
  | recv => exact wp_return (wp_recv h)
  | signal => exact wp_return (wp_signal h)
  | close => exact wp_return (wp_close h)

/-- And so does every run. -/
theorem play_disciplined (p : PacketPlatform) (ackTimeout maxQueuedBytes : Nat)
    (calls : List (Call Answer Operation)) :
    Disciplined p (play (perform p) calls (fresh ackTimeout maxQueuedBytes)).2 := by
  refine Async.play_run (fun _ t => Disciplined p t)
    (fun _ op t ht => wp_perform ht op) calls ⟨rfl, rfl, ?_⟩
  intro before packet after h
  exact absurd h.symm (List.append_ne_nil_of_right_ne_nil _ (List.cons_ne_nil _ _))

end Operations

section History

theorem follows_before {first between after : List PipeEvent} {q packet : Packet}
    (hf : Follows p (first ++ .line q :: (between ++ .line packet :: after))) :
    Follows p (first ++ .line q :: between) := by
  rintro before r rest heq
  refine hf before r (rest ++ .line packet :: after) ?_
  rw [← List.cons_append, ← List.append_assoc, heq, List.append_assoc, List.cons_append]

/-- Between two lines the acknowledgement of the first was heard. -/
theorem acked_between {first between after : List PipeEvent} {q packet : Packet}
    (hf : Follows p (first ++ .line q :: (between ++ .line packet :: after))) :
    ∃ line, .heard line ∈ between ∧ parseLine p line = .ok (some q.ack) := by
  have hwait : ∀ (between : List PipeEvent), Follows p (first ++ .line q :: between) →
      (∃ line, .heard line ∈ between ∧ parseLine p line = .ok (some q.ack))
      ∨ (ledger p (first ++ .line q :: between)).unacked = some q.ack := by
    intro between
    induction between using List.reverseRecOn with
    | nil =>
        intro _
        exact Or.inr (by rw [ledger_snoc]; rfl)
    | append_singleton between e ih =>
        intro hf
        rw [← List.cons_append, ← List.append_assoc] at hf
        rcases ih (follows_init hf) with ⟨line, hline, hparse⟩ | hun
        · exact Or.inl ⟨line, List.mem_append_left _ hline, hparse⟩
        · rw [← List.cons_append, ← List.append_assoc, ledger_snoc]
          cases e with
          | line r =>
              rw [(follows_last hf).1] at hun
              cases hun
          | sent bytes => exact Or.inr hun
          | chunk bytes => exact Or.inr hun
          | heard line =>
              rcases step_heard p (ledger p (first ++ .line q :: between)) line with
                hsame | ⟨ack, hparse, hack, _⟩
              · rw [hsame]
                exact Or.inr hun
              · rw [hun, Option.some.injEq] at hack
                exact Or.inl ⟨line, List.mem_append_right _ (List.mem_singleton.mpr rfl),
                  hack ▸ hparse⟩
  have hbefore := hf (first ++ .line q :: between) packet after
    (by rw [List.append_assoc, List.cons_append])
  rcases hwait between (follows_before hf) with h | hun
  · exact h
  · rw [hbefore.1] at hun
    cases hun

/-- A command is opened again only after its line was closed. -/
theorem close_between {first between after : List PipeEvent} {g g' : Uuid}
    (hf : Follows p (first ++ .line (.command g) :: (between ++ .line (.command g') :: after))) :
    .line (.close g) ∈ between := by
  -- Until the close is written, the command is being opened or is open, and
  -- no other command is.
  have hopen : ∀ (between : List PipeEvent), Follows p (first ++ .line (.command g) :: between) →
      .line (.close g) ∈ between
      ∨ (ledger p (first ++ .line (.command g) :: between)).unacked = some (.commandAck g)
      ∨ openAfter (ledger p (first ++ .line (.command g) :: between)).acked = some g
        ∧ (∀ g', (ledger p (first ++ .line (.command g) :: between)).unacked
            ≠ some (.commandAck g'))
        ∧ (ledger p (first ++ .line (.command g) :: between)).unacked ≠ some (.closeAck g) := by
    intro between
    induction between using List.reverseRecOn with
    | nil =>
        intro _
        exact Or.inr (Or.inl (by rw [ledger_snoc]; rfl))
    | append_singleton between e ih =>
        intro hf
        rw [← List.cons_append, ← List.append_assoc] at hf ⊢
        rw [ledger_snoc]
        rcases ih (follows_init hf) with hclose | hun | ⟨hopen, hcommand, hclosing⟩
        · exact Or.inl (List.mem_append_left _ hclose)
        · cases e with
          | line r =>
              rw [(follows_last hf).1] at hun
              cases hun
          | sent bytes => exact Or.inr (Or.inl hun)
          | chunk bytes => exact Or.inr (Or.inl hun)
          | heard line =>
              rcases step_heard p (ledger p (first ++ .line (.command g) :: between)) line with
                hsame | ⟨ack, _, hack, hstep⟩
              · rw [hsame]
                exact Or.inr (Or.inl hun)
              · rw [hun, Option.some.injEq] at hack
                subst hack
                rw [hstep, openAfter_snoc]
                exact Or.inr (Or.inr ⟨rfl, fun _ h => (by cases h), fun h => (by cases h)⟩)
        · cases e with
          | line r =>
              have hperm := (follows_last hf).2
              rw [hopen] at hperm
              cases r with
              | command g'' => cases hperm.2
              | close g'' =>
                  rw [Permitted] at hperm
                  split at hperm
                  · cases hperm
                  · cases hperm
                    exact Or.inl (List.mem_append_right _ (List.mem_singleton.mpr rfl))
              | data _ _ _ | signal _ =>
                  exact Or.inr (Or.inr ⟨hopen, fun _ h => (by cases h), fun h => (by cases h)⟩)
              | dataAck _ | commandAck _ | signalAck _ | closeAck _ => exact hperm.elim
          | sent bytes => exact Or.inr (Or.inr ⟨hopen, hcommand, hclosing⟩)
          | chunk bytes => exact Or.inr (Or.inr ⟨hopen, hcommand, hclosing⟩)
          | heard line =>
              rcases step_heard p (ledger p (first ++ .line (.command g) :: between)) line with
                hsame | ⟨ack, _, hack, hstep⟩
              · rw [hsame]
                exact Or.inr (Or.inr ⟨hopen, hcommand, hclosing⟩)
              · rw [hstep, openAfter_snoc, hopen]
                refine Or.inr (Or.inr ⟨?_, fun _ h => (by cases h), fun h => (by cases h)⟩)
                cases ack with
                | commandAck g'' => exact absurd hack (hcommand g'')
                | closeAck g'' =>
                    have hne : some g ≠ some g'' := by
                      rintro h
                      cases h
                      exact hclosing hack
                    exact if_neg hne
                | data _ _ _ | dataAck _ | command _ | signal _ | signalAck _ | close _ => rfl
  have hlast := hf (first ++ .line (.command g) :: between) (.command g') after
    (by rw [List.append_assoc, List.cons_append])
  rcases hopen between (follows_before hf) with h | hun | ⟨hopen, _⟩
  · exact h
  · rw [hlast.1] at hun
    cases hun
  · rw [hlast.2.2] at hopen
    cases hopen

end History

/-- In every run, whatever becomes of its operations and whatever the server
    sends: a line is begun only when the acknowledgement of every line before
    it was read, and only when the command that is open allows it; between two
    commands the first is closed; and the session knows which command is
    open. -/
theorem stop_and_wait (p : PacketPlatform) (ackTimeout maxQueuedBytes : Nat)
    (calls : List (Call Answer Operation)) :
    let s := (play (perform p) calls (fresh ackTimeout maxQueuedBytes)).2
    (∀ before packet after, s.history = before ++ .line packet :: after →
      (ledger p before).unacked = none ∧ Permitted (openAfter (ledger p before).acked) packet)
    ∧ (∀ first q between packet after,
      s.history = first ++ .line q :: (between ++ .line packet :: after) →
      ∃ line, .heard line ∈ between ∧ parseLine p line = .ok (some q.ack))
    ∧ (∀ first g between g' after,
      s.history = first ++ .line (.command g) :: (between ++ .line (.command g') :: after) →
      .line (.close g) ∈ between)
    ∧ s.openCommand = openAfter (ledger p s.history).acked := by
  have h := play_disciplined p ackTimeout maxQueuedBytes calls
  refine ⟨h.follows, ?_, ?_, h.openCommand⟩
  · intro first q between packet after heq
    exact acked_between (heq ▸ h.follows)
  · intro first g between g' after heq
    exact close_between (heq ▸ h.follows)

end OutOfProc

end Psrp

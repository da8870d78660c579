import Psrp.Lib.Accounts
import Psrp.Theory.OutOfProc.Session
import Psrp.Theory.OutOfProc.Splitting

/-!
# Nothing Received Is Lost

What `recv` hands out, followed by what is still queued, is what the server
sent.

The bytes read so far are one stream, whatever chunks they came in, and the
stream has lines (`linesRead`). The session has acted on a prefix of them:
all, or all up to one that broke it. `Conserved` says that the payloads of
that prefix are accounted for, that the books of the queue are right, and that
nothing stopped the prefix but a line that had to (`Breaks`).

Only two things touch the queue. Listening appends to it what it takes off the
stream, and `recv` moves its head to what was handed out. The limit is for the
queue that the breaking line found. Nothing is handed out in the call that
breaks the session before it does, so that queue is told by what was handed out
in the calls before (`played_marked`).

A session keeps a record of the chunks. That the record is what the pipe brought
is a result of its own (`reads_perform`), so that nothing is said in terms of
what the session believes to have read.

## Main definitions

* `bytesRead`, `linesRead`: The stream of the server and its lines.
* `payloadsOf`: What the lines carry.
* `Breaks`: The lines that break a session.
* `Conserved`: The balance.
* `linesOf`: The lines of a stream.

## Theorems

* `reads_perform`: The record of an operation is what it took.
* `nothing_lost`: The balance holds in every run.
-/

namespace Psrp

namespace OutOfProc

open OutOfProcSession
open Async (wp wp_bind wp_mono andThen Call play Accounts)

variable {p : PacketPlatform} {s t u : OutOfProcSession} {handed : List Bytes} {n : Nat}

/-- What was read so far, as one stream. -/
def bytesRead (h : List PipeEvent) : Bytes :=
  h.flatMap fun e => match e with
    | .chunk bytes => bytes
    | _ => []

/-- The lines completed in what was read so far, and the error in the stream
    that stopped them. -/
def linesRead (p : PacketPlatform) (h : List PipeEvent) : List Text × Option PsrpError :=
  (LineSplitter.new.push p (bytesRead h)).1

/-- The payload of a `<Data>` line. -/
def payloadOf (p : PacketPlatform) (line : Text) : Option Bytes :=
  match parseLine p line with
  | .ok (some (.data _ _ payload)) => some payload
  | _ => none

/-- The payloads of the `<Data>` lines among some lines. -/
def payloadsOf (p : PacketPlatform) (lines : List Text) : List Bytes :=
  lines.filterMap (payloadOf p)

/-- What some payloads cost while queued. -/
def queueCosts (payloads : List Bytes) : Nat := (payloads.map queueCost).sum

/-- Whether a line breaks a session with given payloads queued: a malformed or
    error line, a packet only a client may send, or one payload too many. -/
def Breaks (p : PacketPlatform) (maxQueuedBytes : Nat) (queued : List Bytes) (line : Text) : Prop :=
  (∃ e, parseLine p line = .error e)
  ∨ (∃ packet, parseLine p line = .ok (some packet) ∧ packet.isAck = false
    ∧ ∀ stream guid payload, packet ≠ .data stream guid payload)
  ∨ ∃ payload, payloadOf p line = some payload
    ∧ maxQueuedBytes < queueCosts queued + queueCost payload

/-- The books of the queue are right, it does not overflow, and recv can hand
    out its head. -/
structure Booked (s : OutOfProcSession) : Prop where
  cost : s.inboundBytes = queueCosts s.inbound
  room : s.inboundBytes ≤ s.maxQueuedBytes
  nonempty : ∀ payload ∈ s.inbound, payload ≠ []

/-- What was handed out and what is queued are the payloads of the lines
    acted on, which are all lines read, up to the first that breaks the
    session. Of what was handed out, the first `n` left the queue before that. -/
structure Conserved (p : PacketPlatform) (handed : List Bytes) (n : Nat) (s : OutOfProcSession) :
    Prop where
  balance : ∃ acted rest, (linesRead p s.history).1 = acted ++ rest
    ∧ handed ++ s.inbound = payloadsOf p acted
    ∧ (∀ line ∈ acted, ¬ Breaks p s.maxQueuedBytes [] line)
    ∧ ((rest = [] ∧ (s.broken = none → (linesRead p s.history).2 = none
          ∧ s.lines = (LineSplitter.new.push p (bytesRead s.history)).2))
      ∨ s.broken ≠ none ∧ ∃ line rest', rest = line :: rest'
          ∧ Breaks p s.maxQueuedBytes ((payloadsOf p acted).drop n) line)
  mark : s.broken = none → n = handed.length
  booked : Booked s

theorem bytesRead_snoc (h : List PipeEvent) (e : PipeEvent) :
    bytesRead (h ++ [e]) = bytesRead h ++ match e with
      | .chunk bytes => bytes
      | _ => [] := by
  rw [bytesRead, List.flatMap_append, List.flatMap_singleton]
  rfl

theorem bytesRead_append_writes (h events : List PipeEvent)
    (he : ∀ e ∈ events, PipeEvent.isWrite e = true) : bytesRead (h ++ events) = bytesRead h := by
  induction events using List.reverseRecOn with
  | nil => rw [List.append_nil]
  | append_singleton events e ih =>
      have hlast := he e (List.mem_append_right _ (List.mem_singleton.mpr rfl))
      rw [← List.append_assoc, bytesRead_snoc, ih fun e' h' => he e' (List.mem_append_left _ h')]
      cases e with
      | line _ | sent _ => exact List.append_nil _
      | chunk _ | heard _ => cases hlast

theorem queueCosts_append (a b : List Bytes) :
    queueCosts (a ++ b) = queueCosts a + queueCosts b := by
  rw [queueCosts, List.map_append, List.sum_append]
  rfl

theorem payloadsOf_append (a b : List Text) :
    payloadsOf p (a ++ b) = payloadsOf p a ++ payloadsOf p b := List.filterMap_append ..

/-- A packet without content is none with content. -/
theorem emptyElement_ne_data {name : String} {make : Uuid → Packet}
    (h : emptyElement name = some make) (g : Uuid) (stream : Stream) (guid : Uuid)
    (payload : Bytes) : make g ≠ .data stream guid payload := by
  unfold emptyElement at h
  split at h
  all_goals cases h <;> exact fun hdata => by cases hdata

/-- The content of a `<Data>` line is not empty. -/
theorem parseElement_payload {line : Text} {stream : Stream} {guid : Uuid} {payload : Bytes}
    (h : parseElement p line = .ok (.data stream guid payload)) : payload ≠ [] := by
  have hdata : ∀ {packet}, dataElement p line = .ok packet → packet = .data stream guid payload →
      payload ≠ [] := by
    intro packet hpacket heq
    unfold dataElement at hpacket
    simp only [bind, Except.bind, pure, Except.pure] at hpacket
    repeat' split at hpacket
    all_goals cases hpacket
    cases heq
    assumption
  unfold parseElement at h
  simp only [bind, Except.bind, pure, Except.pure] at h
  repeat' split at h
  all_goals try cases h
  · exact hdata (by assumption) rfl
  · rw [Except.ok.injEq] at h
    exact absurd h (emptyElement_ne_data (by assumption) _ _ _ _)

theorem parseLine_payload {line : Text} {stream : Stream} {guid : Uuid} {payload : Bytes}
    (h : parseLine p line = .ok (some (.data stream guid payload))) : payload ≠ [] := by
  unfold parseLine at h
  split at h
  · cases h
  · split at h
    · cases h
    · split at h
      · next hparse =>
          cases h
          exact parseElement_payload hparse
      · cases h

theorem payloadOf_ne_nil {line : Text} {payload : Bytes} (h : payloadOf p line = some payload) :
    payload ≠ [] := by
  unfold payloadOf at h
  split at h
  · next hparse =>
      cases h
      exact parseLine_payload hparse
  · cases h

/-- An acknowledgement carries nothing and breaks nothing. -/
theorem ack_harmless {line : Text} {packet : Packet} (hparse : parseLine p line = .ok (some packet))
    (hack : packet.isAck = true) (maxQueuedBytes : Nat) (queued : List Bytes) :
    payloadOf p line = none ∧ ¬ Breaks p maxQueuedBytes queued line := by
  have hnone : payloadOf p line = none := by
    rw [payloadOf, hparse]
    cases packet <;> first | rfl | cases hack
  refine ⟨hnone, ?_⟩
  rintro (⟨e, he⟩ | ⟨packet', hp', hisAck, _⟩ | ⟨payload, hp', _⟩)
  · rw [hparse] at he
    cases he
  · rw [hparse] at hp'
    cases hp'
    rw [hack] at hisAck
    cases hisAck
  · rw [hnone] at hp'
    cases hp'

/-- A line is taken, with its payload, or it breaks the session. -/
theorem onLine_booked (line : Text) (h : Booked s) :
    ((s.onLine p line).1 = .ok () ∧ ¬ Breaks p s.maxQueuedBytes [] line
      ∧ (s.onLine p line).2.inbound = s.inbound ++ payloadsOf p [line]
      ∧ Booked (s.onLine p line).2)
    ∨ ((∃ e, (s.onLine p line).1 = .error e) ∧ Breaks p s.maxQueuedBytes s.inbound line
      ∧ (s.onLine p line).2.inbound = s.inbound ∧ Booked (s.onLine p line).2) := by
  have hnote : Booked (s.note (.heard line)) := ⟨h.cost, h.room, h.nonempty⟩
  rcases onLine_cases (p := p) line s with ⟨e, hparse, hl⟩ | ⟨hparse, hl⟩ | ⟨packet, hparse, hl⟩
  · rw [hl]
    -- The line is malformed.
    exact Or.inr ⟨⟨e, rfl⟩, Or.inl ⟨e, hparse⟩, rfl, hnote⟩
  · rw [hl]
    -- The line is blank.
    have hnone : payloadOf p line = none := by
      rw [payloadOf, hparse]
    refine Or.inl ⟨rfl, ?_, ?_, hnote⟩
    · rintro (⟨e, he⟩ | ⟨packet, hp, _⟩ | ⟨payload, hp, _⟩)
      · rw [hparse] at he
        cases he
      · rw [hparse] at hp
        cases hp
      · rw [hnone] at hp
        cases hp
    · rw [payloadsOf, List.filterMap_cons_none hnone, List.filterMap_nil, List.append_nil]
      rfl
  · rw [hl]
    rcases onPacket_cases packet (s.note (.heard line)) with
      ⟨stream, guid, payload, rfl, hp⟩ | ⟨hisAck, _, hp⟩ | ⟨hisAck, _, hp⟩ | ⟨e, hp, hisAck, hdata⟩
    · -- A payload, for which there is room or there is none.
      have hsome : payloadOf p line = some payload := by
        rw [payloadOf, hparse]
      rw [hp]
      rcases queue_cases payload (s.note (.heard line)) with ⟨hroom, hq⟩ | ⟨hfull, e, hq⟩
      · rw [hq]
        have hbooked : s.inboundBytes + queueCost payload ≤ s.maxQueuedBytes := hroom
        refine Or.inl ⟨rfl, ?_, ?_, ?_, hroom, ?_⟩
        · rintro (⟨e, he⟩ | ⟨packet, hp', _, hdata⟩ | ⟨payload', hp', hlt⟩)
          · rw [hparse] at he
            cases he
          · rw [hparse] at hp'
            cases hp'
            exact hdata _ _ _ rfl
          · rw [hsome] at hp'
            cases hp'
            have hzero : queueCosts [] = 0 := rfl
            omega
        · rw [payloadsOf, List.filterMap_cons_some hsome, List.filterMap_nil]
          rfl
        · change s.inboundBytes + queueCost payload = queueCosts (s.inbound ++ [payload])
          rw [queueCosts_append, h.cost]
          rfl
        · intro payload' hmem
          rcases List.mem_append.mp hmem with hmem | hmem
          · exact h.nonempty payload' hmem
          · rw [List.mem_singleton.mp hmem]
            exact payloadOf_ne_nil hsome
      · rw [hq]
        refine Or.inr ⟨⟨e, rfl⟩, Or.inr (Or.inr ⟨payload, hsome, ?_⟩), rfl, hnote⟩
        rw [← h.cost]
        exact hfull
    · -- An acknowledgement, awaited or not, carries nothing.
      rcases ack_harmless hparse hisAck s.maxQueuedBytes [] with ⟨hnone, hbreaks⟩
      rw [hp, acknowledged_eq, payloadsOf, List.filterMap_cons_none hnone, List.filterMap_nil,
        List.append_nil]
      exact Or.inl ⟨rfl, hbreaks, rfl, hnote.cost, hnote.room, hnote.nonempty⟩
    · rcases ack_harmless hparse hisAck s.maxQueuedBytes [] with ⟨hnone, hbreaks⟩
      rw [hp, payloadsOf, List.filterMap_cons_none hnone, List.filterMap_nil, List.append_nil]
      exact Or.inl ⟨rfl, hbreaks, rfl, hnote⟩
    · rw [hp]
      -- A packet that only a client may send.
      exact Or.inr ⟨⟨e, rfl⟩, Or.inr (Or.inl ⟨packet, hparse, hisAck, hdata⟩), rfl, hnote⟩

/-- What a line never touches, and what it notes. -/
theorem onLine_frame (line : Text) (s : OutOfProcSession) :
    (s.onLine p line).2.lines = s.lines
      ∧ (s.onLine p line).2.history = s.history ++ [.heard line] := by
  rcases onLine_cases (p := p) line s with ⟨e, _, h⟩ | ⟨_, h⟩ | ⟨packet, _, h⟩
  · rw [h]
    exact ⟨rfl, rfl⟩
  · rw [h]
    exact ⟨rfl, rfl⟩
  · rw [h]
    rcases onPacket_cases packet (s.note (.heard line)) with
      ⟨_, _, payload, _, hp⟩ | ⟨_, _, hp⟩ | ⟨_, _, hp⟩ | ⟨e, hp, _⟩
    · rw [hp]
      rcases queue_cases payload (s.note (.heard line)) with ⟨_, hq⟩ | ⟨_, e, hq⟩
      · rw [hq]
        exact ⟨rfl, rfl⟩
      · rw [hq]
        exact ⟨rfl, rfl⟩
    · rw [hp, acknowledged_eq]
      exact ⟨rfl, rfl⟩
    · rw [hp]
      exact ⟨rfl, rfl⟩
    · rw [hp]
      exact ⟨rfl, rfl⟩

/-- The same of several lines. -/
theorem onLines_frame (lines : List Text) (s : OutOfProcSession) :
    (onLines p lines s).2.lines = s.lines
      ∧ bytesRead (onLines p lines s).2.history = bytesRead s.history
      ∧ (onLines p lines s).2.maxQueuedBytes = s.maxQueuedBytes
      ∧ (onLines p lines s).2.broken = s.broken := by
  refine onLines_preserves (I := fun t => t.lines = s.lines
    ∧ bytesRead t.history = bytesRead s.history ∧ t.maxQueuedBytes = s.maxQueuedBytes
    ∧ t.broken = s.broken) ?_ lines ⟨rfl, rfl, rfl, rfl⟩
  rintro line t ⟨hlines, hbytes, hmax, hbroken⟩
  have hframe := onLine_frame (p := p) line t
  refine ⟨hframe.1.trans hlines, ?_, (keeps_onLine line t).maxQueuedBytes.trans hmax,
    (onLine_broken line t).trans hbroken⟩
  rw [hframe.2, bytesRead_snoc, List.append_nil, hbytes]

/-- Lines are taken in order, up to the first that breaks the session. -/
theorem onLines_booked (lines : List Text) (h : Booked s) :
    ∃ acted rest, lines = acted ++ rest ∧ (∀ line ∈ acted, ¬ Breaks p s.maxQueuedBytes [] line)
      ∧ (onLines p lines s).2.inbound = s.inbound ++ payloadsOf p acted
      ∧ Booked (onLines p lines s).2
      ∧ ((rest = [] ∧ (onLines p lines s).1 = .ok ())
        ∨ (∃ e, (onLines p lines s).1 = .error e) ∧ ∃ line rest', rest = line :: rest'
          ∧ Breaks p s.maxQueuedBytes (onLines p lines s).2.inbound line) := by
  induction lines generalizing s with
  | nil =>
      exact ⟨[], [], rfl, fun _ h => absurd h List.not_mem_nil, (List.append_nil _).symm, h,
        Or.inl ⟨rfl, rfl⟩⟩
  | cons line lines ih =>
      rcases onLine_booked line h with ⟨hok, hbreaks, hin, hbooked⟩ | ⟨⟨e, herr⟩, hbreaks, hin, hbooked⟩
      · -- The first line is taken: the rest is, too, up to the one that breaks.
        have hrest : onLines p (line :: lines) s = onLines p lines (s.onLine p line).2 := by
          rw [onLines]
          split
          · next hl => rw [hl] at hok; cases hok
          · next hl => rw [hl]
        rcases ih hbooked with ⟨acted, rest, rfl, hacted, hin', hbooked', hend⟩
        rw [(keeps_onLine line s).maxQueuedBytes] at hacted hend
        refine ⟨line :: acted, rest, rfl, ?_, ?_, hrest ▸ hbooked', ?_⟩
        · intro line' hmem
          rcases List.mem_cons.mp hmem with rfl | hmem
          · exact hbreaks
          · exact hacted line' hmem
        · rw [hrest, hin', hin, List.append_assoc, ← payloadsOf_append, List.singleton_append]
        · rw [hrest]
          exact hend
      · -- The first line breaks the session, and nothing is taken.
        have hstop : (onLines p (line :: lines) s).1 = .error e
            ∧ (onLines p (line :: lines) s).2 = (s.onLine p line).2 := by
          rw [onLines]
          split
          · next hl =>
              rw [hl] at herr ⊢
              exact ⟨herr, rfl⟩
          · next hl => rw [hl] at herr; cases herr
        refine ⟨[], line :: lines, rfl, fun _ h => absurd h List.not_mem_nil, ?_, ?_, ?_⟩
        · rw [hstop.2, hin]
          exact (List.append_nil _).symm
        · rw [hstop.2]
          exact hbooked
        · refine Or.inr ⟨⟨e, hstop.1⟩, line, lines, rfl, ?_⟩
          rw [hstop.2, hin]
          exact hbreaks

theorem process_noted (chunk : Bytes) (s : OutOfProcSession) :
    (s.note (.chunk chunk)).process p chunk
      = match onLines p (s.lines.push p chunk).1.1
          { s.note (.chunk chunk) with lines := (s.lines.push p chunk).2 } with
        | (.error e, u) => (.error e, u)
        | (.ok (), u) => match (s.lines.push p chunk).1.2 with
          | none => (.ok (), u)
          | some e => (.error e, u) := rfl

/-- What processing a chunk comes to: the lines it completes are acted on, and
    an error breaks the session. -/
theorem received_chunk (chunk : Bytes) (s : OutOfProcSession) :
    let r := s.lines.push p chunk
    let t := onLines p r.1.1 { s.note (.chunk chunk) with lines := r.2 }
    ((t.1 = .ok () ∧ r.1.2 = none) ∧ (s.received p (.ok chunk)).2 = t.2)
    ∨ ((∃ e, t.1 = .error e) ∨ ∃ e, r.1.2 = some e)
      ∧ ∃ e, (s.received p (.ok chunk)).2 = (t.2.fail e).2 := by
  unfold OutOfProcSession.received
  simp only [process_noted]
  generalize s.lines.push p chunk = r
  generalize onLines p r.1.1 { s.note (.chunk chunk) with lines := r.2 } = t
  rcases t with ⟨res, u⟩
  cases res with
  | error e => exact Or.inr ⟨Or.inl ⟨e, rfl⟩, e, rfl⟩
  | ok _ =>
      cases hr : r.1.2 with
      | none => exact Or.inl ⟨⟨rfl, rfl⟩, rfl⟩
      | some e => exact Or.inr ⟨Or.inr ⟨e, rfl⟩, e, rfl⟩

theorem Conserved.fail (h : Conserved p handed n s) (e : PsrpError) :
    Conserved p handed n (s.fail e).2 := by
  rcases h.balance with ⟨acted, rest, hlines, hbalance, hacted, hend⟩
  refine ⟨⟨acted, rest, hlines, hbalance, hacted, ?_⟩, fun hb => absurd hb (fail_broken e s),
    h.booked.cost, h.booked.room, h.booked.nonempty⟩
  rcases hend with ⟨hnil, _⟩ | ⟨_, hrest⟩
  · exact Or.inl ⟨hnil, fun hb => absurd hb (fail_broken e s)⟩
  · exact Or.inr ⟨fail_broken e s, hrest⟩

/-- A chunk adds to the queue what its lines carry. -/
theorem Conserved.received (h : Conserved p handed n s) (hs : s.Usable)
    (read : Except PsrpError Bytes) : Conserved p handed n (s.received p read).2 := by
  cases read with
  | error e => exact h.fail e
  | ok chunk =>
      -- The session is usable, so every line read so far was acted on.
      rcases h.balance with ⟨acted, rest, hlines, hbalance, hacted, hend⟩
      rcases hend with ⟨rfl, hsplit⟩ | ⟨hbroken, _⟩
      swap
      · exact absurd hs.1 hbroken
      rcases hsplit hs.1 with ⟨hnone, hsplitter⟩
      rw [List.append_nil] at hlines
      -- The splitter goes on where it stood after everything read so far.
      have hwhole : LineSplitter.new.push p (bytesRead s.history)
          = ((acted, none), s.lines) := by
        rw [hsplitter, ← hlines, ← hnone]
        rfl
      rcases LineSplitter.push_append (p := p) (bytesRead s.history) chunk .new with ⟨happ, hgo⟩
      rw [hwhole] at happ
      simp only [] at happ
      have hgo := hgo acted s.lines hwhole
      rcases hr : s.lines.push p chunk with ⟨⟨lines, e⟩, splitter⟩
      rw [hr] at happ hgo
      have hstart : Booked { s.note (.chunk chunk) with lines := splitter } :=
        ⟨h.booked.cost, h.booked.room, h.booked.nonempty⟩
      -- The lines of the chunk are taken up to one that breaks the session.
      have hframe := onLines_frame (p := p) lines
        { s.note (.chunk chunk) with lines := splitter }
      rcases onLines_booked lines hstart with ⟨acted', rest', rfl, hacted', hin, hbooked, hend⟩
      have hchunk := received_chunk (p := p) chunk s
      simp only [hr] at hchunk
      rcases ht : onLines p (acted' ++ rest') { s.note (.chunk chunk) with lines := splitter }
        with ⟨res, t⟩
      rw [ht] at hframe hin hbooked hend hchunk
      have hmax : t.maxQueuedBytes = s.maxQueuedBytes := hframe.2.2.1
      have hbytes : bytesRead t.history = bytesRead s.history ++ chunk := by
        rw [hframe.2.1]
        exact bytesRead_snoc _ _
      have hread : linesRead p t.history = (acted ++ (acted' ++ rest'), e) := by
        rw [linesRead, hbytes]
        exact happ
      have hacts : ∀ line ∈ acted ++ acted', ¬ Breaks p s.maxQueuedBytes [] line := by
        intro line hmem
        rcases List.mem_append.mp hmem with hmem | hmem
        · exact hacted line hmem
        · exact hacted' line hmem
      have hbal : handed ++ t.inbound = payloadsOf p (acted ++ acted') := by
        rw [payloadsOf_append, ← hbalance, List.append_assoc]
        exact congrArg (handed ++ ·) hin
      -- Either all of them were, or the session broke.
      rcases hchunk with ⟨⟨hres, hnoerr⟩, heq⟩ | ⟨herr, e', heq⟩
      · rw [heq]
        refine ⟨⟨acted ++ acted', [], ?_, hbal, hmax ▸ hacts, Or.inl ⟨rfl, fun _ => ?_⟩⟩,
          fun _ => h.mark hs.1, hbooked⟩
        · rcases hend with ⟨rfl, _⟩ | ⟨⟨e', he'⟩, _⟩
          · rw [hread]
            simp only [List.append_nil]
          · rw [hres] at he'
            cases he'
        · refine ⟨by rw [hread]; exact hnoerr, ?_⟩
          rw [hbytes, hgo hnoerr]
          exact hframe.1
      · rw [heq]
        refine Conserved.mk ⟨acted ++ acted', rest', ?_, hbal, ?_, ?_⟩
          (fun _ => h.mark hs.1) ⟨hbooked.cost, hbooked.room, hbooked.nonempty⟩
        · change (linesRead p t.history).1 = _
          rw [hread, List.append_assoc]
        · intro line hmem
          change ¬ Breaks p t.maxQueuedBytes [] line
          rw [hmax]
          exact hacts line hmem
        · rcases hend with ⟨rfl, hok⟩ | ⟨_, line, rest'', rfl, hbreaks⟩
          · exact Or.inl ⟨rfl, fun hb => absurd hb (fail_broken e' t)⟩
          · -- The line found the queue as it is: nothing was handed out since.
            refine Or.inr ⟨fail_broken e' t, line, rest'', rfl, ?_⟩
            change Breaks p t.maxQueuedBytes _ line
            rw [h.mark hs.1, ← hbal, List.drop_left, hmax]
            exact hbreaks

theorem Conserved.quiet (h : Conserved p handed n s) (hq : Quiet p s t) :
    Conserved p handed n t := by
  induction hq with
  | refl s => exact h
  | broke e _ ih => exact ih (h.fail e)
  | heard read hs _ ih => exact ih (h.received hs read)

theorem Conserved.writes (h : Conserved p handed n s) (hw : WritesOnly s t) :
    Conserved p handed n t := by
  rcases hw with ⟨awaiting, write, payload, events, he, rfl⟩
  have hbytes := bytesRead_append_writes s.history events he
  have hread : linesRead p (s.history ++ events) = linesRead p s.history := by
    rw [linesRead, hbytes]
    rfl
  rcases h.balance with ⟨acted, rest, hlines, hbalance, hacted, hend⟩
  refine ⟨⟨acted, rest, hread ▸ hlines, hbalance, hacted, ?_⟩, h.mark, h.booked.cost,
    h.booked.room, h.booked.nonempty⟩
  simp only [hread, hbytes]
  exact hend

/-- The head of the queue is handed out, and nothing else changes. -/
theorem dequeue_cases (h : Booked s) :
    (s.inbound = [] ∧ s.dequeue = (none, s))
    ∨ ∃ payload rest, s.inbound = payload :: rest ∧ s.dequeue = (some payload,
      { s with inbound := rest, inboundBytes := s.inboundBytes - queueCost payload }) := by
  unfold dequeue
  cases hin : s.inbound with
  | nil => exact Or.inl ⟨rfl, by rw [dequeueFrom, ← hin]⟩
  | cons payload rest =>
      have hne := h.nonempty payload (by rw [hin]; exact List.mem_cons_self ..)
      exact Or.inr ⟨payload, rest, rfl, by rw [dequeueFrom, if_neg hne]⟩

/-- What follows when one more payload was handed out. After the break that
    changes nothing about the queue at the break. -/
def HandsOut (p : PacketPlatform) (handed : List Bytes) (n : Nat) (payload : Bytes)
    (t : OutOfProcSession) : Prop :=
  ∃ m, Conserved p (handed ++ [payload]) m t ∧ (t.broken ≠ none → m = n)

/-- What is handed out moves from the queue to what was handed out. -/
theorem Conserved.dequeue (h : Conserved p handed n s) :
    (s.dequeue = (none, s))
    ∨ ∃ payload t, s.dequeue = (some payload, t) ∧ HandsOut p handed n payload t := by
  rcases dequeue_cases h.booked with ⟨_, hd⟩ | ⟨payload, rest, hin, hd⟩
  · exact Or.inl hd
  · refine Or.inr ⟨payload, _, hd, ?_⟩
    have hcost : s.inboundBytes = queueCost payload + queueCosts rest := by
      rw [h.booked.cost, hin]
      rfl
    have hbooked : Booked { s with
        inbound := rest, inboundBytes := s.inboundBytes - queueCost payload } := by
      refine ⟨?_, Nat.le_trans (Nat.sub_le _ _) h.booked.room, fun payload' hmem => ?_⟩
      · change s.inboundBytes - queueCost payload = queueCosts rest
        omega
      · exact h.booked.nonempty payload' (by rw [hin]; exact List.mem_cons_of_mem _ hmem)
    rcases h.balance with ⟨acted, rest', hlines, hbalance, hacted, hend⟩
    have hmoved : (handed ++ [payload]) ++ rest = payloadsOf p acted := by
      rw [← hbalance, hin, List.append_assoc, List.singleton_append]
    by_cases hb : s.broken = none
    · refine ⟨(handed ++ [payload]).length, ⟨⟨acted, rest', hlines, hmoved, hacted, ?_⟩,
        fun _ => rfl, hbooked⟩, fun hbroken => absurd hb hbroken⟩
      rcases hend with hend | ⟨hbroken, _⟩
      · exact Or.inl hend
      · exact absurd hb hbroken
    · exact ⟨n, ⟨⟨acted, rest', hlines, hmoved, hacted, hend⟩, fun hnone => absurd hnone hb,
        hbooked⟩, fun _ => rfl⟩

theorem wp_recv_conserved (h : Conserved p handed n s) :
    wp (recv p) (Stops (Conserved p handed n) (HandsOut p handed n)) s := by
  unfold recv
  refine Async.wp_loop (fun _ t => Conserved p handed n t) h (fun _ _ ht => ht) ?_
  intro _ t ht
  refine wp_bind (Async.wp_update (fun payload u hu => ?_) (fun e u hu => by cases hu))
  cases hu
  rcases ht.dequeue with hd | ⟨payload, u, hd, hu⟩
  · -- The queue is empty: a chunk is read, and its payloads are for the next turn.
    simp only [hd]
    refine wp_bind (wp_mono (wp_ready (p := p)) fun x u hu => ?_)
    cases x with
    | err e => exact ⟨ht.quiet hu.1, hu.2⟩
    | cut n => exact ht.quiet hu
    | suspended => exact ht.quiet hu
    | ok _ =>
        rcases hu with ⟨rfl, _⟩
        refine wp_bind (Async.wp_attempt (wp_mono wp_pump fun x u hu => ?_))
        cases x with
        | ok _ => exact Async.wp_pure (ht.quiet hu.1)
        | cut n => exact ht.quiet hu
        | suspended => exact ht.quiet hu
        | err e =>
            -- The session broke, and what came before that is still handed out.
            have hu' := ht.quiet hu.1
            refine wp_bind (Async.wp_update (fun payload v hv => ?_) (fun e v hv => by cases hv))
            cases hv
            rcases hu'.dequeue with hd' | ⟨payload, v, hd', hv⟩
            · simp only [hd']
              exact Async.wp_throw ⟨hu', hu.2⟩
            · simp only [hd']
              exact Async.wp_pure hv
  · simp only [hd]
    exact Async.wp_pure hu

/-- What the calls of `recv` among some operations returned. -/
def handedOut (ends : List (Operation × Exit PsrpError (Option Bytes))) : List Bytes :=
  ends.filterMap fun e => match e.2 with
    | .ok payload => payload
    | _ => none

theorem handedOut_snoc (ends : List (Operation × Exit PsrpError (Option Bytes)))
    (e : Operation × Exit PsrpError (Option Bytes)) :
    handedOut (ends ++ [e]) = handedOut ends ++ match e.2 with
      | .ok (some payload) => [payload]
      | _ => [] := by
  rw [handedOut, List.filterMap_append]
  congr 1
  rcases e with ⟨op, x⟩
  cases x with
  | ok payload => cases payload <;> rfl
  | err e => rfl
  | cut n => rfl
  | suspended => rfl

/-- Every operation keeps the balance, however it ends. -/
theorem wp_perform_conserved (past : List (Operation × Exit PsrpError (Option Bytes)))
    (h : Conserved p (handedOut past) n s) (op : Operation) :
    wp (perform p op) (fun x t => ∃ m, Conserved p (handedOut (past ++ [(op, x)])) m t
      ∧ (t.broken ≠ none → m = n)) s := by
  -- An operation that hands out nothing leaves what was handed out,
  have hsame : ∀ {x t}, handedOut (past ++ [(op, x)]) = handedOut past →
      Conserved p (handedOut past) n t →
      ∃ m, Conserved p (handedOut (past ++ [(op, x)])) m t ∧ (t.broken ≠ none → m = n) := by
    intro x t hout ht
    exact ⟨n, hout ▸ ht, fun _ => rfl⟩
  have hnothing : ∀ {x}, (∀ payload, x ≠ .ok (some payload)) →
      handedOut (past ++ [(op, x)]) = handedOut past := by
    intro x hx
    rw [handedOut_snoc]
    cases x with
    | ok out =>
        cases out with
        | none => exact List.append_nil _
        | some payload => exact absurd rfl (hx payload)
    | err e => exact List.append_nil _
    | cut n => exact List.append_nil _
    | suspended => exact List.append_nil _
  -- and all but `recv` are such, with moves that keep the balance.
  have hmoves : ∀ {q : Prog OutOfProcSession Unit},
      wp q (Stops (Moves p s) fun _ t => Moves p s t) s →
      wp (q >>= fun _ => pure none) (fun x t => ∃ m,
        Conserved p (handedOut (past ++ [(op, x)])) m t ∧ (t.broken ≠ none → m = n)) s := by
    intro q hq
    have hkeep : ∀ {t}, Moves p s t → Conserved p (handedOut past) n t := fun hm =>
      hm.preserves_writes (I := Conserved p (handedOut past) n) (fun _ _ hq ht => ht.quiet hq)
        (fun _ _ hw ht => ht.writes hw) h
    refine wp_bind (wp_mono hq fun x t hx => ?_)
    cases x with
    | ok _ => exact fun _ _ => hsame (hnothing nofun) (hkeep hx)
    | err e => exact hsame (hnothing nofun) (hkeep hx.1)
    | cut n => exact hsame (hnothing nofun) (hkeep hx)
    | suspended => exact hsame (hnothing nofun) (hkeep hx)
  cases op with
  | send guid payload => exact hmoves (wp_moves_send guid payload)
  | signal => exact hmoves wp_moves_signal
  | close => exact hmoves wp_moves_close
  | recv =>
      refine wp_bind (wp_mono (wp_recv_conserved h) fun x t hx => ?_)
      cases x with
      | ok payload =>
          have hdone : ∃ m, Conserved p (handedOut (past ++ [(.recv, .ok (some payload))])) m t
              ∧ (t.broken ≠ none → m = n) := by
            rw [handedOut_snoc]
            exact hx
          exact fun _ _ => hdone
      | err e => exact hsame (hnothing nofun) hx.1
      | cut n => exact hsame (hnothing nofun) hx
      | suspended => exact hsame (hnothing nofun) hx

/-- A session that is broken stays so. -/
theorem wp_perform_broken (h : s.broken ≠ none) (op : Operation) :
    wp (perform p op) (fun _ t => t.broken ≠ none) s := by
  refine wp_perform_preserves ?_ (fun _ hs => hs) h op
  refine fun _ _ hm hs => hm.preserves_writes (I := fun t => t.broken ≠ none) ?_ ?_ hs
  · intro u v hq hu hnone
    rcases Option.ne_none_iff_exists'.mp hu with ⟨reason, hreason⟩
    cases (hq.keeps.broken reason hreason).symm.trans hnone
  · rintro _ _ ⟨_, _, _, _, _, rfl⟩ hu
    exact hu

theorem conserved_fresh (ackTimeout maxQueuedBytes : Nat) :
    Conserved p (handedOut []) 0 (fresh ackTimeout maxQueuedBytes) :=
  ⟨⟨[], [], rfl, rfl, fun _ h => absurd h List.not_mem_nil, Or.inl ⟨rfl, fun _ => ⟨rfl, rfl⟩⟩⟩,
    fun _ => rfl, rfl, Nat.zero_le _, fun _ h => absurd h List.not_mem_nil⟩

/-- The balance holds after some calls. -/
theorem played_conserved (p : PacketPlatform) (ackTimeout maxQueuedBytes : Nat)
    (calls : List (Call Answer Operation)) :
    ∃ n, Conserved p (handedOut (play (perform p) calls (fresh ackTimeout maxQueuedBytes)).1) n
      (play (perform p) calls (fresh ackTimeout maxQueuedBytes)).2 := by
  refine Async.play_run (fun ends t => ∃ n, Conserved p (handedOut ends) n t) ?_ calls
    ⟨0, conserved_fresh ackTimeout maxQueuedBytes⟩
  rintro past op t ⟨n, ht⟩
  exact wp_mono (wp_perform_conserved past ht op) fun _ _ ⟨m, hm, _⟩ => ⟨m, hm⟩

/-- After the call that broke the session, the mark is what was handed out
    before it. -/
theorem played_marked (p : PacketPlatform) (ackTimeout maxQueuedBytes : Nat)
    (before after : List (Call Answer Operation)) (call : Call Answer Operation) :
    let start := fresh ackTimeout maxQueuedBytes
    let r := play (perform p) (before ++ call :: after) start
    (play (perform p) before start).2.broken = none →
    (play (perform p) (before ++ [call]) start).2.broken ≠ none →
    Conserved p (handedOut r.1) (handedOut (play (perform p) before start).1).length r.2 := by
  intro start r hnone hbroken
  rcases played_conserved p ackTimeout maxQueuedBytes before with ⟨n, hn⟩
  have hmark := hn.mark hnone
  subst hmark
  have hstep := wp_perform_conserved _ hn call.operation call.script call.turns
  rcases hstep with ⟨m, hm, hmn⟩
  rw [Async.play_append] at hbroken
  cases hmn hbroken
  have hrun := Async.play_invariant (f := perform p) (fun ends t => t.broken ≠ none
    ∧ Conserved p (handedOut ends) (handedOut (play (perform p) before start).1).length t) ?_ after
      ⟨hbroken, hm⟩
  · have hr : r = play (perform p) ((before ++ [call]) ++ after) start := by
      rw [List.append_assoc, List.singleton_append]
    rw [hr, Async.play_append, Async.play_append]
    exact hrun.2
  · -- The session is broken, so what is handed out now does not move the mark.
    rintro past op t ⟨hb, ht⟩
    refine wp_mono (Async.wp_and (wp_perform_broken hb op) (wp_perform_conserved past ht op)) ?_
    rintro x u ⟨hb', m, hm, hmark⟩
    cases hmark hb'
    exact ⟨hb', hm⟩

/-- What is queued is handed out at once, whether the session is broken or
    not. -/
theorem recv_queued (h : Booked s) {payload : Bytes} {rest : List Bytes}
    (hin : s.inbound = payload :: rest) (script : List (Wake Answer)) (turns : Nat) :
    (recv p ⟨s, script, turns + 1⟩).1 = .ok payload := by
  rcases dequeue_cases h with ⟨hnil, _⟩ | ⟨payload', rest', hin', hd⟩
  · rw [hin] at hnil
    cases hnil
  · rw [hin] at hin'
    cases hin'
    simp only [recv, Async.loop, Async.turnsOf, Async.bind_apply, Async.update, hd,
      Async.pure_apply]

section Reading

/-- The bytes in an answer of the pipe. -/
def chunkBytes : Answer → Bytes
  | .chunk bytes => bytes
  | _ => []

theorem history_fail (e : PsrpError) (s : OutOfProcSession) : (s.fail e).2.history = s.history := rfl

theorem history_usable (s : OutOfProcSession) : s.usable.2.history = s.history := by
  unfold usable
  split
  · rfl
  · split <;> rfl

theorem history_ready (s : OutOfProcSession) : s.ready.2.history = s.history := by
  have husable := history_usable s
  unfold ready
  split
  · next h => rw [h] at husable; exact husable
  · next h =>
      rw [h] at husable
      split
      · exact husable
      · exact husable

theorem history_received (read : Except PsrpError Bytes) (s : OutOfProcSession) :
    bytesRead (s.received p read).2.history
      = bytesRead s.history ++ (read.toOption.getD []) := by
  cases read with
  | error e => exact (List.append_nil _).symm
  | ok chunk =>
      have hframe := onLines_frame (p := p) (s.lines.push p chunk).1.1
        { s.note (.chunk chunk) with lines := (s.lines.push p chunk).2 }
      have hnoted : bytesRead (s.note (.chunk chunk)).history = bytesRead s.history ++ chunk :=
        bytesRead_snoc _ _
      have hchunk := received_chunk (p := p) chunk s
      simp only [] at hchunk
      rcases hchunk with ⟨_, heq⟩ | ⟨_, e, heq⟩
      · rw [heq, hframe.2.1]
        exact hnoted
      · rw [heq, history_fail, hframe.2.1]
        exact hnoted

/-- What a session notes of the chunks is what it took of the world. -/
abbrev Reads (owed : Bytes) {α : Type} (q : Prog OutOfProcSession α) : Prop :=
  Accounts (fun s : OutOfProcSession => bytesRead s.history) chunkBytes owed q

theorem reads_modify {f : OutOfProcSession → OutOfProcSession}
    (h : ∀ s, (f s).history = s.history) : Reads [] (Async.modify f : Prog OutOfProcSession Unit) :=
  Async.accounts_modify fun s => by rw [h, List.append_nil]

theorem reads_update {α : Type} {f : OutOfProcSession → Except PsrpError α × OutOfProcSession}
    (h : ∀ s, (f s).2.history = s.history) : Reads [] (Async.update f : Prog OutOfProcSession α) :=
  Async.accounts_update fun s => by rw [h, List.append_nil]

theorem reads_note {e : PipeEvent} (he : e.isWrite = true) :
    Reads [] (Async.modify (note e) : Prog OutOfProcSession Unit) :=
  Async.accounts_modify fun s => by
    have h := bytesRead_append_writes s.history [e] fun e' he' => by
      rw [List.mem_singleton.mp he']
      exact he
    rw [List.append_nil]
    exact h

theorem reads_usable : Reads [] (Async.update usable : Prog OutOfProcSession Unit) :=
  reads_update history_usable

theorem reads_ready : Reads [] (Async.update ready : Prog OutOfProcSession Unit) :=
  reads_update history_ready

/-- The only wait that brings bytes. -/
theorem reads_pump : Reads [] (pump p) := by
  refine Async.accounts_bind reads_usable fun _ => Async.accounts_awaitThen fun a read hread => ?_
  refine Async.accounts_update fun s => ?_
  rw [history_received]
  cases a <;> cases hread <;> rfl

theorem reads_settle : Reads [] (settle p) :=
  Async.accounts_loop (fun _ => Async.accounts_bind Async.accounts_get fun _ =>
    Async.accounts_ite (Async.accounts_bind reads_pump fun _ => Async.accounts_pure _)
      (Async.accounts_pure _)) ()

theorem reads_raise {α : Type} {f : OutOfProcSession → PsrpError × OutOfProcSession}
    (h : ∀ s, (f s).2.history = s.history) : Reads [] (raise f : Prog OutOfProcSession α) :=
  reads_update h

theorem reads_within {q : Prog OutOfProcSession Unit} (hq : Reads [] q) (fallback : Packet) :
    Reads [] (within p fallback q) := by
  refine Async.accounts_bind (Async.accounts_guarded hq) fun x => ?_
  cases x with
  | some _ => exact Async.accounts_pure _
  | none => exact reads_raise fun _ => rfl

theorem reads_settleBounded : Reads [] (settleBounded p) := by
  refine Async.accounts_bind Async.accounts_get fun s => ?_
  cases hawaiting : s.awaiting with
  | none => exact Async.accounts_pure _
  | some pending => exact reads_within reads_settle pending

theorem reads_writeRest (rest : Bytes) : Reads [] (writeRest rest) := by
  refine Async.accounts_loop (fun rest => Async.accounts_awaitThen fun a x hx => ?_) rest
  have hnothing : chunkBytes a = [] := by
    cases a <;> first | rfl | cases hx
  rw [hnothing]
  cases x with
  | error e => exact Async.accounts_pure _
  | ok n =>
      cases n with
      | none => exact Async.accounts_bind (reads_note rfl) fun _ => Async.accounts_pure _
      | some n => exact Async.accounts_bind (reads_note rfl) fun _ => Async.accounts_pure _

theorem reads_request (packet ack : Packet) : Reads [] (request p packet ack) := by
  have hexchange : Reads [] (exchange p packet ack) := by
    refine Async.accounts_bind reads_settle fun _ =>
      Async.accounts_bind (reads_modify fun _ => rfl) fun _ => ?_
    refine Async.accounts_bind (Async.accounts_bind (reads_note rfl) fun _ =>
      reads_writeRest _) fun written => Async.accounts_bind (reads_modify fun _ => rfl) fun _ => ?_
    cases written with
    | error e => exact reads_raise fun _ => rfl
    | ok _ => exact reads_settle
  exact Async.accounts_bind reads_usable fun _ => reads_within hexchange ack

theorem reads_closeOpen (opened : Option Uuid) : Reads [] (closeOpen p opened) := by
  cases opened with
  | none => exact Async.accounts_pure _
  | some prev => exact reads_request _ _

theorem reads_switchTo (guid : Uuid) : Reads [] (switchTo p guid) :=
  Async.accounts_bind reads_settleBounded fun _ => Async.accounts_bind Async.accounts_get fun s =>
    Async.accounts_ite (Async.accounts_bind (reads_closeOpen s.openCommand) fun _ =>
      reads_request _ _) (Async.accounts_pure _)

theorem reads_sendChunks (guid : Uuid) (chunks : List Bytes) :
    Reads [] (sendChunks p guid chunks) := by
  induction chunks with
  | nil => exact Async.accounts_pure _
  | cons chunk chunks ih => exact Async.accounts_bind (reads_request _ _) fun _ => ih

theorem reads_send (guid : Uuid) (payload : Bytes) : Reads [] (send p guid payload) := by
  have hpayload : Reads [] (sendPayload p guid payload) :=
    Async.accounts_bind (reads_modify fun _ => rfl) fun _ =>
      Async.accounts_bind (reads_sendChunks guid _) fun _ => reads_modify fun _ => rfl
  refine Async.accounts_ite (Async.accounts_pure _) (Async.accounts_bind reads_ready fun _ => ?_)
  exact Async.accounts_ite (Async.accounts_bind (reads_switchTo guid) fun _ => hpayload) hpayload

theorem reads_recv : Reads [] (recv p) := by
  refine Async.accounts_loop (fun _ => ?_) ()
  have hdequeue : Reads [] (Async.update fun s : OutOfProcSession =>
      (Except.ok s.dequeue.1, s.dequeue.2) : Prog OutOfProcSession (Option Bytes)) :=
    reads_update fun _ => rfl
  refine Async.accounts_bind hdequeue fun payload => ?_
  cases payload with
  | some payload => exact Async.accounts_pure _
  | none =>
      refine Async.accounts_bind reads_ready fun _ =>
        Async.accounts_bind (Async.accounts_attempt reads_pump) fun pumped => ?_
      cases pumped with
      | ok _ => exact Async.accounts_pure _
      | error e =>
          refine Async.accounts_bind hdequeue fun payload => ?_
          cases payload with
          | some payload => exact Async.accounts_pure _
          | none => exact Async.accounts_throw e

theorem reads_signal : Reads [] (signal p) := by
  refine Async.accounts_bind reads_ready fun _ => Async.accounts_bind reads_settleBounded fun _ =>
    Async.accounts_bind Async.accounts_get fun s => ?_
  cases hopen : s.openCommand with
  | none => exact Async.accounts_pure _
  | some pid => exact reads_request _ _

theorem reads_close : Reads [] (close p) :=
  Async.accounts_bind reads_ready fun _ => Async.accounts_bind reads_settleBounded fun _ =>
    Async.accounts_bind Async.accounts_get fun s =>
      Async.accounts_bind (reads_closeOpen s.openCommand) fun _ => reads_request _ _

theorem reads_perform (op : Operation) : Reads [] (perform p op) := by
  cases op with
  | send guid payload => exact Async.accounts_bind (reads_send guid payload) fun _ => Async.accounts_pure _
  | recv => exact Async.accounts_bind reads_recv fun _ => Async.accounts_pure _
  | signal => exact Async.accounts_bind reads_signal fun _ => Async.accounts_pure _
  | close => exact Async.accounts_bind reads_close fun _ => Async.accounts_pure _

end Reading

/-- The lines that the whole stream of a server has, and whether an error follows
    them. -/
def linesOf (bytes : Bytes) : List Text × Bool := reference true (List.splitOn 0x0A bytes)

theorem linesRead_eq (h : List PipeEvent) :
    ((linesRead p h).1, (linesRead p h).2.isSome) = linesOf (bytesRead h) := by
  have houtcome := outcome_eq_reference p [bytesRead h]
  rw [outcome, feed_eq_push _ (Nat.zero_le _), List.flatten_singleton] at houtcome
  exact houtcome

/-- In every run, whatever becomes of its operations and however the server
    cuts its bytes: what `recv` handed out and then what is queued are, in
    order, the payloads of the lines acted on; those are all lines completed
    in the bytes that the pipe brought, up to the first that broke the session:
    for the queue as the calls before that one had left it, and with the
    payloads of the lines before it. What is queued can be received even then;
    and its cost is booked and within the limit. -/
theorem nothing_lost (p : PacketPlatform) (ackTimeout maxQueuedBytes : Nat)
    (calls : List (Call Answer Operation)) :
    let start := fresh ackTimeout maxQueuedBytes
    let r := play (perform p) calls start
    let stream := (Async.answersTaken (perform p) calls start).flatMap chunkBytes
    (∃ acted rest, (linesOf stream).1 = acted ++ rest
      ∧ handedOut r.1 ++ r.2.inbound = payloadsOf p acted
      ∧ (∀ line ∈ acted, ¬ Breaks p maxQueuedBytes [] line)
      ∧ (rest = [] ∨ ∃ line rest' before call after, rest = line :: rest'
        ∧ calls = before ++ call :: after ∧ (play (perform p) before start).2.broken = none
        ∧ (play (perform p) (before ++ [call]) start).2.broken ≠ none
        ∧ Breaks p maxQueuedBytes
          ((payloadsOf p acted).drop (handedOut (play (perform p) before start).1).length) line))
    ∧ (r.2.broken = none → (linesOf stream).2 = false)
    ∧ (∀ payload rest script turns, r.2.inbound = payload :: rest →
      (recv p ⟨r.2, script, turns + 1⟩).1 = .ok payload)
    ∧ r.2.inboundBytes = queueCosts r.2.inbound
    ∧ r.2.inboundBytes ≤ maxQueuedBytes := by
  intro start r stream
  -- What the session noted of the pipe is what the pipe brought.
  have hstream : bytesRead r.2.history = stream :=
    Async.accounts_play (fun op => reads_perform op) calls start
  have hread := linesRead_eq (p := p) r.2.history
  rw [hstream] at hread
  have hmax : r.2.maxQueuedBytes = maxQueuedBytes := by
    refine Async.play_run (fun _ (t : OutOfProcSession) => t.maxQueuedBytes = maxQueuedBytes)
      (fun past op t ht => wp_perform_preserves ?_ (fun _ h => h) ht op) calls rfl
    refine fun _ _ hm => hm.preserves_writes (I := fun t => t.maxQueuedBytes = maxQueuedBytes)
      (fun _ _ hq h => hq.keeps.maxQueuedBytes.trans h) ?_
    rintro _ _ ⟨_, _, _, _, _, rfl⟩ h
    exact h
  rcases played_conserved p ackTimeout maxQueuedBytes calls with ⟨n, h⟩
  refine ⟨?_, fun hb => ?_, ?_, h.booked.cost, hmax ▸ h.booked.room⟩
  · by_cases hbroken : r.2.broken = none
    · rcases h.balance with ⟨acted, rest, hlines, hbalance, hacted, hend⟩
      rw [hmax] at hacted
      rcases hend with ⟨hnil, _⟩ | ⟨hb, _⟩
      · exact ⟨acted, rest, (congrArg Prod.fst hread).symm.trans hlines, hbalance, hacted,
          Or.inl hnil⟩
      · exact absurd hbroken hb
    · -- One call broke the session.
      rcases Async.play_change (P := fun t : OutOfProcSession => t.broken ≠ none) calls
        (fun hnone => hnone rfl) hbroken with ⟨before, call, after, rfl, hbefore, hafter⟩
      have hnone := not_not.mp hbefore
      have hmarked := played_marked p ackTimeout maxQueuedBytes before after call hnone hafter
      rcases hmarked.balance with ⟨acted, rest, hlines, hbalance, hacted, hend⟩
      refine ⟨acted, rest, (congrArg Prod.fst hread).symm.trans hlines, hbalance,
        hmax ▸ hacted, ?_⟩
      rcases hend with ⟨hnil, _⟩ | ⟨_, line, rest', hrest, hbreaks⟩
      · exact Or.inl hnil
      · exact Or.inr ⟨line, rest', before, call, after, hrest, rfl, hnone, hafter,
          hmax ▸ hbreaks⟩
  · rcases h.balance with ⟨_, _, _, _, _, ⟨_, hsplit⟩ | ⟨hbroken, _⟩⟩
    · rw [← congrArg Prod.snd hread, (hsplit hb).1]
      rfl
    · exact absurd hb hbroken
  · exact fun payload rest script turns hin => recv_queued h.booked hin script turns

/-- Two payloads of a server. The first one comes in while a request waits, the
    other in front of a line that is none. -/
def brokenCalls : List (Call Answer Operation) :=
  let line := fun packet : Packet => packet.toLine.toUtf8
  [⟨.send Uuid.nil [1], [.answer .done,
      .answer (.chunk (line (.data .default Uuid.nil [7]) ++ line (.dataAck Uuid.nil)))], 5⟩,
    ⟨.recv, [], 5⟩,
    ⟨.recv, [.answer (.chunk (line (.data .default Uuid.nil [8]) ++ [0x3F, 0x0A]))], 5⟩,
    ⟨.recv, [], 5⟩]

/-- Both are received, and the session is broken by the line that follows those
    that carry them. -/
theorem nothing_lost_broken :
    let start := fresh 60 4096
    let r := play (perform .basic) brokenCalls start
    let stream := (Async.answersTaken (perform .basic) brokenCalls start).flatMap chunkBytes
    handedOut r.1 = [[7], [8]] ∧ r.2.broken ≠ none ∧ (linesOf stream).1.getLast? = some ['?']
      ∧ ∃ acted rest, (linesOf stream).1 = acted ++ rest
        ∧ handedOut r.1 ++ r.2.inbound = payloadsOf .basic acted ∧ ['?'] ∉ acted := by
  have hbreaks : Breaks .basic 4096 [] ['?'] := by
    have hnot : (parseLine .basic ['?']).toOption = none := by decide +kernel
    cases hparse : parseLine .basic ['?'] with
    | error e => exact Or.inl ⟨e, hparse⟩
    | ok packet =>
        rw [hparse] at hnot
        cases hnot
  refine ⟨by decide +kernel, by decide +kernel, by decide +kernel, ?_⟩
  rcases (nothing_lost .basic 60 4096 brokenCalls).1 with ⟨acted, rest, hlines, hbalance, hacted, _⟩
  exact ⟨acted, rest, hlines, hbalance, fun hmem => hacted _ hmem hbreaks⟩

end OutOfProc

end Psrp

import Psrp.Core.OutOfProc.Session

/-!
# What the Session Operations Do

What each operation of an out-of-process session can do to it, said once for
every way it can end.

Between two waits an operation either listens or writes. `Quiet` is listening:
chunks are read and acted on, and the session may break. `Wrote` is writing: a
line is begun and some of its bytes go out. A request listens until nothing is
awaited, writes one line, and listens until the acknowledgement is in
(`Requested`); everything else is made of requests.

An operation that is dropped ends in the middle of this, which is why the
relations describe every end and not only the good one.

## Main definitions

* `Usable`: Neither broken nor in the middle of a line.
* `Quiet`: What listening does.
* `Wrote`: What writing does.
* `Requested`: What a request does.

## Theorems

* `Quiet.preserves`: The induction rule for listening.
* `wp_settle`, `wp_request`: What the operations do.
-/

namespace Psrp

namespace OutOfProc

/-- Whether an event is something written. -/
def PipeEvent.isWrite : PipeEvent → Bool
  | .line _ | .sent _ => true
  | _ => false

/-- What an acknowledgement makes of the open command. -/
def openStep (opened : Option Uuid) : Packet → Option Uuid
  | .commandAck g => some g
  | .closeAck g => if opened = some g then none else opened
  | _ => opened

namespace OutOfProcSession

/-- Neither broken nor in the middle of a line. -/
def Usable (s : OutOfProcSession) : Prop := s.broken = none ∧ s.writeInProgress = false

/-- What a session may do while nothing is written: break, or hear a chunk or
    the end of the pipe. -/
inductive Quiet (p : PacketPlatform) : OutOfProcSession → OutOfProcSession → Prop
  | refl (s) : Quiet p s s
  | broke {s t} (e : PsrpError) : Quiet p (s.fail e).2 t → Quiet p s t
  | heard {s t} (read : Except PsrpError Bytes) : s.Usable → Quiet p (s.received p read).2 t →
      Quiet p s t

/-- A session in the middle of a line of which some pieces went out. -/
def writing (packet ack : Packet) (sent : List Bytes) (s : OutOfProcSession) : OutOfProcSession :=
  { s with awaiting := some ack, writeInProgress := true,
           history := s.history ++ .line packet :: sent.map .sent }

/-- The same once the write is over. -/
def wrote (packet ack : Packet) (sent : List Bytes) (s : OutOfProcSession) : OutOfProcSession :=
  { writing packet ack sent s with writeInProgress := s.writeInProgress }

/-- Where a request that does not complete can leave a session: before its
    line, in the middle of it, after a write that failed, or with all of it
    written and the acknowledgement still awaited. -/
inductive Stopped (p : PacketPlatform) (packet ack : Packet) (s : OutOfProcSession) :
    OutOfProcSession → Prop
  | unwritten {t} : Quiet p s t → Stopped p packet ack s t
  | cut {u t sent} : Quiet p s u → u.Usable → u.awaiting = none →
      sent.flatten <+: packet.toLine.toUtf8 → Quiet p (writing packet ack sent u) t →
      Stopped p packet ack s t
  | failed {u t sent e} : Quiet p s u → u.Usable → u.awaiting = none →
      sent.flatten <+: packet.toLine.toUtf8 → Quiet p ((wrote packet ack sent u).fail e).2 t →
      Stopped p packet ack s t
  | unanswered {u t sent} : Quiet p s u → u.Usable → u.awaiting = none →
      sent.flatten = packet.toLine.toUtf8 → Quiet p (wrote packet ack sent u) t →
      Stopped p packet ack s t

/-- Where a request that completes leaves a session. -/
structure Completed (p : PacketPlatform) (packet ack : Packet) (s t : OutOfProcSession) : Prop where
  usable : t.Usable
  awaiting : t.awaiting = none
  written : ∃ u sent, Quiet p s u ∧ u.Usable ∧ u.awaiting = none ∧ (s.awaiting = none → u = s)
    ∧ sent.flatten = packet.toLine.toUtf8 ∧ Quiet p (wrote packet ack sent u) t

/-- What writing changes: what is awaited, the two flags, and what went out. -/
def WritesOnly (s t : OutOfProcSession) : Prop :=
  ∃ awaiting write payload events, (∀ e ∈ events, PipeEvent.isWrite e = true)
    ∧ t = { s with awaiting := awaiting, writeInProgress := write, payloadInProgress := payload,
                   history := s.history ++ events }

/-- What an operation may do to a session as long as it takes nothing out of
    the queue: listen, begin a line when nothing is awaited and leave it
    unfinished, or write all of it, or fail to, and set the flag of a payload. -/
inductive Moves (p : PacketPlatform) : OutOfProcSession → OutOfProcSession → Prop
  | refl (s) : Moves p s s
  | quiet {s t u} : Quiet p s t → Moves p t u → Moves p s u
  | begun {s u} (packet : Packet) {sent : List Bytes} : s.Usable → s.awaiting = none →
      sent.flatten <+: packet.toLine.toUtf8 → Moves p (writing packet packet.ack sent s) u →
      Moves p s u
  | wrote {s u} (packet : Packet) {sent : List Bytes} : s.Usable → s.awaiting = none →
      sent.flatten = packet.toLine.toUtf8 → Moves p (wrote packet packet.ack sent s) u → Moves p s u
  | failed {s u} (packet : Packet) {sent : List Bytes} (e : PsrpError) : s.Usable →
      s.awaiting = none → sent.flatten <+: packet.toLine.toUtf8 →
      Moves p ((wrote packet packet.ack sent s).fail e).2 u → Moves p s u
  | payload {s u} (payload : Bool) : Moves p { s with payloadInProgress := payload } u → Moves p s u

open Async (wp wp_bind wp_mono andThen Turn)

variable {p : PacketPlatform} {s t u : OutOfProcSession}

theorem Quiet.trans (h : Quiet p s t) (h' : Quiet p t u) : Quiet p s u := by
  induction h with
  | refl s => exact h'
  | broke e _ ih => exact .broke e (ih h')
  | heard read hs _ ih => exact .heard read hs (ih h')

theorem Quiet.fail (e : PsrpError) : Quiet p s (s.fail e).2 := .broke e (.refl _)

theorem Quiet.failed (h : Quiet p s t) (e : PsrpError) : Quiet p s (t.fail e).2 :=
  h.trans (.fail e)

section Preserves

variable {I : OutOfProcSession → Prop}

theorem onLines_preserves (hline : ∀ line s, I s → I (s.onLine p line).2) (lines : List Text)
    (h : I s) : I (onLines p lines s).2 := by
  induction lines generalizing s with
  | nil => exact h
  | cons line lines ih =>
      have hfirst := hline line s h
      unfold onLines
      split
      · next hl => rwa [hl] at hfirst
      · next hl =>
          rw [hl] at hfirst
          exact ih hfirst

/-- What holds when a chunk is noted, and is kept by every line and by
    breaking, holds when the chunk has been processed. -/
theorem received_preserves
    (hchunk : ∀ chunk s, I s → I { s.note (.chunk chunk) with lines := (s.lines.push p chunk).2 })
    (hline : ∀ line s, I s → I (s.onLine p line).2) (hfail : ∀ e s, I s → I (s.fail e).2)
    (read : Except PsrpError Bytes) (h : I s) : I (s.received p read).2 := by
  unfold received
  cases read with
  | error e => exact hfail e s h
  | ok chunk =>
      have hlines := onLines_preserves hline ((s.lines.push p chunk).1).1 (hchunk chunk s h)
      -- The lines of the chunk, then the one that is too long, if there is one.
      have hprocess : I ((s.note (.chunk chunk)).process p chunk).2 := by
        unfold process
        simp only [note] at hlines ⊢
        split
        · next hl => rwa [hl] at hlines
        · next hl =>
            rw [hl] at hlines
            split <;> exact hlines
      simp only []
      split
      · next hp =>
          rw [hp] at hprocess
          exact hfail _ _ hprocess
      · next hp => rwa [hp] at hprocess

/-- The induction rule for listening. -/
theorem Quiet.preserves
    (hchunk : ∀ chunk s, I s → I { s.note (.chunk chunk) with lines := (s.lines.push p chunk).2 })
    (hline : ∀ line s, I s → I (s.onLine p line).2) (hfail : ∀ e s, I s → I (s.fail e).2)
    (hq : Quiet p s t) (h : I s) : I t := by
  induction hq with
  | refl s => exact h
  | broke e _ ih => exact ih (hfail e _ h)
  | heard read _ _ ih => exact ih (received_preserves hchunk hline hfail read h)

end Preserves

theorem acknowledged_eq (ack : Packet) (s : OutOfProcSession) :
    acknowledged ack s = { s with openCommand := openStep s.openCommand ack } := by
  cases ack with
  | closeAck g =>
      rw [acknowledged, openStep]
      split <;> rfl
  | data _ _ _ | dataAck _ | command _ | commandAck _ | signal _ | signalAck _ | close _ => rfl

theorem acknowledged_openCommand (ack : Packet) (s : OutOfProcSession) :
    (acknowledged ack s).openCommand = openStep s.openCommand ack := by
  rw [acknowledged_eq]

/-- What a line does, by the packet in it. -/
theorem onLine_cases (line : Text) (s : OutOfProcSession) :
    (∃ e, parseLine p line = .error e ∧ s.onLine p line = (.error e, s.note (.heard line)))
    ∨ (parseLine p line = .ok none ∧ s.onLine p line = (.ok (), s.note (.heard line)))
    ∨ ∃ packet, parseLine p line = .ok (some packet)
      ∧ s.onLine p line = (s.note (.heard line)).onPacket packet := by
  unfold onLine
  cases hparse : parseLine p line with
  | error e => exact Or.inl ⟨e, rfl, rfl⟩
  | ok packet =>
      cases packet with
      | none => exact Or.inr (Or.inl ⟨rfl, rfl⟩)
      | some packet => exact Or.inr (Or.inr ⟨packet, rfl, rfl⟩)

/-- What a packet does: a payload is queued or is one too many, the awaited
    acknowledgement counts, any other is ignored, and a request is refused. -/
theorem onPacket_cases (packet : Packet) (s : OutOfProcSession) :
    (∃ stream guid payload, packet = .data stream guid payload
      ∧ s.onPacket packet = s.queue payload)
    ∨ (packet.isAck = true ∧ s.awaiting = some packet
      ∧ s.onPacket packet = (.ok (), acknowledged packet { s with awaiting := none }))
    ∨ (packet.isAck = true ∧ s.awaiting ≠ some packet ∧ s.onPacket packet = (.ok (), s))
    ∨ ∃ e, s.onPacket packet = (.error e, s) ∧ packet.isAck = false
      ∧ ∀ stream guid payload, packet ≠ .data stream guid payload := by
  have hack : packet.isAck = true → s.onPacket packet = (if s.awaiting = some packet then
      (.ok (), acknowledged packet { s with awaiting := none }) else (.ok (), s)) := by
    intro hisAck
    unfold onPacket
    cases packet <;> first | rfl | cases hisAck
  -- An acknowledgement is the one that is due, or it is ignored.
  by_cases hisAck : packet.isAck = true
  · by_cases hawait : s.awaiting = some packet
    · exact Or.inr (Or.inl ⟨hisAck, hawait, by rw [hack hisAck, if_pos hawait]⟩)
    · exact Or.inr (Or.inr (Or.inl ⟨hisAck, hawait, by rw [hack hisAck, if_neg hawait]⟩))
  · rw [Bool.not_eq_true] at hisAck
    cases packet with
    | data stream guid payload => exact Or.inl ⟨stream, guid, payload, rfl, rfl⟩
    | dataAck g | commandAck g | signalAck g | closeAck g => cases hisAck
    | command g | signal g | close g =>
        exact Or.inr (Or.inr (Or.inr ⟨_, rfl, rfl, fun _ _ _ h => by cases h⟩))

/-- Queueing changes the queue at most. -/
theorem queue_cases (payload : Bytes) (s : OutOfProcSession) :
    (s.inboundBytes + queueCost payload ≤ s.maxQueuedBytes
      ∧ s.queue payload = (.ok (), { s with inboundBytes := s.inboundBytes + queueCost payload,
                                            inbound := s.inbound ++ [payload] }))
    ∨ (s.maxQueuedBytes < s.inboundBytes + queueCost payload
      ∧ ∃ e, s.queue payload = (.error e, s)) := by
  unfold queue
  by_cases hroom : s.maxQueuedBytes < s.inboundBytes + queueCost payload
  · exact Or.inr ⟨hroom, _, if_pos hroom⟩
  · exact Or.inl ⟨Nat.le_of_not_lt hroom, if_neg hroom⟩

/-- What nothing but writing changes, and that a broken session stays it. -/
structure Keeps (s t : OutOfProcSession) : Prop where
  written : t.history.filter PipeEvent.isWrite = s.history.filter PipeEvent.isWrite
  writeInProgress : t.writeInProgress = s.writeInProgress
  payloadInProgress : t.payloadInProgress = s.payloadInProgress
  maxQueuedBytes : t.maxQueuedBytes = s.maxQueuedBytes
  broken : ∀ reason, s.broken = some reason → t.broken = some reason

theorem Keeps.refl (s : OutOfProcSession) : Keeps s s := ⟨rfl, rfl, rfl, rfl, fun _ h => h⟩

theorem Keeps.trans (h : Keeps s t) (h' : Keeps t u) : Keeps s u :=
  ⟨h'.written.trans h.written, h'.writeInProgress.trans h.writeInProgress,
    h'.payloadInProgress.trans h.payloadInProgress, h'.maxQueuedBytes.trans h.maxQueuedBytes,
    fun reason hs => h'.broken reason (h.broken reason hs)⟩

theorem fail_broken (e : PsrpError) (s : OutOfProcSession) : (s.fail e).2.broken ≠ none :=
  Option.some_ne_none _

theorem keeps_fail (e : PsrpError) (s : OutOfProcSession) : Keeps s (s.fail e).2 where
  written := rfl
  writeInProgress := rfl
  payloadInProgress := rfl
  maxQueuedBytes := rfl
  broken reason h := by
    change some (s.broken.getD _) = some reason
    rw [h, Option.getD_some]

theorem keeps_note (e : PipeEvent) (he : e.isWrite = false) (s : OutOfProcSession) :
    Keeps s (s.note e) where
  written := by
    rw [note, List.filter_append, List.filter_cons_of_neg (by rw [he]; exact Bool.false_ne_true),
      List.filter_nil, List.append_nil]
  writeInProgress := rfl
  payloadInProgress := rfl
  maxQueuedBytes := rfl
  broken _ h := h

theorem keeps_onPacket (packet : Packet) (s : OutOfProcSession) :
    Keeps s (s.onPacket packet).2 := by
  rcases onPacket_cases packet s with ⟨_, _, payload, _, h⟩ | ⟨_, _, h⟩ | ⟨_, _, h⟩ | ⟨e, h, _⟩
  · rw [h]
    rcases queue_cases payload s with ⟨_, hq⟩ | ⟨_, e, hq⟩
    · rw [hq]
      exact ⟨rfl, rfl, rfl, rfl, fun _ h => h⟩
    · rw [hq]
      exact .refl s
  · rw [h]
    unfold acknowledged
    split
    · exact ⟨rfl, rfl, rfl, rfl, fun _ h => h⟩
    · split <;> exact ⟨rfl, rfl, rfl, rfl, fun _ h => h⟩
    · exact ⟨rfl, rfl, rfl, rfl, fun _ h => h⟩
  · rw [h]
    exact .refl s
  · rw [h]
    exact .refl s

theorem keeps_onLine (line : Text) (s : OutOfProcSession) : Keeps s (s.onLine p line).2 := by
  have hnote := keeps_note (.heard line) rfl s
  rcases onLine_cases (p := p) line s with ⟨e, _, h⟩ | ⟨_, h⟩ | ⟨packet, _, h⟩
  · rw [h]
    exact hnote
  · rw [h]
    exact hnote
  · rw [h]
    exact hnote.trans (keeps_onPacket packet _)

theorem Quiet.keeps (h : Quiet p s t) : Keeps s t := by
  refine h.preserves (I := Keeps s) ?_ ?_ ?_ (.refl s)
  · intro chunk t ht
    have hnote := keeps_note (.chunk chunk) rfl t
    exact ht.trans ⟨hnote.written, rfl, rfl, rfl, fun _ h => h⟩
  · exact fun line t ht => ht.trans (keeps_onLine line t)
  · exact fun e t ht => ht.trans (keeps_fail e t)

/-- What listening makes of the awaited acknowledgement: nothing, or it was
    read and counted. -/
def Heard (s t : OutOfProcSession) : Prop :=
  (t.awaiting = s.awaiting ∧ t.openCommand = s.openCommand)
  ∨ ∃ ack, s.awaiting = some ack ∧ t.awaiting = none
    ∧ t.openCommand = (acknowledged ack s).openCommand

theorem heard_onPacket (packet : Packet) (h : Heard s t) :
    Heard s (t.onPacket packet).2 := by
  rcases onPacket_cases packet t with ⟨_, _, payload, _, hp⟩ | ⟨_, hawait, hp⟩ | ⟨_, _, hp⟩
    | ⟨e, hp, _⟩
  · rw [hp]
    rcases queue_cases payload t with ⟨_, hq⟩ | ⟨_, e, hq⟩
    · rw [hq]
      exact h
    · rw [hq]
      exact h
  · rw [hp]
    -- At most one acknowledgement is due, so it is the first that is heard.
    rcases h with ⟨hsame, hopen⟩ | ⟨ack, _, hnone, _⟩
    · refine Or.inr ⟨packet, hsame ▸ hawait, ?_, ?_⟩
      · unfold acknowledged
        split
        · rfl
        · split <;> rfl
        · rfl
      · unfold acknowledged
        split
        · rfl
        · simp only [hopen]
          split <;> rfl
        · exact hopen
    · rw [hnone] at hawait
      cases hawait
  · rw [hp]
    exact h
  · rw [hp]
    exact h

theorem Quiet.hears (h : Quiet p s t) : Heard s t := by
  refine h.preserves (I := Heard s) ?_ ?_ ?_ (Or.inl ⟨rfl, rfl⟩)
  · exact fun chunk t ht => ht
  · intro line t ht
    rcases onLine_cases (p := p) line t with ⟨e, _, hl⟩ | ⟨_, hl⟩ | ⟨packet, _, hl⟩
    · rw [hl]
      exact ht
    · rw [hl]
      exact ht
    · rw [hl]
      exact heard_onPacket packet ht
  · exact fun e t ht => ht

/-- With nothing awaited, listening learns of no acknowledgement. -/
theorem Quiet.awaiting_none (h : Quiet p s t) (hs : s.awaiting = none) :
    t.awaiting = none ∧ t.openCommand = s.openCommand := by
  rcases h.hears with ⟨hsame, hopen⟩ | ⟨ack, hack, _⟩
  · exact ⟨hsame.trans hs, hopen⟩
  · rw [hs] at hack
    cases hack

/-- Once the awaited acknowledgement is in, it has been counted. -/
theorem Quiet.acknowledged (h : Quiet p s t) {ack : Packet} (hs : s.awaiting = some ack)
    (ht : t.awaiting = none) : t.openCommand = (s.acknowledged ack).openCommand := by
  rcases h.hears with ⟨hsame, _⟩ | ⟨ack', hack, _, hopen⟩
  · rw [hs, ht] at hsame
    cases hsame
  · rw [hs] at hack
    cases hack
    exact hopen

theorem onPacket_broken (packet : Packet) (s : OutOfProcSession) :
    (s.onPacket packet).2.broken = s.broken := by
  rcases onPacket_cases packet s with ⟨_, _, payload, _, h⟩ | ⟨_, _, h⟩ | ⟨_, _, h⟩ | ⟨e, h, _⟩
  · rw [h]
    rcases queue_cases payload s with ⟨_, hq⟩ | ⟨_, e, hq⟩
    · rw [hq]
    · rw [hq]
  · rw [h]
    unfold acknowledged
    split
    · rfl
    · split <;> rfl
    · rfl
  · rw [h]
  · rw [h]

theorem onLine_broken (line : Text) (s : OutOfProcSession) :
    (s.onLine p line).2.broken = s.broken := by
  rcases onLine_cases (p := p) line s with ⟨e, _, h⟩ | ⟨_, h⟩ | ⟨packet, _, h⟩
  · rw [h]
    rfl
  · rw [h]
    rfl
  · rw [h, onPacket_broken]
    rfl

/-- A chunk that is no error leaves the session as usable as it was, and an
    error breaks it. -/
theorem received_cases (read : Except PsrpError Bytes) (s : OutOfProcSession) :
    (∃ t, s.received p read = (.ok (), t) ∧ (s.Usable → t.Usable))
    ∨ ∃ e t, s.received p read = (.error e, t) ∧ t.broken ≠ none := by
  -- Whatever is read, the session keeps what it waits for.
  have hkeeps : Keeps s (s.received p read).2 := by
    refine received_preserves (I := Keeps s) ?_ ?_ ?_ read (.refl s)
    · intro chunk t ht
      have hnote := keeps_note (.chunk chunk) rfl t
      exact ht.trans ⟨hnote.written, rfl, rfl, rfl, fun _ h => h⟩
    · exact fun line t ht => ht.trans (keeps_onLine line t)
    · exact fun e t ht => ht.trans (keeps_fail e t)
  cases read with
  | error e => exact Or.inr ⟨_, _, rfl, fail_broken e s⟩
  | ok chunk =>
      -- Lines that are acted on do not break it by themselves.
      have hbroken : ∀ {lines : List Text} {t : OutOfProcSession}, t.broken = s.broken →
          (onLines p lines t).2.broken = s.broken := by
        intro lines t ht
        exact onLines_preserves (I := fun t => t.broken = s.broken)
          (fun line t ht => (onLine_broken line t).trans ht) lines ht
      unfold received at hkeeps ⊢
      simp only [] at hkeeps ⊢
      cases hp : (s.note (.chunk chunk)).process p chunk with
      | mk r t =>
          cases r with
          | error e => exact Or.inr ⟨_, _, rfl, fail_broken e t⟩
          | ok _ =>
              rw [hp] at hkeeps
              refine Or.inl ⟨t, rfl, fun hs => ⟨?_, hkeeps.writeInProgress.trans hs.2⟩⟩
              unfold process at hp
              simp only [] at hp
              split at hp
              · cases hp
              · next hl =>
                  split at hp
                  · cases hp
                    have hl' : (onLines p ((s.note (.chunk chunk)).lines.push p chunk).1.1
                        { s.note (.chunk chunk) with
                          lines := ((s.note (.chunk chunk)).lines.push p chunk).2 }).2.broken
                        = s.broken := hbroken rfl
                    rw [hl] at hl'
                    exact hl'.trans hs.1
                  · cases hp

/-- A session is usable, or every operation fails on it. -/
theorem usable_cases (p : PacketPlatform) (s : OutOfProcSession) :
    (s.usable = (.ok (), s) ∧ s.Usable)
    ∨ ∃ e t, s.usable = (.error e, t) ∧ Quiet p s t ∧ t.broken ≠ none := by
  unfold usable
  cases hb : s.broken with
  | some reason => exact Or.inr ⟨_, s, rfl, .refl s, by rw [hb]; exact Option.some_ne_none _⟩
  | none =>
      by_cases hw : s.writeInProgress = true
      · exact Or.inr ⟨_, _, if_pos hw, .fail _, fail_broken _ s⟩
      · exact Or.inl ⟨if_neg hw, hb, Bool.eq_false_iff.mpr hw⟩

theorem ready_cases (p : PacketPlatform) (s : OutOfProcSession) :
    (s.ready = (.ok (), s) ∧ s.Usable ∧ s.payloadInProgress = false)
    ∨ ∃ e t, s.ready = (.error e, t) ∧ Quiet p s t ∧ t.broken ≠ none := by
  unfold ready
  rcases usable_cases p s with ⟨h, hs⟩ | ⟨e, t, h, hq, hb⟩
  · simp only [h]
    by_cases hp : s.payloadInProgress = true
    · exact Or.inr ⟨_, _, if_pos hp, .fail _, fail_broken _ s⟩
    · exact Or.inl ⟨if_neg hp, hs, Bool.eq_false_iff.mpr hp⟩
  · simp only [h]
    exact Or.inr ⟨e, t, rfl, hq, hb⟩

section Ends

variable {α : Type}

/-- How a part of an operation ends: well, or in some other way, of which an
    error always breaks the session. -/
abbrev Stops (stopped : OutOfProcSession → Prop) (good : α → OutOfProcSession → Prop) :
    Exit PsrpError α → OutOfProcSession → Prop :=
  Async.Ends stopped (fun _ t => stopped t ∧ t.broken ≠ none) good

variable {stopped : OutOfProcSession → Prop} {good : α → OutOfProcSession → Prop}

/-- The rule for sequences. -/
theorem wp_then {β : Type} {q : Prog OutOfProcSession α} {f : α → Prog OutOfProcSession β}
    {stopped' : OutOfProcSession → Prop} {result : β → OutOfProcSession → Prop}
    (h : wp q (Stops stopped good) s) (hstopped : ∀ t, stopped t → stopped' t)
    (hgood : ∀ a t, good a t → wp (f a) (Stops stopped' result) t) :
    wp (q >>= f) (Stops stopped' result) s :=
  Async.wp_seq h hstopped (fun _ t ht => ⟨hstopped t ht.1, ht.2⟩) hgood

theorem wp_usable : wp (Async.update usable : Prog _ _)
    (Stops (Quiet p s) fun _ t => t = s ∧ s.Usable) s := by
  refine Async.wp_update ?_ ?_
  · intro a t h
    rcases usable_cases p s with ⟨hok, hs⟩ | ⟨e, _, herr, _⟩
    · rw [hok] at h
      cases h
      exact ⟨rfl, hs⟩
    · rw [herr] at h
      cases h
  · intro e t h
    rcases usable_cases p s with ⟨hok, _⟩ | ⟨e', t', herr, hq, hb⟩
    · rw [hok] at h
      cases h
    · rw [herr] at h
      cases h
      exact ⟨hq, hb⟩

theorem wp_ready : wp (Async.update ready : Prog _ _)
    (Stops (Quiet p s) fun _ t => t = s ∧ s.Usable ∧ s.payloadInProgress = false) s := by
  refine Async.wp_update ?_ ?_
  · intro a t h
    rcases ready_cases p s with ⟨hok, hs⟩ | ⟨e, _, herr, _⟩
    · rw [hok] at h
      cases h
      exact ⟨rfl, hs⟩
    · rw [herr] at h
      cases h
  · intro e t h
    rcases ready_cases p s with ⟨hok, _⟩ | ⟨e', t', herr, hq, hb⟩
    · rw [hok] at h
      cases h
    · rw [herr] at h
      cases h
      exact ⟨hq, hb⟩

/-- One chunk: the read is the only wait. -/
theorem wp_pump : wp (pump p) (Stops (Quiet p s) fun _ t => Quiet p s t ∧ t.Usable) s := by
  unfold pump
  refine wp_then (wp_usable (p := p)) (fun _ h => h) ?_
  rintro _ t ⟨rfl, hs⟩
  refine wp_bind (Async.wp_await ?_ (fun _ => .refl _) (.refl _))
  intro _ read _
  refine Async.wp_update ?_ ?_
  · intro _ u hu
    -- Reading only hears; nothing is written.
    have hq : Quiet p t u := .heard read hs (by rw [hu]; exact .refl u)
    rcases received_cases (p := p) read t with ⟨u', h, husable⟩ | ⟨e, u', h, _⟩
    · rw [h] at hu
      cases hu
      exact ⟨hq, husable hs⟩
    · rw [h] at hu
      cases hu
  · intro e u hu
    have hq : Quiet p t u := .heard read hs (by rw [hu]; exact .refl u)
    rcases received_cases (p := p) read t with ⟨u', h, _⟩ | ⟨e', u', h, hb⟩
    · rw [h] at hu
      cases hu
    · rw [h] at hu
      cases hu
      exact ⟨hq, hb⟩

/-- Reading until nothing is awaited is listening. With nothing awaited it is
    nothing at all. -/
theorem wp_settle : wp (settle p)
    (Stops (fun t => Quiet p s t ∧ (s.awaiting = none → t = s)) fun _ t =>
      Quiet p s t ∧ t.awaiting = none ∧ (s.Usable → t.Usable) ∧ (s.awaiting = none → t = s)) s := by
  unfold settle
  -- The invariant: only what is heard has changed, and nothing has if nothing was due.
  refine Async.wp_loop (fun _ t => Quiet p s t ∧ (s.Usable → t.Usable) ∧ (s.awaiting = none → t = s))
    ⟨.refl s, id, fun _ => rfl⟩ ?_ ?_
  · rintro _ t ⟨hq, _, hsame⟩
    exact ⟨hq, hsame⟩
  · rintro _ t ⟨hq, husable, hsame⟩
    refine wp_bind (Async.wp_get ?_)
    by_cases hawait : t.awaiting.isSome = true
    · -- Something is due, so one more chunk is read.
      have hs : s.awaiting ≠ none := by
        intro hs
        rw [hsame hs, hs] at hawait
        cases hawait
      simp only [andThen, hawait, if_true]
      refine wp_bind (wp_mono wp_pump fun x u hu => ?_)
      cases x with
      | ok _ => exact Async.wp_pure ⟨hq.trans hu.1, fun _ => hu.2, fun h => absurd h hs⟩
      | err e => exact ⟨⟨hq.trans hu.1, fun h => absurd h hs⟩, hu.2⟩
      | cut n => exact ⟨hq.trans hu, fun h => absurd h hs⟩
      | suspended => exact ⟨hq.trans hu, fun h => absurd h hs⟩
    · simp only [andThen, if_neg hawait]
      rw [Bool.not_eq_true, Option.isSome_eq_false_iff, Option.isNone_iff_eq_none] at hawait
      exact Async.wp_pure ⟨hq, hawait, husable, hsame⟩

/-- A time limit lets go of what it interrupts, and breaks the session. -/
theorem wp_within {q : Prog OutOfProcSession Unit} {fallback : Packet}
    {good : Unit → OutOfProcSession → Prop}
    (h : wp q (Stops stopped good) s) (hfail : ∀ e t, stopped t → stopped (t.fail e).2) :
    wp (within p fallback q) (Stops stopped good) s := by
  unfold within
  refine wp_bind (Async.wp_guarded (wp_mono h fun x t hx => ?_))
  cases x with
  | ok a => exact Async.wp_pure hx
  | err e => exact hx
  | cut n =>
      cases n with
      -- The alarm is this one: the command is given up.
      | zero =>
          refine Async.wp_update (fun a u hu => by cases hu) ?_
          intro e u hu
          cases hu
          exact ⟨hfail _ t hx, fail_broken _ t⟩
      | succ n => exact hx
  | suspended => exact hx

/-- How far a write gets: as many pieces as went out are the start of the line,
    and all of it when the write went well. -/
theorem wp_write (packet ack : Packet) (u : OutOfProcSession)
    (hu : s = { u with awaiting := some ack, writeInProgress := true }) :
    wp (write packet) (Async.Ends
      (fun t => ∃ sent, sent.flatten <+: packet.toLine.toUtf8 ∧ t = writing packet ack sent u)
      (fun _ _ => False)
      fun r t => ∃ sent, sent.flatten <+: packet.toLine.toUtf8 ∧ t = writing packet ack sent u
        ∧ (r = .ok () → sent.flatten = packet.toLine.toUtf8)) s := by
  unfold write writeRest
  refine wp_bind (Async.wp_modify ?_)
  -- The invariant: what was sent and what is left are the line.
  refine Async.wp_loop (fun rest t => ∃ sent, sent.flatten ++ rest = packet.toLine.toUtf8
    ∧ t = writing packet ack sent u) ⟨[], rfl, ?_⟩ ?_ ?_
  · rw [hu]
    rfl
  · rintro rest t ⟨sent, hsent, ht⟩
    exact ⟨sent, ⟨rest, hsent⟩, ht⟩
  · rintro rest t ⟨sent, hsent, rfl⟩
    have hnote : ∀ bytes, (writing packet ack sent u).note (.sent bytes)
        = writing packet ack (sent ++ [bytes]) u := by
      intro bytes
      simp only [note, writing, List.map_append, List.map_cons, List.map_nil, List.append_assoc,
        List.cons_append]
    refine wp_bind (Async.wp_await ?_ (fun _ => ⟨sent, ⟨rest, hsent⟩, rfl⟩)
      ⟨sent, ⟨rest, hsent⟩, rfl⟩)
    intro _ answer _
    cases answer with
    | error e => exact Async.wp_pure ⟨sent, ⟨rest, hsent⟩, rfl, fun h => by cases h⟩
    | ok progress =>
        cases progress with
        | none =>
            refine wp_bind (Async.wp_modify (Async.wp_pure ?_))
            -- Everything that was left was taken.
            have hall : (sent ++ [rest]).flatten = packet.toLine.toUtf8 := by
              rw [List.flatten_append, List.flatten_singleton, hsent]
            exact ⟨sent ++ [rest], ⟨[], by rw [List.append_nil, hall]⟩, hnote rest, fun _ => hall⟩
        | some n =>
            refine wp_bind (Async.wp_modify (Async.wp_pure ⟨sent ++ [rest.take n], ?_, hnote _⟩))
            rw [List.flatten_append, List.flatten_singleton, List.append_assoc,
              List.take_append_drop, hsent]

theorem Stopped.quiet {packet ack : Packet} (h : Stopped p packet ack s t) (h' : Quiet p t u) :
    Stopped p packet ack s u := by
  cases h with
  | unwritten hq => exact .unwritten (hq.trans h')
  | cut hq hu ha hsent ht => exact .cut hq hu ha hsent (ht.trans h')
  | failed hq hu ha hsent ht => exact .failed hq hu ha hsent (ht.trans h')
  | unanswered hq hu ha hsent ht => exact .unanswered hq hu ha hsent (ht.trans h')

theorem wp_exchange (packet ack : Packet) (hs : s.Usable) : wp (exchange p packet ack)
    (Stops (Stopped p packet ack s) fun _ t => Completed p packet ack s t) s := by
  unfold exchange
  refine wp_then wp_settle (fun t ht => .unwritten ht.1) ?_
  rintro _ u ⟨hq, hawait, husable, hsame⟩
  have hu := husable hs
  -- Nothing is due any more, so the line is written, and the flag is up meanwhile.
  refine wp_bind (Async.wp_modify ?_)
  refine Async.wp_seq (wp_write packet ack u rfl) ?_ (fun _ _ h => h.elim) ?_
  · rintro t ⟨sent, hsent, rfl⟩
    exact .cut hq hu hawait hsent (.refl _)
  · rintro r _ ⟨sent, hsent, rfl, hall⟩
    have hwrote : { writing packet ack sent u with writeInProgress := false }
        = wrote packet ack sent u := by
      rw [wrote, hu.2]
    refine wp_bind (Async.wp_modify ?_)
    simp only [andThen, hwrote]
    cases r with
    | error e =>
        refine Async.wp_update (fun a t ht => by cases ht) ?_
        intro e' t ht
        cases ht
        exact ⟨.failed hq hu hawait hsent (.refl _), fail_broken e _⟩
    | ok _ =>
        -- The line is out, and its acknowledgement is waited for.
        refine Async.wp_ends wp_settle (fun t ht => .unanswered hq hu hawait (hall rfl) ht.1)
          (fun e t ht => ⟨.unanswered hq hu hawait (hall rfl) ht.1.1, ht.2⟩) ?_
        rintro _ t ⟨ht, hnone, huse, _⟩
        exact ⟨huse hu, hnone, u, sent, hq, hu, hawait, hsame, hall rfl, ht⟩

/-- What a request does. -/
theorem wp_request (packet ack : Packet) : wp (request p packet ack)
    (Stops (Stopped p packet ack s) fun _ t => Completed p packet ack s t) s := by
  unfold request
  refine wp_then (wp_usable (p := p)) (fun t ht => .unwritten ht) ?_
  rintro _ t ⟨rfl, hs⟩
  exact wp_within (wp_exchange packet ack hs) fun e t ht => ht.quiet (.fail e)

theorem wp_settleBounded : wp (settleBounded p)
    (Stops (Quiet p s) fun _ t => Quiet p s t ∧ t.awaiting = none ∧ (s.Usable → t.Usable)) s := by
  unfold settleBounded
  refine wp_bind (Async.wp_get ?_)
  cases hawait : s.awaiting with
  | none =>
      simp only [andThen, hawait]
      exact Async.wp_pure ⟨.refl s, hawait, id⟩
  | some pending =>
      have hsettle : wp (settle p) (Stops (Quiet p s) fun _ t =>
          Quiet p s t ∧ t.awaiting = none ∧ (s.Usable → t.Usable)) s :=
        Async.wp_ends wp_settle (fun t ht => ht.1) (fun e t ht => ⟨ht.1.1, ht.2⟩)
          fun _ t ht => ⟨ht.1, ht.2.1, ht.2.2.1⟩
      simp only [andThen, hawait]
      exact wp_within hsettle fun e t ht => ht.failed e

end Ends

section Moves

theorem Moves.trans (h : Moves p s t) (h' : Moves p t u) : Moves p s u := by
  induction h with
  | refl s => exact h'
  | quiet hq _ ih => exact .quiet hq (ih h')
  | begun packet hs ha hsent _ ih => exact .begun packet hs ha hsent (ih h')
  | wrote packet hs ha hsent _ ih => exact .wrote packet hs ha hsent (ih h')
  | failed packet e hs ha hsent _ ih => exact .failed packet e hs ha hsent (ih h')
  | payload b _ ih => exact .payload b (ih h')

/-- What both listening and writing keep is kept. -/
theorem Moves.preserves {I : OutOfProcSession → Prop} (hquiet : ∀ s t, Quiet p s t → I s → I t)
    (hbegun : ∀ packet sent s, s.Usable → sent.flatten <+: packet.toLine.toUtf8 → I s →
      I (writing packet packet.ack sent s))
    (hwrote : ∀ packet sent s, s.Usable → sent.flatten = packet.toLine.toUtf8 → I s →
      I (OutOfProcSession.wrote packet packet.ack sent s))
    (hfailed : ∀ packet sent e s, s.Usable → sent.flatten <+: packet.toLine.toUtf8 → I s →
      I ((OutOfProcSession.wrote packet packet.ack sent s).fail e).2)
    (hpayload : ∀ b s, I s → I { s with payloadInProgress := b })
    (hm : Moves p s t) (h : I s) : I t := by
  induction hm with
  | refl s => exact h
  | quiet hq _ ih => exact ih (hquiet _ _ hq h)
  | begun packet hs _ hsent _ ih => exact ih (hbegun packet _ _ hs hsent h)
  | wrote packet hs _ hsent _ ih => exact ih (hwrote packet _ _ hs hsent h)
  | failed packet e hs _ hsent _ ih => exact ih (hfailed packet _ e _ hs hsent h)
  | payload b _ ih => exact ih (hpayload b _ h)

theorem Quiet.moves (h : Quiet p s t) : Moves p s t := .quiet h (.refl t)

theorem writes_writing (packet ack : Packet) (sent : List Bytes) (s : OutOfProcSession) :
    WritesOnly s (writing packet ack sent s) := by
  refine ⟨some ack, true, s.payloadInProgress, .line packet :: sent.map .sent, ?_, rfl⟩
  intro e he
  rcases List.mem_cons.mp he with rfl | he
  · rfl
  · rcases List.mem_map.mp he with ⟨bytes, _, rfl⟩
    rfl

theorem writes_wrote (packet ack : Packet) (sent : List Bytes) (s : OutOfProcSession) :
    WritesOnly s (wrote packet ack sent s) := by
  rcases writes_writing packet ack sent s with ⟨awaiting, write, payload, events, he, h⟩
  refine ⟨awaiting, s.writeInProgress, payload, events, he, ?_⟩
  rw [wrote, h]

theorem writes_payload (payload : Bool) (s : OutOfProcSession) :
    WritesOnly s { s with payloadInProgress := payload } :=
  ⟨s.awaiting, s.writeInProgress, payload, [], fun _ h => absurd h List.not_mem_nil,
    by rw [List.append_nil]⟩

/-- What does not depend on what writing changes is kept by every move. -/
theorem Moves.preserves_writes {I : OutOfProcSession → Prop}
    (hquiet : ∀ s t, Quiet p s t → I s → I t) (hwrite : ∀ s t, WritesOnly s t → I s → I t)
    (hm : Moves p s t) (h : I s) : I t := by
  refine hm.preserves hquiet ?_ ?_ ?_ ?_ h
  · exact fun packet sent s _ _ hs => hwrite _ _ (writes_writing packet _ sent s) hs
  · exact fun packet sent s _ _ hs => hwrite _ _ (writes_wrote packet _ sent s) hs
  · exact fun packet sent e s _ _ hs =>
      hquiet _ _ (.fail e) (hwrite _ _ (writes_wrote packet _ sent s) hs)
  · exact fun b s hs => hwrite _ _ (writes_payload b s) hs

theorem Stopped.moves {packet : Packet} (h : Stopped p packet packet.ack s t) : Moves p s t := by
  cases h with
  | unwritten hq => exact hq.moves
  | cut hq hu ha hsent ht => exact .quiet hq (.begun packet hu ha hsent ht.moves)
  | failed hq hu ha hsent ht => exact .quiet hq (.failed packet _ hu ha hsent ht.moves)
  | unanswered hq hu ha hsent ht => exact .quiet hq (.wrote packet hu ha hsent ht.moves)

theorem Completed.moves {packet : Packet} (h : Completed p packet packet.ack s t) :
    Moves p s t := by
  rcases h.written with ⟨u, sent, hq, hu, ha, _, hsent, ht⟩
  exact .quiet hq (.wrote packet hu ha hsent ht.moves)

/-- Sequences of what only moves the session. -/
theorem wp_move {α β : Type} {q : Prog OutOfProcSession α} {f : α → Prog OutOfProcSession β}
    (h : wp q (Stops (Moves p s) fun _ t => Moves p s t) s)
    (hf : ∀ a t, wp (f a) (Stops (Moves p t) fun _ u => Moves p t u) t) :
    wp (q >>= f) (Stops (Moves p s) fun _ t => Moves p s t) s :=
  wp_then h (fun _ ht => ht) fun a t ht =>
    Async.wp_ends (hf a t) (fun _ hu => ht.trans hu) (fun _ _ hu => ⟨ht.trans hu.1, hu.2⟩)
      fun _ _ hu => ht.trans hu

theorem wp_moves_ready : wp (Async.update ready : Prog _ _)
    (Stops (Moves p s) fun _ t => Moves p s t) s :=
  Async.wp_ends (wp_ready (p := p)) (fun _ ht => ht.moves) (fun _ _ ht => ⟨ht.1.moves, ht.2⟩)
    fun _ t ht => by
      rw [ht.1]
      exact .refl s

theorem wp_moves_request (packet : Packet) :
    wp (request p packet packet.ack) (Stops (Moves p s) fun _ t => Moves p s t) s :=
  Async.wp_ends (wp_request packet packet.ack) (fun _ ht => ht.moves) (fun _ _ ht => ⟨ht.1.moves, ht.2⟩)
    fun _ _ ht => ht.moves

theorem wp_moves_settleBounded :
    wp (settleBounded p) (Stops (Moves p s) fun _ t => Moves p s t) s :=
  Async.wp_ends wp_settleBounded (fun _ ht => ht.moves) (fun _ _ ht => ⟨ht.1.moves, ht.2⟩)
    fun _ _ ht => ht.1.moves

theorem wp_moves_get : wp (Async.get : Prog _ _)
    (Stops (Moves p s) fun _ t => Moves p s t) s := Async.wp_get (.refl s)

theorem wp_moves_closeOpen (opened : Option Uuid) :
    wp (closeOpen p opened) (Stops (Moves p s) fun _ t => Moves p s t) s := by
  unfold closeOpen
  split
  · exact wp_moves_request _
  · exact Async.wp_pure (.refl s)

theorem wp_moves_switchTo (guid : Uuid) :
    wp (switchTo p guid) (Stops (Moves p s) fun _ t => Moves p s t) s := by
  unfold switchTo
  refine wp_move wp_moves_settleBounded fun _ t => wp_move wp_moves_get fun t' u => ?_
  simp only []
  split
  · exact wp_move (wp_moves_closeOpen _) fun _ v => wp_moves_request _
  · exact Async.wp_pure (.refl u)

theorem wp_moves_sendChunks (guid : Uuid) (chunks : List Bytes) :
    wp (sendChunks p guid chunks) (Stops (Moves p s) fun _ t => Moves p s t) s := by
  induction chunks generalizing s with
  | nil => exact Async.wp_pure (.refl s)
  | cons chunk chunks ih => exact wp_move (wp_moves_request _) fun _ t => ih

theorem wp_moves_payload (payload : Bool) :
    wp (Async.modify (fun s => { s with payloadInProgress := payload }) : Prog _ _)
      (Stops (Moves p s) fun _ t => Moves p s t) s :=
  Async.wp_modify (.payload payload (.refl _))

theorem wp_moves_send (guid : Uuid) (payload : Bytes) :
    wp (send p guid payload) (Stops (Moves p s) fun _ t => Moves p s t) s := by
  unfold send
  split
  · exact Async.wp_pure (.refl s)
  · have hpayload : ∀ t, wp (sendPayload p guid payload)
        (Stops (Moves p t) fun _ u => Moves p t u) t := fun t =>
      wp_move (wp_moves_payload _) fun _ u =>
        wp_move (wp_moves_sendChunks guid _) fun _ v => wp_moves_payload _
    refine wp_move wp_moves_ready fun _ t => ?_
    simp only []
    split
    · exact wp_move (wp_moves_switchTo guid) fun _ u => hpayload u
    · exact hpayload t

theorem wp_moves_signal :
    wp (signal p) (Stops (Moves p s) fun _ t => Moves p s t) s := by
  unfold signal
  refine wp_move wp_moves_ready fun _ t => wp_move wp_moves_settleBounded fun _ u =>
    wp_move wp_moves_get fun _ v => ?_
  split
  · exact wp_moves_request _
  · exact Async.wp_pure (.refl v)

theorem wp_moves_close :
    wp (close p) (Stops (Moves p s) fun _ t => Moves p s t) s := by
  unfold close
  exact wp_move wp_moves_ready fun _ t => wp_move wp_moves_settleBounded fun _ u =>
    wp_move wp_moves_get fun _ v => wp_move (wp_moves_closeOpen _) fun _ w =>
      wp_moves_request _

end Moves

/-- What listening and taking from the queue keep, `recv` keeps. -/
theorem wp_recv_preserves {I : OutOfProcSession → Prop} (hquiet : ∀ s t, Quiet p s t → I s → I t)
    (hdequeue : ∀ s, I s → I s.dequeue.2) (h : I s) :
    wp (recv p) (Stops I fun _ t => I t) s := by
  unfold recv
  refine Async.wp_loop (fun _ t => I t) h (fun _ _ ht => ht) ?_
  intro _ t ht
  refine wp_bind (Async.wp_update (fun payload u hu => ?_) (fun e u hu => by cases hu))
  cases hu
  -- The queue is looked at first.
  have htaken := hdequeue t ht
  cases t.dequeue.1 with
  | some payload => exact Async.wp_pure htaken
  | none =>
      refine wp_bind (wp_mono (wp_ready (p := p)) fun x u hu => ?_)
      cases x with
      | err e => exact ⟨hquiet _ _ hu.1 htaken, hu.2⟩
      | cut n => exact hquiet _ _ hu htaken
      | suspended => exact hquiet _ _ hu htaken
      | ok _ =>
          rcases hu with ⟨rfl, _⟩
          refine wp_bind (Async.wp_attempt (wp_mono wp_pump fun x u hu => ?_))
          cases x with
          | ok _ => exact Async.wp_pure (hquiet _ _ hu.1 htaken)
          | cut n => exact hquiet _ _ hu htaken
          | suspended => exact hquiet _ _ hu htaken
          | err e =>
              -- A read that failed may have queued something before, which is handed out.
              have hagain := hdequeue u (hquiet _ _ hu.1 htaken)
              refine wp_bind (Async.wp_update (fun payload v hv => ?_) (fun e v hv => by cases hv))
              cases hv
              cases u.dequeue.1 with
              | some payload => exact Async.wp_pure hagain
              | none => exact Async.wp_throw ⟨hagain, hu.2⟩

/-- An operation of a session. -/
inductive Operation where
  | send (guid : Uuid) (payload : Bytes)
  | recv
  | signal
  | close
  deriving DecidableEq

/-- Perform an operation. Only `recv` returns anything. -/
def perform (p : PacketPlatform) : Operation → Prog OutOfProcSession (Option Bytes)
  | .send guid payload => do
    send p guid payload
    return none
  | .recv => do
    let payload ← recv p
    return some payload
  | .signal => do
    signal p
    return none
  | .close => do
    close p
    return none

/-- What is returned does not matter to what holds at every end. -/
theorem wp_return {α β : Type} {q : Prog OutOfProcSession α} {f : α → β}
    {I : OutOfProcSession → Prop} (h : wp q (Stops I fun _ t => I t) s) :
    wp (q >>= fun a => pure (f a)) (fun _ t => I t) s := by
  refine wp_bind (wp_mono h fun x t hx => ?_)
  cases x with
  | ok a => exact Async.wp_pure hx
  | err e => exact hx.1
  | cut n => exact hx
  | suspended => exact hx

/-- What moving and taking from the queue keep, every operation keeps, however
    it ends. -/
theorem wp_perform_preserves {I : OutOfProcSession → Prop}
    (hmoves : ∀ s t, Moves p s t → I s → I t)
    (hdequeue : ∀ s, I s → I s.dequeue.2) (h : I s) (op : Operation) :
    wp (perform p op) (fun _ t => I t) s := by
  have hkeep : ∀ {q : Prog OutOfProcSession Unit},
      wp q (Stops (Moves p s) fun _ t => Moves p s t) s → wp q (Stops I fun _ t => I t) s :=
    fun hq => Async.wp_ends hq (fun t ht => hmoves s t ht h)
      (fun _ t ht => ⟨hmoves s t ht.1 h, ht.2⟩) fun _ t ht => hmoves s t ht h
  cases op with
  | send guid payload => exact wp_return (hkeep (wp_moves_send guid payload))
  | recv => exact wp_return (wp_recv_preserves (fun s t hq => hmoves s t hq.moves) hdequeue h)
  | signal => exact wp_return (hkeep wp_moves_signal)
  | close => exact wp_return (hkeep wp_moves_close)

/-- A session before its first operation, whatever it is configured with. -/
def fresh (ackTimeout maxQueuedBytes : Nat) : OutOfProcSession :=
  (new.withAckTimeout ackTimeout).withMaxQueuedBytes maxQueuedBytes

end OutOfProcSession

end OutOfProc

end Psrp

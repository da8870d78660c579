import Psrp.Theory.OutOfProc.Session

/-!
# Whole Payloads

A payload reaches the server whole, or it is the last thing written.

The bytes on the wire are read line by line (`writtenLines`), each line with
as much of it as went out. The lines of a payload follow one another without
any other line of data in between. When the send that writes them is dropped,
what is there is nothing of the payload, all of it, or a part (`Progress`);
and in the last case one of three fields silences the session for good
(`Silenced`): it is broken, or a write or a payload is marked as in progress.

A payload of a single line needs no mark: between its pieces there is no wait
outside the write. That is the case `two_chunks` is about.

## Main definitions

* `writtenLines`, `dataLines`: The lines on the wire, and those with data.
* `Silenced`: Nothing is written any more.
* `Progress`: How much of a payload is on the wire.
* `Delivered`: What a run has put on the wire.

## Theorems

* `wp_silenced`: A silenced session writes nothing.
* `whole_or_last`: In every run, payloads are whole but for the last.
-/

namespace Psrp

namespace OutOfProc

open OutOfProcSession
open Async (wp wp_and wp_bind wp_mono andThen Call play)

variable {p : PacketPlatform} {s t u : OutOfProcSession}

/-- More bytes of the last line. -/
def addBytes (bytes : Bytes) : List (Packet × Bytes) → List (Packet × Bytes)
  | [] => []
  | [(packet, sent)] => [(packet, sent ++ bytes)]
  | line :: lines => line :: addBytes bytes lines

/-- What an event adds to the lines on the wire. -/
def addEvent (lines : List (Packet × Bytes)) : PipeEvent → List (Packet × Bytes)
  | .line packet => lines ++ [(packet, [])]
  | .sent bytes => addBytes bytes lines
  | _ => lines

/-- The lines begun, each with what went out of it. -/
def writtenLines (h : List PipeEvent) : List (Packet × Bytes) := h.foldl addEvent []

/-- All bytes that went out. -/
def bytesWritten (h : List PipeEvent) : Bytes :=
  h.flatMap fun e => match e with
    | .sent bytes => bytes
    | _ => []

/-- The whole line of a packet. -/
def wholeLine (packet : Packet) : Packet × Bytes := (packet, packet.toLine.toUtf8)

def isData : Packet → Bool
  | .data _ _ _ => true
  | _ => false

/-- The lines with data. -/
def dataLines (s : OutOfProcSession) : List (Packet × Bytes) :=
  (writtenLines s.history).filter fun line => isData line.1

theorem addBytes_append (bytes sent : Bytes) (packet : Packet) (lines : List (Packet × Bytes)) :
    addBytes bytes (lines ++ [(packet, sent)]) = lines ++ [(packet, sent ++ bytes)] := by
  induction lines with
  | nil => rfl
  | cons line lines ih =>
      cases lines with
      | nil => rfl
      | cons line' lines => exact congrArg (line :: ·) ih

theorem writtenLines_snoc (h : List PipeEvent) (e : PipeEvent) :
    writtenLines (h ++ [e]) = addEvent (writtenLines h) e := by
  rw [writtenLines, List.foldl_append]
  rfl

theorem writtenLines_line (h : List PipeEvent) (packet : Packet) (sent : List Bytes) :
    writtenLines (h ++ .line packet :: sent.map .sent)
      = writtenLines h ++ [(packet, sent.flatten)] := by
  induction sent using List.reverseRecOn with
  | nil => exact writtenLines_snoc h (.line packet)
  | append_singleton sent bytes ih =>
      rw [List.map_append, ← List.cons_append, ← List.append_assoc, List.map_singleton,
        writtenLines_snoc, ih, addEvent, addBytes_append, List.flatten_append,
        List.flatten_singleton]

/-- Only what is written makes lines. -/
theorem writtenLines_filter (h : List PipeEvent) :
    writtenLines h = writtenLines (h.filter PipeEvent.isWrite) := by
  induction h using List.reverseRecOn with
  | nil => rfl
  | append_singleton h e ih =>
      rw [writtenLines_snoc, List.filter_append, ih]
      cases e with
      | line packet => exact (writtenLines_snoc _ _).symm
      | sent bytes => exact (writtenLines_snoc _ _).symm
      | chunk bytes => rw [List.filter_cons_of_neg Bool.false_ne_true, List.filter_nil, List.append_nil]; rfl
      | heard line => rw [List.filter_cons_of_neg Bool.false_ne_true, List.filter_nil, List.append_nil]; rfl

theorem bytesWritten_filter (h : List PipeEvent) :
    bytesWritten h = bytesWritten (h.filter PipeEvent.isWrite) := by
  induction h with
  | nil => rfl
  | cons e h ih =>
      rw [bytesWritten, List.flatMap_cons]
      cases e with
      | line packet | sent bytes => exact congrArg (_ ++ ·) ih
      | chunk bytes | heard line => exact ih

theorem keeps_lines (h : Keeps s t) : writtenLines t.history = writtenLines s.history := by
  rw [writtenLines_filter, h.written, ← writtenLines_filter]

theorem keeps_dataLines (h : Keeps s t) : dataLines t = dataLines s := by
  rw [dataLines, keeps_lines h]
  rfl

section Silence

/-- Nothing is written any more: the session is broken, or a write or a payload
    was abandoned. -/
def Silenced (s : OutOfProcSession) : Prop :=
  s.broken ≠ none ∨ s.writeInProgress = true ∨ s.payloadInProgress = true

theorem Silenced.keeps (h : Silenced s) (hk : Keeps s t) : Silenced t := by
  rcases h with hb | hw | hp
  · rcases Option.ne_none_iff_exists'.mp hb with ⟨reason, hreason⟩
    exact Or.inl (by rw [hk.broken reason hreason]; exact Option.some_ne_none _)
  · exact Or.inr (Or.inl (hk.writeInProgress.trans hw))
  · exact Or.inr (Or.inr (hk.payloadInProgress.trans hp))

/-- No operation starts on a silenced session. -/
theorem wp_ready_silenced (h : Silenced s) : wp (Async.update ready : Prog _ _)
    (Stops (Quiet p s) fun _ _ => False) s := by
  refine Async.wp_ends (wp_ready (p := p)) (fun _ ht => ht) (fun _ _ ht => ht) ?_
  rintro _ t ⟨_, husable, hp⟩
  rcases h with hb | hw | hp'
  · exact hb husable.1
  · rw [husable.2] at hw
    cases hw
  · rw [hp] at hp'
    cases hp'

/-- A silenced session stays silenced and writes nothing, whatever is tried. -/
theorem wp_silenced (h : Silenced s) (op : Operation) : wp (perform p op)
    (fun _ t => Silenced t
      ∧ t.history.filter PipeEvent.isWrite = s.history.filter PipeEvent.isWrite) s := by
  have hquiet : ∀ {t}, Quiet p s t → Silenced t
      ∧ t.history.filter PipeEvent.isWrite = s.history.filter PipeEvent.isWrite :=
    fun hq => ⟨h.keeps hq.keeps, hq.keeps.written⟩
  have hstart : ∀ {α β : Type} {f : α → Prog OutOfProcSession β} {g : Unit → Prog _ α},
      wp ((Async.update ready >>= g) >>= f) (fun _ t => Silenced t
        ∧ t.history.filter PipeEvent.isWrite = s.history.filter PipeEvent.isWrite) s := by
    intro α β f g
    refine wp_bind (wp_bind (wp_mono (wp_ready_silenced (p := p) h) fun x t hx => ?_))
    cases x with
    | ok _ => exact hx.elim
    | err e => exact hquiet hx.1
    | cut n => exact hquiet hx
    | suspended => exact hquiet hx
  cases op with
  | send guid payload =>
      simp only [perform, send]
      split
      · exact fun _ _ => ⟨h, rfl⟩
      · exact hstart
  | recv =>
      refine wp_return (wp_recv_preserves ?_ (fun _ ht => ht) ⟨h, rfl⟩)
      exact fun _ _ hq ht => ⟨ht.1.keeps hq.keeps, hq.keeps.written.trans ht.2⟩
  | signal => exact hstart
  | close => exact hstart

/-- A silenced session accepts no payload. -/
theorem wp_send_silenced (h : Silenced s) (guid : Uuid) {payload : Bytes} (hne : payload ≠ []) :
    wp (perform p (.send guid payload)) (fun x _ => ∀ a, x ≠ .ok a) s := by
  simp only [perform, send, if_neg hne]
  refine wp_bind (wp_bind (wp_mono (wp_ready_silenced (p := p) h) fun x t hx => ?_))
  cases x with
  | ok _ => exact hx.elim
  | err e => exact fun _ heq => by cases heq
  | cut n => exact fun _ heq => by cases heq
  | suspended => exact fun _ heq => by cases heq

end Silence

section Chunks

theorem dataChunks_flatten (payload : Bytes) : (dataChunks payload).flatten = payload := by
  fun_induction dataChunks payload with
  | case1 => rfl
  | case2 payload h ih => rw [List.flatten_cons, ih, List.take_append_drop]

/-- Every piece fits a line and none is empty. -/
theorem dataChunks_length (payload : Bytes) :
    ∀ chunk ∈ dataChunks payload, 1 ≤ chunk.length ∧ chunk.length ≤ MAX_DATA_PAYLOAD := by
  fun_induction dataChunks payload with
  | case1 => exact fun _ h => absurd h List.not_mem_nil
  | case2 payload h ih =>
      intro chunk hmem
      rcases List.mem_cons.mp hmem with rfl | hmem
      · have hpos : 0 < payload.length := List.length_pos_of_ne_nil h
        have hmax : 0 < MAX_DATA_PAYLOAD := by decide
        rw [List.length_take]
        omega
      · exact ih chunk hmem

/-- A payload of more than one piece does not fit a line. -/
theorem two_chunks {payload : Bytes} (h : 2 ≤ (dataChunks payload).length) :
    MAX_DATA_PAYLOAD < payload.length := by
  by_contra hle
  have hdrop : payload.drop MAX_DATA_PAYLOAD = [] := List.drop_eq_nil_of_le (by omega)
  rw [dataChunks] at h
  split at h
  · simp only [List.length_nil] at h
    omega
  · rw [hdrop, dataChunks, if_pos rfl] at h
    simp only [List.length_cons, List.length_nil] at h
    omega

end Chunks

section Requests

/-- The wire after a line was begun, with listening before and after. -/
theorem lines_after {v : OutOfProcSession} {packet : Packet} {sent : List Bytes}
    (hq : Quiet p s u) (hv : v.history = u.history ++ .line packet :: sent.map .sent)
    (ht : Quiet p v t) :
    writtenLines t.history = writtenLines s.history ++ [(packet, sent.flatten)] := by
  rw [keeps_lines ht.keeps, hv, writtenLines_line, keeps_lines hq.keeps]

/-- What a request that does not complete leaves on the wire: no more than
    there was, or a piece of its line, and then all of it unless the session is
    silenced. -/
theorem stopped_lines {packet ack : Packet} (h : Stopped p packet ack s t) :
    t.payloadInProgress = s.payloadInProgress
      ∧ (writtenLines t.history = writtenLines s.history
        ∨ ∃ sent, writtenLines t.history = writtenLines s.history ++ [(packet, sent)]
          ∧ (sent = packet.toLine.toUtf8 ∨ Silenced t)) := by
  cases h with
  | unwritten hq => exact ⟨hq.keeps.payloadInProgress, Or.inl (keeps_lines hq.keeps)⟩
  | cut hq _ _ _ ht =>
      exact ⟨ht.keeps.payloadInProgress.trans hq.keeps.payloadInProgress, Or.inr ⟨_,
        lines_after hq rfl ht, Or.inr (Or.inr (Or.inl ht.keeps.writeInProgress))⟩⟩
  | failed hq _ _ _ ht =>
      exact ⟨ht.keeps.payloadInProgress.trans hq.keeps.payloadInProgress, Or.inr ⟨_,
        lines_after hq rfl ht, Or.inr (Silenced.keeps (Or.inl (fail_broken _ _)) ht.keeps)⟩⟩
  | unanswered hq _ _ hsent ht =>
      exact ⟨ht.keeps.payloadInProgress.trans hq.keeps.payloadInProgress, Or.inr ⟨_,
        lines_after hq rfl ht, Or.inl hsent⟩⟩

/-- What a request that completes leaves on the wire: all of its line. -/
theorem completed_lines {packet ack : Packet} (h : Completed p packet ack s t) :
    t.payloadInProgress = s.payloadInProgress
      ∧ writtenLines t.history = writtenLines s.history ++ [wholeLine packet] := by
  rcases h.written with ⟨u, sent, hq, _, _, _, hsent, ht⟩
  refine ⟨ht.keeps.payloadInProgress.trans hq.keeps.payloadInProgress, ?_⟩
  rw [wholeLine, ← hsent]
  exact lines_after hq rfl ht

theorem filter_isData_snoc (lines : List (Packet × Bytes)) (line : Packet × Bytes) :
    (lines ++ [line]).filter (fun line => isData line.1)
      = lines.filter (fun line => isData line.1) ++ if isData line.1 then [line] else [] := by
  rw [List.filter_append, List.filter_cons, List.filter_nil]

/-- A request without data leaves the lines with data alone. -/
theorem wp_request_dataLines (packet ack : Packet) (hdata : isData packet = false) :
    wp (request p packet ack) (Stops (fun t => dataLines t = dataLines s)
      fun _ t => dataLines t = dataLines s) s := by
  have hsame : ∀ {t : OutOfProcSession} {line : Packet × Bytes}, line.1 = packet →
      writtenLines t.history = writtenLines s.history ++ [line] → dataLines t = dataLines s := by
    intro t line hline ht
    rw [dataLines, ht, filter_isData_snoc, hline, hdata, if_neg Bool.false_ne_true,
      List.append_nil]
    rfl
  have hstop : ∀ t, Stopped p packet ack s t → dataLines t = dataLines s := by
    intro t ht
    rcases (stopped_lines ht).2 with hl | ⟨sent, hl, _⟩
    · rw [dataLines, hl]
      rfl
    · exact hsame rfl hl
  exact Async.wp_ends (wp_request packet ack) hstop (fun _ t ht => ⟨hstop t ht.1, ht.2⟩)
    fun _ t ht => hsame rfl (completed_lines ht).2

end Requests

/-- How much of a payload is on the wire behind some lines with data: none of
    it, all of it, or a part; and with a part, nothing follows. -/
inductive Progress (base : List (Packet × Bytes)) (guid : Uuid) (payload : Bytes)
    (t : OutOfProcSession) : Prop
  | none : dataLines t = base → Progress base guid payload t
  | whole : dataLines t
      = base ++ (dataChunks payload).map (fun c => wholeLine (.data .default guid c)) →
      Progress base guid payload t
  | part (done rest : List Bytes) (torn : List (Packet × Bytes)) :
      dataChunks payload = done ++ rest → rest ≠ [] →
      (torn = [] ∨ ∃ chunk ∈ dataChunks payload, ∃ sent,
        torn = [(.data .default guid chunk, sent)]
          ∧ sent ≠ (Packet.data .default guid chunk).toLine.toUtf8) →
      dataLines t = base ++ done.map (fun c => wholeLine (.data .default guid c)) ++ torn →
      Silenced t → Progress base guid payload t

/-- The pieces of a payload, from any one on. -/
theorem wp_sendChunks_progress {base : List (Packet × Bytes)} {guid : Uuid} {payload : Bytes}
    (done rest : List Bytes) (hchunks : dataChunks payload = done ++ rest)
    (hlines : dataLines s = base ++ done.map fun c => wholeLine (.data .default guid c))
    (hflag : s.payloadInProgress = decide (MAX_DATA_PAYLOAD < payload.length)) :
    wp (sendChunks p guid rest) (Stops (Progress base guid payload) fun _ t => dataLines t
      = base ++ (dataChunks payload).map fun c => wholeLine (.data .default guid c)) s := by
  induction rest generalizing done s with
  | nil =>
      refine Async.wp_pure ?_
      rw [hchunks, List.append_nil]
      exact hlines
  | cons chunk rest ih =>
      have hmem : chunk ∈ dataChunks payload := by
        rw [hchunks]
        exact List.mem_append_right _ (List.mem_cons_self ..)
      have hnext : dataChunks payload = (done ++ [chunk]) ++ rest := by
        rw [hchunks, List.append_assoc, List.singleton_append]
      -- With some of the pieces written and some not, there are two at least,
      -- and the payload is marked as in progress.
      have hmarked : ∀ {t done' rest'}, dataChunks payload = done' ++ rest' → done' ≠ [] →
          rest' ≠ [] → t.payloadInProgress = s.payloadInProgress → Silenced t := by
        intro t done' rest' hsplit hdone hrest ht
        have hlong : MAX_DATA_PAYLOAD < payload.length := by
          refine two_chunks ?_
          rw [hsplit, List.length_append]
          have h1 := List.length_pos_of_ne_nil hdone
          have h2 := List.length_pos_of_ne_nil hrest
          omega
        exact Or.inr (Or.inr (by rw [ht, hflag, decide_eq_true hlong]))
      have hsnoc : ∀ {t : OutOfProcSession} {sent : Bytes},
          writtenLines t.history = writtenLines s.history ++ [(.data .default guid chunk, sent)] →
          dataLines t = base ++ done.map (fun c => wholeLine (.data .default guid c))
            ++ [(.data .default guid chunk, sent)] := by
        intro t sent ht
        rw [dataLines, ht, filter_isData_snoc, ← hlines]
        rfl
      have hstop : ∀ t, Stopped p (.data .default guid chunk) (.dataAck guid) s t →
          Progress base guid payload t := by
        intro t ht
        rcases stopped_lines ht with ⟨hpayload, hl | ⟨sent, hl, hwhole⟩⟩
        · have hsame : dataLines t = base ++ done.map fun c => wholeLine (.data .default guid c) := by
            rw [dataLines, hl, ← hlines]
            rfl
          by_cases hdone : done = []
          · rw [hdone, List.map_nil, List.append_nil] at hsame
            exact .none hsame
          · refine .part done (chunk :: rest) [] hchunks (List.cons_ne_nil _ _) (Or.inl rfl) ?_
              (hmarked hchunks hdone (List.cons_ne_nil _ _) hpayload)
            rw [List.append_nil]
            exact hsame
        · by_cases hsent : sent = (Packet.data .default guid chunk).toLine.toUtf8
          · have hdone : dataLines t
                = base ++ (done ++ [chunk]).map fun c => wholeLine (.data .default guid c) := by
              rw [hsnoc hl, hsent, List.map_append, List.append_assoc]
              rfl
            by_cases hrest : rest = []
            · rw [hrest, List.append_nil] at hnext
              exact .whole (hnext ▸ hdone)
            · refine .part (done ++ [chunk]) rest [] hnext hrest (Or.inl rfl) ?_
                (hmarked hnext (List.append_ne_nil_of_right_ne_nil _ (List.cons_ne_nil _ _)) hrest
                  hpayload)
              rw [List.append_nil]
              exact hdone
          · exact .part done (chunk :: rest) _ hchunks (List.cons_ne_nil _ _)
              (Or.inr ⟨chunk, hmem, sent, rfl, hsent⟩) (hsnoc hl) (hwhole.resolve_left hsent)
      refine wp_then (wp_request _ _) hstop ?_
      intro _ t ht
      rcases completed_lines ht with ⟨hpayload, hl⟩
      refine ih (done ++ [chunk]) hnext ?_ (hpayload.trans hflag)
      rw [hsnoc hl, List.map_append, List.append_assoc]
      rfl

section Operations

/-- What a part of an operation that writes no data does to the lines with
    data. -/
theorem wp_dataLines_trans {α β : Type} {q : Prog OutOfProcSession α}
    {f : α → Prog OutOfProcSession β} {base : List (Packet × Bytes)}
    (h : wp q (Stops (fun t => dataLines t = base) fun _ t => dataLines t = base) s)
    (hf : ∀ a t, dataLines t = base →
      wp (f a) (Stops (fun t => dataLines t = base) fun _ t => dataLines t = base) t) :
    wp (q >>= f) (Stops (fun t => dataLines t = base) fun _ t => dataLines t = base) s :=
  wp_then h (fun _ ht => ht) hf

theorem wp_dataLines_request {base : List (Packet × Bytes)} (h : dataLines s = base)
    (packet ack : Packet) (hdata : isData packet = false) :
    wp (request p packet ack) (Stops (fun t => dataLines t = base) fun _ t => dataLines t = base)
      s := h ▸ wp_request_dataLines packet ack hdata

theorem wp_dataLines_ready (p : PacketPlatform) {base : List (Packet × Bytes)}
    (h : dataLines s = base) :
    wp (Async.update ready : Prog _ _)
      (Stops (fun t => dataLines t = base) fun _ t => dataLines t = base) s :=
  Async.wp_ends (wp_ready (p := p)) (fun _ ht => (keeps_dataLines ht.keeps).trans h)
    (fun _ _ ht => ⟨(keeps_dataLines ht.1.keeps).trans h, ht.2⟩) fun _ _ ht => ht.1 ▸ h

theorem wp_dataLines_settleBounded {base : List (Packet × Bytes)} (h : dataLines s = base) :
    wp (settleBounded p) (Stops (fun t => dataLines t = base) fun _ t => dataLines t = base) s :=
  Async.wp_ends wp_settleBounded (fun _ ht => (keeps_dataLines ht.keeps).trans h)
    (fun _ _ ht => ⟨(keeps_dataLines ht.1.keeps).trans h, ht.2⟩)
    fun _ _ ht => (keeps_dataLines ht.1.keeps).trans h

theorem wp_dataLines_closeOpen {base : List (Packet × Bytes)} (h : dataLines s = base)
    (opened : Option Uuid) :
    wp (closeOpen p opened) (Stops (fun t => dataLines t = base) fun _ t => dataLines t = base)
      s := by
  unfold closeOpen
  split
  · exact wp_dataLines_request h _ _ rfl
  · exact Async.wp_pure h

theorem wp_dataLines_switchTo {base : List (Packet × Bytes)} (h : dataLines s = base)
    (guid : Uuid) :
    wp (switchTo p guid) (Stops (fun t => dataLines t = base) fun _ t => dataLines t = base)
      s := by
  unfold switchTo
  refine wp_dataLines_trans (wp_dataLines_settleBounded h) fun _ t ht => ?_
  refine wp_bind (Async.wp_get ?_)
  simp only [andThen]
  split
  · exact wp_dataLines_trans (wp_dataLines_closeOpen ht _) fun _ u hu =>
      wp_dataLines_request hu _ _ rfl
  · exact Async.wp_pure ht

theorem wp_dataLines_signal : wp (signal p)
    (Stops (fun t => dataLines t = dataLines s) fun _ t => dataLines t = dataLines s) s := by
  unfold signal
  refine wp_dataLines_trans (wp_dataLines_ready p rfl) fun _ t ht =>
    wp_dataLines_trans (wp_dataLines_settleBounded ht) fun _ u hu => ?_
  refine wp_bind (Async.wp_get ?_)
  simp only [andThen]
  split
  · exact wp_dataLines_request hu _ _ rfl
  · exact Async.wp_pure hu

theorem wp_dataLines_close : wp (close p)
    (Stops (fun t => dataLines t = dataLines s) fun _ t => dataLines t = dataLines s) s := by
  unfold close
  refine wp_dataLines_trans (wp_dataLines_ready p rfl) fun _ t ht =>
    wp_dataLines_trans (wp_dataLines_settleBounded ht) fun _ u hu => ?_
  refine wp_bind (Async.wp_get ?_)
  simp only [andThen]
  exact wp_dataLines_trans (wp_dataLines_closeOpen hu _) fun _ v hv =>
    wp_dataLines_request hv _ _ rfl

theorem wp_sendPayload_progress {base : List (Packet × Bytes)} (h : dataLines s = base)
    (guid : Uuid) (payload : Bytes) : wp (sendPayload p guid payload)
    (Stops (Progress base guid payload) fun _ t => dataLines t
      = base ++ (dataChunks payload).map fun c => wholeLine (.data .default guid c)) s := by
  unfold sendPayload
  refine wp_bind (Async.wp_modify ?_)
  simp only [andThen]
  refine wp_then (wp_sendChunks_progress [] _ rfl ?_ rfl) (fun _ ht => ht) ?_
  · exact h.trans (List.append_nil _).symm
  · exact fun _ t ht => Async.wp_modify ht

/-- What a send leaves of its payload on the wire, however it ends. -/
theorem wp_send_progress (guid : Uuid) (payload : Bytes) : wp (send p guid payload)
    (Stops (Progress (dataLines s) guid payload) fun _ t => dataLines t
      = dataLines s ++ (dataChunks payload).map fun c => wholeLine (.data .default guid c)) s := by
  unfold send
  split
  · next hnil =>
      refine Async.wp_pure ?_
      rw [hnil, dataChunks, if_pos rfl, List.map_nil, List.append_nil]
      rfl
  · refine wp_then (wp_dataLines_ready p rfl) (fun _ ht => .none ht) ?_
    intro _ t ht
    by_cases hguid : guid = Uuid.nil
    · simp only [hguid, ne_eq, not_true, if_false]
      exact wp_sendPayload_progress ht _ payload
    · simp only [ne_eq, hguid, not_false_eq_true, if_true]
      exact wp_then (wp_dataLines_switchTo ht guid) (fun _ hu => .none hu)
        fun _ u hu => wp_sendPayload_progress hu guid payload

end Operations

section Tidy

/-- The wire is its lines: each is whole but for the last, and that one too
    while the session is usable. -/
structure Tidy (s : OutOfProcSession) : Prop where
  wire : bytesWritten s.history = (writtenLines s.history).flatMap Prod.snd
  started : ∀ line ∈ writtenLines s.history, line.2 <+: line.1.toLine.toUtf8
  earlier : ∀ line ∈ (writtenLines s.history).dropLast, line = wholeLine line.1
  usable : s.Usable → ∀ line ∈ writtenLines s.history, line = wholeLine line.1

theorem bytesWritten_line (h : List PipeEvent) (packet : Packet) (sent : List Bytes) :
    bytesWritten (h ++ .line packet :: sent.map .sent) = bytesWritten h ++ sent.flatten := by
  have hsent : ∀ sent : List Bytes, bytesWritten (sent.map .sent) = sent.flatten := by
    intro sent
    rw [bytesWritten, List.flatMap_map, ← List.flatMap_id]
    rfl
  rw [bytesWritten, List.flatMap_append, List.flatMap_cons]
  exact congrArg (_ ++ ·) (hsent sent)

/-- A line begun in a usable session. -/
theorem Tidy.line {packet : Packet} {sent : List Bytes} (h : Tidy s) (hs : s.Usable)
    (hsent : sent.flatten <+: packet.toLine.toUtf8)
    (ht : t.history = s.history ++ .line packet :: sent.map .sent)
    (hwhole : t.Usable → sent.flatten = packet.toLine.toUtf8) : Tidy t := by
  have hlines : writtenLines t.history = writtenLines s.history ++ [(packet, sent.flatten)] := by
    rw [ht, writtenLines_line]
  refine ⟨?_, ?_, ?_, fun husable => ?_⟩
  · rw [hlines, ht, bytesWritten_line, h.wire, List.flatMap_append, List.flatMap_singleton]
  · rw [hlines]
    intro line hmem
    rcases List.mem_append.mp hmem with hmem | hmem
    · exact h.started line hmem
    · rw [List.mem_singleton.mp hmem]
      exact hsent
  · rw [hlines, List.dropLast_concat]
    exact h.usable hs
  · rw [hlines]
    intro line hmem
    rcases List.mem_append.mp hmem with hmem | hmem
    · exact h.usable hs line hmem
    · rw [List.mem_singleton.mp hmem, wholeLine, hwhole husable]

theorem Tidy.keeps (h : Tidy s) (hk : Keeps s t) : Tidy t := by
  have hlines := keeps_lines hk
  have hbytes : bytesWritten t.history = bytesWritten s.history := by
    rw [bytesWritten_filter, hk.written, ← bytesWritten_filter]
  refine ⟨by rw [hbytes, hlines]; exact h.wire, hlines ▸ h.started, hlines ▸ h.earlier, ?_⟩
  rintro ⟨hb, hw⟩
  rw [hlines]
  refine h.usable ⟨?_, hk.writeInProgress ▸ hw⟩
  by_contra hs
  rcases Option.ne_none_iff_exists'.mp hs with ⟨reason, hreason⟩
  rw [hk.broken reason hreason] at hb
  cases hb

theorem wp_perform_tidy (h : Tidy s) (op : Operation) :
    wp (perform p op) (fun _ t => Tidy t) s := by
  refine wp_perform_preserves (fun s t hm hs => ?_)
    (fun s hs => ⟨hs.wire, hs.started, hs.earlier, hs.usable⟩) h op
  refine hm.preserves (I := Tidy) ?_ ?_ ?_ ?_ ?_ hs
  · exact fun _ _ hq ht => ht.keeps hq.keeps
  · exact fun packet sent s hu hsent hs => hs.line hu hsent rfl fun hw => by cases hw.2
  · exact fun packet sent s hu hsent hs =>
      hs.line hu (hsent ▸ List.prefix_refl _) rfl fun _ => hsent
  · exact fun packet sent e s hu hsent hs =>
      hs.line hu hsent rfl fun hb => absurd hb.1 (fail_broken _ _)
  · exact fun b s hs => ⟨hs.wire, hs.started, hs.earlier, hs.usable⟩

end Tidy

section Runs

/-- How the operations of a run ended. -/
abbrev Ends := List (Operation × Exit PsrpError (Option Bytes))

/-- The payloads passed to `send`, in call order. -/
def sends (ends : Ends) : List (Uuid × Bytes) :=
  ends.filterMap fun e => match e.1 with
    | .send guid payload => some (guid, payload)
    | _ => none

/-- Those that are not empty and whose `send` returned without an error. -/
def accepted (ends : Ends) : List (Uuid × Bytes) :=
  ends.filterMap fun e => match e with
    | (.send guid payload, .ok _) => if payload = [] then none else some (guid, payload)
    | _ => none

/-- The lines of a payload. -/
def payloadLines (sent : Uuid × Bytes) : List (Packet × Bytes) :=
  (dataChunks sent.2).map fun c => wholeLine (.data .default sent.1 c)

/-- The lines with data are those of whole payloads, in call order, but for a
    part of the last one, which silences the session. -/
def Delivered (ends : Ends) (s : OutOfProcSession) : Prop :=
  ∃ whole, (accepted ends).Sublist whole ∧
    ((whole.Sublist (sends ends) ∧ dataLines s = whole.flatMap payloadLines)
    ∨ ∃ guid payload done rest torn, (whole ++ [(guid, payload)]).Sublist (sends ends)
      ∧ dataChunks payload = done ++ rest ∧ rest ≠ []
      ∧ (torn = [] ∨ ∃ chunk ∈ dataChunks payload, ∃ sent,
          torn = [(.data .default guid chunk, sent)]
            ∧ sent ≠ (Packet.data .default guid chunk).toLine.toUtf8)
      ∧ dataLines s = whole.flatMap payloadLines
          ++ done.map (fun c => wholeLine (.data .default guid c)) ++ torn
      ∧ Silenced s)

theorem sends_snoc (ends : Ends) (op : Operation) (x : Exit PsrpError (Option Bytes)) :
    sends (ends ++ [(op, x)]) = sends ends ++ match op with
      | .send guid payload => [(guid, payload)]
      | _ => [] := by
  rw [sends, List.filterMap_append]
  congr 1
  cases op <;> rfl

theorem accepted_snoc (ends : Ends) (op : Operation) (x : Exit PsrpError (Option Bytes)) :
    accepted (ends ++ [(op, x)]) = accepted ends ++ match op, x with
      | .send guid payload, .ok _ => if payload = [] then [] else [(guid, payload)]
      | _, _ => [] := by
  rw [accepted, List.filterMap_append]
  congr 1
  cases op with
  | send guid payload =>
      cases x with
      | ok a =>
          simp only [List.filterMap_cons, List.filterMap_nil]
          split <;> simp_all
      | err e => rfl
      | cut n => rfl
      | suspended => rfl
  | recv => rfl
  | signal => rfl
  | close => rfl

/-- Nothing changes when the lines with data stay, and nothing was accepted. -/
theorem Delivered.same {ends : Ends} (h : Delivered ends s) (hlines : dataLines t = dataLines s)
    (hsilent : Silenced s → Silenced t) {op : Operation} {x : Exit PsrpError (Option Bytes)}
    (haccepted : accepted (ends ++ [(op, x)]) = accepted ends) :
    Delivered (ends ++ [(op, x)]) t := by
  have hsends : ∀ {l : List (Uuid × Bytes)}, l.Sublist (sends ends) →
      l.Sublist (sends (ends ++ [(op, x)])) := by
    intro l hl
    rw [sends_snoc]
    exact hl.trans (List.sublist_append_left _ _)
  rcases h with ⟨whole, hacc, ⟨hsub, hdata⟩ | ⟨guid, payload, done, rest, torn, hsub, hchunks,
    hrest, htorn, hdata, hs⟩⟩
  · exact ⟨whole, haccepted ▸ hacc, Or.inl ⟨hsends hsub, hlines.trans hdata⟩⟩
  · exact ⟨whole, haccepted ▸ hacc, Or.inr ⟨guid, payload, done, rest, torn, hsends hsub, hchunks,
      hrest, htorn, hlines.trans hdata, hsilent hs⟩⟩

/-- A send on a session that is not silenced. -/
theorem Delivered.send {ends : Ends} {whole : List (Uuid × Bytes)}
    (hacc : (accepted ends).Sublist whole) (hsub : whole.Sublist (sends ends))
    (hdata : dataLines s = whole.flatMap payloadLines) (guid : Uuid) (payload : Bytes) :
    wp (perform p (.send guid payload))
      (fun x t => Delivered (ends ++ [(.send guid payload, x)]) t) s := by
  have hsends : ∀ x, sends (ends ++ [(.send guid payload, x)]) = sends ends ++ [(guid, payload)] :=
    fun x => sends_snoc ends _ x
  have hkeep : ∀ x, whole.Sublist (sends (ends ++ [(.send guid payload, x)])) := by
    intro x
    rw [hsends]
    exact hsub.trans (List.sublist_append_left _ _)
  have hadd : ∀ x, (whole ++ [(guid, payload)]).Sublist
      (sends (ends ++ [(.send guid payload, x)])) := by
    intro x
    rw [hsends]
    exact hsub.append (List.Sublist.refl _)
  -- All lines of the payload were written, whatever the call came to.
  have hwhole : ∀ {t : OutOfProcSession} {x}, dataLines t = dataLines s
        ++ (dataChunks payload).map (fun c => wholeLine (.data .default guid c)) →
      Delivered (ends ++ [(.send guid payload, x)]) t := by
    intro t x ht
    refine ⟨whole ++ [(guid, payload)], ?_, Or.inl ⟨hadd x, ?_⟩⟩
    · rw [accepted_snoc]
      refine hacc.append ?_
      cases x with
      | ok a =>
          by_cases hempty : payload = []
          · simp only [if_pos hempty]
            exact List.nil_sublist _
          · simp only [if_neg hempty]
            exact List.Sublist.refl _
      | err e => exact List.nil_sublist _
      | cut n => exact List.nil_sublist _
      | suspended => exact List.nil_sublist _
    · rw [ht, hdata, List.flatMap_append, List.flatMap_singleton]
      rfl
  -- A call that does not end well wrote none of the lines, all of them, or some.
  have hprogress : ∀ {t : OutOfProcSession} {x : Exit PsrpError (Option Bytes)},
      (∀ a, x ≠ .ok a) → Progress (dataLines s) guid payload t →
      Delivered (ends ++ [(.send guid payload, x)]) t := by
    intro t x hx ht
    have hsame : accepted (ends ++ [(.send guid payload, x)]) = accepted ends := by
      rw [accepted_snoc]
      cases x with
      | ok a => exact absurd rfl (hx a)
      | err e => exact List.append_nil _
      | cut n => exact List.append_nil _
      | suspended => exact List.append_nil _
    cases ht with
    | none ht => exact ⟨whole, hsame ▸ hacc, Or.inl ⟨hkeep x, ht.trans hdata⟩⟩
    | whole ht => exact hwhole ht
    | part done rest torn hchunks hrest htorn ht hs =>
        exact ⟨whole, hsame ▸ hacc, Or.inr ⟨guid, payload, done, rest, torn, hadd x, hchunks, hrest,
          htorn, hdata ▸ ht, hs⟩⟩
  refine wp_bind (wp_mono (wp_send_progress guid payload) fun x t hx => ?_)
  cases x with
  | ok _ => exact fun _ _ => hwhole hx
  | err e => exact hprogress (fun _ h => by cases h) hx.1
  | cut n => exact hprogress (fun _ h => by cases h) hx
  | suspended => exact hprogress (fun _ h => by cases h) hx

/-- An operation that is no send of a payload accepts none. -/
theorem accepted_other {ends : Ends} {op : Operation} {x : Exit PsrpError (Option Bytes)}
    (h : ∀ guid payload a, op = .send guid payload → x = .ok a → payload = []) :
    accepted (ends ++ [(op, x)]) = accepted ends := by
  rw [accepted_snoc]
  cases op with
  | send guid payload =>
      cases x with
      | ok a => simp only [h guid payload a rfl rfl, if_true, List.append_nil]
      | err e => exact List.append_nil _
      | cut n => exact List.append_nil _
      | suspended => exact List.append_nil _
  | recv => exact List.append_nil _
  | signal => exact List.append_nil _
  | close => exact List.append_nil _

/-- Every operation keeps to it. -/
theorem wp_perform_delivered {ends : Ends} (h : Delivered ends s) (op : Operation) :
    wp (perform p op) (fun x t => Delivered (ends ++ [(op, x)]) t) s := by
  by_cases hs : Silenced s
  · -- Nothing is written and nothing is accepted any more.
    have haccepts : wp (perform p op)
        (fun x _ => ∀ guid payload a, op = .send guid payload → x = .ok a → payload = []) s := by
      intro script turns guid payload a hop hx
      by_contra hne
      subst hop
      exact wp_send_silenced (p := p) hs guid hne script turns a hx
    refine wp_mono (wp_and (wp_silenced hs op) haccepts) fun x t ht => ?_
    rcases ht with ⟨⟨hsilent, hwrites⟩, hnone⟩
    refine h.same ?_ (fun _ => hsilent) (accepted_other hnone)
    rw [dataLines, writtenLines_filter, hwrites, ← writtenLines_filter]
    rfl
  · -- So far all payloads are whole.
    have hwhole : ∃ whole, (accepted ends).Sublist whole ∧ whole.Sublist (sends ends)
        ∧ dataLines s = whole.flatMap payloadLines := by
      rcases h with ⟨whole, hacc, ⟨hsub, hdata⟩ | ⟨_, _, _, _, _, _, _, _, _, _, hsilent⟩⟩
      · exact ⟨whole, hacc, hsub, hdata⟩
      · exact absurd hsilent hs
    rcases hwhole with ⟨whole, hacc, hsub, hdata⟩
    have hother : ∀ {x t}, (∀ guid payload, op ≠ .send guid payload) →
        dataLines t = dataLines s → Delivered (ends ++ [(op, x)]) t :=
      fun hop ht => h.same ht (fun hsilent => absurd hsilent hs)
        (accepted_other fun guid payload _ heq => absurd heq (hop guid payload))
    cases op with
    | send guid payload => exact Delivered.send hacc hsub hdata guid payload
    | recv =>
        have hkeep : wp (perform p .recv) (fun _ t => dataLines t = dataLines s) s :=
          wp_return (wp_recv_preserves (I := fun t => dataLines t = dataLines s)
            (fun _ _ hq ht => (keeps_dataLines hq.keeps).trans ht) (fun _ ht => ht) rfl)
        exact wp_mono hkeep fun x t ht => hother (fun _ _ heq => by cases heq) ht
    | signal =>
        exact wp_mono (wp_return wp_dataLines_signal) fun x t ht =>
          hother (fun _ _ heq => by cases heq) ht
    | close =>
        exact wp_mono (wp_return wp_dataLines_close) fun x t ht =>
          hother (fun _ _ heq => by cases heq) ht

/-- What the data lines of a guid carry, of those that are complete. -/
def dataWritten (guid : Uuid) (lines : List (Packet × Bytes)) : Bytes :=
  lines.flatMap fun line => match line.1 with
    | .data _ g payload => if g = guid ∧ line = wholeLine line.1 then payload else []
    | _ => []

/-- What was sent to a guid. -/
def payloadsTo (guid : Uuid) (sent : List (Uuid × Bytes)) : Bytes :=
  sent.flatMap fun s => if s.1 = guid then s.2 else []

theorem dataWritten_append (guid : Uuid) (lines lines' : List (Packet × Bytes)) :
    dataWritten guid (lines ++ lines') = dataWritten guid lines ++ dataWritten guid lines' := by
  rw [dataWritten, List.flatMap_append]
  rfl

/-- Only lines with data carry any. -/
theorem dataWritten_filter (guid : Uuid) (lines : List (Packet × Bytes)) :
    dataWritten guid lines = dataWritten guid (lines.filter fun line => isData line.1) := by
  induction lines with
  | nil => rfl
  | cons line lines ih =>
      rcases line with ⟨packet, sent⟩
      cases packet with
      | data stream g payload =>
          rw [List.filter_cons_of_pos rfl, dataWritten, List.flatMap_cons]
          exact congrArg (_ ++ ·) ih
      | dataAck g | command g | commandAck g | signal g | signalAck g | close g | closeAck g =>
          rw [List.filter_cons_of_neg (Bool.false_ne_true), ← ih]
          rfl

/-- What the whole lines of some pieces carry. -/
theorem dataWritten_chunks (guid g : Uuid) (chunks : List Bytes) :
    dataWritten guid (chunks.map fun c => wholeLine (.data .default g c))
      = if g = guid then chunks.flatten else [] := by
  induction chunks with
  | nil =>
      rw [List.map_nil, List.flatten_nil, ite_self]
      rfl
  | cons chunk chunks ih =>
      rw [List.map_cons, dataWritten, List.flatMap_cons]
      by_cases hg : g = guid
      · rw [if_pos hg] at ih ⊢
        rw [List.flatten_cons]
        exact congrArg₂ _ (if_pos ⟨hg, rfl⟩) ih
      · rw [if_neg hg] at ih ⊢
        exact congrArg₂ (· ++ ·) (if_neg fun h => hg h.1) ih

/-- Whole payloads arrive as they were sent. -/
theorem dataWritten_payloads (guid : Uuid) (whole : List (Uuid × Bytes)) :
    dataWritten guid (whole.flatMap payloadLines) = payloadsTo guid whole := by
  induction whole with
  | nil => rfl
  | cons sent whole ih =>
      rw [List.flatMap_cons, dataWritten_append, ih, payloadLines, dataWritten_chunks,
        dataChunks_flatten]
      rfl

/-- A line that is cut carries nothing. -/
theorem dataWritten_torn {guid g : Uuid} {chunk sent : Bytes}
    (h : sent ≠ (Packet.data .default g chunk).toLine.toUtf8) :
    dataWritten guid [(.data .default g chunk, sent)] = [] := by
  rw [dataWritten, List.flatMap_singleton]
  exact if_neg fun heq => h (congrArg Prod.snd heq.2)

theorem mem_payloadLines {whole : List (Uuid × Bytes)} {line : Packet × Bytes}
    (h : line ∈ whole.flatMap payloadLines) : ∃ guid chunk,
      line = wholeLine (.data .default guid chunk) ∧ 1 ≤ chunk.length
        ∧ chunk.length ≤ MAX_DATA_PAYLOAD := by
  rcases List.mem_flatMap.mp h with ⟨sent, _, hline⟩
  rcases List.mem_map.mp hline with ⟨chunk, hchunk, rfl⟩
  exact ⟨sent.1, chunk, rfl, dataChunks_length _ chunk hchunk⟩

/-- Every line with data carries some, and no more than fits. -/
theorem Delivered.length {ends : Ends} (h : Delivered ends s) {line : Packet × Bytes}
    (hline : line ∈ dataLines s) : ∃ guid chunk, line.1 = .data .default guid chunk
      ∧ 1 ≤ chunk.length ∧ chunk.length ≤ MAX_DATA_PAYLOAD := by
  rcases h with ⟨whole, _, ⟨_, hdata⟩ | ⟨guid, payload, done, rest, torn, _, hchunks, _, htorn,
    hdata, _⟩⟩
  · rw [hdata] at hline
    rcases mem_payloadLines hline with ⟨guid, chunk, rfl, hlength⟩
    exact ⟨guid, chunk, rfl, hlength⟩
  · rw [hdata] at hline
    rcases List.mem_append.mp hline with hline | hline
    · rcases List.mem_append.mp hline with hline | hline
      · rcases mem_payloadLines hline with ⟨guid, chunk, rfl, hlength⟩
        exact ⟨guid, chunk, rfl, hlength⟩
      · rcases List.mem_map.mp hline with ⟨chunk, hchunk, rfl⟩
        refine ⟨guid, chunk, rfl, dataChunks_length payload chunk ?_⟩
        rw [hchunks]
        exact List.mem_append_left _ hchunk
    · rcases htorn with rfl | ⟨chunk, hchunk, sent, rfl, _⟩
      · exact absurd hline List.not_mem_nil
      · rw [List.mem_singleton.mp hline]
        exact ⟨guid, chunk, rfl, dataChunks_length payload chunk hchunk⟩

/-- Whatever follows, a silenced session stays it and writes nothing. -/
theorem silenced_run (h : Silenced s) (more : List (Call Answer Operation)) :
    Silenced (play (perform p) more s).2
      ∧ (play (perform p) more s).2.history.filter PipeEvent.isWrite
        = s.history.filter PipeEvent.isWrite :=
  Async.play_run (f := perform p) (s := s)
    (fun _ t => Silenced t
      ∧ t.history.filter PipeEvent.isWrite = s.history.filter PipeEvent.isWrite)
    (fun _ op _ ht => wp_mono (wp_silenced ht.1 op) fun _ _ hu => ⟨hu.1, hu.2.trans ht.2⟩)
    more ⟨h, rfl⟩

/-- Not one further byte, that is. -/
theorem play_silenced (h : Silenced s) (more : List (Call Answer Operation)) :
    bytesWritten (play (perform p) more s).2.history = bytesWritten s.history := by
  rw [bytesWritten_filter, (silenced_run h more).2, ← bytesWritten_filter]

/-- In every run, whatever becomes of its operations and whatever the server
    sends: the wire consists of lines, all of them whole but perhaps the last;
    a line with data carries some, and no more than fits; and for every guid,
    the complete lines with data carry whole payloads in call order, those
    accepted among them. Only the last payload on the wire may be cut, and then
    not one further byte is ever written. -/
theorem whole_or_last (p : PacketPlatform) (ackTimeout maxQueuedBytes : Nat)
    (calls : List (Call Answer Operation)) :
    let r := play (perform p) calls (fresh ackTimeout maxQueuedBytes)
    let lines := writtenLines r.2.history
    (bytesWritten r.2.history = lines.flatMap Prod.snd
      ∧ (∀ line ∈ lines.dropLast, line = wholeLine line.1)
      ∧ ∀ line ∈ lines, line.2 <+: line.1.toLine.toUtf8)
    ∧ (∀ line ∈ lines, isData line.1 = true → ∃ guid chunk, line.1 = .data .default guid chunk
      ∧ 1 ≤ chunk.length ∧ chunk.length ≤ 32768)
    ∧ ∃ whole, (accepted r.1).Sublist whole ∧
      ((whole.Sublist (sends r.1) ∧ (∀ line ∈ lines, isData line.1 = true → line = wholeLine line.1)
        ∧ ∀ guid, dataWritten guid lines = payloadsTo guid whole)
      ∨ ∃ guid payload head rest, (whole ++ [(guid, payload)]).Sublist (sends r.1)
        ∧ payload = head ++ rest ∧ rest ≠ []
        ∧ (∀ g, dataWritten g lines = payloadsTo g whole ++ if guid = g then head else [])
        ∧ ∀ more, bytesWritten (play (perform p) more r.2).2.history
            = bytesWritten r.2.history) := by
  -- What is on the wire is lines, of which only the last may be torn,
  have htidy : Tidy (play (perform p) calls (fresh ackTimeout maxQueuedBytes)).2 := by
    refine Async.play_run (fun _ t => Tidy t)
      (fun _ op _ ht => wp_perform_tidy ht op) calls ⟨rfl, ?_, ?_, fun _ => ?_⟩
    · exact fun _ h => absurd h List.not_mem_nil
    · exact fun _ h => absurd h List.not_mem_nil
    · exact fun _ h => absurd h List.not_mem_nil
  -- and the data lines are those of whole payloads, up to one that may be cut.
  have hdelivered : Delivered (play (perform p) calls (fresh ackTimeout maxQueuedBytes)).1
      (play (perform p) calls (fresh ackTimeout maxQueuedBytes)).2 :=
    Async.play_run Delivered
      (fun _ op _ ht => wp_perform_delivered ht op) calls
      ⟨[], List.Sublist.refl _, Or.inl ⟨List.Sublist.refl _, rfl⟩⟩
  refine ⟨⟨htidy.wire, htidy.earlier, htidy.started⟩, fun line hline hdata =>
    hdelivered.length (List.mem_filter.mpr ⟨hline, hdata⟩), ?_⟩
  rcases hdelivered with ⟨whole, hacc, ⟨hsub, hdata⟩ | ⟨guid, payload, done, rest, torn, hsub,
    hchunks, hrest, htorn, hdata, hsilent⟩⟩
  · refine ⟨whole, hacc, Or.inl ⟨hsub, fun line hline hisData => ?_, fun guid => ?_⟩⟩
    · have hmem : line ∈ whole.flatMap payloadLines := hdata ▸ List.mem_filter.mpr ⟨hline, hisData⟩
      rcases mem_payloadLines hmem with ⟨_, _, rfl, _⟩
      rfl
    · rw [dataWritten_filter, ← dataWritten_payloads, ← hdata]
      rfl
  · refine ⟨whole, hacc, Or.inr ⟨guid, payload, done.flatten, rest.flatten, hsub, ?_, ?_, ?_,
      play_silenced hsilent⟩⟩
    · rw [← List.flatten_append, ← hchunks, dataChunks_flatten]
    · -- What is missing of the cut payload is not empty.
      intro hempty
      rcases List.exists_mem_of_ne_nil rest hrest with ⟨chunk, hchunk⟩
      have hlength := dataChunks_length payload chunk (hchunks ▸ List.mem_append_right _ hchunk)
      rw [List.flatten_eq_nil_iff.mp hempty chunk hchunk] at hlength
      exact absurd hlength.1 (by simp)
    · intro g
      -- A line that is torn carries nothing.
      have htear : dataWritten g torn = [] := by
        rcases htorn with rfl | ⟨chunk, _, sent, rfl, hsent⟩
        · rfl
        · exact dataWritten_torn hsent
      have hlines : dataWritten g (dataLines
          (play (perform p) calls (fresh ackTimeout maxQueuedBytes)).2)
            = payloadsTo g whole ++ if guid = g then done.flatten else [] := by
        rw [hdata, dataWritten_append, dataWritten_append, dataWritten_payloads,
          dataWritten_chunks, htear, List.append_nil]
      rw [dataWritten_filter]
      exact hlines

end Runs

end OutOfProc

end Psrp

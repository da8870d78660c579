import Psrp.Theory.OutOfProc.Codec
import Psrp.Theory.OutOfProc.Wire
import Psrp.Theory.Pool.Accounts

/-!
# What Arrives at a Pool

The messages of a server, on their way through an out-of-process session to the
pool over it.

The server writes packets, each on a line. The content of the packets with
data, put together, is the bytes of the fragments of its messages, which may be
interleaved. Acknowledgements stand between them, and the pipe cuts the lines
anywhere. At any time, the pool has the messages of a prefix of these bytes,
and they are the first that were completed. There is no fault in what it read.

What the pool read is told by its session, which keeps a record of the chunks.
Nothing but the session reads the pipe, unless the host does, so the record is
what the pipe brought (`tracked_pipe`).

## Main definitions

* `contents`: What the packets with data carry.
* `LeavesPipe`: A host that does not read the pipe.

## Theorems

* `linesRead_initial`: The lines read are lines of the packets.
* `messages_received`: A pool receives the messages of its server.
-/

namespace Psrp

namespace OutOfProc

open Async (play Call)
open OutOfProcSession
open RunspacePool (PoolOperation attached Reading reading_attached soundMessages_drained)

variable {p : PacketPlatform} {packets : List Packet} {h : List PipeEvent}

/-- What a packet with data carries. -/
def contentsOf : Packet → Option Bytes
  | .data _ _ payload => some payload
  | _ => none

/-- What some packets carry. -/
def contents (packets : List Packet) : List Bytes := packets.filterMap contentsOf

section Lines

/-- The lines of packets are read up to one that is too long. -/
theorem reference_initial (first : Bool) (packets : List Packet) :
    (reference first (packets.map sentBytes ++ [[]])).1 <+: packets.map sentLine := by
  induction packets generalizing first with
  | nil => exact List.nil_prefix
  | cons packet packets ih =>
      rw [List.map_cons, reference_cons, referenceLine_sentBytes]
      by_cases hlong : MAX_LINE_BYTES < (sentBytes packet).length
      · rw [if_pos hlong]
        exact List.nil_prefix
      · rw [if_neg hlong, List.map_cons]
        exact (List.prefix_cons_inj _).mpr (ih false)

/-- A stream that is read at once. -/
theorem push_packets (p : PacketPlatform) (packets : List Packet) :
    let r := (LineSplitter.new.push p (packets.flatMap fun packet => packet.toLine.toUtf8)).1
    (r.1, r.2.isSome) = reference true (packets.map sentBytes ++ [[]]) := by
  have hone : [packets.flatMap fun packet => packet.toLine.toUtf8].flatten
      = packets.flatMap fun packet => packet.toLine.toUtf8 := List.flatten_singleton
  have houtcome := outcome_packets p packets _ hone
  rw [outcome, feed_eq_push _ (Nat.zero_le _), hone] at houtcome
  exact houtcome

/-- As long as the bytes read are the first of those of some packets, so are
    the lines. -/
theorem linesRead_initial (hread : bytesRead h <+: packets.flatMap fun packet => packet.toLine.toUtf8) :
    (linesRead p h).1 <+: packets.map sentLine := by
  rcases hread with ⟨rest, hrest⟩
  have hwhole := push_packets p packets
  have happend := (LineSplitter.push_append (p := p) (bytesRead h) rest .new).1
  rw [hrest] at happend
  have hprefix : (linesRead p h).1 <+: (LineSplitter.new.push p
      (packets.flatMap fun packet => packet.toLine.toUtf8)).1.1 := by
    rw [happend, linesRead]
    rcases LineSplitter.new.push p (bytesRead h) with ⟨⟨lines, e⟩, t⟩
    cases e with
    | some e => exact List.prefix_refl _
    | none => exact List.prefix_append _ _
  refine hprefix.trans ?_
  rw [congrArg Prod.fst hwhole]
  exact reference_initial true packets

/-- When all bytes were read without an error, all lines were. -/
theorem linesRead_whole (hread : bytesRead h = packets.flatMap fun packet => packet.toLine.toUtf8)
    (hfault : (linesRead p h).2 = none) : (linesRead p h).1 = packets.map sentLine := by
  have hwhole := push_packets p packets
  rw [← hread] at hwhole
  have hnone : (reference true (packets.map sentBytes ++ [[]])).2 = false := by
    rw [← congrArg Prod.snd hwhole]
    exact congrArg Option.isSome hfault
  have hlines := reference_packets true (fits_of_reference true hnone)
  rw [← hwhole] at hlines
  exact congrArg Prod.fst hlines

/-- The payloads on the lines of some packets. -/
theorem payloadsOf_sentLines (hp : p.Lawful) (hcarried : ∀ packet ∈ packets, packet.Carried) :
    payloadsOf p (packets.map sentLine) = contents packets := by
  rw [payloadsOf, List.filterMap_map, contents]
  refine List.filterMap_congr fun packet hmem => ?_
  have hparse := parseLine_sentLine hp (hcarried packet hmem)
  simp only [Function.comp, payloadOf, hparse]
  cases packet <;> rfl

/-- Lines in front of others carry what is in front. -/
theorem payloadsOf_initial (hp : p.Lawful) (hcarried : ∀ packet ∈ packets, packet.Carried)
    {lines : List Text} (hlines : lines <+: packets.map sentLine) :
    payloadsOf p lines <+: contents packets := by
  rcases hlines with ⟨rest, hrest⟩
  rw [← payloadsOf_sentLines hp hcarried, ← hrest, payloadsOf_append]
  exact List.prefix_append _ _

end Lines

section Messages

variable {τ : Type} {s : RunspacePool τ} {messages : IndexMap UInt64 PsrpMessage}
  {fs : List Fragment}

/-- Messages that read back as they are, do so one after the other. -/
theorem mapM_decode {msgs : List PsrpMessage}
    (h : ∀ m ∈ msgs, PsrpMessage.decode m.encode = .ok m) :
    (msgs.map PsrpMessage.encode).mapM PsrpMessage.decode = .ok msgs := by
  induction msgs with
  | nil => rfl
  | cons m msgs ih =>
      rw [List.map_cons, List.mapM_cons, h m List.mem_cons_self,
        ih fun m' hm => h m' (List.mem_cons_of_mem m hm)]
      rfl

theorem mem_completed (hids : IndexMap.Keyed messages) {m : PsrpMessage}
    (h : m ∈ completed messages fs) : ∃ s ∈ messages, s.2 = m := by
  rcases List.mem_filterMap.mp h with ⟨f, _, hf⟩
  by_cases hend : f.isEnd = true
  · rw [if_pos hend, IndexMap.get_eq_some_iff _ _ _ hids] at hf
    exact ⟨_, hf, rfl⟩
  · rw [if_neg hend] at hf
    cases hf

/-- A stream that is not cut leaves no part behind. -/
theorem part_of_whole {done rest : List Fragment} {part : Bytes}
    (hfs : ∀ f ∈ done ++ rest, f.blob.length < 2 ^ 32) (hpart : decodeOne part = none)
    (hwhole : done.flatMap Fragment.encode ++ part = (done ++ rest).flatMap Fragment.encode) :
    rest = [] := by
  rw [List.flatMap_append] at hwhole
  have heq := List.append_cancel_left hwhole
  cases rest with
  | nil => rfl
  | cons f rest =>
      have hread := decodeOne_encode f (rest.flatMap Fragment.encode)
        (hfs f (List.mem_append_right done List.mem_cons_self))
      rw [heq, List.flatMap_cons, hread] at hpart
      cases hpart

/-- A pool that read the first bytes of some messages found no fault, and has
    the first that were completed; with all bytes read, it has them all. -/
theorem messages_cut (hreading : Reading s) (hids : IndexMap.Keyed messages)
    (hlen : ∀ m ∈ messages, m.2.encode.length < 2 ^ 63)
    (hlegible : ∀ m ∈ messages, PsrpMessage.decode m.2.encode = .ok m.2)
    (hmix : Interleaves (messages.map fun m => (m.1, m.2.encode)) fs)
    (hstream : s.streamOf <+: fs.flatMap Fragment.encode) :
    faultOf s.streamOf = none
      ∧ tookOf s.history ++ s.pendingMessages <+: completed messages fs
      ∧ (s.streamOf = fs.flatMap Fragment.encode →
        tookOf s.history ++ s.pendingMessages = completed messages fs
          ∧ s.reassembler.isIdle = true) := by
  have hkeyed : IndexMap.Keyed (messages.map fun m => (m.1, m.2.encode)) := by
    rw [IndexMap.Keyed, List.map_map]
    exact hids
  have hlens : ∀ o ∈ messages.map fun m => (m.1, m.2.encode), o.2.length < 2 ^ 63 := by
    intro o ho
    rcases List.mem_map.mp ho with ⟨m, hm, rfl⟩
    exact hlen m hm
  have hblobs := hmix.blobs
  -- What arrived is some whole fragments and a piece of the next one.
  rcases cut_fragments hblobs hstream with ⟨done, rest, part, rfl, hbytes, hpart, hend⟩
  rcases cut_reassembled hkeyed hlens hmix hpart with ⟨r, hfeed, hidle⟩
  rw [completed_map, ← hbytes] at hfeed
  -- The messages they complete can be read.
  have hread : ((completed messages done).map PsrpMessage.encode).mapM PsrpMessage.decode
      = .ok (completed messages done) := by
    refine mapM_decode fun m hm => ?_
    rcases mem_completed hids hm with ⟨o, ho, rfl⟩
    exact hlegible o ho
  have hdrained : drained { Reassembler.new with buffer := s.streamOf }
      = (.ok ((completed messages done).map PsrpMessage.encode), r) := hfeed
  -- So the stream has no fault, and its messages are these.
  have hsurvey := survey_drained { Reassembler.new with buffer := s.streamOf }
  rw [hdrained, survey_buffer] at hsurvey
  simp only [readAll_ok none hread] at hsurvey
  have hsound : faultOf s.streamOf = none := congrArg Prod.snd hsurvey
  have hmessages : tookOf s.history ++ s.pendingMessages = completed messages done := by
    rw [← hreading.messages hsound]
    exact soundMessages_drained hdrained hread
  refine ⟨hsound, ?_, fun hwhole => ?_⟩
  · rw [hmessages, completed_append]
    exact List.prefix_append _ _
  · -- The buffer of the pool is the one that everything was put into.
    rw [hwhole] at hbytes
    have hrest := part_of_whole hblobs hpart hbytes.symm
    rcases hreading.sound hsound with ⟨payloads, hbuffer, _⟩
    rw [hdrained] at hbuffer
    refine ⟨by rw [hmessages, hrest, List.append_nil], ?_⟩
    have hr : r = s.reassembler := congrArg Prod.snd hbuffer
    rw [← hr]
    exact hidle hrest (hend hrest)

end Messages

section Inbound

variable {d : Driver OutOfProcSession}

/-- Whatever is done with a pool, what it took and holds is what it read. -/
theorem played_reading (d : Driver OutOfProcSession) (v : OutOfProcSession)
    (machine : RunspacePoolStateMachine) (n : UInt64) (key : Option SessionKey)
    (ops : List (Call Answer PoolOperation)) :
    Reading (play (RunspacePool.perform d) ops (attached v machine n key)).2 :=
  RunspacePool.play_moves (fun _ _ hs hmove => hmove.reading hs)
    (fun _ _ hs hdeed => hdeed.reading hs) ops (reading_attached v machine n key)

/-- Whatever a host is told, it takes no chunk. -/
def LeavesPipe (host : PsHost HostProg) : Prop :=
  ∀ mi mp, Async.Accounts (fun _ : Unit => ([] : Bytes)) chunkBytes [] (dispatchHostCall host mi mp)

/-- A host that refuses everything takes nothing. -/
theorem leavesPipe_refusing : LeavesPipe {} := by
  intro mi mp
  unfold dispatchHostCall
  cases mi <;> exact Async.accounts_pure _

/-- A pool over a session takes of the script what the session noted. -/
theorem tracked_pipe (hd : d.transport = transport p) (hhost : LeavesPipe d.host)
    (op : PoolOperation) :
    RunspacePool.Tracked (fun s : OutOfProcSession => bytesRead s.history) chunkBytes
      (RunspacePool.perform d op) := by
  have hsourced : RunspacePool.Sourced d (fun s : OutOfProcSession => bytesRead s.history)
      chunkBytes :=
    { sendFragment := fun bytes => hd ▸ reads_send Uuid.nil bytes
      sendPipelineFragment := fun bytes pid => hd ▸ reads_send pid bytes
      executePipeline := fun bytes pid => hd ▸ reads_send pid bytes
      recvChunk := hd ▸ reads_recv
      signalStop := hd ▸ reads_signal
      closeShell := hd ▸ reads_close
      drawn := fun _ => rfl
      host := hhost }
  exact RunspacePool.accounts_perform hsourced op

/-- In every run of a pool over an out-of-process session, whatever becomes of
    its operations and however the pipe cuts its bytes: if what was read of the
    pipe are the first bytes of the lines of some packets, and these carry the
    first bytes of the fragments of some messages, interleaved in any way, then
    there is no fault in what the pool read, and the messages it took and those
    it still holds are the first that were completed. When the session is not
    broken, all lines were read, nothing is queued, and the packets carry all
    fragments, then they are all of them, and nothing is left over. And what was
    read of the pipe is what the pipe brought, as long as the host does not read
    it. -/
theorem messages_received (p : PacketPlatform) (hp : p.Lawful) (d : Driver OutOfProcSession)
    (hd : d.transport = transport p) (a q : Nat) (machine : RunspacePoolStateMachine) (n : UInt64)
    (key : Option SessionKey) (ops : List (Call Answer PoolOperation)) (packets : List Packet)
    (messages : IndexMap UInt64 PsrpMessage) (fs : List Fragment)
    (hcarried : ∀ packet ∈ packets, packet.Carried)
    (hids : IndexMap.Keyed messages)
    -- No vector is longer than the address space.
    (hlen : ∀ m ∈ messages, m.2.encode.length < 2 ^ 63)
    (hlegible : ∀ m ∈ messages, PsrpMessage.decode m.2.encode = .ok m.2)
    (hmix : Interleaves (messages.map fun m => (m.1, m.2.encode)) fs)
    (hcontents : (contents packets).flatten <+: fs.flatMap Fragment.encode) :
    let s := (play (RunspacePool.perform d) ops (attached (fresh a q) machine n key)).2
    let lines := packets.flatMap fun packet => packet.toLine.toUtf8
    (LeavesPipe d.host → bytesRead s.transport.history = (Async.answersTaken
      (RunspacePool.perform d) ops (attached (fresh a q) machine n key)).flatMap chunkBytes)
    ∧ (bytesRead s.transport.history <+: lines →
      faultOf s.streamOf = none
      ∧ tookOf s.history ++ s.pendingMessages <+: completed messages fs
      ∧ (s.transport.broken = none → bytesRead s.transport.history = lines →
        s.transport.inbound = [] → (contents packets).flatten = fs.flatMap Fragment.encode →
        tookOf s.history ++ s.pendingMessages = completed messages fs
          ∧ s.reassembler.isIdle = true)) := by
  intro s lines
  refine ⟨fun hhost => Async.accounts_play (fun op => tracked_pipe hd hhost op) ops _,
    fun hread => ?_⟩
  rcases played_served hd a q machine n key ops with ⟨calls, hsession, htells⟩
  rcases played_conserved p a q calls with ⟨_, hconserved⟩
  rw [hsession, htells.received] at hconserved
  rcases hconserved.balance with ⟨acted, rest, hlines, hbalance, _, hend⟩
  have hacted : acted <+: packets.map sentLine := by
    have hfirst : acted <+: (linesRead p s.transport.history).1 := ⟨rest, hlines.symm⟩
    exact hfirst.trans (linesRead_initial hread)
  -- The chunks that came in are payloads of the packets, in order.
  have hchunks : chunksOf s.history <+: contents packets := by
    have hfirst : chunksOf s.history <+: payloadsOf p acted := ⟨_, hbalance⟩
    exact hfirst.trans (payloadsOf_initial hp hcarried hacted)
  have hstream : s.streamOf <+: fs.flatMap Fragment.encode := by
    refine List.IsPrefix.trans ?_ hcontents
    rcases hchunks with ⟨more, hmore⟩
    rw [RunspacePool.streamOf, ← hmore, List.flatten_append]
    exact List.prefix_append _ _
  have hreading : Reading s := played_reading d (fresh a q) machine n key ops
  rcases messages_cut hreading hids hlen hlegible hmix hstream with ⟨hsound, hfirst, hall⟩
  refine ⟨hsound, hfirst, fun hbroken hbytes hinbound hcomplete => hall ?_⟩
  -- Every line was acted on, and every payload was handed out.
  have hnothing : rest = [] ∧ (linesRead p s.transport.history).2 = none := by
    rcases hend with ⟨hnil, hsplit⟩ | ⟨hstop, _⟩
    · exact ⟨hnil, (hsplit hbroken).1⟩
    · exact absurd hbroken hstop
  rw [hnothing.1, List.append_nil, linesRead_whole hbytes hnothing.2] at hlines
  rw [hinbound, List.append_nil, ← hlines, payloadsOf_sentLines hp hcarried] at hbalance
  rw [RunspacePool.streamOf, hbalance]
  exact hcomplete

/-- A message of a server. -/
def notice : PsrpMessage :=
  { destination := .client, messageType := .warningRecord, rpid := Uuid.nil, pid := Uuid.nil,
    data := [] }

/-- It is sent before an acknowledgement that nobody waits for. -/
def noticePackets : List Packet :=
  [.data .default Uuid.nil (encodeMessage 7 notice.encode), .dataAck Uuid.nil]

/-- All but the last byte comes in. -/
def noticed : List (Call Answer PoolOperation) :=
  let bytes := noticePackets.flatMap fun packet => packet.toLine.toUtf8
  [{ operation := .nextMessage, script := [.answer (.chunk bytes.dropLast)], turns := 5 }]

/-- The pool received it, from a pipe that brought all but the last byte. -/
theorem messages_received_notice :
    let start := attached (fresh 60 4096) RunspacePool.freshMachine 1 none
    let s := (play (RunspacePool.perform pipeDriver) noticed start).2
    bytesRead s.transport.history
        = (Async.answersTaken (RunspacePool.perform pipeDriver) noticed start).flatMap chunkBytes
      ∧ tookOf s.history = [notice]
      ∧ tookOf s.history ++ s.pendingMessages <+: completed [(7, notice)]
        (splitMessage 7 notice.encode) := by
  have hrun : let s := (play (RunspacePool.perform pipeDriver) noticed
        (attached (fresh 60 4096) RunspacePool.freshMachine 1 none)).2
      tookOf s.history = [notice]
        ∧ bytesRead s.transport.history
          <+: noticePackets.flatMap fun packet => packet.toLine.toUtf8 := by
    decide +kernel
  have hnotice := messages_received .basic PacketPlatform.basic_lawful pipeDriver rfl
    60 4096 RunspacePool.freshMachine 1 none noticed noticePackets [(7, notice)]
    (splitMessage 7 notice.encode) ?_ (by decide) ?_ ?_ ?_ ?_
  · exact ⟨hnotice.1 leavesPipe_refusing, hrun.1, (hnotice.2 hrun.2).2.1⟩
  · intro packet hmem stream guid payload heq
    simp only [noticePackets, List.mem_cons, List.not_mem_nil, or_false] at hmem
    rcases hmem with rfl | rfl <;> cases heq
    exact frame_bytes_ne ⟨7, notice⟩
  · intro m hm
    rw [List.mem_singleton.mp hm]
    decide
  · intro m hm
    rw [List.mem_singleton.mp hm]
    exact PsrpMessage.decode_encode notice (by decide) fun c hc => by cases hc
  · have hkeyed : IndexMap.Keyed [((7 : UInt64), notice.encode)] := by decide
    have hmix := interleaves_sequence hkeyed
    rw [List.flatMap_singleton] at hmix
    exact hmix
  · have hcontents : (contents noticePackets).flatten = encodeMessage 7 notice.encode :=
      List.append_nil _
    rw [hcontents]
    exact List.prefix_refl _

end Inbound

end OutOfProc

end Psrp

import Psrp.Theory.Accessors
import Psrp.Theory.Fragment
import Psrp.Theory.Pool.Receive

/-!
# Pools That Need Not Wait

What a pool does when nothing can interrupt it: a message that is buffered or in
the inbox is delivered at once.

Bodies with a single number are read back as they were written, by every lawful
platform. That is enough to say what the server sends in a run.

## Main definitions

* `numberBody`, `numberMessage`: A body with one number, and a message with it.
* `hostCallMessage`: A call to the host.
* `mockDriver`: A driver on the transport that waits for nothing.
* `serverBytes`: The bytes of a message of the server.

## Theorems

* `nextMessage_received`: A message of the inbox is delivered.
* `parse_numberBody`: A number is read back.
-/

namespace Psrp

/-- An object with one number in it. -/
def numberObject (name : String) (code : Int32) : PsObject :=
  { properties := [(name.toList, .i32 code)], typeNames := [], toString := none }

/-- The body that holds a number. -/
def numberBody (p : Platform) (name : String) (code : Int32) : Text :=
  toClixml p (.object (numberObject name code))

/-- A message of the server with a number in its body. -/
def numberMessage (p : Platform) (messageType : MessageType) (rpid pid : Uuid) (name : String)
    (code : Int32) : PsrpMessage :=
  { destination := .client, messageType, rpid, pid, data := numberBody p name code }

/-- A call of the server to the host, without arguments. -/
def hostCallMessage (ci mi : Int64) : PsrpMessage :=
  { destination := .client, messageType := .pipelineHostCall, rpid := Uuid.nil, pid := Uuid.nil,
    data := toClixml .basic (.object ⟨[("ci".toList, .i64 ci), ("mi".toList, .i64 mi)], [], none⟩) }

theorem parse_numberBody {p : Platform} (hp : p.Lawful) {name : String} (code : Int32)
    (hname : name.toList ≠ valueKey) :
    parseClixml p (numberBody p name code) = .ok [.object (numberObject name code)] := by
  have hother : PsValue.onlyValue [(name.toList, .i32 code)] = false := by
    simp only [PsValue.onlyValue, List.all_cons, hname, decide_false, Bool.false_and]
  have hnorm : (PsValue.object (numberObject name code)).norm
      = .object (numberObject name code) := by
    simp only [numberObject, PsValue.norm, hother, Bool.false_eq_true, if_false,
      PsValue.normMembers, hname]
  have hvalid : (PsValue.object (numberObject name code)).Valid :=
    ⟨List.nodup_singleton _, trivial, trivial⟩
  have hnest : (PsValue.object (numberObject name code)).nest ≤ MAX_NESTING_DEPTH := by
    simp only [numberObject, PsValue.nest, PsValue.nestValue, PsValue.nestMembers, hname,
      if_false, Option.isSome_none, Bool.false_eq_true, MAX_NESTING_DEPTH]
    omega
  have hreceived := received_of_nest hp hvalid hnest
  rwa [hnorm] at hreceived

/-- The libraries of the concrete platform, a cipher that hides nothing, and no
    text for a value. -/
def PoolPlatform.basic : PoolPlatform where
  toPlatform := Platform.basic
  cipher _ block := block
  debugValue _ := []

/-- A driver whose transport waits for nothing and whose host answers
    nothing. -/
def mockDriver : Driver MockTransport where
  platform := .basic
  transport := MockTransport.transport
  host := {}

namespace RunspacePool

/-- The machine of a pool with one runspace. -/
def freshMachine : RunspacePoolStateMachine :=
  { state := .beforeOpen, rpid := Uuid.nil, minRunspaces := 1, maxRunspaces := 1,
    bounds := by decide }

variable {τ : Type} {d : Driver τ}

/-- A buffered message was delivered. -/
def delivered (msg : PsrpMessage) (rest : List PsrpMessage) (s : RunspacePool τ) :
    RunspacePool τ :=
  { (s.note (.took msg)).note (.handed msg) with pendingMessages := rest }

/-- A message that is not the pool's own business is delivered as soon as it is
    next in the buffer. -/
theorem turnsOf_buffered {w : World Answer (RunspacePool τ)} {msg : PsrpMessage}
    {rest : List PsrpMessage} {n : Nat} (hn : 0 < n) (hparked : w.state.deferredHostResponses = [])
    (hpending : w.state.pendingMessages = msg :: rest)
    (htype : handleMessage d msg = hand msg) :
    Async.turnsOf (fun _ => readTurn d) n () w
      = (.ok msg, { w with state := delivered msg rest w.state }) := by
  have hread : readTurn d w = (.ok (.done msg), { w with state := delivered msg rest w.state }) := by
    have hpop : popMessage w.state
        = (some msg, { w.state.note (.took msg) with pendingMessages := rest }) := by
      rw [popMessage, hpending]
    unfold readTurn
    simp only [Async.bind_apply, Async.get, hparked, ne_eq, not_true, false_and, if_false,
      Async.pure_apply, Async.update, hpop, htype, hand, record, Async.modify]
    rfl
  cases n with
  | zero => exact absurd hn (Nat.lt_irrefl 0)
  | succ n =>
      rw [Async.turnsOf, Async.bind_apply, hread]
      rfl

/-- The bytes of a message of the server, in one fragment. -/
def serverBytes (msg : PsrpMessage) : Bytes :=
  Fragment.encode { objectId := 1, fragmentId := 0, start := true, isEnd := true, blob := msg.encode }

/-- A message in one fragment is put together at once. -/
theorem feed_serverBytes {msg : PsrpMessage} (hlen : msg.encode.length < 2 ^ 32) :
    Reassembler.new.feed (serverBytes msg)
      = (.ok [msg.encode], { Reassembler.new with completedOrder := [1] }) := by
  have hfeed := feed_fragments Reassembler.new
    [{ objectId := 1, fragmentId := 0, start := true, isEnd := true, blob := msg.encode }] rfl
    (fun f hf => by
      rw [List.mem_singleton] at hf
      rw [hf]
      exact hlen)
    [msg.encode] { Reassembler.new with completedOrder := [1] } rfl
  rwa [List.flatMap_singleton] at hfeed

/-- A chunk with a message came in. -/
def fed (msg : PsrpMessage) (inbox : List Bytes) (s : RunspacePool MockTransport) :
    RunspacePool MockTransport :=
  { s.note (.chunk (serverBytes msg)) with
    transport := { s.transport with inbox }
    reassembler := { Reassembler.new with completedOrder := [1] }
    pendingMessages := [msg] }

/-- A message that is not the pool's own business is delivered as soon as it
    comes in. -/
theorem nextMessage_received {w : World Answer (RunspacePool MockTransport)} {msg : PsrpMessage}
    {rest : List Bytes} (hturns : 1 < w.turns) (hparked : w.state.deferredHostResponses = [])
    (hpending : w.state.pendingMessages = []) (hreassembler : w.state.reassembler = .new)
    (hrecv : w.state.transport.failRecv = none)
    (hinbox : w.state.transport.inbox = serverBytes msg :: rest)
    (hlen : msg.encode.length < 2 ^ 32) (hdecode : PsrpMessage.decode msg.encode = .ok msg)
    (htype : handleMessage mockDriver msg = hand msg) :
    nextMessage mockDriver w
      = (.ok msg, { w with state := delivered msg [] (fed msg rest w.state) }) := by
  have hread : readTurn mockDriver w
      = (.ok (.more ()), { w with state := fed msg rest w.state }) := by
    have hne : serverBytes msg ≠ [] := by
      intro hnil
      have hfed := feed_serverBytes hlen
      rw [hnil] at hfed
      cases hfed
    -- The first turn takes the chunk and feeds it,
    have hrecvChunk : onTransport mockDriver.transport.recvChunk w
        = (.ok (serverBytes msg), { w with state :=
          { w.state with transport := { w.state.transport with inbox := rest } } }) := by
      simp only [onTransport, Async.zoom, mockDriver, MockTransport.transport,
        MockTransport.recvChunk, Async.update, hrecv, hinbox]
    have hfeedChunk : feedChunk (serverBytes msg) (note (.chunk (serverBytes msg))
        { w.state with transport := { w.state.transport with inbox := rest } })
        = (.ok (), fed msg rest w.state) := by
      have hdecoded : [msg.encode].mapM PsrpMessage.decode = .ok [msg] := by
        simp only [List.mapM_cons, List.mapM_nil, hdecode]
        rfl
      simp only [feedChunk, note, hreassembler, feed_serverBytes hlen, hdecoded, fed, hpending,
        List.append_nil]
    unfold readTurn
    simp only [Async.bind_apply, Async.get, hparked, ne_eq, not_true, false_and, if_false]
    have hpop : popMessage w.state = (none, w.state) := by
      rw [popMessage, hpending]
    simp only [Async.update, hpop, receiveChunk, Async.bind_apply, hrecvChunk, record,
      Async.modify, Async.get, hne, false_and, if_false, hfeedChunk, Async.pure_apply]
  -- and the second one hands the message out.
  have hturn : ∀ n, 1 < n → Async.turnsOf (fun _ => readTurn mockDriver) n () w
      = (.ok msg, { w with state := delivered msg [] (fed msg rest w.state) }) := by
    intro n hn
    rcases n with _ | _ | n
    · exact absurd hn (Nat.not_lt_zero 1)
    · exact absurd hn (Nat.lt_irrefl 1)
    · rw [Async.turnsOf, Async.bind_apply, hread]
      exact turnsOf_buffered (d := mockDriver) (w := { w with state := fed msg rest w.state })
        (Nat.succ_pos n) hparked rfl htype
  exact hturn w.turns hturns

end RunspacePool

end Psrp

import Psrp.Core.Answer

/-!
# Transports

What a pool reads from and writes to.

A transport is a state and the programs that run on it. It takes the bytes of
whole messages, already cut into fragments, and hands back chunks of bytes
that need not end where a message does. Three operations have a default: what
is for a pipeline goes where everything goes, a pipeline is started by a
fragment like any other, and disconnecting is not supported.

## Main definitions

* `PsrpTransport`: A transport with states of some type.
* `MockTransport`: A transport with an inbox and an outbox.
-/

namespace Psrp

/-- A transport: what a pool asks of it, as programs on its state. -/
structure PsrpTransport (τ : Type) where
  sendFragment : Bytes → Prog τ Unit
  sendPipelineFragment : Bytes → Uuid → Prog τ Unit := fun bytes _ => sendFragment bytes
  recvChunk : Prog τ Bytes
  signalStop : Prog τ Unit
  closeShell : Prog τ Unit
  executePipeline : Bytes → Uuid → Prog τ Unit := fun bytes _ => sendFragment bytes
  disconnectShell : Prog τ Text :=
    Async.throw (.protocol "this transport does not implement disconnect_shell")

/-- A transport that waits for nothing: chunks come from an inbox, fragments
    go to an outbox. -/
structure MockTransport where
  inbox : List Bytes
  outbox : List Bytes
  stopped : Bool
  closed : Bool
  failSend : Bool
  failRecv : Option PsrpError
  pipelineSends : List Uuid
  deriving DecidableEq

namespace MockTransport

def new : MockTransport :=
  { inbox := [], outbox := [], stopped := false, closed := false, failSend := false,
    failRecv := none, pipelineSends := [] }

def sendFragment (bytes : Bytes) : Prog MockTransport Unit :=
  Async.update fun s =>
    if s.failSend then (.error (.protocol "mock send failure"), s)
    else (.ok (), { s with outbox := s.outbox ++ [bytes] })

/-- The next chunk of the inbox, unless the transport was told to fail. -/
def recvChunk : Prog MockTransport Bytes :=
  Async.update fun s =>
    match s.failRecv with
    | some e => (.error e, { s with failRecv := none })
    | none => match s.inbox with
      | bytes :: rest => (.ok bytes, { s with inbox := rest })
      | [] => (.error (.protocol "mock inbox empty"), s)

def transport : PsrpTransport MockTransport where
  sendFragment := sendFragment
  sendPipelineFragment bytes pipelineId := do
    sendFragment bytes
    Async.modify fun s => { s with pipelineSends := s.pipelineSends ++ [pipelineId] }
  recvChunk := recvChunk
  signalStop := Async.modify fun s => { s with stopped := true }
  closeShell := Async.modify fun s => { s with closed := true }
  disconnectShell := do
    Async.modify fun s => { s with closed := true }
    return "MOCK-SHELL-ID".toList

end MockTransport

end Psrp

import Psrp.Core.OutOfProc.Session
import Psrp.Core.Transport

/-!
# The Out-of-Process Transport

A session as a transport: every operation of the transport is one of the
session. What is for the pool goes to the nil guid, and a pipeline is started
like anything else is sent to it.

## Main definitions

* `OutOfProc.transport`: The transport.
-/

namespace Psrp

namespace OutOfProc

open OutOfProcSession

/-- The transport over a session. -/
def transport (p : PacketPlatform) : PsrpTransport OutOfProcSession where
  sendFragment bytes := send p Uuid.nil bytes
  sendPipelineFragment bytes pipelineId := send p pipelineId bytes
  recvChunk := recv p
  signalStop := signal p
  closeShell := close p
  executePipeline bytes pipelineId := send p pipelineId bytes

end OutOfProc

end Psrp

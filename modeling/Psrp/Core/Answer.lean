import Psrp.Core.Crypto
import Psrp.Core.Value
import Psrp.Lib.Async

/-!
# What the World Answers

Everything the program waits for or has no say in: how far a write got, what
came in, what a key generator drew, what the person at the host typed.

## Main definitions

* `ReceiveOutput`: What one Receive of a WinRM shell brought.
* `Answer`: One answer.
* `Prog`: A program that runs on them.
-/

namespace Psrp

/-- What one Receive of a WinRM shell brought, and whether the command has
    ended. -/
structure ReceiveOutput where
  stdout : Bytes
  done : Bool
  deriving DecidableEq

/-- One answer of the world. -/
inductive Answer where
  /-- A pipe took some more bytes of what is being written. -/
  | accepted (n : Nat)
  /-- A write or a request of a transport went through. -/
  | done
  /-- A chunk came in. -/
  | chunk (bytes : Bytes)
  /-- A WinRM server named what was asked for. -/
  | named (id : Text)
  /-- A WinRM server answered a Receive. -/
  | received (out : ReceiveOutput)
  /-- What was waited for failed. -/
  | failed (e : PsrpError)
  /-- A key pair was drawn, or could not be. -/
  | drawn (key : Except String ClientSessionKey)
  /-- The person at the host answered a prompt. -/
  | typed (value : PsValue)

/-- A program of the crate. -/
abbrev Prog := Async Answer PsrpError

end Psrp

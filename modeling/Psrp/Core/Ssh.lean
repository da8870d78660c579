import Psrp.Core.KnownHosts
import Psrp.Core.OutOfProc.PacketReader
import Psrp.Core.OutOfProc.Transport

/-!
# PowerShell over SSH

How an SSH connection is opened and its host key checked, and the channel that
a session reads from and writes to.

The SSH library carries out the handshake, asks the handler about every host
key it is offered, and hands out the messages of a channel. Everything it
answers is the world's; `SshEvent` notes what it was asked for and what came
over the channel, in the order of time. An alarm is the end of the time a
connection may take.

Only what the host key policy, the credentials and the bytes of the channel
depend on is kept of a connection: what is logged is left out.

## Main definitions

* `HostKeyPolicy`, `SshAuth`, `SshConfig`: What a caller asks for.
* `validSshHost`: Host names that are refused.
* `verifyHostKey`, `checkServerKey`: The host key of a server.
* `ChannelMsg`, `appendPreReplyOutput`, `awaitSubsystem`: The channel before the subsystem answers.
* `connect`: Opening a connection.
* `RusshPipe.read`: Reading from the channel.
* `SshPsrpTransport.closeShell`: Closing the session and the connection.
-/

namespace Psrp

namespace Ssh

open Async (Turn)
open OutOfProc (PacketPlatform OutOfProcSession MAX_LINE_BYTES quoteBytes)

/-- `HostKeyPolicy`. -/
inductive HostKeyPolicy where
  | pinned (fingerprint : Vector UInt8 32)
  | knownHosts (path : Text)
  | acceptAny
  deriving DecidableEq

/-- `SshAuth`. -/
inductive SshAuth where
  | password (password : Text)
  | privateKey (path : Text) (passphrase : Option Text)
  | agent
  deriving DecidableEq

/-- `SshConfig`. The time to connect is that of an alarm. -/
structure SshConfig where
  host : Text
  port : UInt16
  username : Text
  auth : SshAuth
  subsystem : Text
  /-- Bound on every request of the session, in nanoseconds. -/
  ackTimeout : Nat
  hostKeyPolicy : HostKeyPolicy
  deriving DecidableEq

/-- The libraries under a connection. -/
structure RusshPlatform (κ : Type) extends SshPlatform κ where
  packet : PacketPlatform
  /-- The SHA-256 fingerprint of a key, if it is one. -/
  fingerprint : κ → Option (Vector UInt8 32)

/-- A concrete platform, without fingerprints. -/
def RusshPlatform.basic : RusshPlatform (Text × Text) where
  toSshPlatform := .basic
  packet := .basic
  fingerprint _ := none

/-- `PublicKeyOrCertificate`. -/
inductive HostKey (κ : Type) where
  | publicKey (key : κ)
  | certificate
  deriving DecidableEq

/-- A message of a channel. -/
inductive ChannelMsg where
  | success
  | failure
  | data (data : Bytes)
  | extendedData (data : Bytes) (ext : UInt32)
  | exitStatus (status : UInt32)
  | eof
  | close
  /-- Any other. -/
  | other
  deriving DecidableEq

/-- One answer of the SSH library. -/
inductive SshAnswer (κ : Type) where
  /-- The server offered a host key. -/
  | offered (key : HostKey κ)
  /-- What was asked for was done. -/
  | done
  | failed (why : String)
  /-- Whether the server let the user in. -/
  | admitted (success : Bool)
  /-- The next message of a channel; none when there is no channel any more. -/
  | message (msg : Option ChannelMsg)
  /-- What reading a file brought. -/
  | file (contents : Except String Text)

/-- What happens to a connection. -/
inductive SshEvent (κ : Type) where
  | connecting (addr : String)
  /-- The `known_hosts` file was read. -/
  | read (path : Text) (contents : Except String Text)
  /-- A host key was offered, and accepted or not. -/
  | checked (key : HostKey κ) (accepted : Bool)
  /-- The library has a connection. -/
  | connected
  /-- Credentials are given to the library. -/
  | authenticating (username : Text) (auth : SshAuth)
  | authenticated
  | opened
  | subsystem (name : Text)
  | message (msg : Option ChannelMsg)
  deriving DecidableEq

/-- A program that opens a connection. -/
abbrev SshProg (κ : Type) := Async (SshAnswer κ) PsrpError (List (SshEvent κ))

variable {κ : Type}

def isControl (c : Char) : Bool := c.toNat < 0x20 || (0x7F ≤ c.toNat && c.toNat ≤ 0x9F)

/-- `valid_ssh_host`: what ssh(1) takes for a host name. -/
def validSshHost (host : Text) : Bool :=
  !host.isEmpty && host.head? != some '-'
    && !host.any fun c => Text.isWhitespace c || isControl c || "'`\"$\\;&<>|(){},".toList.contains c

def invalidHost : PsrpError :=
  .protocol ("invalid SSH host: empty, starting with '-', or holding whitespace, "
    ++ "a control character or one of '`\"$\\;&<>|()\x7b\x7d,")

def zeroTimeout : PsrpError := .protocol "invalid SSH config: ack_timeout must not be zero"

def record (e : SshEvent κ) : SshProg κ Unit := Async.modify (· ++ [e])

section HostKeys

variable [DecidableEq κ]

/-- `verify_against_known_hosts`, of what the file holds. -/
def verifyAgainstKnownHosts (p : SshPlatform κ) (path : Text) (contents : Except String Text)
    (host : Text) (port : UInt16) (key : κ) : Except String Unit :=
  match contents with
  | .error e => .error s!"cannot read known_hosts file {String.ofList path}: {e}"
  | .ok contents => match p.knownHostsVerdict contents host port key with
    | .trusted => .ok ()
    | .revoked => .error
        s!"host key for {String.ofList host}:{port} explicitly revoked in {String.ofList path}"
    | .notTrusted => .error
        s!"no matching entry for {String.ofList host}:{port} in {String.ofList path} — host key not trusted"

/-- What a file that cannot be read brings. -/
def fileAnswer : SshAnswer κ → Option (Except String Text)
  | .file contents => some contents
  | _ => none

/-- `verify_host_key`. The file is read without a wait. -/
def verifyHostKey (p : RusshPlatform κ) (policy : HostKeyPolicy) (host : Text) (port : UInt16)
    (key : κ) : SshProg κ (Except String Unit) :=
  match policy with
  | .acceptAny => return .ok ()
  | .pinned expected =>
    match p.fingerprint key with
    | none => return .error "computed fingerprint was not SHA-256"
    | some actual =>
      if constantTimeEq actual.toList expected.toList then return .ok ()
      else return .error "pinned SHA-256 fingerprint does not match"
  | .knownHosts path => do
    let contents ← Async.choose fileAnswer (.error "no such file")
    record (.read path contents)
    return verifyAgainstKnownHosts p.toSshPlatform path contents host port key

/-- Whether a policy lets a host key pass. A certificate has no authority that
    vouches for it. -/
def accepts (p : RusshPlatform κ) (config : SshConfig) : HostKey κ → SshProg κ Bool
  | .certificate => return config.hostKeyPolicy = .acceptAny
  | .publicKey key => do
    match ← verifyHostKey p config.hostKeyPolicy config.host config.port key with
    | .ok () => return true
    | .error _ => return false

/-- `check_server_key`. -/
def checkServerKey (p : RusshPlatform κ) (config : SshConfig) (key : HostKey κ) :
    SshProg κ Bool := do
  let accepted ← accepts p config key
  record (.checked key accepted)
  return accepted

/-- What comes up in a handshake: a key to check, or the end of it. -/
def handshakeAnswer : SshAnswer κ → Option (Except (Except String Unit) (HostKey κ))
  | .offered key => some (.ok key)
  | .done => some (.error (.ok ()))
  | .failed why => some (.error (.error why))
  | _ => none

/-- `russh::client::connect`, with the handler it asks. What it makes of an
    answer of the handler is its own business. -/
def handshake (p : RusshPlatform κ) (config : SshConfig) : SshProg κ Unit :=
  Async.loop (fun _ => do
    match ← Async.await handshakeAnswer with
    | .ok key =>
      let _ ← checkServerKey p config key
      return .more ()
    | .error (.ok ()) =>
      record .connected
      return .done ()
    | .error (.error why) => Async.throw (.protocol s!"SSH connect: {why}")) ()

end HostKeys

section Connecting

def doneAnswer : SshAnswer κ → Option (Except String Unit)
  | .done => some (.ok ())
  | .failed why => some (.error why)
  | _ => none

def admittedAnswer : SshAnswer κ → Option (Except String Bool)
  | .admitted success => some (.ok success)
  | .failed why => some (.error why)
  | _ => none

def messageAnswer : SshAnswer κ → Option (Option ChannelMsg)
  | .message msg => some msg
  | _ => none

/-- Ask for something of the library; an error says what. -/
def ask {α : Type} (read : SshAnswer κ → Option (Except String α)) (what : String) :
    SshProg κ α := do
  match ← Async.await read with
  | .ok a => return a
  | .error why => Async.throw (.protocol s!"{what}: {why}")

/-- Give the library the credentials. The key file is read without a wait. -/
def authenticate (config : SshConfig) : SshProg κ Bool :=
  match config.auth with
  | .password password => do
    record (.authenticating config.username (.password password))
    ask admittedAnswer "SSH password auth"
  | .privateKey path passphrase => do
    match ← Async.choose doneAnswer (.error "no such file") with
    | .error why => Async.throw (.protocol s!"SSH key load: {why}")
    | .ok () =>
      record (.authenticating config.username (.privateKey path passphrase))
      ask admittedAnswer "SSH pubkey auth"
  | .agent =>
    Async.throw (.protocol "SSH agent auth not yet implemented — use Password or PrivateKey")

/-- Most stdout accepted before the subsystem reply. -/
def MAX_PRE_REPLY_BYTES : Nat := MAX_LINE_BYTES

/-- `append_pre_reply_output`. -/
def appendPreReplyOutput (p : PacketPlatform) (pending data : Bytes) : Except PsrpError Bytes :=
  if MAX_PRE_REPLY_BYTES < pending.length + data.length then
    let head := (pending ++ data).take 1024
    .error (.protocol ("SSH server sent unexpected output before the subsystem replied "
      ++ s!"(over {MAX_PRE_REPLY_BYTES} bytes): {String.ofList (quoteBytes p head)}"))
  else .ok (pending ++ data)

def subsystemRefused (subsystem : Text) : PsrpError :=
  .protocol s!"SSH server refused the '{String.ofList subsystem}' subsystem"

def channelClosed : PsrpError := .protocol "SSH channel closed before the subsystem started"

/-- Wait for the reply to the subsystem request, keeping what comes before. -/
def awaitSubsystem (p : PacketPlatform) (config : SshConfig) : SshProg κ Bytes :=
  Async.loop (fun pending => do
    let msg ← Async.await messageAnswer
    record (.message msg)
    match msg with
    | some .success => return .done pending
    | some .failure => Async.throw (subsystemRefused config.subsystem)
    | some (.data data) => do
      let pending ← Async.lift (appendPreReplyOutput p pending data)
      return .more pending
    | some .eof | some .close | none => Async.throw channelClosed
    | some _ => return .more pending) []

/-- Open a channel and start the subsystem on it. -/
def openSubsystem (p : PacketPlatform) (config : SshConfig) : SshProg κ Bytes := do
  ask doneAnswer "SSH channel open"
  record .opened
  record (.subsystem config.subsystem)
  ask doneAnswer "SSH subsystem request"
  match ← Async.guarded (awaitSubsystem p config) with
  | some pending => return pending
  | none => Async.throw (.protocol "SSH subsystem request timed out")

/-- `SshPsrpTransport::connect`. What it returns is the stdout that came before
    the subsystem replied. -/
def connect [DecidableEq κ] (p : RusshPlatform κ) (config : SshConfig) : SshProg κ Bytes :=
  if !validSshHost config.host then Async.throw invalidHost
  else if config.ackTimeout = 0 then Async.throw zeroTimeout
  else do
    let addr := s!"{String.ofList config.host}:{config.port}"
    record (.connecting addr)
    match ← Async.guarded (handshake p config) with
    | none => Async.throw (.protocol s!"SSH connect timeout to {addr}")
    | some () =>
      if ← authenticate config then
        record .authenticated
        openSubsystem p.packet config
      else Async.throw (.protocol "SSH authentication failed")

end Connecting

/-- The stdin and stdout of the remote process, and what came over the channel
    so far. -/
structure RusshPipe where
  messages : List (Option ChannelMsg)
  /-- Stdout received before the subsystem reply. -/
  pending : Bytes
  exitStatus : Option UInt32
  deriving DecidableEq

namespace RusshPipe

/-- The pipe of a connection. -/
def new (pending : Bytes) : RusshPipe := { messages := [], pending, exitStatus := none }

def note (msg : Option ChannelMsg) (s : RusshPipe) : RusshPipe :=
  { s with messages := s.messages ++ [msg] }

/-- The error of a channel that ended. -/
def closedError (exitStatus : Option UInt32) : PsrpError :=
  .protocol ("PowerShell closed the SSH channel" ++ match exitStatus with
    | some status => s!" (exit status {status})"
    | none => "")

/-- `RusshPipe::read`: the next stdout, stderr and empty chunks skipped. -/
def read : Async (SshAnswer κ) PsrpError RusshPipe Bytes := do
  let held := (← Async.get).pending
  if held ≠ [] then
    Async.modify fun s => { s with pending := [] }
    return held
  else
    Async.loop (fun _ => do
      let msg ← Async.await messageAnswer
      Async.modify (note msg)
      match msg with
      | some (.data data) => if data ≠ [] then return .done data else return .more ()
      | some (.exitStatus status) =>
        Async.modify fun s => { s with exitStatus := some status }
        return .more ()
      | some .eof | some .close | none => Async.throw (closedError (← Async.get).exitStatus)
      | some _ => return .more ()) ()

end RusshPipe

/-- What is asked of the library to end a connection. -/
inductive Teardown where
  | eof
  | close
  | disconnect
  deriving DecidableEq

/-- A session over a connection. -/
structure SshPsrpTransport where
  inner : OutOfProcSession
  closed : Bool
  /-- What was asked for to end the connection. -/
  torn : List Teardown
  deriving DecidableEq

namespace SshPsrpTransport

/-- The transport of a new connection. -/
def new (ackTimeout : Nat) : SshPsrpTransport :=
  { inner := OutOfProcSession.new.withAckTimeout ackTimeout, closed := false, torn := [] }

/-- An operation of the session. -/
def session {α : Type} (q : Prog OutOfProcSession α) : Prog SshPsrpTransport α :=
  Async.zoom inner (fun inner s => { s with inner }) q

/-- A request to the library whose error is ignored. -/
def tear (step : Teardown) : Prog SshPsrpTransport Unit := do
  Async.modify fun s => { s with torn := s.torn ++ [step] }
  let _ ← Async.await OutOfProcSession.writeAnswer
  return ()

/-- `close_shell`. Whatever the session says, the connection is torn down. -/
def closeShell (p : PacketPlatform) : Prog SshPsrpTransport Unit := do
  if (← Async.get).closed then return ()
  Async.modify fun s => { s with closed := true }
  let result ← Async.attempt (session (OutOfProcSession.close p))
  tear .eof
  tear .close
  tear .disconnect
  Async.lift result

/-- The transport. -/
def transport (p : PacketPlatform) : PsrpTransport SshPsrpTransport where
  sendFragment bytes := session ((OutOfProc.transport p).sendFragment bytes)
  sendPipelineFragment bytes pipelineId :=
    session ((OutOfProc.transport p).sendPipelineFragment bytes pipelineId)
  recvChunk := session (OutOfProc.transport p).recvChunk
  signalStop := session (OutOfProc.transport p).signalStop
  closeShell := closeShell p
  executePipeline bytes pipelineId :=
    session ((OutOfProc.transport p).executePipeline bytes pipelineId)

end SshPsrpTransport

end Ssh

end Psrp

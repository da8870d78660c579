import Psrp.Core.Answer
import Psrp.Core.Base64
import Psrp.Core.CreatePipeline
import Psrp.Core.Crypto
import Psrp.Core.Decode
import Psrp.Core.Encode
import Psrp.Core.Error
import Psrp.Core.Escape
import Psrp.Core.Fragment
import Psrp.Core.Glob
import Psrp.Core.Host
import Psrp.Core.HostName
import Psrp.Core.KnownHosts
import Psrp.Core.Message
import Psrp.Core.Metadata
import Psrp.Core.OutOfProc.Packet
import Psrp.Core.OutOfProc.PacketReader
import Psrp.Core.OutOfProc.Session
import Psrp.Core.OutOfProc.Transport
import Psrp.Core.Parked
import Psrp.Core.Pipeline
import Psrp.Core.Platform
import Psrp.Core.Pool
import Psrp.Core.Records
import Psrp.Core.RunspaceState
import Psrp.Core.Ssh
import Psrp.Core.Transport
import Psrp.Core.Value
import Psrp.Core.Winrm
import Psrp.Lib.Accounts
import Psrp.Lib.Async
import Psrp.Lib.Bits
import Psrp.Lib.Bytes
import Psrp.Lib.Decimal
import Psrp.Lib.Glob
import Psrp.Lib.IndexMap
import Psrp.Lib.Moments
import Psrp.Lib.Pull
import Psrp.Lib.Radix
import Psrp.Lib.Text
import Psrp.Lib.Uuid
import Psrp.Lib.Walks
import Psrp.Lib.Xml
import Psrp.Lib.XmlScanner
import Psrp.Theory.Accessors
import Psrp.Theory.Base64
import Psrp.Theory.Budget
import Psrp.Theory.ClixmlErrors
import Psrp.Theory.CreatePipeline
import Psrp.Theory.CutStreams
import Psrp.Theory.Decoded
import Psrp.Theory.Descent
import Psrp.Theory.Encode
import Psrp.Theory.Escape
import Psrp.Theory.FailureMessage
import Psrp.Theory.Fragment
import Psrp.Theory.KnownHosts.Canonical
import Psrp.Theory.KnownHosts.Glob
import Psrp.Theory.KnownHosts.HostName
import Psrp.Theory.KnownHosts.Lines
import Psrp.Theory.KnownHosts.Verdict
import Psrp.Theory.LeafRoundTrip
import Psrp.Theory.LongPoll
import Psrp.Theory.Machine
import Psrp.Theory.MachineRefinement
import Psrp.Theory.Message
import Psrp.Theory.Nesting
import Psrp.Theory.Normalise
import Psrp.Theory.Openings
import Psrp.Theory.OutOfProc.Arrivals
import Psrp.Theory.OutOfProc.Broken
import Psrp.Theory.OutOfProc.Codec
import Psrp.Theory.OutOfProc.Discipline
import Psrp.Theory.OutOfProc.Inbound
import Psrp.Theory.OutOfProc.Lines
import Psrp.Theory.OutOfProc.Payload
import Psrp.Theory.OutOfProc.Session
import Psrp.Theory.OutOfProc.Splitting
import Psrp.Theory.OutOfProc.Wire
import Psrp.Theory.Parked
import Psrp.Theory.Pool.Accounts
import Psrp.Theory.Pool.Acts
import Psrp.Theory.Pool.Cancellation
import Psrp.Theory.Pool.Changes
import Psrp.Theory.Pool.Death
import Psrp.Theory.Pool.Deeds
import Psrp.Theory.Pool.Errors
import Psrp.Theory.Pool.Faults
import Psrp.Theory.Pool.HostAnswers
import Psrp.Theory.Pool.HostCalls
import Psrp.Theory.Pool.Input
import Psrp.Theory.Pool.Isolation
import Psrp.Theory.Pool.KeyExchange
import Psrp.Theory.Pool.Ledger
import Psrp.Theory.Pool.Lifecycle
import Psrp.Theory.Pool.Mock
import Psrp.Theory.Pool.Notes
import Psrp.Theory.Pool.ObjectIds
import Psrp.Theory.Pool.Operations
import Psrp.Theory.Pool.Order
import Psrp.Theory.Pool.Receive
import Psrp.Theory.Pool.Secrets
import Psrp.Theory.Pool.Traces
import Psrp.Theory.PoolLifecycle
import Psrp.Theory.Reassembly
import Psrp.Theory.Reencode
import Psrp.Theory.RefIds
import Psrp.Theory.References
import Psrp.Theory.RoundTrip
import Psrp.Theory.Scopes
import Psrp.Theory.SecureLeaves
import Psrp.Theory.SecureString
import Psrp.Theory.SelfClosing
import Psrp.Theory.SharedNames
import Psrp.Theory.Sharing.Bounded
import Psrp.Theory.Sharing.Follows
import Psrp.Theory.Sharing.Scan
import Psrp.Theory.Ssh.Channel
import Psrp.Theory.Ssh.Closing
import Psrp.Theory.Ssh.Connect
import Psrp.Theory.Steps
import Psrp.Theory.Unknown
import Psrp.Theory.Weight
import Psrp.Theory.Winrm

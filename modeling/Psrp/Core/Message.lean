import Mathlib.Data.List.GetD
import Psrp.Core.Error
import Psrp.Lib.Bytes
import Psrp.Lib.Uuid

/-!
# PSRP Messages

The message layer: a header of forty bytes and a CLIXML body in UTF-8.

The header holds the destination and the type of the message, little endian,
and the ids of the runspace pool and of the pipeline in mixed-endian form. A
type code that is not listed decodes to `unknown`, so every code survives. A
byte order mark before the body is accepted and never written.

## Main definitions

* `Destination`, `MessageType`: The enumerations of the header.
* `PsrpMessage`: A message.
* `PsrpMessage.encode`, `PsrpMessage.decode`: To and from bytes.

## Theorems

* `PsrpMessage.decode_encode`: A message is read back.
-/

namespace Psrp

/-- Length of the header of a message in bytes. -/
def HEADER_LEN : Nat := 40

/-- The UTF-8 byte order mark. -/
def BOM : Bytes := [0xEF, 0xBB, 0xBF]

/-- Destination of a message. -/
inductive Destination where
  | client
  | server
  deriving DecidableEq, Repr

namespace Destination

/-- Numeric wire code. -/
def toU32 : Destination → UInt32
  | client => 1
  | server => 2

/-- Decode from a wire code. -/
def fromU32 (v : UInt32) : Except PsrpError Destination :=
  if v = 1 then .ok client
  else if v = 2 then .ok server
  else .error (.protocol s!"unknown destination {v}")

end Destination

/-- Message types. -/
inductive MessageType where
  | sessionCapability
  | initRunspacePool
  | publicKey
  | encryptedSessionKey
  | publicKeyRequest
  | setMaxRunspaces
  | setMinRunspaces
  | runspaceAvailability
  | runspacePoolState
  | createPipeline
  | getAvailableRunspaces
  | userEvent
  | applicationPrivateData
  | getCommandMetadata
  | runspacePoolHostCall
  | runspacePoolHostResponse
  | pipelineInput
  | endOfPipelineInput
  | pipelineOutput
  | errorRecord
  | pipelineState
  | debugRecord
  | verboseRecord
  | warningRecord
  | progressRecord
  | informationRecord
  | pipelineHostCall
  | pipelineHostResponse
  | connectRunspacePool
  | runspacePoolInitData
  | resetRunspaceState
  | closeRunspacePool
  | unknown (code : UInt32)
  deriving DecidableEq, Repr

namespace MessageType

/-- Numeric wire code. -/
def toU32 : MessageType → UInt32
  | sessionCapability => 0x00010002
  | initRunspacePool => 0x00010004
  | publicKey => 0x00010005
  | encryptedSessionKey => 0x00010006
  | publicKeyRequest => 0x00010007
  | connectRunspacePool => 0x0002100B
  | setMaxRunspaces => 0x00021002
  | setMinRunspaces => 0x00021003
  | runspaceAvailability => 0x00021004
  | runspacePoolState => 0x00021005
  | createPipeline => 0x00021006
  | getAvailableRunspaces => 0x00021007
  | userEvent => 0x00021008
  | applicationPrivateData => 0x00021009
  | getCommandMetadata => 0x0002100A
  | runspacePoolInitData => 0x0002100C
  | resetRunspaceState => 0x0002100D
  | runspacePoolHostCall => 0x00021100
  | runspacePoolHostResponse => 0x00021101
  | pipelineInput => 0x00041002
  | endOfPipelineInput => 0x00041003
  | pipelineOutput => 0x00041004
  | errorRecord => 0x00041005
  | pipelineState => 0x00041006
  | debugRecord => 0x00041007
  | verboseRecord => 0x00041008
  | warningRecord => 0x00041009
  | progressRecord => 0x00041010
  | informationRecord => 0x00041011
  | pipelineHostCall => 0x00041100
  | pipelineHostResponse => 0x00041101
  | closeRunspacePool => 0x0002100E
  | unknown v => v

/-- Decode from a wire code. -/
def fromU32 (v : UInt32) : MessageType :=
  match v.toNat with
  | 0x00010002 => sessionCapability
  | 0x00010004 => initRunspacePool
  | 0x00010005 => publicKey
  | 0x00010006 => encryptedSessionKey
  | 0x00010007 => publicKeyRequest
  | 0x00021002 => setMaxRunspaces
  | 0x00021003 => setMinRunspaces
  | 0x00021004 => runspaceAvailability
  | 0x00021005 => runspacePoolState
  | 0x00021006 => createPipeline
  | 0x00021007 => getAvailableRunspaces
  | 0x00021008 => userEvent
  | 0x00021009 => applicationPrivateData
  | 0x0002100A => getCommandMetadata
  | 0x0002100B => connectRunspacePool
  | 0x0002100C => runspacePoolInitData
  | 0x0002100D => resetRunspaceState
  | 0x0002100E => closeRunspacePool
  | 0x00021100 => runspacePoolHostCall
  | 0x00021101 => runspacePoolHostResponse
  | 0x00041002 => pipelineInput
  | 0x00041003 => endOfPipelineInput
  | 0x00041004 => pipelineOutput
  | 0x00041005 => errorRecord
  | 0x00041006 => pipelineState
  | 0x00041007 => debugRecord
  | 0x00041008 => verboseRecord
  | 0x00041009 => warningRecord
  | 0x00041010 => progressRecord
  | 0x00041011 => informationRecord
  | 0x00041100 => pipelineHostCall
  | 0x00041101 => pipelineHostResponse
  | _ => unknown v

theorem fromU32_toU32 (t : MessageType) (h : ∀ c, t = unknown c → fromU32 c = unknown c) :
    fromU32 t.toU32 = t := by
  cases t with
  | unknown c => exact h c rfl
  | _ => rfl

end MessageType

/-- A decoded message: the header and the body. -/
structure PsrpMessage where
  destination : Destination
  messageType : MessageType
  rpid : Uuid
  pid : Uuid
  data : Text
  deriving DecidableEq

namespace PsrpMessage

/-- Build a message for the server. -/
def toServer (messageType : MessageType) (rpid pid : Uuid) (data : Text) : PsrpMessage :=
  { destination := .server, messageType, rpid, pid, data }

/-- The bytes of a message. -/
def encode (m : PsrpMessage) : Bytes :=
  leBytes 4 m.destination.toU32.toNat ++ leBytes 4 m.messageType.toU32.toNat
    ++ m.rpid.toBytesLe.toList ++ m.pid.toBytesLe.toList ++ m.data.toUtf8

/-- A UUID from sixteen mixed-endian bytes. -/
def readUuid (bs : Bytes) : Uuid := Uuid.fromBytesLe (Vector.ofFn fun i => bs.getD i 0)

/-- Read a message. -/
def decode (bytes : Bytes) : Except PsrpError PsrpMessage :=
  let tooShort : PsrpError := .protocol s!"message too short: {bytes.length} bytes"
  match splitFirst 4 bytes with
  | none => .error tooShort
  | some (dest, rest) => match splitFirst 4 rest with
    | none => .error tooShort
    | some (mt, rest) => match splitFirst 16 rest with
      | none => .error tooShort
      | some (rpidBytes, rest) => match splitFirst 16 rest with
        | none => .error tooShort
        | some (pidBytes, body) => do
          let destination ← Destination.fromU32 (UInt32.ofNat (ofLe dest))
          let messageType := MessageType.fromU32 (UInt32.ofNat (ofLe mt))
          let rpid := readUuid rpidBytes
          let pid := readUuid pidBytes
          let body := if BOM.isPrefixOf body then body.drop BOM.length else body
          match Text.fromUtf8 body with
          | .error e => .error (.protocol s!"invalid UTF-8 in message body: {e}")
          | .ok data => .ok { destination, messageType, rpid, pid, data }

theorem readUuid_toBytesLe (u : Uuid) : readUuid u.toBytesLe.toList = u := by
  have hbytes : (Vector.ofFn fun i : Fin 16 => u.toBytesLe.toList.getD i 0) = u.toBytesLe := by
    ext i hi
    rw [Vector.getElem_ofFn, List.getD_eq_getElem _ _ (by rw [Vector.length_toList]; exact hi),
      Vector.getElem_toList]
  rw [readUuid, hbytes, Uuid.fromBytesLe_toBytesLe]

theorem ofNat_ofLe_toNat (v : UInt32) : UInt32.ofNat (ofLe (leBytes 4 v.toNat)) = v := by
  rw [ofLe_leBytes 4 _ v.toNat_lt, UInt32.ofNat_toNat]

/-- Only a text that starts with the mark is written starting with its bytes. -/
theorem bom_isPrefixOf_toUtf8 (s : Text) (h : s.head? ≠ some '\uFEFF') :
    BOM.isPrefixOf s.toUtf8 = false := by
  cases s with
  | nil => rfl
  | cons c s =>
      rw [Bool.eq_false_iff, ne_eq, List.isPrefixOf_iff_prefix]
      intro hprefix
      have hmark : BOM = Text.toUtf8 ['\uFEFF'] := by decide
      rcases hprefix with ⟨tail, htail⟩
      -- Both texts start with a character that the same bytes encode.
      have hdecode := congrArg (fun b : Bytes => b.toByteArray.utf8DecodeChar? 0) htail
      have hc : (Text.toUtf8 (c :: s)).toByteArray = [c].utf8Encode ++ s.utf8Encode := by
        rw [Text.toByteArray_toUtf8, List.utf8Encode_cons]
      have hm : (BOM ++ tail).toByteArray = ['\uFEFF'].utf8Encode ++ tail.toByteArray := by
        rw [hmark, List.toByteArray_append]
        rfl
      simp only [hc, hm, List.utf8DecodeChar?_utf8Encode_singleton_append,
        Option.some.injEq] at hdecode
      exact h (congrArg some hdecode.symm)

/-- A message is read back, unless its body starts with a byte order mark or
    its type is a known code under the name of an unknown one. -/
theorem decode_encode (m : PsrpMessage) (hdata : m.data.head? ≠ some '\uFEFF')
    (htype : ∀ c, m.messageType = .unknown c → MessageType.fromU32 c = .unknown c) :
    decode m.encode = .ok m := by
  have hdest : Destination.fromU32 m.destination.toU32 = .ok m.destination := by
    cases m.destination <;> rfl
  rw [decode, encode]
  simp only [List.append_assoc, splitFirst_append 4 _ _ (length_leBytes 4 _),
    splitFirst_append 16 _ _ Vector.length_toList, ofNat_ofLe_toNat, hdest,
    MessageType.fromU32_toU32 _ htype, readUuid_toBytesLe, bom_isPrefixOf_toUtf8 _ hdata,
    Bool.false_eq_true, if_false, Text.fromUtf8_toUtf8]
  rfl

end PsrpMessage

end Psrp

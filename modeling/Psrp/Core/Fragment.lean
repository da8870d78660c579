import Psrp.Core.Error
import Psrp.Lib.Bytes
import Psrp.Lib.IndexMap

/-!
# Fragments

A message travels as one or more fragments. Each has a header of twenty-one
bytes, big endian: the id of the object, the index of the fragment in it, two
flags, and the length of the blob that follows.

The reassembler keeps the bytes of an unfinished fragment and what arrived of
every unfinished object. It takes whole fragments off its buffer, and hands
out an object once the fragment with the end flag arrived. The map of objects
in flight is a hash map in the source; nothing depends on its order.

## Main definitions

* `Fragment`, `Fragment.encode`: A fragment and its bytes.
* `splitMessage`, `encodeMessage`: The fragments of a message and their bytes.
* `decodeOne`: The first fragment of a buffer.
* `Reassembler`, `Reassembler.feed`: The reassembler.
-/

namespace Psrp

/-- Maximum payload bytes per fragment. -/
def MAX_FRAGMENT_PAYLOAD : Nat := 32 * 1024

/-- Size of the fragment header in bytes. -/
def FRAGMENT_HEADER_LEN : Nat := 21

def FLAG_START : UInt8 := 0x01

def FLAG_END : UInt8 := 0x02

/-- A single fragment. -/
structure Fragment where
  objectId : UInt64
  fragmentId : UInt64
  /-- True for the first fragment of an object. -/
  start : Bool
  /-- True for the last fragment of an object. -/
  isEnd : Bool
  blob : Bytes
  deriving DecidableEq, Repr

namespace Fragment

/-- The flags byte. -/
def flags (f : Fragment) : UInt8 :=
  (if f.start then FLAG_START else 0) ||| (if f.isEnd then FLAG_END else 0)

/-- The bytes of a fragment. -/
def encode (f : Fragment) : Bytes :=
  beBytes 8 f.objectId.toNat ++ beBytes 8 f.fragmentId.toNat ++ [f.flags]
    ++ beBytes 4 (min f.blob.length (2 ^ 32 - 1)) ++ f.blob

end Fragment

/-- The fragments of what is left of a payload that is not empty, from a given
    index on. The last one carries whatever is left. -/
def splitFrom (objectId : UInt64) (fragmentId : Nat) (payload : Bytes) : List Fragment :=
  if h : payload.length ≤ MAX_FRAGMENT_PAYLOAD then
    [{ objectId, fragmentId := UInt64.ofNat fragmentId, start := fragmentId == 0, isEnd := true,
       blob := payload }]
  else
    { objectId, fragmentId := UInt64.ofNat fragmentId, start := fragmentId == 0, isEnd := false,
      blob := payload.take MAX_FRAGMENT_PAYLOAD }
      :: splitFrom objectId (fragmentId + 1) (payload.drop MAX_FRAGMENT_PAYLOAD)
termination_by payload.length
decreasing_by
  have hpos : 0 < MAX_FRAGMENT_PAYLOAD := by decide
  rw [List.length_drop]
  omega

/-- Split a payload into fragments. An empty one yields a single empty
    fragment, which starts and ends its object. -/
def splitMessage (objectId : UInt64) (payload : Bytes) : List Fragment :=
  splitFrom objectId 0 payload

/-- The bytes of all fragments of a payload. -/
def encodeMessage (objectId : UInt64) (payload : Bytes) : Bytes :=
  (splitMessage objectId payload).flatMap Fragment.encode

/-- What arrived of an object. -/
structure InFlight where
  buf : Bytes
  nextFragmentId : UInt64
  started : Bool
  deriving DecidableEq, Repr

/-- An object of which nothing arrived. -/
def InFlight.default : InFlight := { buf := [], nextFragmentId := 0, started := false }

/-- Check a fragment against what arrived of its object, and add it. -/
def InFlight.add (entry : InFlight) (f : Fragment) : Except PsrpError InFlight := do
  let entry ←
    if f.start then
      if entry.started then
        throw (.fragment s!"duplicate start fragment for object {f.objectId}")
      else if f.fragmentId ≠ 0 then
        throw (.fragment
          s!"start fragment for object {f.objectId} has non-zero fragment id {f.fragmentId}")
      else pure { entry with started := true, nextFragmentId := 0 }
    else if !entry.started then
      throw (.fragment s!"continuation fragment before start for object {f.objectId}")
    else pure entry
  if f.fragmentId ≠ entry.nextFragmentId then
    throw (.fragment (s!"out-of-order fragment for object {f.objectId}: "
      ++ s!"expected {entry.nextFragmentId}, got {f.fragmentId}"))
  else if f.fragmentId.toNat + 1 < 2 ^ 64 then
    pure { entry with nextFragmentId := f.fragmentId + 1, buf := entry.buf ++ f.blob }
  else throw (.fragment s!"fragment id overflow for object {f.objectId}")

/-- The first fragment of a buffer and the number of bytes it takes, if it is
    complete. -/
def decodeOne (buf : Bytes) : Option (Fragment × Nat) := do
  let (objectId, rest) ← splitFirst 8 buf
  let (fragmentId, rest) ← splitFirst 8 rest
  let (flags, rest) ← splitFirst 1 rest
  let (blobLen, rest) ← splitFirst 4 rest
  let blobLen := ofBe blobLen
  let (blob, _) ← splitFirst blobLen rest
  let flags := flags.headD 0
  return ({ objectId := UInt64.ofNat (ofBe objectId), fragmentId := UInt64.ofNat (ofBe fragmentId),
            start := flags &&& FLAG_START != 0, isEnd := flags &&& FLAG_END != 0, blob },
    FRAGMENT_HEADER_LEN + blobLen)

/-- The reassembler. -/
structure Reassembler where
  buffer : Bytes
  inFlight : IndexMap UInt64 InFlight
  completedOrder : List UInt64
  deriving DecidableEq, Repr

namespace Reassembler

/-- A fresh reassembler. -/
def new : Reassembler := { buffer := [], inFlight := [], completedOrder := [] }

/-- Take one fragment in: the payload it completes, if it ends its object. A
    refused fragment leaves its object in flight. -/
def accept (r : Reassembler) (f : Fragment) : Except PsrpError (Option Bytes) × Reassembler :=
  let entry := (IndexMap.get f.objectId r.inFlight).getD InFlight.default
  match entry.add f with
  | .error e => (.error e, { r with inFlight := IndexMap.insert f.objectId entry r.inFlight })
  | .ok entry =>
    if f.isEnd then
      (.ok (some entry.buf),
        { r with inFlight := r.inFlight.filter fun (k, _) => k ≠ f.objectId,
                 completedOrder := r.completedOrder ++ [f.objectId] })
    else (.ok none, { r with inFlight := IndexMap.insert f.objectId entry r.inFlight })

/-- Take the whole fragments off the buffer, `fuel` of them at most. -/
def drain : Nat → Reassembler → Except PsrpError (List Bytes) × Reassembler
  | 0, r => (.ok [], r)
  | fuel + 1, r =>
    match decodeOne r.buffer with
    | none => (.ok [], r)
    | some (f, consumed) =>
      match accept { r with buffer := r.buffer.drop consumed } f with
      | (.error e, r) => (.error e, r)
      | (.ok done, r) =>
        let (rest, r) := drain fuel r
        (rest.map (done.toList ++ ·), r)

/-- Feed bytes: the payloads that become complete. Every fragment takes bytes
    off the buffer, so their number bounds the fragments. -/
def feed (r : Reassembler) (bytes : Bytes) : Except PsrpError (List Bytes) × Reassembler :=
  let buffer := r.buffer ++ bytes
  drain (buffer.length + 1) { r with buffer }

/-- Nothing arrived in part. -/
def isIdle (r : Reassembler) : Bool := r.buffer.isEmpty && r.inFlight.isEmpty

end Reassembler

end Psrp

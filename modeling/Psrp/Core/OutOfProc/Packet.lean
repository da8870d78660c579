import Psrp.Core.Base64
import Psrp.Core.Error
import Psrp.Core.Platform
import Psrp.Lib.Bytes

/-!
# Packets of the Out-of-Process Protocol

One XML element a line: how a packet is written, how a received line is read,
and how a byte stream is cut into lines.

What reads a line is the XML reader of `Platform`. A packet looks closer at
the attributes of its tag than a CLIXML document does, so what iterating over
them yields is a parameter of its own, next to the two texts of the standard
library that only error messages show.

## Main definitions

* `PacketPlatform`: What reading a line rests on.
* `Packet`, `Packet.toLine`: The eight packets and their lines.
* `Packet.ack`: What acknowledges a packet.
* `parseLine`: A received line.
* `LineSplitter`, `LineSplitter.push`: Lines out of chunks.
-/

namespace Psrp

namespace OutOfProc

/-- Largest payload, in raw bytes, of one emitted `<Data>` line. -/
def MAX_DATA_PAYLOAD : Nat := 32 * 1024

/-- Longest received line accepted, terminator excluded. -/
def MAX_LINE_BYTES : Nat := 2 ^ 20

/-- Prefix of the line `pwsh` writes just before it dies on a protocol error. -/
def SERVER_ERROR_PREFIX : Text := "__NamedPipeError__:".toList

/-- How much of an offending line an error message quotes, in characters. -/
def QUOTED_LINE_CHARS : Nat := 80

/-- Enough bytes for one character more than is quoted. -/
def QUOTED_LINE_BYTES : Nat := (QUOTED_LINE_CHARS + 1) * 4

/-- What reading a line rests on. -/
structure PacketPlatform extends Platform where
  /-- What iterating over the attributes of the first tag of a line yields. -/
  lineAttributes : Text → List (Except String Xml.Attr)
  /-- `char::escape_debug`. -/
  escapeDebug : Char → Text
  /-- A number of nanoseconds as seconds with three decimals. -/
  formatMillis : Nat → Text

/-- The `Stream` attribute of a `<Data>` element: ordinary traffic, or the
    answer to a host prompt. -/
inductive Stream where
  | default
  | promptResponse
  deriving DecidableEq, Repr

/-- Equal but for the case of ASCII letters. -/
def eqIgnoreAsciiCase (s t : Text) : Bool := s.map Char.toLower == t.map Char.toLower

namespace Stream

def asStr : Stream → String
  | default => "Default"
  | promptResponse => "PromptResponse"

/-- Case-insensitive, like the server's. -/
def parse (s : Text) : Option Stream :=
  [default, promptResponse].find? fun v => eqIgnoreAsciiCase v.asStr.toList s

end Stream

/-- One packet, that is one line of the protocol. The GUID is nil for the
    session, else it is a pipeline's. -/
inductive Packet where
  | data (stream : Stream) (guid : Uuid) (payload : Bytes)
  | dataAck (guid : Uuid)
  | command (guid : Uuid)
  | commandAck (guid : Uuid)
  | signal (guid : Uuid)
  | signalAck (guid : Uuid)
  | close (guid : Uuid)
  | closeAck (guid : Uuid)
  deriving DecidableEq

namespace Packet

/-- A packet without content as a line. -/
def bare (name : String) (guid : Uuid) : Text :=
  '<' :: name.toList ++ " PSGuid='".toList ++ guid.hyphenated ++ "' />\n".toList

/-- The line PowerShell's own writer produces for a packet. -/
def toLine : Packet → Text
  | data stream guid payload =>
    "<Data Stream='".toList ++ stream.asStr.toList ++ "' PSGuid='".toList ++ guid.hyphenated
      ++ "'>".toList ++ base64Encode payload ++ "</Data>\n".toList
  | dataAck g => bare "DataAck" g
  | command g => bare "Command" g
  | commandAck g => bare "CommandAck" g
  | signal g => bare "Signal" g
  | signalAck g => bare "SignalAck" g
  | close g => bare "Close" g
  | closeAck g => bare "CloseAck" g

/-- The acknowledgement of a request. -/
def ack : Packet → Packet
  | data _ g _ => dataAck g
  | command g => commandAck g
  | signal g => signalAck g
  | close g => closeAck g
  | other => other

/-- Whether a packet acknowledges another. -/
def isAck : Packet → Bool
  | dataAck _ | commandAck _ | signalAck _ | closeAck _ => true
  | _ => false

end Packet

/-- The start of a text, escaped for a message. -/
def snippet (p : PacketPlatform) (text : Text) : Text :=
  (text.take QUOTED_LINE_CHARS).flatMap p.escapeDebug
    ++ if QUOTED_LINE_CHARS < text.length then ['…'] else []

def quote (p : PacketPlatform) (line : Text) : Text := '"' :: snippet p line ++ ['"']

/-- The start of bytes that may not be UTF-8, for a message. -/
def quoteBytes (p : PacketPlatform) (bytes : Bytes) : Text :=
  quote p (Text.fromUtf8Lossy (bytes.take QUOTED_LINE_BYTES))

/-- The event at a position of a line; `none` at its end. -/
def nextEvent (p : PacketPlatform) (line : Text) (i : Nat) :
    Except Text (Option Xml.Event) :=
  match (p.read line).events[i]?, (p.read line).fault with
  | some e, _ => .ok (some e)
  | none, none => .ok none
  | none, some fault => .error (snippet p fault.toList)

/-- The attributes of a tag, as long as there are not more than `max`. -/
def attributes (p : PacketPlatform) (max : Nat) (expected : String) :
    List (Except String Xml.Attr) → List (String × Text) → Except Text (List (String × Text))
  | [], out => .ok out
  | .error e :: _, _ => .error (snippet p e.toList)
  | .ok attr :: rest, out =>
    if max ≤ out.length then .error expected.toList
    else match attr.value with
      | .error e => .error (snippet p e.toList)
      | .ok value => attributes p max expected rest (out ++ [(attr.key, value)])

def parseGuid (p : PacketPlatform) (value : Text) : Except Text Uuid :=
  match p.parseUuid value with
  | .ok u => .ok u
  | .error _ => .error "invalid PSGuid".toList

def parseStream (value : Text) : Except Text Stream :=
  match Stream.parse value with
  | some s => .ok s
  | none => .error "unknown Stream".toList

/-- The sole `PSGuid` attribute of an element without content. -/
def guidAttribute (p : PacketPlatform) (line : Text) : Except Text Uuid := do
  let expected := "expected exactly one attribute, PSGuid"
  match ← attributes p 1 expected (p.lineAttributes line) [] with
  | [("PSGuid", value)] => parseGuid p value
  | _ => .error expected.toList

/-- The attributes of a `<Data>` element, in either order. -/
def dataAttributes (p : PacketPlatform) (line : Text) : Except Text (Stream × Uuid) := do
  let expected := "expected exactly the attributes Stream and PSGuid"
  match ← attributes p 2 expected (p.lineAttributes line) [] with
  | [("Stream", x), ("PSGuid", y)] => return (← parseStream x, ← parseGuid p y)
  | [("PSGuid", x), ("Stream", y)] => return (← parseStream y, ← parseGuid p x)
  | _ => .error expected.toList

/-- The packet an element without content stands for. -/
def emptyElement : String → Option (Uuid → Packet)
  | "DataAck" => some .dataAck
  | "Command" => some .command
  | "CommandAck" => some .commandAck
  | "Signal" => some .signal
  | "SignalAck" => some .signalAck
  | "Close" => some .close
  | "CloseAck" => some .closeAck
  | _ => none

/-- A `<Data>` element, after its start tag. -/
def dataElement (p : PacketPlatform) (line : Text) : Except Text Packet := do
  let (stream, guid) ← dataAttributes p line
  let text ← match ← nextEvent p line 1 with
    | some (.text t) => pure t
    | _ => .error "<Data> without content".toList
  match ← nextEvent p line 2 with
  | some (.stop "Data") => pure ()
  | _ => .error "<Data> not closed right after its content".toList
  match base64Decode text with
  | none => .error "invalid base64 in <Data>".toList
  | some [] => .error "empty <Data> content".toList
  | some payload => return .data stream guid payload

/-- Exactly one packet element, with nothing before or after it. -/
def parseElement (p : PacketPlatform) (line : Text) : Except Text Packet := do
  let (packet, length) ← match ← nextEvent p line 0 with
    | some (.start name _) =>
      if name ≠ "Data" then
        .error ("unexpected element <".toList ++ snippet p name.toList ++ ">".toList)
      else pure (← dataElement p line, 3)
    | some (.empty name _) =>
      match emptyElement name with
      | some make => pure (make (← guidAttribute p line), 1)
      | none => .error ("unexpected element <".toList ++ snippet p name.toList ++ "/>".toList)
    | _ => .error "not a single packet element".toList
  match ← nextEvent p line length with
  | none => return packet
  | some _ => .error "content after the packet element".toList

/-- Read one received line: nothing on a blank one, an error on the server's
    error line and on anything that is not one well-formed packet. -/
def parseLine (p : PacketPlatform) (line : Text) : Except PsrpError (Option Packet) :=
  if Text.trim line = [] then .ok none
  else if eqIgnoreAsciiCase (line.take SERVER_ERROR_PREFIX.length) SERVER_ERROR_PREFIX then
    let message := escapeRemoteText (line.drop SERVER_ERROR_PREFIX.length) MAX_SERVER_MESSAGE_CHARS
    .error (.protocol s!"PowerShell reported a protocol error: {String.ofList message}")
  else match parseElement p (Text.trim line) with
    | .ok packet => .ok (some packet)
    | .error why =>
      .error (.protocol
        s!"malformed OutOfProc line ({String.ofList why}): {String.ofList (quote p line)}")

/-- Cuts the server's byte stream into lines: the bytes of the line being
    assembled, and whether a first line was completed. -/
structure LineSplitter where
  buf : Bytes
  seenFirstLine : Bool
  deriving DecidableEq

/-- The bytes of a chunk before each line feed, and those after the last. -/
def cutAtNewlines : Bytes → List Bytes × Bytes
  | [] => ([], [])
  | b :: bs =>
    let (heads, tail) := cutAtNewlines bs
    if b = 0x0A then ([] :: heads, tail)
    else match heads with
      | [] => ([], b :: tail)
      | head :: heads => ((b :: head) :: heads, tail)

def tooLong : PsrpError := .protocol s!"OutOfProc line exceeds {MAX_LINE_BYTES} bytes"

/-- One carriage return before the line feed does not belong to the line. -/
def stripCr (line : Bytes) : Bytes := if line.getLast? = some 0x0D then line.dropLast else line

namespace LineSplitter

def new : LineSplitter := { buf := [], seenFirstLine := false }

/-- Validate one complete line and turn it into text. A byte order mark may
    open the very first. -/
def finishLine (p : PacketPlatform) (line : Bytes) (s : LineSplitter) :
    Except PsrpError Text × LineSplitter :=
  if MAX_LINE_BYTES < line.length then (.error tooLong, s)
  else
    let line := stripCr line
    match Text.fromUtf8 line with
    | .error e =>
      (.error (.protocol
        s!"OutOfProc line is not valid UTF-8 ({e}): {String.ofList (quoteBytes p line)}"), s)
    | .ok text =>
      let text := if s.seenFirstLine then text
        else if text.head? = some '\uFEFF' then text.tail else text
      (.ok text, { s with seenFirstLine := true })

/-- The line that ends with `head`. -/
def endLine (p : PacketPlatform) (head : Bytes) (s : LineSplitter) :
    Except PsrpError Text × LineSplitter :=
  if s.buf = [] then s.finishLine p head
  else if MAX_LINE_BYTES < s.buf.length + head.length then (.error tooLong, s)
  else finishLine p (s.buf ++ head) { s with buf := [] }

/-- The lines that end with each of `heads`, and then an unfinished one. The
    lines before an error are returned with it. -/
def pushParts (p : PacketPlatform) (tail : Bytes) :
    List Bytes → LineSplitter → (List Text × Option PsrpError) × LineSplitter
  | [], s =>
    if MAX_LINE_BYTES < s.buf.length + tail.length then (([], some tooLong), s)
    else (([], none), { s with buf := s.buf ++ tail })
  | head :: heads, s =>
    match s.endLine p head with
    | (.error e, s) => (([], some e), s)
    | (.ok line, s) =>
      let ((lines, e), s) := pushParts p tail heads s
      ((line :: lines, e), s)

/-- Every line that a chunk completes, and the error that stopped the split,
    if any. -/
def push (p : PacketPlatform) (bytes : Bytes) (s : LineSplitter) :
    (List Text × Option PsrpError) × LineSplitter :=
  let (heads, tail) := cutAtNewlines bytes
  s.pushParts p tail heads

end LineSplitter

end OutOfProc

end Psrp

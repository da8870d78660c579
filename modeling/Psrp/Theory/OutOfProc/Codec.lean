import Psrp.Core.OutOfProc.PacketReader
import Psrp.Theory.Base64
import Psrp.Theory.OutOfProc.Splitting

/-!
# The Packet Codec

A line holds a packet if it is one element and nothing else: the events of the
line are those of a single element, its attributes are the ones of the packet
in either order, and the content of a data element is the base64 of some bytes
(`Sole`). The parser accepts exactly these lines (`parseElement_iff`), and the
line that a packet is written as is one of them (`sole_sentLine`), so reading
undoes writing.

A stream of packets is cut into their lines again, under any chunking, if every
line is as short as the splitter wants lines to be.

## Main definitions

* `sentLine`: The line of a packet, without its line feed.
* `Sole`: A line holds one packet and nothing else.

## Theorems

* `parseElement_iff`: What is accepted.
* `parseLine_sentLine`: A packet is read back from its line.
* `packet_codec`: Lines and streams of packets.
-/

namespace Psrp

namespace OutOfProc

variable {p : PacketPlatform}

/-- The line of a packet, without its line feed. -/
def sentLine (packet : Packet) : Text := packet.toLine.dropLast

/-- An attribute that was read, with its value. -/
def readAttr (key : String) (value : Text) : Except String Xml.Attr :=
  .ok { key, value := .ok value }

/-- A line holds one packet and nothing else. -/
inductive Sole (p : PacketPlatform) (line : Text) : Packet → Prop where
  | data {attrs : List Xml.Attr} {text x y : Text} {stream : Stream} {guid : Uuid}
      {payload : Bytes} :
      p.read line = { events := [.start "Data" attrs, .text text, .stop "Data"], fault := none } →
      p.lineAttributes line = [readAttr "Stream" x, readAttr "PSGuid" y] ∨
        p.lineAttributes line = [readAttr "PSGuid" y, readAttr "Stream" x] →
      Stream.parse x = some stream → p.parseUuid y = .ok guid →
      base64Decode text = some payload → payload ≠ [] → Sole p line (.data stream guid payload)
  | empty {name : String} {attrs : List Xml.Attr} {value : Text} {make : Uuid → Packet}
      {guid : Uuid} :
      p.read line = { events := [.empty name attrs], fault := none } →
      emptyElement name = some make → p.lineAttributes line = [readAttr "PSGuid" value] →
      p.parseUuid value = .ok guid → Sole p line (make guid)

theorem nextEvent_eq_some {line : Text} {i : Nat} {e : Xml.Event} :
    nextEvent p line i = .ok (some e) ↔ (p.read line).events[i]? = some e := by
  unfold nextEvent
  split
  · rename_i e' he
    rw [he, Except.ok.injEq]
  · rename_i he _
    rw [he]
    exact iff_of_false (fun h => by cases h) (fun h => by cases h)
  · rename_i he _
    rw [he]
    exact iff_of_false (fun h => by cases h) (fun h => by cases h)

theorem nextEvent_eq_none {line : Text} {i : Nat} :
    nextEvent p line i = .ok none ↔
      (p.read line).events[i]? = none ∧ (p.read line).fault = none := by
  unfold nextEvent
  split
  · rename_i e' he
    rw [he]
    exact iff_of_false (fun h => by cases h) (fun h => by cases h.1)
  · rename_i he hfault
    exact iff_of_true rfl ⟨he, hfault⟩
  · rename_i he fault hfault
    rw [hfault]
    exact iff_of_false (fun h => by cases h) (fun h => by cases h.2)

/-- The attributes of a tag that has no more than `max`, if all can be read. -/
theorem attributes_iff {max : Nat} {expected : String} {attrs : List (Except String Xml.Attr)}
    {out result : List (String × Text)} (hout : out.length ≤ max) :
    attributes p max expected attrs out = .ok result ↔
      ∃ pairs : List (String × Text), attrs = pairs.map (fun a => readAttr a.1 a.2) ∧
        result = out ++ pairs ∧ result.length ≤ max := by
  induction attrs generalizing out with
  | nil =>
      constructor
      · intro h
        cases h
        exact ⟨[], rfl, (List.append_nil _).symm, hout⟩
      · rintro ⟨pairs, hpairs, rfl, -⟩
        rw [List.map_eq_nil_iff.mp hpairs.symm, attributes, List.append_nil]
  | cons attr attrs ih =>
      -- Every attribute of the list is one that was read.
      have hread : ∀ pairs : List (String × Text),
          attr :: attrs = pairs.map (fun a => readAttr a.1 a.2) →
          ∃ a rest, pairs = a :: rest ∧ attr = readAttr a.1 a.2 ∧
            attrs = rest.map (fun a => readAttr a.1 a.2) := by
        intro pairs hpairs
        rcases List.map_eq_cons_iff.mp hpairs.symm with ⟨a, rest, rfl, ha, hrest⟩
        exact ⟨a, rest, rfl, ha.symm, hrest.symm⟩
      rcases attr with e | ⟨key, value⟩
      · refine iff_of_false (fun h => by cases h) ?_
        rintro ⟨pairs, hpairs, -⟩
        rcases hread pairs hpairs with ⟨a, rest, -, ha, -⟩
        cases ha
      · unfold attributes
        -- One attribute too many is refused at once.
        by_cases hmax : max ≤ out.length
        · rw [if_pos hmax]
          refine iff_of_false (fun h => by cases h) ?_
          rintro ⟨pairs, hpairs, rfl, hlen⟩
          rcases hread pairs hpairs with ⟨a, rest, rfl, -, -⟩
          rw [List.length_append, List.length_cons] at hlen
          omega
        · rw [if_neg hmax]
          rcases value with e | value
          · refine iff_of_false (fun h => by cases h) ?_
            rintro ⟨pairs, hpairs, -⟩
            rcases hread pairs hpairs with ⟨a, rest, -, ha, -⟩
            cases ha
          · have hout' : (out ++ [(key, value)]).length ≤ max := by
              rw [List.length_append, List.length_singleton]
              omega
            refine (ih hout').trans ⟨?_, ?_⟩
            · rintro ⟨pairs, rfl, rfl, hlen⟩
              refine ⟨(key, value) :: pairs, rfl, ?_, hlen⟩
              rw [List.append_assoc, List.singleton_append]
            · rintro ⟨pairs, hpairs, rfl, hlen⟩
              rcases hread pairs hpairs with ⟨a, rest, rfl, ha, rfl⟩
              cases ha
              refine ⟨rest, rfl, ?_, hlen⟩
              rw [List.append_assoc, List.singleton_append]

theorem parseGuid_iff {value : Text} {guid : Uuid} :
    parseGuid p value = .ok guid ↔ p.parseUuid value = .ok guid := by
  unfold parseGuid
  split
  · rename_i u hu
    rw [hu, Except.ok.injEq, Except.ok.injEq]
  · rename_i e he
    rw [he]
    exact iff_of_false (fun h => by cases h) (fun h => by cases h)

theorem parseStream_iff {value : Text} {stream : Stream} :
    parseStream value = .ok stream ↔ Stream.parse value = some stream := by
  unfold parseStream
  split
  · rename_i s hs
    rw [hs, Except.ok.injEq, Option.some.injEq]
  · rename_i hs
    rw [hs]
    exact iff_of_false (fun h => by cases h) (fun h => by cases h)

/-- Both steps of a reader have to succeed. -/
theorem bind_eq_ok {ε α β : Type} {x : Except ε α} {f : α → Except ε β} {b : β} :
    x >>= f = .ok b ↔ ∃ a, x = .ok a ∧ f a = .ok b := by
  rcases x with e | a
  · exact iff_of_false (fun h => by cases h) (fun ⟨_, h, _⟩ => by cases h)
  · exact ⟨fun h => ⟨a, rfl, h⟩, fun ⟨_, h, hf⟩ => by cases h; exact hf⟩

/-- Reading all attributes of a tag. -/
theorem attributes_all {max : Nat} {expected : String} {line : Text}
    {result : List (String × Text)} :
    attributes p max expected (p.lineAttributes line) [] = .ok result ↔
      p.lineAttributes line = result.map (fun a => readAttr a.1 a.2) ∧ result.length ≤ max := by
  have h := @attributes_iff p max expected (p.lineAttributes line) [] result (Nat.zero_le max)
  rw [h]
  simp only [List.nil_append]
  constructor
  · rintro ⟨pairs, hpairs, rfl, hlen⟩
    exact ⟨hpairs, hlen⟩
  · rintro ⟨hpairs, hlen⟩
    exact ⟨result, hpairs, rfl, hlen⟩

/-- An element without content has its GUID and no other attribute. -/
theorem guidAttribute_iff {line : Text} {guid : Uuid} :
    guidAttribute p line = .ok guid ↔
      ∃ value, p.lineAttributes line = [readAttr "PSGuid" value] ∧
        p.parseUuid value = .ok guid := by
  unfold guidAttribute
  simp only [bind_eq_ok, attributes_all]
  constructor
  · rintro ⟨result, ⟨hattrs, -⟩, h⟩
    split at h
    · rename_i value
      exact ⟨value, hattrs, parseGuid_iff.mp h⟩
    · cases h
  · rintro ⟨value, hattrs, hguid⟩
    exact ⟨[("PSGuid", value)], ⟨hattrs, Nat.le_refl 1⟩, parseGuid_iff.mpr hguid⟩

/-- A data element has its stream and its GUID, in either order, and no other
    attribute. -/
theorem dataAttributes_iff {line : Text} {stream : Stream} {guid : Uuid} :
    dataAttributes p line = .ok (stream, guid) ↔
      ∃ x y, (p.lineAttributes line = [readAttr "Stream" x, readAttr "PSGuid" y] ∨
          p.lineAttributes line = [readAttr "PSGuid" y, readAttr "Stream" x]) ∧
        Stream.parse x = some stream ∧ p.parseUuid y = .ok guid := by
  -- Both orders of the two attributes are read in the same way.
  have hboth : ∀ x y, (do return (← parseStream x, ← parseGuid p y)) = Except.ok (stream, guid) ↔
      Stream.parse x = some stream ∧ p.parseUuid y = .ok guid := by
    intro x y
    rw [← parseStream_iff, ← parseGuid_iff (p := p)]
    simp only [bind_eq_ok]
    constructor
    · rintro ⟨s, hs, g, hg, h⟩
      cases h
      exact ⟨hs, hg⟩
    · rintro ⟨hs, hg⟩
      exact ⟨stream, hs, guid, hg, rfl⟩
  unfold dataAttributes
  rw [bind_eq_ok]
  simp only [attributes_all]
  constructor
  · rintro ⟨result, ⟨hattrs, -⟩, h⟩
    split at h
    · rename_i x y
      exact ⟨x, y, .inl hattrs, (hboth x y).mp h⟩
    · rename_i x y
      exact ⟨y, x, .inr hattrs, (hboth y x).mp h⟩
    · cases h
  · rintro ⟨x, y, hattrs | hattrs, hread⟩
    · exact ⟨[("Stream", x), ("PSGuid", y)], ⟨hattrs, Nat.le_refl 2⟩, (hboth x y).mpr hread⟩
    · exact ⟨[("PSGuid", y), ("Stream", x)], ⟨hattrs, Nat.le_refl 2⟩, (hboth x y).mpr hread⟩

/-- A data element after its start tag: its content, its end tag and nothing
    else of note. -/
theorem dataElement_iff {line : Text} {packet : Packet} :
    dataElement p line = .ok packet ↔
      ∃ stream guid text payload, dataAttributes p line = .ok (stream, guid) ∧
        (p.read line).events[1]? = some (.text text) ∧
        (p.read line).events[2]? = some (.stop "Data") ∧
        base64Decode text = some payload ∧ payload ≠ [] ∧ packet = .data stream guid payload := by
  constructor
  · intro h
    -- The tag, the text and the end tag are taken one by one.
    unfold dataElement at h
    rcases bind_eq_ok.mp h with ⟨⟨stream, guid⟩, hattrs, h⟩
    rcases bind_eq_ok.mp h with ⟨first, hfirst, h⟩
    dsimp only at h
    split at h
    · rename_i t
      rcases bind_eq_ok.mp h with ⟨text, htext, h⟩
      cases htext
      rcases bind_eq_ok.mp h with ⟨second, hsecond, h⟩
      split at h
      · split at h
        · -- An empty payload is refused, and one that is not base64.
          cases h
        · cases h
        · rename_i payload hne hdecode
          cases h
          refine ⟨stream, guid, t, payload, hattrs, nextEvent_eq_some.mp hfirst,
            nextEvent_eq_some.mp hsecond, hdecode, ?_, rfl⟩
          rintro rfl
          exact hne rfl
      · cases h
    · cases h
  · rintro ⟨stream, guid, text, payload, hattrs, hfirst, hsecond, hdecode, hne, rfl⟩
    refine bind_eq_ok.mpr ⟨_, hattrs, bind_eq_ok.mpr ⟨_, nextEvent_eq_some.mpr hfirst,
      bind_eq_ok.mpr ⟨text, rfl, bind_eq_ok.mpr ⟨_, nextEvent_eq_some.mpr hsecond, ?_⟩⟩⟩⟩
    rw [hdecode]
    rcases payload with _ | ⟨b, payload⟩
    · exact absurd rfl hne
    · rfl

/-- The end of a line. -/
theorem stream_of_three {line : Text} {a b c : Xml.Event}
    (ha : (p.read line).events[0]? = some a) (hb : (p.read line).events[1]? = some b)
    (hc : (p.read line).events[2]? = some c) (hend : nextEvent p line 3 = .ok none) :
    p.read line = { events := [a, b, c], fault := none } := by
  rcases nextEvent_eq_none.mp hend with ⟨hnone, hfault⟩
  rcases hread : p.read line with ⟨events, fault⟩
  rw [hread] at ha hb hc hnone hfault
  rcases events with _ | ⟨a', _ | ⟨b', _ | ⟨c', _ | ⟨d, rest⟩⟩⟩⟩
  · cases ha
  · cases hb
  · cases hc
  · cases ha
    cases hb
    cases hc
    cases hfault
    rfl
  · cases hnone

theorem stream_of_one {line : Text} {a : Xml.Event} (ha : (p.read line).events[0]? = some a)
    (hend : nextEvent p line 1 = .ok none) :
    p.read line = { events := [a], fault := none } := by
  rcases nextEvent_eq_none.mp hend with ⟨hnone, hfault⟩
  rcases hread : p.read line with ⟨events, fault⟩
  rw [hread] at ha hnone hfault
  rcases events with _ | ⟨a', _ | ⟨b, rest⟩⟩
  · cases ha
  · cases ha
    cases hfault
    rfl
  · cases hnone

/-- A line is accepted if it holds one packet and nothing else. -/
theorem parseElement_iff {line : Text} {packet : Packet} :
    parseElement p line = .ok packet ↔ Sole p line packet := by
  constructor
  · intro h
    unfold parseElement at h
    rcases bind_eq_ok.mp h with ⟨first, hfirst, h⟩
    dsimp only at h
    split at h
    · rename_i name attrs
      -- A start tag has to be that of a data element, with its text and its end.
      by_cases hname : name ≠ "Data"
      · rw [if_pos hname] at h
        cases h
      · rw [if_neg hname] at h
        rw [not_not] at hname
        subst hname
        rcases bind_eq_ok.mp h with ⟨found, hfound, h⟩
        rcases bind_eq_ok.mp h with ⟨_, hpair, h⟩
        cases hpair
        rcases bind_eq_ok.mp h with ⟨last, hlast, h⟩
        split at h
        · cases h
          rcases dataElement_iff.mp hfound with
            ⟨stream, guid, text, payload, hattrs, htext, hstop, hdecode, hne, rfl⟩
          rcases dataAttributes_iff.mp hattrs with ⟨x, y, hxy, hstream, hguid⟩
          exact .data (stream_of_three (nextEvent_eq_some.mp hfirst) htext hstop hlast) hxy hstream
            hguid hdecode hne
        · cases h
    · -- A self-closed tag has to be one of the kinds, with its guid alone.
      rename_i name attrs
      split at h
      · rename_i make hmake
        rcases bind_eq_ok.mp h with ⟨guid, hguid, h⟩
        rcases bind_eq_ok.mp h with ⟨_, hpair, h⟩
        cases hpair
        rcases bind_eq_ok.mp h with ⟨last, hlast, h⟩
        split at h
        · cases h
          rcases guidAttribute_iff.mp hguid with ⟨value, hvalue, hguid⟩
          exact .empty (stream_of_one (nextEvent_eq_some.mp hfirst) hlast) hmake hvalue hguid
        · cases h
      · cases h
    · cases h
  · -- From the shape of the line to what is read of it, event by event.
    intro h
    unfold parseElement
    cases h with
    | @data attrs text x y stream guid payload hread hxy hstream hguid hdecode hne =>
        have hevent : ∀ i : Nat, (p.read line).events[i]?
            = [Xml.Event.start "Data" attrs, .text text, .stop "Data"][i]? := by
          rw [hread]
          exact fun i => rfl
        have hdata : dataElement p line = .ok (.data stream guid payload) :=
          dataElement_iff.mpr ⟨stream, guid, text, payload,
            dataAttributes_iff.mpr ⟨x, y, hxy, hstream, hguid⟩, hevent 1, hevent 2, hdecode, hne,
            rfl⟩
        refine bind_eq_ok.mpr ⟨_, nextEvent_eq_some.mpr (hevent 0), bind_eq_ok.mpr ⟨_, hdata,
          bind_eq_ok.mpr ⟨_, rfl, bind_eq_ok.mpr ⟨none, nextEvent_eq_none.mpr ⟨hevent 3, ?_⟩, rfl⟩⟩⟩⟩
        rw [hread]
    | @empty name attrs value make guid hread hmake hvalue hguid =>
        have hevent : ∀ i : Nat, (p.read line).events[i]? = [Xml.Event.empty name attrs][i]? := by
          rw [hread]
          exact fun i => rfl
        refine bind_eq_ok.mpr ⟨_, nextEvent_eq_some.mpr (hevent 0), ?_⟩
        dsimp only
        rw [hmake]
        refine bind_eq_ok.mpr ⟨guid, guidAttribute_iff.mpr ⟨value, hvalue, hguid⟩,
          bind_eq_ok.mpr ⟨_, rfl, bind_eq_ok.mpr ⟨none, nextEvent_eq_none.mpr ⟨hevent 1, ?_⟩, rfl⟩⟩⟩
        rw [hread]

/-- Whether a line is the server's error line. -/
def ServerError (line : Text) : Prop :=
  eqIgnoreAsciiCase (line.take SERVER_ERROR_PREFIX.length) SERVER_ERROR_PREFIX = true

/-- The lines that are read as a packet. -/
theorem parseLine_iff {line : Text} {packet : Packet} :
    parseLine p line = .ok (some packet) ↔
      Text.trim line ≠ [] ∧ ¬ ServerError line ∧ Sole p (Text.trim line) packet := by
  unfold parseLine
  by_cases hblank : Text.trim line = []
  · rw [if_pos hblank]
    exact iff_of_false (fun h => by cases h) fun h => h.1 hblank
  · rw [if_neg hblank]
    by_cases herror : ServerError line
    · rw [ServerError] at herror
      rw [if_pos herror]
      exact iff_of_false (fun h => by cases h) fun h => h.2.1 herror
    · have hserver : ¬ eqIgnoreAsciiCase (line.take SERVER_ERROR_PREFIX.length)
          SERVER_ERROR_PREFIX = true := herror
      rw [if_neg hserver, ← parseElement_iff]
      rcases parseElement p (Text.trim line) with why | found
      · exact iff_of_false (fun h => by cases h) (fun h => by cases h.2.2)
      · simp [hblank, herror]

/-- The attributes of a packet's element. -/
def attrsOf : Packet → List (String × Text)
  | .data stream guid _ => [("Stream", stream.asStr.toList), ("PSGuid", guid.hyphenated)]
  | .dataAck g | .command g | .commandAck g | .signal g | .signalAck g | .close g | .closeAck g =>
    [("PSGuid", g.hyphenated)]

/-- The name of a packet's element. -/
def nameOf : Packet → String
  | .data _ _ _ => "Data"
  | .dataAck _ => "DataAck"
  | .command _ => "Command"
  | .commandAck _ => "CommandAck"
  | .signal _ => "Signal"
  | .signalAck _ => "SignalAck"
  | .close _ => "Close"
  | .closeAck _ => "CloseAck"

/-- The content of a packet's element. -/
def contentOf : Packet → Option Text
  | .data _ _ payload => some (base64Encode payload)
  | _ => none

/-- The element of a packet. -/
def elementOf (packet : Packet) : Text :=
  match contentOf packet with
  | some text => textElement (nameOf packet) (attrsOf packet) text
  | none => emptyTag (nameOf packet) (attrsOf packet)

theorem bare_eq (name : String) (guid : Uuid) :
    Packet.bare name guid = emptyTag name [("PSGuid", guid.hyphenated)] ++ ['\n'] := by
  have hkey : " PSGuid='".toList = ' ' :: ("PSGuid".toList ++ ['=', '\'']) := by decide
  have hclose : "' />\n".toList = '\'' :: (" />".toList ++ ['\n']) := by decide
  rw [Packet.bare, hkey, hclose]
  simp only [emptyTag, quoteAttrs, List.append_assoc, List.cons_append, List.nil_append]

theorem data_eq (stream : Text) (guid text : Text) :
    "<Data Stream='".toList ++ stream ++ "' PSGuid='".toList ++ guid
      ++ "'>".toList ++ text ++ "</Data>\n".toList
    = textElement "Data" [("Stream", stream), ("PSGuid", guid)] text ++ ['\n'] := by
  have hopen : "<Data Stream='".toList
      = '<' :: ("Data".toList ++ ' ' :: ("Stream".toList ++ ['=', '\''])) := by decide
  have hkey : "' PSGuid='".toList = '\'' :: ' ' :: ("PSGuid".toList ++ ['=', '\'']) := by decide
  have hquote : "'>".toList = ['\'', '>'] := by decide
  have hclose : "</Data>\n".toList
      = "</".toList ++ ("Data".toList ++ ('>' :: ['\n'])) := by decide
  rw [hopen, hkey, hquote, hclose]
  simp only [textElement, quoteAttrs,
    List.append_assoc, List.cons_append, List.nil_append]

/-- The line of a packet is an element with its attributes in single quotes. -/
theorem toLine_eq (packet : Packet) : packet.toLine = elementOf packet ++ ['\n'] := by
  cases packet with
  | data stream guid payload =>
      exact data_eq stream.asStr.toList guid.hyphenated (base64Encode payload)
  | dataAck g => exact bare_eq "DataAck" g
  | command g => exact bare_eq "Command" g
  | commandAck g => exact bare_eq "CommandAck" g
  | signal g => exact bare_eq "Signal" g
  | signalAck g => exact bare_eq "SignalAck" g
  | close g => exact bare_eq "Close" g
  | closeAck g => exact bare_eq "CloseAck" g

theorem sentLine_eq (packet : Packet) : sentLine packet = elementOf packet := by
  rw [sentLine, toLine_eq, List.dropLast_concat]

/-- A packet that a line can carry. -/
def Packet.Carried (packet : Packet) : Prop :=
  ∀ stream guid payload, packet = .data stream guid payload → payload ≠ []

theorem isToken_of_hyphenated (u : Uuid) : ∀ c ∈ u.hyphenated, Text.isToken c = true := by
  intro c hc
  rcases u.hyphenated_chars c hc with h | rfl
  · rw [Text.isToken, h, Bool.true_or]
  · rfl

theorem plainName_key : Xml.plainName "Stream" = true ∧ Xml.plainName "PSGuid" = true := by
  decide

theorem tokenAttrs_attrsOf (packet : Packet) : TokenAttrs (attrsOf packet) := by
  have hguid : ∀ g : Uuid, TokenAttrs [("PSGuid", g.hyphenated)] := by
    intro g
    refine ⟨List.nodup_singleton _, fun a ha => ?_⟩
    cases List.mem_singleton.mp ha
    exact ⟨plainName_key.2, isToken_of_hyphenated g⟩
  cases packet with
  | data stream g payload =>
      refine ⟨by simp [attrsOf], fun a ha => ?_⟩
      rcases List.mem_pair.mp ha with rfl | rfl
      · refine ⟨plainName_key.1, isToken_of_plainName ?_⟩
        cases stream
        · decide
        · decide
      · exact ⟨plainName_key.2, isToken_of_hyphenated g⟩
  | _ g => exact hguid g

theorem plainName_nameOf (packet : Packet) : Xml.plainName (nameOf packet) = true := by
  cases packet
  all_goals
    rw [nameOf]
    decide

/-- A stream is read back from its name. -/
theorem parse_asStr (stream : Stream) : Stream.parse stream.asStr.toList = some stream := by
  cases stream
  · rfl
  · rfl

theorem base64Encode_ne_nil {payload : Bytes} (h : payload ≠ []) : base64Encode payload ≠ [] := by
  intro hnil
  have hdecode := base64Decode_encode payload
  rw [hnil] at hdecode
  exact h (Option.some.inj hdecode).symm

/-- The line of a packet holds it and nothing else. -/
theorem sole_sentLine (hp : p.Lawful) {packet : Packet} (h : packet.Carried) :
    Sole p (sentLine packet) packet := by
  have hattrs := tokenAttrs_attrsOf packet
  rw [sentLine_eq]
  -- All packets but data are one self-closed tag with a guid.
  have hbare : ∀ (name : String) (make : Uuid → Packet) (g : Uuid),
      Xml.plainName name = true → emptyElement name = some make →
      TokenAttrs [("PSGuid", g.hyphenated)] →
      Sole p (emptyTag name [("PSGuid", g.hyphenated)]) (make g) := by
    intro name make g hname hmake hattrs
    rcases hp.read_empty name _ hname hattrs with ⟨hread, hline⟩
    exact .empty hread hmake hline (hp.parseUuid_hyphenated g)
  cases packet with
  | data stream g payload =>
      have hne := h stream g payload rfl
      rcases hp.read_element "Data" _ (base64Encode payload) (by decide) hattrs (base64Encode_ne_nil hne)
        (fun c hc => (base64Encode_chars payload c hc).2) with ⟨hread, hline⟩
      exact .data hread (.inl hline) (parse_asStr stream) (hp.parseUuid_hyphenated g)
        (base64Decode_encode payload) hne
  | dataAck g => exact hbare "DataAck" .dataAck g (by decide) rfl hattrs
  | command g => exact hbare "Command" .command g (by decide) rfl hattrs
  | commandAck g => exact hbare "CommandAck" .commandAck g (by decide) rfl hattrs
  | signal g => exact hbare "Signal" .signal g (by decide) rfl hattrs
  | signalAck g => exact hbare "SignalAck" .signalAck g (by decide) rfl hattrs
  | close g => exact hbare "Close" .close g (by decide) rfl hattrs
  | closeAck g => exact hbare "CloseAck" .closeAck g (by decide) rfl hattrs

/-- A character of ASCII that can be seen, or a space. -/
def Printable (c : Char) : Prop := 0x20 ≤ c.toNat ∧ c.toNat ≤ 0x7E

theorem printable_of_isToken {c : Char} (h : Text.isToken c = true) : Printable c := by
  have hn := Text.isToken_toNat c h
  unfold Printable
  omega

theorem printable_quoteAttrs {attrs : List (String × Text)} (h : TokenAttrs attrs) :
    ∀ c ∈ quoteAttrs attrs, Printable c := by
  have hattrs := h.2
  clear h
  induction attrs with
  | nil => exact fun c hc => absurd hc List.not_mem_nil
  | cons a attrs ih =>
      rcases a with ⟨key, value⟩
      have ha := hattrs (key, value) List.mem_cons_self
      simp only [quoteAttrs, List.cons_append, List.append_assoc, List.forall_mem_cons,
        List.forall_mem_append]
      refine ⟨by unfold Printable; decide, fun c hc => printable_of_isToken
        (isToken_of_plainName ha.1 c hc), by unfold Printable; decide, by unfold Printable; decide,
        fun c hc => printable_of_isToken (ha.2 c hc), by unfold Printable; decide, ?_⟩
      exact ih fun b hb => hattrs b (List.mem_cons_of_mem _ hb)

/-- The element of a packet is ASCII between angle brackets. -/
theorem elementOf_chars (packet : Packet) :
    (∀ c ∈ elementOf packet, Printable c) ∧ ∃ body, elementOf packet = '<' :: body ++ ['>'] := by
  have hname : ∀ c ∈ (nameOf packet).toList, Printable c := fun c hc =>
    printable_of_isToken (isToken_of_plainName (plainName_nameOf packet) c hc)
  have hattrs := printable_quoteAttrs (tokenAttrs_attrsOf packet)
  have hopen : ∀ c ∈ "</".toList, Printable c := by
    unfold Printable
    exact List.forall_mem_cons.mpr ⟨by decide, List.forall_mem_singleton.mpr (by decide)⟩
  have hclose : " />".toList = [' ', '/'] ++ ['>'] := by decide
  have hspace : ∀ c ∈ [' ', '/'], Printable c := by
    unfold Printable
    exact List.forall_mem_cons.mpr ⟨by decide, List.forall_mem_singleton.mpr (by decide)⟩
  have hlt : Printable '<' := by unfold Printable; decide
  have hgt : Printable '>' := by unfold Printable; decide
  unfold elementOf
  split
  · -- With a text.
    rename_i text htext
    have hcontent : ∀ c ∈ text, Printable c := by
      cases packet with
      | data stream g payload =>
          cases htext
          exact fun c hc => printable_of_isToken (base64Encode_chars payload c hc).2
      | _ g => cases htext
    refine ⟨?_, (nameOf packet).toList ++ quoteAttrs (attrsOf packet) ++ '>' :: text
      ++ "</".toList ++ (nameOf packet).toList, rfl⟩
    simp only [textElement, List.cons_append, List.append_assoc, List.forall_mem_cons,
      List.forall_mem_append, List.not_mem_nil, false_implies, implies_true, and_true]
    exact ⟨hlt, hname, hattrs, hgt, hcontent, hopen, hname, hgt⟩
  · -- Self-closed.
    refine ⟨?_, (nameOf packet).toList ++ quoteAttrs (attrsOf packet) ++ [' ', '/'], ?_⟩
    · rw [emptyTag, hclose]
      simp only [List.cons_append, List.append_assoc, List.nil_append, List.forall_mem_cons,
        List.forall_mem_append, List.not_mem_nil, false_implies, implies_true, and_true]
      exact ⟨hlt, hname, hattrs, hspace _ (by decide), hspace _ (by decide), hgt⟩
    · rw [emptyTag, hclose]
      simp only [List.cons_append, List.append_assoc]

/-- A packet is read back from its line. -/
theorem parseLine_sentLine (hp : p.Lawful) {packet : Packet} (h : packet.Carried) :
    parseLine p (sentLine packet) = .ok (some packet) := by
  rcases (elementOf_chars packet).2 with ⟨body, hbody⟩
  rw [← sentLine_eq] at hbody
  have htrim : Text.trim (sentLine packet) = sentLine packet := by
    have hstart : Text.trimStart (sentLine packet) = sentLine packet := by
      rw [hbody]
      rfl
    rw [Text.trim, hstart, hbody, List.rdropWhile_concat_neg]
    decide
  refine parseLine_iff.mpr ⟨?_, ?_, ?_⟩
  · rw [htrim, hbody]
    exact List.cons_ne_nil _ _
  · -- The error line begins with another character.
    intro herror
    rw [ServerError, hbody, eqIgnoreAsciiCase, beq_iff_eq] at herror
    have hlen : SERVER_ERROR_PREFIX.length = 18 + 1 := by decide
    have hserver : (SERVER_ERROR_PREFIX.map Char.toLower).head? = some '_' := by decide
    have hfirst := congrArg List.head? herror
    rw [hserver, hlen, List.cons_append, List.take_succ_cons, List.map_cons, List.head?_cons]
      at hfirst
    exact absurd hfirst (by decide)
  · rw [htrim]
    exact sole_sentLine hp h

theorem sole_carried {line : Text} {packet : Packet} (h : Sole p line packet) :
    packet.Carried := by
  intro stream guid payload heq
  cases h with
  | data _ _ _ _ _ hne =>
      cases heq
      exact hne
  | @empty name _ _ make g _ hmake =>
      unfold emptyElement at hmake
      split at hmake
      all_goals
        cases hmake
        try cases heq

/-- A byte of what can be seen is its character. -/
theorem mem_toUtf8_printable {s : Text} (h : ∀ c ∈ s, Printable c) :
    ∀ b ∈ s.toUtf8, b ≠ 0x0A ∧ b ≠ 0x0D := by
  intro b hb
  rcases List.mem_flatMap.mp hb with ⟨c, hc, hbc⟩
  have hbounds := h c hc
  have hval : c.val.toNat = c.toNat := rfl
  have hascii : c.utf8Size = 1 := by
    rw [Char.utf8Size_eq_one_iff, UInt32.le_iff_toNat_le, hval]
    exact Nat.le_trans hbounds.2 (by decide)
  rw [String.utf8EncodeChar_eq_singleton hascii, List.mem_singleton] at hbc
  have hnat : b.toNat = c.toNat := by
    rw [hbc, UInt32.toNat_toUInt8, hval]
    exact Nat.mod_eq_of_lt (Nat.lt_of_le_of_lt hbounds.2 (by decide))
  constructor
  · rintro rfl
    exact absurd (hnat ▸ hbounds.1) (by decide)
  · rintro rfl
    exact absurd (hnat ▸ hbounds.1) (by decide)

theorem toUtf8_append (s t : Text) : (s ++ t).toUtf8 = s.toUtf8 ++ t.toUtf8 :=
  List.flatMap_append

theorem length_toUtf8 (s : Text) : s.toUtf8.length = Text.utf8Len s := by
  induction s with
  | nil => rfl
  | cons c s ih =>
      rw [Text.toUtf8_cons, List.length_append, String.length_utf8EncodeChar, ih, Text.utf8Len_cons]

/-- The line of a packet, in bytes. -/
def sentBytes (packet : Packet) : Bytes := (sentLine packet).toUtf8

theorem sentBytes_chars (packet : Packet) :
    0x0A ∉ sentBytes packet ∧ (sentBytes packet).getLast? ≠ some 0x0D := by
  have hbytes := mem_toUtf8_printable (elementOf_chars packet).1
  rw [← sentLine_eq] at hbytes
  exact ⟨fun hmem => (hbytes _ hmem).1 rfl,
    fun hlast => (hbytes _ (List.mem_of_getLast? hlast)).2 rfl⟩

/-- A stream of packets is their lines, each with its line feed. -/
theorem flatMap_toLine (packets : List Packet) :
    packets.flatMap (fun packet => packet.toLine.toUtf8)
      = terminated [0x0A] (packets.map sentBytes) := by
  have hline : ∀ packet : Packet, packet.toLine.toUtf8 = sentBytes packet ++ [0x0A] := by
    intro packet
    rw [toLine_eq, toUtf8_append, sentBytes, sentLine_eq]
    rfl
  rw [terminated, List.flatMap_map]
  exact List.flatMap_congr fun packet _ => hline packet

/-- The line of a packet comes out of the splitter if it is short enough. -/
theorem referenceLine_sentBytes (first : Bool) (packet : Packet) :
    referenceLine first (sentBytes packet)
      = if MAX_LINE_BYTES < (sentBytes packet).length then none else some (sentLine packet) := by
  rcases (elementOf_chars packet).2 with ⟨body, hbody⟩
  rw [← sentLine_eq] at hbody
  have hmark : ((sentLine packet).head? == some '\uFEFF') = false := by
    rw [hbody]
    rfl
  have hutf : Text.fromUtf8 (sentBytes packet) = .ok (sentLine packet) := Text.fromUtf8_toUtf8 _
  rw [referenceLine_eq, stripCr, if_neg (sentBytes_chars packet).2, hutf]
  dsimp only
  rw [hmark, Bool.and_false, if_neg Bool.false_ne_true]

/-- The lines of packets all come out if they are all short enough. -/
theorem reference_packets (first : Bool) {packets : List Packet}
    (h : ∀ packet ∈ packets, (sentBytes packet).length ≤ MAX_LINE_BYTES) :
    reference first (packets.map sentBytes ++ [[]]) = (packets.map sentLine, false) := by
  induction packets generalizing first with
  | nil => rfl
  | cons packet packets ih =>
      have hfits := Nat.not_lt.mpr (h packet List.mem_cons_self)
      rw [List.map_cons, List.map_cons, reference_cons, referenceLine_sentBytes, if_neg hfits,
        ih false fun q hq => h q (List.mem_cons_of_mem _ hq)]

/-- An error comes out if one of them is not. -/
theorem fits_of_reference (first : Bool) {packets : List Packet}
    (h : (reference first (packets.map sentBytes ++ [[]])).2 = false) :
    ∀ packet ∈ packets, (sentBytes packet).length ≤ MAX_LINE_BYTES := by
  induction packets generalizing first with
  | nil => exact fun packet hmem => absurd hmem List.not_mem_nil
  | cons packet packets ih =>
      rw [List.map_cons, reference_cons, referenceLine_sentBytes] at h
      by_cases hlong : MAX_LINE_BYTES < (sentBytes packet).length
      · rw [if_pos hlong] at h
        cases h
      · rw [if_neg hlong] at h
        exact List.forall_mem_cons.mpr ⟨Nat.le_of_not_lt hlong, ih false h⟩

/-- What a stream of packets is received as. -/
theorem outcome_packets (p : PacketPlatform) (packets : List Packet) (chunks : List Bytes)
    (h : chunks.flatten = packets.flatMap fun packet => packet.toLine.toUtf8) :
    outcome p chunks = reference true (packets.map sentBytes ++ [[]]) := by
  refine outcome_lf p (fun l hl => ?_) (h.trans (flatMap_toLine packets))
  rcases List.mem_map.mp hl with ⟨packet, -, rfl⟩
  exact (sentBytes_chars packet).1

/-- The lines of a stream, each read as a packet. -/
def received (p : PacketPlatform) (chunks : List Bytes) :
    List (Except PsrpError (Option Packet)) × Bool :=
  ((outcome p chunks).1.map (parseLine p), (outcome p chunks).2)

/-- A stream of packets is received as these, under any chunking, if no line is
    too long. -/
theorem received_packets (hp : p.Lawful) {packets : List Packet}
    (hcarried : ∀ packet ∈ packets, packet.Carried) {chunks : List Bytes}
    (h : chunks.flatten = packets.flatMap fun packet => packet.toLine.toUtf8) :
    received p chunks = (packets.map fun packet => .ok (some packet), false) ↔
      ∀ packet ∈ packets, (sentBytes packet).length ≤ MAX_LINE_BYTES := by
  rw [received, outcome_packets p packets chunks h]
  constructor
  · intro hreceived
    exact fits_of_reference true (congrArg Prod.snd hreceived)
  · intro hfits
    rw [reference_packets true hfits, List.map_map]
    refine Prod.ext (List.map_congr_left fun packet hmem => ?_) rfl
    exact parseLine_sentLine hp (hcarried packet hmem)

theorem parseLine_eq_none {line : Text} :
    parseLine p line = .ok none ↔ Text.trim line = [] := by
  unfold parseLine
  by_cases hblank : Text.trim line = []
  · rw [if_pos hblank]
    exact iff_of_true rfl hblank
  · rw [if_neg hblank]
    refine iff_of_false (fun h => ?_) hblank
    split at h
    · cases h
    · split at h
      · cases h
      · cases h

/-- A packet is read back from its line; what is read from a line is all there
    is in it and is read back from its own line; and a stream of packets is
    received as these under any chunking, exactly if no line is too long. -/
theorem packet_codec (p : PacketPlatform) (hp : p.Lawful) :
    (∀ packet : Packet, packet.Carried → parseLine p (sentLine packet) = .ok (some packet)) ∧
    (∀ line packet, parseLine p line = .ok (some packet) ↔
      Text.trim line ≠ [] ∧ ¬ ServerError line ∧ Sole p (Text.trim line) packet) ∧
    (∀ line, parseLine p line = .ok none ↔ Text.trim line = []) ∧
    (∀ line packet, parseLine p line = .ok (some packet) →
      parseLine p (sentLine packet) = .ok (some packet)) ∧
    (∀ packets : List Packet, (∀ packet ∈ packets, packet.Carried) → ∀ chunks : List Bytes,
      chunks.flatten = (packets.flatMap fun packet => packet.toLine.toUtf8) →
      (received p chunks = (packets.map fun packet => .ok (some packet), false) ↔
        ∀ packet ∈ packets, (sentBytes packet).length ≤ MAX_LINE_BYTES)) := by
  refine ⟨fun packet => parseLine_sentLine hp, fun line packet => parseLine_iff,
    fun line => parseLine_eq_none, fun line packet h => ?_, fun packets hcarried chunks h => ?_⟩
  · exact parseLine_sentLine hp (sole_carried (parseLine_iff.mp h).2.2)
  · exact received_packets hp hcarried h

/-- Some packets of a server, and one of a client. -/
def mixedPackets : List Packet :=
  [.dataAck .nil, .data .promptResponse .nil [0x00, 0xFF, 0x3C], .command .nil, .closeAck .nil]

/-- They are received byte by byte. -/
theorem packet_codec_stream :
    received .basic ((mixedPackets.flatMap fun packet => packet.toLine.toUtf8).map fun b => [b])
      = (mixedPackets.map fun packet => .ok (some packet), false) := by
  have hfits : ∀ packet ∈ mixedPackets, (sentBytes packet).length ≤ MAX_LINE_BYTES := by
    decide +kernel
  have hcarried : ∀ packet ∈ mixedPackets, packet.Carried := by
    intro packet hmem stream guid payload heq
    simp only [mixedPackets, List.mem_cons, List.not_mem_nil, or_false] at hmem
    rcases hmem with rfl | rfl | rfl | rfl <;> cases heq
    exact List.cons_ne_nil _ _
  refine ((packet_codec .basic PacketPlatform.basic_lawful).2.2.2.2 mixedPackets hcarried _
    ?_).mpr hfits
  rw [← List.flatMap_def, List.flatMap_singleton']

/-- A packet whose line is too long is not received. -/
theorem packet_codec_long :
    ¬ ∀ (p : PacketPlatform), p.Lawful →
      ∀ packets : List Packet, (∀ packet ∈ packets, packet.Carried) → ∀ chunks : List Bytes,
      chunks.flatten = (packets.flatMap fun packet => packet.toLine.toUtf8) →
      received p chunks = (packets.map fun packet => .ok (some packet), false) := by
  intro h
  have hcarried : ∀ packet ∈ [Packet.data .default .nil (List.replicate (MAX_LINE_BYTES + 1) 0)],
      packet.Carried := by
    intro packet hmem stream guid payload heq
    cases List.mem_singleton.mp hmem
    cases heq
    exact List.cons_ne_nil _ _
  have hreceived := h .basic PacketPlatform.basic_lawful _ hcarried [_] List.flatten_singleton
  rw [received_packets PacketPlatform.basic_lawful hcarried List.flatten_singleton] at hreceived
  have hfits := hreceived _ (List.mem_singleton_self _)
  -- The line is longer than its content, which is longer than the payload.
  have hpayload := base64Decode_length _ _
    (base64Decode_encode (List.replicate (MAX_LINE_BYTES + 1) 0))
  have helement : elementOf (.data .default .nil (List.replicate (MAX_LINE_BYTES + 1) 0))
      = textElement "Data" (attrsOf (.data .default .nil [])) (base64Encode
        (List.replicate (MAX_LINE_BYTES + 1) 0)) := rfl
  rw [sentBytes, length_toUtf8, sentLine_eq, helement, textElement] at hfits
  simp only [Text.utf8Len_append, Text.utf8Len_cons] at hfits
  rw [List.length_replicate] at hpayload
  omega

end OutOfProc

end Psrp

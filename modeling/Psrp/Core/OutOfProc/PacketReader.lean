import Psrp.Core.OutOfProc.Packet

/-!
# Reading Packet Lines

What is assumed of the XML reader on a packet's line, and a concrete reader
that does as assumed.

A packet is one element with attributes in single quotes, empty or around a
text. Names, values and text hold nothing that XML would escape, so the reader
has them as they are written. The concrete reader is the scanner of CLIXML
documents, which knows double quotes only, on the line with its quotes changed.

## Main definitions

* `quoteAttrs`, `emptyTag`, `textElement`: Elements as packets write them.
* `PacketPlatform.Lawful`: The assumptions.
* `PacketPlatform.basic`: A concrete platform.

## Theorems

* `PacketPlatform.basic_lawful`: It does as assumed.
-/

namespace Psrp

namespace OutOfProc

/-- Attributes in single quotes. -/
def quoteAttrs : List (String × Text) → Text
  | [] => []
  | (key, value) :: rest => ' ' :: key.toList ++ '=' :: '\'' :: value ++ '\'' :: quoteAttrs rest

/-- An element without content. -/
def emptyTag (name : String) (attrs : List (String × Text)) : Text :=
  '<' :: name.toList ++ quoteAttrs attrs ++ " />".toList

/-- An element around a text. -/
def textElement (name : String) (attrs : List (String × Text)) (text : Text) : Text :=
  '<' :: name.toList ++ quoteAttrs attrs ++ '>' :: text ++ "</".toList ++ name.toList ++ ['>']

/-- Attributes with distinct plain keys, whose values nothing would escape. -/
def TokenAttrs (attrs : List (String × Text)) : Prop :=
  (attrs.map Prod.fst).Nodup ∧
  ∀ a ∈ attrs, Xml.plainName a.1 = true ∧ ∀ c ∈ a.2, Text.isToken c = true

namespace PacketPlatform

/-- What is assumed of the libraries: a UUID is read back from its hyphenated
    form, and an element as packets write it is read as what it says. -/
structure Lawful (p : PacketPlatform) : Prop where
  parseUuid_hyphenated : ∀ u : Uuid, p.parseUuid u.hyphenated = .ok u
  read_empty : ∀ name attrs, Xml.plainName name = true → TokenAttrs attrs →
    p.read (emptyTag name attrs)
        = { events := [.empty name (Xml.readAttrs attrs)], fault := none } ∧
      p.lineAttributes (emptyTag name attrs) = (Xml.readAttrs attrs).map .ok
  read_element : ∀ name attrs text, Xml.plainName name = true → TokenAttrs attrs →
    text ≠ [] → (∀ c ∈ text, Text.isToken c = true) →
    p.read (textElement name attrs text)
        = { events := [.start name (Xml.readAttrs attrs), .text text, .stop name],
            fault := none } ∧
      p.lineAttributes (textElement name attrs text) = (Xml.readAttrs attrs).map .ok

end PacketPlatform

/-- A double quote for a single one. -/
def requote (c : Char) : Char := if c = '\'' then '"' else c

/-- A line as the scanner of CLIXML documents reads it. -/
def scanLine (line : Text) : Xml.Stream := Xml.scan (line.map requote)

/-- A concrete platform. -/
def PacketPlatform.basic : PacketPlatform where
  toPlatform := { Platform.basic with read := scanLine }
  lineAttributes line := match (scanLine line).events.head? with
    | some (.start _ attrs) => attrs.map .ok
    | some (.empty _ attrs) => attrs.map .ok
    | _ => []
  escapeDebug c := [c]
  formatMillis nanos := Nat.toDigits 10 (nanos / 1000000)

theorem requote_of_token {c : Char} (h : Text.isToken c = true) : requote c = c := by
  refine if_neg ?_
  rintro rfl
  cases h

theorem map_requote {t : Text} (h : ∀ c ∈ t, Text.isToken c = true) : t.map requote = t :=
  (List.map_congr_left fun c hc => requote_of_token (h c hc)).trans (List.map_id t)

theorem isToken_of_plainName {name : String} (h : Xml.plainName name = true) :
    ∀ c ∈ name.toList, Text.isToken c = true := by
  intro c hc
  rw [Text.isToken, Xml.plainName_chars name h c hc, Bool.true_or]

theorem entityOf_token {c : Char} (h : Text.isToken c = true) : Xml.entityOf c = none := by
  have hn := Text.isToken_toNat c h
  unfold Xml.entityOf
  rw [if_neg, if_neg, if_neg, if_neg, if_neg]
  all_goals
    rintro rfl
    revert hn
    decide

/-- Nothing would escape what is made of tokens. -/
theorem escapeText_token {t : Text} (h : ∀ c ∈ t, Text.isToken c = true) :
    Xml.escapeText t = t := by
  induction t with
  | nil => rfl
  | cons c t ih =>
      rw [Xml.escapeText_cons, Xml.escapeChar, entityOf_token (h c List.mem_cons_self),
        ih fun d hd => h d (List.mem_cons_of_mem c hd)]
      rfl

/-- What is made of tokens is one run of character data. -/
theorem textEventsFrom_token (acc : Text) {t : Text} (h : ∀ c ∈ t, Text.isToken c = true) :
    Xml.textEventsFrom acc t = Xml.flush (acc ++ t) := by
  induction t generalizing acc with
  | nil => rw [Xml.textEventsFrom, List.append_nil]
  | cons c t ih =>
      have hrest := ih (acc ++ [c]) fun d hd => h d (List.mem_cons_of_mem c hd)
      rw [List.append_assoc] at hrest
      rw [Xml.textEventsFrom, entityOf_token (h c List.mem_cons_self)]
      exact hrest

/-- With its quotes changed, a list of attributes is written as in a document. -/
theorem map_requote_quoteAttrs {attrs : List (String × Text)}
    (h : ∀ a ∈ attrs, Xml.plainName a.1 = true ∧ ∀ c ∈ a.2, Text.isToken c = true) :
    (quoteAttrs attrs).map requote = Xml.renderAttrs attrs := by
  induction attrs with
  | nil => rfl
  | cons a attrs ih =>
      rcases a with ⟨key, value⟩
      have ha := h (key, value) List.mem_cons_self
      simp only [quoteAttrs, Xml.renderAttrs, List.map_append, List.map_cons,
        map_requote (isToken_of_plainName ha.1), map_requote ha.2, escapeText_token ha.2,
        ih fun b hb => h b (List.mem_cons_of_mem _ hb)]
      rfl

theorem plainAttrs_of_token {attrs : List (String × Text)} (h : TokenAttrs attrs) :
    Xml.plainAttrs attrs = true := by
  rw [Xml.plainAttrs, decide_eq_true h.1, Bool.true_and, List.all_eq_true]
  rintro ⟨key, value⟩ ha
  rcases h.2 _ ha with ⟨hkey, hvalue⟩
  simp only [hkey, Bool.true_and, List.all_eq_true]
  exact fun c hc => decide_eq_true (Text.space_le_of_isToken c (hvalue c hc))

/-- The tag of an element without content, with a space before its slash. -/
theorem parseTag_spaced {name : String} {attrs : List (String × Text)}
    (hname : Xml.plainName name = true) (hattrs : Xml.plainAttrs attrs = true) :
    Xml.parseTag (name.toList ++ Xml.renderAttrs attrs ++ [' ', '/'])
      = .empty name (Xml.readAttrs attrs) := by
  rcases Xml.plainName_cons name hname with ⟨c, cs, hcons, hc⟩
  have hsplit : name.toList ++ Xml.renderAttrs attrs ++ [' ', '/']
      = (name.toList ++ (Xml.renderAttrs attrs ++ [' '])) ++ ['/'] := by
    simp only [List.append_assoc, List.singleton_append]
  have hall : ∀ c ∈ name.toList, decide (c ≠ ' ') = true := fun c hc =>
    decide_eq_true (Xml.alphanum_ne c (Xml.plainName_chars name hname c hc)).1
  -- The name ends at the first space, which the attributes or the end of the tag bring.
  have hspace : ∃ rest, Xml.renderAttrs attrs ++ [' '] = ' ' :: rest := by
    rcases Xml.renderAttrs_head attrs with ha | ⟨rest, ha⟩
    · exact ⟨[], by rw [ha]; rfl⟩
    · exact ⟨rest ++ [' '], by rw [ha]; rfl⟩
  have htake : (name.toList ++ (Xml.renderAttrs attrs ++ [' '])).takeWhile (· ≠ ' ')
      = name.toList := by
    rw [List.takeWhile_append_of_pos hall]
    rcases hspace with ⟨rest, hrest⟩
    rw [hrest]
    exact List.append_nil _
  have hdrop : (name.toList ++ (Xml.renderAttrs attrs ++ [' '])).dropWhile (· ≠ ' ')
      = Xml.renderAttrs attrs ++ [' '] := by
    rw [List.dropWhile_append_of_pos hall]
    rcases hspace with ⟨rest, hrest⟩
    rw [hrest]
    rfl
  have hread : Xml.parseAttrs .between (Xml.renderAttrs attrs ++ [' ']) = Xml.readAttrs attrs := by
    rw [Xml.parseAttrs_render_append attrs hattrs]
    exact List.append_nil _
  rw [hsplit, Xml.parseTag]
  · simp only [List.getLast?_concat, if_true, List.dropLast_concat, htake, hdrop, hread,
      String.ofList_toList]
  · intro rest hrest
    rw [hcons, List.cons_append, List.cons_append] at hrest
    exact hc (List.cons.inj hrest).1

theorem ne_close_of_token {c : Char} (h : Text.isToken c = true) : c ≠ '>' := by
  rintro rfl
  cases h

/-- The inside of an opening tag holds no bracket. -/
theorem no_bracket {name : String} {attrs : List (String × Text)}
    (hname : Xml.plainName name = true) (hattrs : Xml.plainAttrs attrs = true) :
    ∀ c ∈ name.toList ++ Xml.renderAttrs attrs, c ≠ '>' := by
  intro c hc
  rcases List.mem_append.mp hc with hc | hc
  · exact ne_close_of_token (isToken_of_plainName hname c hc)
  · exact Xml.renderAttrs_no_bracket attrs hattrs c hc

theorem scanLine_emptyTag {name : String} {attrs : List (String × Text)}
    (hname : Xml.plainName name = true) (hattrs : TokenAttrs attrs) :
    scanLine (emptyTag name attrs)
      = { events := [.empty name (Xml.readAttrs attrs)], fault := none } := by
  have hplain := plainAttrs_of_token hattrs
  have hline : (emptyTag name attrs).map requote
      = '<' :: (name.toList ++ Xml.renderAttrs attrs ++ [' ', '/']) ++ '>' :: [] := by
    simp only [emptyTag, List.map_append, List.map_cons, map_requote_quoteAttrs hattrs.2,
      map_requote (isToken_of_plainName hname)]
    simp [requote]
  have hchars : ∀ c ∈ name.toList ++ Xml.renderAttrs attrs ++ [' ', '/'], c ≠ '>' := by
    intro c hc
    rcases List.mem_append.mp hc with hc | hc
    · exact no_bracket hname hplain c hc
    · rcases List.mem_pair.mp hc with rfl | rfl
      · decide
      · decide
  rw [scanLine, hline, Xml.scan, List.cons_append, Xml.scanFrom, if_pos rfl,
    Xml.markup_tag [] _ [] hchars, List.nil_append, parseTag_spaced hname hplain]
  rfl

theorem scanLine_textElement {name : String} {attrs : List (String × Text)} {text : Text}
    (hname : Xml.plainName name = true) (hattrs : TokenAttrs attrs) (hne : text ≠ [])
    (htext : ∀ c ∈ text, Text.isToken c = true) :
    scanLine (textElement name attrs text)
      = { events := [.start name (Xml.readAttrs attrs), .text text, .stop name],
          fault := none } := by
  have hplain := plainAttrs_of_token hattrs
  -- With its quotes changed, the element is one that the writer of documents makes.
  have hnode : (textElement name attrs text).map requote
      = (Xml.Node.element name attrs [.text text]).render := by
    simp only [textElement, Xml.Node.render, Xml.renderList, List.map_append, List.map_cons,
      map_requote_quoteAttrs hattrs.2, map_requote (isToken_of_plainName hname),
      map_requote htext, escapeText_token htext]
    simp [requote]
  have hevents : Xml.textEvents text = [.text text] := by
    rw [Xml.textEvents, textEventsFrom_token [] htext, List.nil_append, Xml.flush, if_neg hne]
  rw [scanLine, hnode, Xml.scan_render _ rfl]
  · simp only [Xml.Node.events, Xml.eventsList, hevents]
    rfl
  · have htextPlain : Xml.plainText text = true := by
      rw [Xml.plainText, List.all_eq_true]
      intro c hc
      rw [decide_eq_true (Text.space_le_of_isToken c (htext c hc)), Bool.true_or, Bool.true_or]
    simp only [Xml.Node.plain, Xml.plainList, hname, hplain, htextPlain, Bool.true_and, List.head?_nil,
      Option.map_none, Option.getD_none, Bool.and_false, Bool.not_false]

theorem PacketPlatform.basic_lawful : PacketPlatform.basic.Lawful where
  parseUuid_hyphenated := Platform.basic_lawful.parseUuid_hyphenated
  read_empty name attrs hname hattrs := by
    have hscan := scanLine_emptyTag hname hattrs
    simp only [PacketPlatform.basic, hscan, List.head?_cons, and_self]
  read_element name attrs text hname hattrs hne htext := by
    have hscan := scanLine_textElement hname hattrs hne htext
    simp only [PacketPlatform.basic, hscan, List.head?_cons, and_self]

end OutOfProc

end Psrp

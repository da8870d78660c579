import Psrp.Lib.Xml

/-!
# A Small XML Scanner

A reader that meets the assumptions, so that they are known to be
satisfiable, and one that runs, so that whole documents can be decoded inside
the logic.

It covers what serialised trees and hand-written test documents use: tags with
double-quoted attributes, character data, and references to the predefined
entities. Comments, declarations and character references are outside its
scope and end the stream with a fault. It is a stand-in for a real reader on
such documents, not a model of one.

The scanner is a character machine with three states: reading character data,
reading a reference, reading the inside of a tag. Each state recurses on the
rest of the document, so the whole scan is structural and evaluates in the
kernel.

`scan_render` is proved by walking a tree. Character data needs the invariant
that the scanner stands in the data state with a plain run already collected
(`content_text`); a tag is collected up to its closing bracket, which
escaping keeps out of attribute values (`markup_tag`), and then taken apart
(`parseTag_start`).

## Main definitions

* `unescape`: Character data without its entity references.
* `parseAttrs`: The attributes inside a tag.
* `parseTag`: The event of a tag.
* `content`, `reference`, `markup`: The three states.
* `scan`: The scanner.

## Theorems

* `unescape_escapeText`: Unescaping inverts escaping.
* `escapeText_chars`, `escapeText_ampersand`: What escaped text is made of.
* `parseAttrs_render`: Written attributes are read back.
* `scan_render`: A serialised element is scanned to its events.
* `scan_size`: Scanned events fit in the document.
* `scan_lawful`: The scanner meets the assumptions on a reader.
-/

namespace Psrp

namespace Xml

/-- An attribute value without its entity references; `none` where one is
    unknown or unfinished. The first argument holds the name of the reference
    being read, if one is. -/
def unescape : Option Text → Text → Option Text
  | none, [] => some []
  | some _, [] => none
  | none, c :: cs =>
    if c = '&' then unescape (some []) cs else (unescape none cs).map (c :: ·)
  | some name, c :: cs =>
    if c = ';' then
      match resolvePredefinedEntity name with
      | some t => (unescape none cs).map (t ++ ·)
      | none => none
    else unescape (some (name ++ [c])) cs

/-- Where the attribute scan stands: between attributes, in a key, after the
    equals sign, in a value. -/
inductive AttrState where
  | between
  | key (k : Text)
  | afterEq (k : Text)
  | value (k v : Text)

/-- The attributes inside a tag; the scan stops at what it cannot read. -/
def parseAttrs : AttrState → Text → List Attr
  | _, [] => []
  | .between, c :: cs => if c = ' ' then parseAttrs .between cs else parseAttrs (.key [c]) cs
  | .key k, c :: cs =>
    if c = '=' then parseAttrs (.afterEq k) cs else parseAttrs (.key (k ++ [c])) cs
  | .afterEq k, c :: cs => if c = '"' then parseAttrs (.value k []) cs else []
  | .value k v, c :: cs =>
    if c = '"' then
      { key := String.ofList k,
        value := match unescape none v with
          | some u => .ok u
          | none => .error "bad entity" } :: parseAttrs .between cs
    else parseAttrs (.value k (v ++ [c])) cs

/-- The event of the tag whose inside is `t`. -/
def parseTag (t : Text) : Event :=
  match t with
  | '/' :: name => .stop (String.ofList name)
  | t =>
    let closed := t.getLast? = some '/'
    let body := if closed then t.dropLast else t
    let name := String.ofList (body.takeWhile (· ≠ ' '))
    let attrs := parseAttrs .between (body.dropWhile (· ≠ ' '))
    if closed then .empty name attrs else .start name attrs

/-- The state of the scanner: what it is reading and what it has collected. -/
inductive ScanState where
  | content (acc : Text)
  | reference (acc : Text)
  | markup (acc : Text)

/-- Scan a document from a state. -/
def scanFrom : ScanState → Text → Stream
  | .content acc, [] => { events := flush acc, fault := none }
  | .reference _, [] => { events := [], fault := some "unclosed reference" }
  | .markup _, [] => { events := [], fault := some "unclosed tag" }
  | .content acc, c :: cs =>
    if c = '<' then (scanFrom (.markup []) cs).prepend (flush acc)
    else if c = '&' then (scanFrom (.reference []) cs).prepend (flush acc)
    else scanFrom (.content (acc ++ [c])) cs
  | .reference acc, c :: cs =>
    if c = ';' then (scanFrom (.content []) cs).prepend [.generalRef acc (.ok none)]
    else scanFrom (.reference (acc ++ [c])) cs
  | .markup acc, c :: cs =>
    if c = '>' then (scanFrom (.content []) cs).prepend [parseTag acc]
    else scanFrom (.markup (acc ++ [c])) cs

/-- Scan a document. -/
def scan : Reader := scanFrom (.content [])

theorem entityOf_name_chars (c : Char) (name : String) (h : entityOf c = some name) :
    ∀ d ∈ name.toList, d ≠ ';' ∧ d ≠ '>' ∧ d ≠ '"' ∧ d ≠ '<' ∧ d ≠ '&' ∧ d ≠ '\'' := by
  have hall : name.toList.all (fun d =>
      d ≠ ';' ∧ d ≠ '>' ∧ d ≠ '"' ∧ d ≠ '<' ∧ d ≠ '&' ∧ d ≠ '\'') = true := by
    unfold entityOf at h
    split_ifs at h <;> cases h <;> rfl
  intro d hd
  exact of_decide_eq_true (List.all_eq_true.mp hall d hd)

/-- A character that is no entity is none of the five. -/
theorem entityOf_none (c : Char) (h : entityOf c = none) :
    c ≠ '<' ∧ c ≠ '>' ∧ c ≠ '&' ∧ c ≠ '"' ∧ c ≠ '\'' := by
  unfold entityOf at h
  split_ifs at h with h1 h2 h3 h4 h5
  exact ⟨h1, h2, h3, h4, h5⟩

theorem unescape_name (name cs : Text) (acc : Text) (h : ∀ d ∈ name, d ≠ ';') :
    unescape (some acc) (name ++ cs) = unescape (some (acc ++ name)) cs := by
  induction name generalizing acc with
  | nil => rw [List.nil_append, List.append_nil]
  | cons d ds ih =>
      rw [List.cons_append, unescape, if_neg (h d (List.mem_cons_self ..)),
        ih _ (fun e he => h e (List.mem_cons_of_mem _ he)), List.append_assoc]
      rfl

theorem unescape_escapeText (t : Text) : unescape none (escapeText t) = some t := by
  induction t with
  | nil => rfl
  | cons c cs ih =>
      rw [escapeText_cons, escapeChar]
      cases he : entityOf c with
      | none =>
          have hc := (entityOf_none c he).2.2.1
          simp only [List.cons_append, List.nil_append, unescape, if_neg hc, ih, Option.map_some]
      | some name =>
          have hchars := entityOf_name_chars c name he
          simp only [List.cons_append, List.append_assoc, List.nil_append, unescape, if_true]
          rw [unescape_name _ _ _ (fun d hd => (hchars d hd).1)]
          simp only [List.nil_append, unescape, if_true, resolve_entityOf c name he, ih,
            Option.map_some, List.cons_append]

/-- Escaped text holds no quote of either kind and no bracket. -/
theorem escapeText_chars (t : Text) :
    ∀ c ∈ escapeText t, c ≠ '"' ∧ c ≠ '>' ∧ c ≠ '<' ∧ c ≠ '\'' := by
  intro c hc
  rw [escapeText, List.mem_flatMap] at hc
  rcases hc with ⟨d, _, hc⟩
  rw [escapeChar] at hc
  cases he : entityOf d with
  | none =>
      rw [he, List.mem_singleton] at hc
      have hd := entityOf_none d he
      rw [hc]
      exact ⟨hd.2.2.2.1, hd.2.1, hd.1, hd.2.2.2.2⟩
  | some name =>
      rw [he] at hc
      simp only [List.cons_append, List.mem_cons, List.mem_append, List.not_mem_nil, or_false] at hc
      rcases hc with rfl | hc | rfl
      · decide
      · have hd := entityOf_name_chars d name he c hc
        exact ⟨hd.2.2.1, hd.2.1, hd.2.2.2.1, hd.2.2.2.2.2⟩
      · decide

/-- Escaped text holds an ampersand only where one of the entities opens. -/
theorem escapeText_ampersand (t pre rest : Text) (h : escapeText t = pre ++ '&' :: rest) :
    ∃ c name, entityOf c = some name ∧ name.toList ++ [';'] <+: rest := by
  induction t generalizing pre with
  | nil => exact absurd h.symm (List.append_ne_nil_of_right_ne_nil _ (List.cons_ne_nil _ _))
  | cons c cs ih =>
      rw [escapeText_cons, escapeChar] at h
      cases he : entityOf c with
      | none =>
          rw [he] at h
          cases pre with
          | nil => exact absurd (List.cons.inj h).1 (entityOf_none c he).2.2.1
          | cons d pre => exact ih pre (List.cons.inj h).2
      | some name =>
          rw [he] at h
          cases pre with
          | nil =>
              refine ⟨c, name, he, escapeText cs, ?_⟩
              rw [← (List.cons.inj h).2]
              rfl
          | cons d pre =>
              -- The name holds no ampersand, so the one found stands behind it.
              have htail : (name.toList ++ [';']) ++ escapeText cs = pre ++ '&' :: rest :=
                (List.cons.inj h).2
              have hname : '&' ∉ name.toList ++ [';'] := by
                intro hmem
                rcases List.mem_append.mp hmem with hmem | hmem
                · exact (entityOf_name_chars c name he _ hmem).2.2.2.2.1 rfl
                · exact absurd hmem (by decide)
              rcases List.append_eq_append_iff.mp htail with ⟨u, hpre, hcs⟩ | ⟨u, hname', hrest⟩
              · exact ih u hcs
              · cases u with
                | nil => exact ih [] hrest.symm
                | cons e u =>
                    have he' : e = '&' := ((List.cons.inj hrest).1).symm
                    refine absurd ?_ hname
                    rw [hname', he']
                    exact List.mem_append_right _ List.mem_cons_self

theorem parseAttrs_value (k v u rest : Text) (h : ∀ c ∈ u, c ≠ '"') :
    parseAttrs (.value k v) (u ++ rest) = parseAttrs (.value k (v ++ u)) rest := by
  induction u generalizing v with
  | nil => rw [List.nil_append, List.append_nil]
  | cons c cs ih =>
      rw [List.cons_append, parseAttrs, if_neg (h c (List.mem_cons_self ..)),
        ih _ (fun d hd => h d (List.mem_cons_of_mem _ hd)), List.append_assoc]
      rfl

theorem parseAttrs_key (k u rest : Text) (h : ∀ c ∈ u, c ≠ '=') :
    parseAttrs (.key k) (u ++ rest) = parseAttrs (.key (k ++ u)) rest := by
  induction u generalizing k with
  | nil => rw [List.nil_append, List.append_nil]
  | cons c cs ih =>
      rw [List.cons_append, parseAttrs, if_neg (h c (List.mem_cons_self ..)),
        ih _ (fun d hd => h d (List.mem_cons_of_mem _ hd)), List.append_assoc]
      rfl

/-- A letter or digit is none of the characters a tag is made of. -/
theorem alphanum_ne (c : Char) (h : c.isAlphanum = true) :
    c ≠ ' ' ∧ c ≠ '=' ∧ c ≠ '/' ∧ c ≠ '>' ∧ c ≠ '<' ∧ c ≠ '"' := by
  refine ⟨?_, ?_, ?_, ?_, ?_, ?_⟩ <;> rintro rfl <;> exact absurd h (by decide)

/-- Written attributes are read back, whatever follows them. -/
theorem parseAttrs_render_append (attrs : List (String × Text)) (h : plainAttrs attrs = true)
    (rest : Text) :
    parseAttrs .between (renderAttrs attrs ++ rest)
      = readAttrs attrs ++ parseAttrs .between rest := by
  rw [plainAttrs, Bool.and_eq_true, List.all_eq_true] at h
  have hall := h.2
  clear h
  induction attrs with
  | nil => rfl
  | cons a as ih =>
      rcases a with ⟨key, value⟩
      have hkey := hall (key, value) (List.mem_cons_self ..)
      rw [Bool.and_eq_true] at hkey
      have has := ih (fun b hb => hall b (List.mem_cons_of_mem _ hb))
      have hchars := plainName_chars key hkey.1
      cases hk : key.toList with
      | nil =>
          rw [plainName, hk] at hkey
          exact absurd hkey.1 Bool.false_ne_true
      | cons c cs =>
          rw [hk] at hchars
          have hc := alphanum_ne c (hchars c (List.mem_cons_self ..))
          have hcs : ∀ d ∈ cs, d ≠ '=' := fun d hd =>
            (alphanum_ne d (hchars d (List.mem_cons_of_mem _ hd))).2.1
          have hname : String.ofList (c :: cs) = key := by rw [← hk, String.ofList_toList]
          have hquote : ∀ d ∈ escapeText value, d ≠ '"' := fun d hd => (escapeText_chars value d hd).1
          simp only [renderAttrs, hk, List.cons_append, List.append_assoc, parseAttrs, if_true,
            if_neg hc.1]
          rw [parseAttrs_key _ _ _ hcs]
          simp only [List.cons_append, List.nil_append, parseAttrs, if_true]
          rw [parseAttrs_value _ _ _ _ hquote]
          simp only [List.nil_append, parseAttrs, if_true, unescape_escapeText, hname, has,
            readAttrs, List.map_cons, List.cons_append]

theorem parseAttrs_render (attrs : List (String × Text)) (h : plainAttrs attrs = true) :
    parseAttrs .between (renderAttrs attrs) = readAttrs attrs := by
  have happend := parseAttrs_render_append attrs h []
  rwa [List.append_nil, parseAttrs, List.append_nil] at happend

/-- The inside of a tag is collected up to its closing bracket. -/
theorem markup_tag (acc t rest : Text) (h : ∀ c ∈ t, c ≠ '>') :
    scanFrom (.markup acc) (t ++ '>' :: rest)
      = (scanFrom (.content []) rest).prepend [parseTag (acc ++ t)] := by
  induction t generalizing acc with
  | nil => rw [List.nil_append, scanFrom, if_pos rfl, List.append_nil]
  | cons c cs ih =>
      rw [List.cons_append, scanFrom, if_neg (h c (List.mem_cons_self ..)),
        ih _ (fun d hd => h d (List.mem_cons_of_mem _ hd)), List.append_assoc]
      rfl

theorem renderAttrs_chars (attrs : List (String × Text)) (h : plainAttrs attrs = true) :
    ∀ c ∈ renderAttrs attrs, c ≠ '>' ∧ c ≠ '/' ∨ c ∈ attrs.flatMap fun a => escapeText a.2 := by
  rw [plainAttrs, Bool.and_eq_true, List.all_eq_true] at h
  have hall := h.2
  clear h
  induction attrs with
  | nil => intro c hc; exact absurd hc List.not_mem_nil
  | cons a rest ih =>
      rcases a with ⟨key, value⟩
      have hkey := hall (key, value) (List.mem_cons_self ..)
      rw [Bool.and_eq_true] at hkey
      intro c hc
      simp only [renderAttrs, List.cons_append, List.append_assoc, List.mem_cons,
        List.mem_append] at hc
      rw [List.flatMap_cons, List.mem_append]
      rcases hc with rfl | hc | rfl | rfl | hc | rfl | hc
      · exact Or.inl (by decide)
      · have hne := alphanum_ne c (plainName_chars key hkey.1 c hc)
        exact Or.inl ⟨hne.2.2.2.1, hne.2.2.1⟩
      · exact Or.inl (by decide)
      · exact Or.inl (by decide)
      · exact Or.inr (Or.inl hc)
      · exact Or.inl (by decide)
      · rcases ih (fun b hb => hall b (List.mem_cons_of_mem _ hb)) c hc with h | h
        · exact Or.inl h
        · exact Or.inr (Or.inr h)

theorem renderAttrs_no_bracket (attrs : List (String × Text)) (h : plainAttrs attrs = true) :
    ∀ c ∈ renderAttrs attrs, c ≠ '>' := by
  intro c hc
  rcases renderAttrs_chars attrs h c hc with h | h
  · exact h.1
  · rw [List.mem_flatMap] at h
    rcases h with ⟨a, _, ha⟩
    exact (escapeText_chars a.2 c ha).2.1

/-- Attributes are empty or start with a space. -/
theorem renderAttrs_head (attrs : List (String × Text)) :
    renderAttrs attrs = [] ∨ ∃ rest, renderAttrs attrs = ' ' :: rest := by
  cases attrs with
  | nil => exact Or.inl rfl
  | cons a rest => exact Or.inr ⟨_, rfl⟩

/-- Attributes are empty or end with a quote. -/
theorem renderAttrs_last (attrs : List (String × Text)) :
    renderAttrs attrs = [] ∨ (renderAttrs attrs).getLast? = some '"' := by
  induction attrs with
  | nil => exact Or.inl rfl
  | cons a rest ih =>
      right
      have hsplit : renderAttrs (a :: rest)
          = (' ' :: a.1.toList ++ '=' :: '"' :: escapeText a.2 ++ ['"']) ++ renderAttrs rest := by
        simp only [renderAttrs, List.cons_append, List.append_assoc, List.nil_append]
      rcases ih with h | h
      · rw [hsplit, h, List.append_nil, List.getLast?_append_of_ne_nil _ (List.cons_ne_nil _ _)]
        rfl
      · have hne : renderAttrs rest ≠ [] := by
          intro hc
          rw [hc] at h
          exact absurd h (by simp only [List.getLast?_nil, reduceCtorEq, not_false_eq_true])
        rw [hsplit, List.getLast?_append_of_ne_nil _ hne, h]

theorem takeWhile_tag (name : String) (attrs : List (String × Text)) (h : plainName name = true) :
    (name.toList ++ renderAttrs attrs).takeWhile (· ≠ ' ') = name.toList
      ∧ (name.toList ++ renderAttrs attrs).dropWhile (· ≠ ' ') = renderAttrs attrs := by
  have hall : ∀ c ∈ name.toList, decide (c ≠ ' ') = true := fun c hc =>
    decide_eq_true (alphanum_ne c (plainName_chars name h c hc)).1
  rw [List.takeWhile_append_of_pos hall, List.dropWhile_append_of_pos hall]
  rcases renderAttrs_head attrs with ha | ⟨rest, ha⟩
  · rw [ha]
    exact ⟨List.append_nil _, rfl⟩
  · rw [ha]
    exact ⟨List.append_nil _, rfl⟩

theorem plainName_cons (name : String) (h : plainName name = true) :
    ∃ c cs, name.toList = c :: cs ∧ c ≠ '/' := by
  have hchars := plainName_chars name h
  cases hn : name.toList with
  | nil =>
      rw [plainName, hn] at h
      exact absurd h Bool.false_ne_true
  | cons c cs =>
      rw [hn] at hchars
      exact ⟨c, cs, rfl, (alphanum_ne c (hchars c (List.mem_cons_self ..))).2.2.1⟩

/-- The inside of a tag does not end with a slash of its own. -/
theorem getLast_tag (name : String) (attrs : List (String × Text)) (h : plainName name = true) :
    (name.toList ++ renderAttrs attrs).getLast? ≠ some '/' := by
  have hne : name.toList ≠ [] := by
    rcases plainName_cons name h with ⟨c, cs, hn, _⟩
    rw [hn]
    exact List.cons_ne_nil _ _
  rcases renderAttrs_last attrs with ha | ha
  · rw [ha, List.append_nil, List.getLast?_eq_some_getLast hne, ne_eq, Option.some.injEq]
    exact (alphanum_ne _ (plainName_chars name h _ (List.getLast_mem hne))).2.2.1
  · have hne' : renderAttrs attrs ≠ [] := by
      intro hc
      rw [hc] at ha
      exact absurd ha (by simp only [List.getLast?_nil, reduceCtorEq, not_false_eq_true])
    rw [List.getLast?_append_of_ne_nil _ hne', ha]
    decide

theorem parseTag_start (name : String) (attrs : List (String × Text))
    (hn : plainName name = true) (ha : plainAttrs attrs = true) :
    parseTag (name.toList ++ renderAttrs attrs) = .start name (readAttrs attrs) := by
  rcases plainName_cons name hn with ⟨c, cs, hname, hc⟩
  have hlast := getLast_tag name attrs hn
  rcases takeWhile_tag name attrs hn with ⟨htake, hdrop⟩
  rw [parseTag]
  · simp only [hlast, if_false, htake, hdrop, parseAttrs_render attrs ha, String.ofList_toList]
  · intro rest hrest
    rw [hname, List.cons_append] at hrest
    exact hc (List.cons.inj hrest).1

theorem parseTag_empty (name : String) (attrs : List (String × Text))
    (hn : plainName name = true) (ha : plainAttrs attrs = true) :
    parseTag (name.toList ++ renderAttrs attrs ++ ['/']) = .empty name (readAttrs attrs) := by
  rcases plainName_cons name hn with ⟨c, cs, hname, hc⟩
  rcases takeWhile_tag name attrs hn with ⟨htake, hdrop⟩
  rw [parseTag]
  · simp only [List.getLast?_concat, if_true, List.dropLast_concat, htake, hdrop,
      parseAttrs_render attrs ha, String.ofList_toList]
  · intro rest hrest
    rw [hname, List.cons_append, List.cons_append] at hrest
    exact hc (List.cons.inj hrest).1

theorem reference_name (acc name rest : Text) (h : ∀ d ∈ name, d ≠ ';') :
    scanFrom (.reference acc) (name ++ ';' :: rest)
      = (scanFrom (.content []) rest).prepend [.generalRef (acc ++ name) (.ok none)] := by
  induction name generalizing acc with
  | nil => rw [List.nil_append, scanFrom, if_pos rfl, List.append_nil]
  | cons d ds ih =>
      rw [List.cons_append, scanFrom, if_neg (h d (List.mem_cons_self ..)),
        ih _ (fun e he => h e (List.mem_cons_of_mem _ he)), List.append_assoc]
      rfl

/-- Escaped character data before a tag is scanned to its events. The scanner
    stands in the data state with the plain run `acc` collected. -/
theorem content_text (acc t rest : Text) :
    scanFrom (.content acc) (escapeText t ++ '<' :: rest)
      = (scanFrom (.content []) ('<' :: rest)).prepend (textEventsFrom acc t) := by
  induction t generalizing acc with
  | nil =>
      simp only [escapeText_nil, List.nil_append, scanFrom, if_true, textEventsFrom,
        Stream.prepend_prepend]
      rw [show flush ([] : Text) = [] from rfl, List.append_nil]
  | cons c cs ih =>
      rw [escapeText_cons, escapeChar, textEventsFrom]
      cases he : entityOf c with
      | none =>
          have hc := entityOf_none c he
          simp only [List.cons_append, List.nil_append]
          rw [scanFrom, if_neg hc.1, if_neg hc.2.2.1, ih]
      | some name =>
          have hchars := entityOf_name_chars c name he
          simp only [List.cons_append, List.append_assoc, List.nil_append]
          rw [scanFrom, if_neg (by decide), if_pos rfl,
            reference_name _ _ _ (fun d hd => (hchars d hd).1), ih, List.nil_append,
            Stream.prepend_prepend, Stream.prepend_prepend, List.append_assoc]
          rfl

mutual

/-- An element anywhere in a document is scanned to its events. -/
theorem scan_node : ∀ (n : Node), n.isText = false → n.plain = true → ∀ (rest : Text),
    scanFrom (.content []) (n.render ++ rest)
      = (scanFrom (.content []) rest).prepend n.events
  | .text t, h, _, _ => absurd h (by simp only [Node.isText, reduceCtorEq, not_false_eq_true])
  | .empty name attrs, _, hp, rest => by
      rw [Node.plain, Bool.and_eq_true] at hp
      -- No bracket is inside the tag, so it ends at the first one.
      have hchars : ∀ c ∈ name.toList ++ renderAttrs attrs ++ ['/'], c ≠ '>' := by
        intro c hc
        rcases List.mem_append.mp hc with hc | hc
        · rcases List.mem_append.mp hc with hc | hc
          · exact (alphanum_ne c (plainName_chars name hp.1 c hc)).2.2.2.1
          · exact renderAttrs_no_bracket attrs hp.2 c hc
        · rw [List.mem_singleton.mp hc]
          decide
      have htag := markup_tag [] (name.toList ++ renderAttrs attrs ++ ['/']) rest hchars
      rw [List.nil_append, parseTag_empty name attrs hp.1 hp.2] at htag
      simp only [Node.render, Node.events, List.cons_append, List.append_assoc, List.nil_append]
        at htag ⊢
      rw [scanFrom, if_pos rfl, htag]
      rfl
  | .element name attrs children, _, hp, rest => by
      rw [Node.plain, Bool.and_eq_true, Bool.and_eq_true] at hp
      have hopen : ∀ c ∈ name.toList ++ renderAttrs attrs, c ≠ '>' := by
        intro c hc
        rcases List.mem_append.mp hc with hc | hc
        · exact (alphanum_ne c (plainName_chars name hp.1.1 c hc)).2.2.2.1
        · exact renderAttrs_no_bracket attrs hp.1.2 c hc
      have hclose : ∀ c ∈ '/' :: name.toList, c ≠ '>' := by
        intro c hc
        rcases List.mem_cons.mp hc with rfl | hc
        · decide
        · exact (alphanum_ne c (plainName_chars name hp.1.1 c hc)).2.2.2.1
      -- Start tag, children, end tag, each scanned from where the last one left.
      have hstart := markup_tag [] (name.toList ++ renderAttrs attrs)
        (renderList children ++ '<' :: '/' :: (name.toList ++ '>' :: rest)) hopen
      have hstop := markup_tag [] ('/' :: name.toList) rest hclose
      have hkids := scan_list children hp.2 ('/' :: (name.toList ++ '>' :: rest))
      rw [List.nil_append, parseTag_start name attrs hp.1.1 hp.1.2] at hstart
      rw [List.nil_append] at hstop
      have hstopTag : parseTag ('/' :: name.toList) = .stop name := by
        rw [parseTag, String.ofList_toList]
      rw [hstopTag] at hstop
      simp only [Node.render, Node.events, List.cons_append, List.append_assoc, List.nil_append]
        at hstart hstop ⊢
      rw [scanFrom, if_pos rfl, hstart, hkids, scanFrom, if_pos rfl, hstop]
      simp only [Stream.prepend_prepend, flush, if_true, List.nil_append, List.cons_append]

/-- Trees in a row before a tag are scanned to their events. -/
theorem scan_list : ∀ (ns : List Node), plainList ns = true → ∀ (rest : Text),
    scanFrom (.content []) (renderList ns ++ '<' :: rest)
      = (scanFrom (.content []) ('<' :: rest)).prepend (eventsList ns)
  | [], _, rest => by
      simp only [renderList, eventsList, List.nil_append, Stream.prepend_nil]
  | n :: ns, hp, rest => by
      rw [plainList, Bool.and_eq_true, Bool.and_eq_true] at hp
      have hns := scan_list ns hp.1.2 rest
      rw [renderList, eventsList, List.append_assoc]
      cases n with
      | text t =>
          -- A text is followed by a tag, the end tag of its parent at last.
          have hnext : ∃ tail, renderList ns ++ '<' :: rest = '<' :: tail := by
            cases ns with
            | nil => exact ⟨rest, rfl⟩
            | cons m ms =>
                cases m with
                | text u =>
                    exact absurd hp.2 (by simp only [Node.isText, List.head?_cons, Option.map_some,
                      Option.getD_some, Bool.and_self, Bool.not_true, Bool.false_eq_true,
                      not_false_eq_true])
                | empty name attrs => exact ⟨_, rfl⟩
                | element name attrs children => exact ⟨_, rfl⟩
          rcases hnext with ⟨tail, htail⟩
          rw [htail] at hns ⊢
          rw [Node.render, content_text, hns, Stream.prepend_prepend]
          rfl
      | empty name attrs =>
          rw [scan_node _ rfl hp.1.1, hns, Stream.prepend_prepend]
      | element name attrs children =>
          rw [scan_node _ rfl hp.1.1, hns, Stream.prepend_prepend]

end

theorem scan_render (n : Node) (h : n.isText = false) (hp : n.plain = true) :
    scan n.render = { events := n.events, fault := none } := by
  have hscan := scan_node n h hp []
  rw [List.append_nil] at hscan
  rw [scan, hscan, scanFrom]
  simp only [Stream.prepend, flush, if_true, List.append_nil]

/-- Unescaping never lengthens a text; a reference being read counts with its
    ampersand. -/
theorem unescape_len (st : Option Text) (t u : Text) (h : unescape st t = some u) :
    Text.utf8Len u ≤ Text.utf8Len t + match st with
      | none => 0
      | some name => Text.utf8Len name + 1 := by
  -- What is read of a reference counts as pending, with its ampersand.
  induction t generalizing st u with
  | nil =>
      cases st with
      | none => cases h; exact Nat.le_refl _
      | some name => cases h
  | cons c cs ih =>
      have hc := Char.utf8Size_pos c
      cases st with
      | none =>
          rw [unescape] at h
          split_ifs at h with hamp
          · have := ih _ _ h
            subst hamp
            simp only [Text.utf8Len_cons, Text.utf8Len_nil] at this ⊢
            omega
          · rw [Option.map_eq_some_iff] at h
            rcases h with ⟨v, hv, rfl⟩
            have := ih _ _ hv
            simp only [Text.utf8Len_cons] at this ⊢
            omega
      | some name =>
          rw [unescape] at h
          split_ifs at h with hsemi
          · cases hr : resolvePredefinedEntity name with
            | none => rw [hr] at h; cases h
            | some r =>
                rw [hr] at h
                simp only [Option.map_eq_some_iff] at h
                rcases h with ⟨v, hv, rfl⟩
                have := ih _ _ hv
                -- A reference that is known stands for one character.
                have hrlen : Text.utf8Len r = 1 := by
                  unfold resolvePredefinedEntity at hr
                  split_ifs at hr <;> cases hr <;> decide
                simp only [Text.utf8Len_cons, Text.utf8Len_append] at this ⊢
                omega
          · have := ih _ _ h
            simp only [Text.utf8Len_cons, Text.utf8Len_append, Text.utf8Len_nil] at this ⊢
            omega

/-- What an attribute scan has already consumed. -/
def AttrState.pending : AttrState → Nat
  | .between => 0
  | .key k => Text.utf8Len k
  | .afterEq k => Text.utf8Len k + 1
  | .value k v => Text.utf8Len k + 2 + Text.utf8Len v

theorem parseAttrs_size (st : AttrState) (t : Text) :
    ((parseAttrs st t).map Attr.size).sum ≤ Text.utf8Len t + st.pending := by
  -- Every character goes into what is pending, or ends an attribute.
  induction t generalizing st with
  | nil => cases st <;> simp only [parseAttrs, List.map_nil, List.sum_nil, Nat.zero_le]
  | cons c cs ih =>
      have hc := Char.utf8Size_pos c
      rw [Text.utf8Len_cons]
      cases st with
      | between =>
          rw [parseAttrs]
          split_ifs
          · have := ih .between
            simp only [AttrState.pending] at this ⊢
            omega
          · have := ih (.key [c])
            simp only [AttrState.pending, Text.utf8Len_cons, Text.utf8Len_nil] at this ⊢
            omega
      | key k =>
          rw [parseAttrs]
          split_ifs
          · have := ih (.afterEq k)
            simp only [AttrState.pending] at this ⊢
            omega
          · have := ih (.key (k ++ [c]))
            simp only [AttrState.pending, Text.utf8Len_append, Text.utf8Len_cons,
              Text.utf8Len_nil] at this ⊢
            omega
      | afterEq k =>
          rw [parseAttrs]
          split_ifs
          · have := ih (.value k [])
            simp only [AttrState.pending, Text.utf8Len_nil] at this ⊢
            omega
          · simp only [List.map_nil, List.sum_nil, Nat.zero_le]
      | value k v =>
          rw [parseAttrs]
          split_ifs
          · have := ih .between
            -- A value never gets longer by unescaping.
            cases hu : unescape none v with
            | none =>
                simp only [List.map_cons, List.sum_cons, Attr.size, String.toList_ofList,
                  AttrState.pending] at this ⊢
                omega
            | some u =>
                have hlen := unescape_len none v u hu
                simp only [List.map_cons, List.sum_cons, Attr.size, String.toList_ofList,
                  AttrState.pending] at this hlen ⊢
                omega
          · have := ih (.value k (v ++ [c]))
            simp only [AttrState.pending, Text.utf8Len_append, Text.utf8Len_cons,
              Text.utf8Len_nil] at this ⊢
            omega

theorem parseTag_size (t : Text) : (parseTag t).size ≤ Text.utf8Len t + 2 := by
  -- Name and attributes of a tag are two parts of its body.
  have hbody : ∀ body : Text, Text.utf8Len (body.takeWhile (· ≠ ' '))
      + ((parseAttrs .between (body.dropWhile (· ≠ ' '))).map Attr.size).sum
        ≤ Text.utf8Len body := by
    intro body
    have hsize := parseAttrs_size .between (body.dropWhile (· ≠ ' '))
    have hsplit := congrArg Text.utf8Len (List.takeWhile_append_dropWhile (p := (· ≠ ' ')) (l := body))
    rw [Text.utf8Len_append] at hsplit
    simp only [AttrState.pending] at hsize
    omega
  by_cases hslash : ∃ name, t = '/' :: name
  · rcases hslash with ⟨name, rfl⟩
    have := Char.utf8Size_pos '/'
    simp only [parseTag, Event.size, String.toList_ofList, Text.utf8Len_cons]
    omega
  · rw [parseTag]
    · by_cases hlast : t.getLast? = some '/'
      · have hlen : Text.utf8Len t.dropLast + 1 = Text.utf8Len t := by
          have hsplit := congrArg Text.utf8Len (List.dropLast_append_getLast? '/' hlast)
          rw [Text.utf8Len_append] at hsplit
          exact hsplit
        have := hbody t.dropLast
        simp only [hlast, if_true, Event.size, String.toList_ofList]
        omega
      · have := hbody t
        simp only [hlast, if_false, Event.size, String.toList_ofList]
        omega
    · exact fun name hname => hslash ⟨name, hname⟩

theorem flush_size (acc : Text) : sizeSum (flush acc) = Text.utf8Len acc := by
  unfold flush
  split_ifs with h
  · rw [h]
    rfl
  · simp only [sizeSum_cons, sizeSum_nil, Event.size, Nat.add_zero]

/-- What the scanner has consumed without an event for it yet. -/
def ScanState.pending : ScanState → Nat
  | .content acc => Text.utf8Len acc
  | .reference acc => Text.utf8Len acc + 1
  | .markup acc => Text.utf8Len acc + 1

theorem scanFrom_size (st : ScanState) (t : Text) :
    sizeSum (scanFrom st t).events ≤ Text.utf8Len t + st.pending := by
  -- Every character goes into what is pending, or completes an event.
  induction t generalizing st with
  | nil =>
      cases st with
      | content acc =>
          simp only [scanFrom, flush_size, ScanState.pending]
          omega
      | reference acc => simp only [scanFrom, sizeSum_nil, Nat.zero_le]
      | markup acc => simp only [scanFrom, sizeSum_nil, Nat.zero_le]
  | cons c cs ih =>
      have hc := Char.utf8Size_pos c
      rw [Text.utf8Len_cons]
      cases st with
      | content acc =>
          rw [scanFrom]
          split_ifs
          · have := ih (.markup [])
            simp only [Stream.prepend, sizeSum_append, flush_size, ScanState.pending,
              Text.utf8Len_nil] at this ⊢
            omega
          · have := ih (.reference [])
            simp only [Stream.prepend, sizeSum_append, flush_size, ScanState.pending,
              Text.utf8Len_nil] at this ⊢
            omega
          · have := ih (.content (acc ++ [c]))
            simp only [ScanState.pending, Text.utf8Len_append, Text.utf8Len_cons,
              Text.utf8Len_nil] at this ⊢
            omega
      | reference acc =>
          rw [scanFrom]
          split_ifs
          · have := ih (.content [])
            simp only [Stream.prepend, sizeSum_append, sizeSum_cons, sizeSum_nil, Event.size,
              ScanState.pending, Text.utf8Len_nil] at this ⊢
            omega
          · have := ih (.reference (acc ++ [c]))
            simp only [ScanState.pending, Text.utf8Len_append, Text.utf8Len_cons,
              Text.utf8Len_nil] at this ⊢
            omega
      | markup acc =>
          rw [scanFrom]
          split_ifs
          · have := ih (.content [])
            have htag := parseTag_size acc
            simp only [Stream.prepend, sizeSum_append, sizeSum_cons, sizeSum_nil,
              ScanState.pending, Text.utf8Len_nil] at this ⊢
            omega
          · have := ih (.markup (acc ++ [c]))
            simp only [ScanState.pending, Text.utf8Len_append, Text.utf8Len_cons,
              Text.utf8Len_nil] at this ⊢
            omega

theorem scan_size (doc : Text) : sizeSum (scan doc).events ≤ Text.utf8Len doc := by
  have h := scanFrom_size (.content []) doc
  rw [ScanState.pending, Text.utf8Len_nil, Nat.add_zero] at h
  exact h

theorem scan_lawful : Reader.Lawful scan where
  read_render := scan_render
  size_le := scan_size

end Xml

end Psrp

import Psrp.Core.OutOfProc.PacketReader
import Psrp.Theory.OutOfProc.Lines

/-!
# The Reference Splitter

What the line splitter computes, said about the stream and not about the
pushes: cut at every line feed, go through the lines in turn, and stop at the
first one that is too long or no UTF-8 (`reference`). Pushes only ever keep a
part of a line that still fits, so whatever the chunks, the splitter gives the
lines of the reference and fails where it fails (`feed_eq_reference`).

A line feed may have a carriage return before it. The splitter measures a line
before it takes that away, so the longest line that is accepted is one byte
shorter with the carriage return than without (`terminators_iff`).

## Main definitions

* `referenceLine`, `reference`: The splitter on a whole stream.
* `feed`: The pushes of a stream, up to the first error.
* `Outcome`: The lines of a stream, and whether an error follows.
* `terminated`: Lines with a terminator behind each.
* `Longest`: A longest line comes to be read.

## Theorems

* `feed_eq_push`: Chunks are cut like the whole stream.
* `outcome_eq_reference`: The splitter is the reference.
* `line_splitter_reference`, `terminators_iff`: What follows for every chunking.
-/

namespace Psrp

namespace OutOfProc

/-- The text of a line that ends in a line feed, unless it is an error. One
    carriage return before the line feed is no part of it. -/
def referenceLine (first : Bool) (line : Bytes) : Option Text :=
  if MAX_LINE_BYTES < line.length then none
  else match Text.fromUtf8 (if line.getLast? = some 0x0D then line.dropLast else line) with
    | .error _ => none
    | .ok text => some (if first && text.head? == some '\uFEFF' then text.tail else text)

/-- The lines of a stream that is cut at its line feeds, the last piece being
    its tail, and whether an error follows them. -/
def reference : Bool → List Bytes → List Text × Bool
  | _, [] => ([], false)
  | _, [tail] => ([], decide (MAX_LINE_BYTES < tail.length))
  | first, line :: rest =>
    match referenceLine first line with
    | none => ([], true)
    | some text => (text :: (reference false rest).1, (reference false rest).2)

/-- Push chunk after chunk, up to the first error. -/
def feed (p : PacketPlatform) : List Bytes → LineSplitter → (List Text × Option PsrpError) × LineSplitter
  | [], s => (([], none), s)
  | chunk :: chunks, s =>
    match s.push p chunk with
    | ((lines, some e), s) => ((lines, some e), s)
    | ((lines, none), s) =>
      let ((more, e), s) := feed p chunks s
      ((lines ++ more, e), s)

/-- The lines that a new splitter gives for a stream in chunks, and whether an
    error follows them. -/
def outcome (p : PacketPlatform) (chunks : List Bytes) : List Text × Bool :=
  ((feed p chunks .new).1.1, (feed p chunks .new).1.2.isSome)

theorem referenceLine_eq (first : Bool) (line : Bytes) :
    referenceLine first line = if MAX_LINE_BYTES < line.length then none
      else match Text.fromUtf8 (stripCr line) with
        | .error _ => none
        | .ok text => some (if first && text.head? == some '\uFEFF' then text.tail else text) := rfl

namespace LineSplitter

variable {p : PacketPlatform} {s : LineSplitter}

theorem finishLine_buf (line : Bytes) (s : LineSplitter) : (s.finishLine p line).2.buf = s.buf := by
  unfold finishLine
  split
  · rfl
  · cases hutf : Text.fromUtf8 (stripCr line) with
    | error e => simp only [hutf]
    | ok text => simp only [hutf]

/-- What is kept of a line fits, whatever becomes of the line. -/
theorem endLine_keeps (head : Bytes) (h : s.buf.length ≤ MAX_LINE_BYTES) :
    (s.endLine p head).2.buf.length ≤ MAX_LINE_BYTES := by
  unfold endLine
  split
  · rw [finishLine_buf]
    exact h
  · split
    · exact h
    · rw [finishLine_buf]
      exact Nat.zero_le _

theorem push_keeps (bytes : Bytes) (h : s.buf.length ≤ MAX_LINE_BYTES) :
    (s.push p bytes).2.buf.length ≤ MAX_LINE_BYTES := by
  unfold push
  rcases cutAtNewlines bytes with ⟨heads, tail⟩
  simp only []
  induction heads generalizing s with
  | nil =>
      unfold pushParts
      split
      · exact h
      · rename_i hfits
        rw [List.length_append]
        exact Nat.le_of_not_lt hfits
  | cons head heads ih =>
      have hkeeps := endLine_keeps (p := p) head h
      unfold pushParts
      rcases hend : s.endLine p head with ⟨r, t⟩
      rw [hend] at hkeeps
      cases r with
      | error e => exact hkeeps
      | ok line => exact ih hkeeps

end LineSplitter

variable {p : PacketPlatform}

theorem feed_keeps (chunks : List Bytes) {s : LineSplitter} (h : s.buf.length ≤ MAX_LINE_BYTES) :
    (feed p chunks s).2.buf.length ≤ MAX_LINE_BYTES := by
  induction chunks generalizing s with
  | nil => exact h
  | cons chunk chunks ih =>
      have hkeeps := LineSplitter.push_keeps (p := p) chunk h
      unfold feed
      rcases hpush : s.push p chunk with ⟨⟨lines, e⟩, t⟩
      rw [hpush] at hkeeps
      cases e with
      | some e => exact hkeeps
      | none => exact ih hkeeps

/-- Chunks are cut like the stream they make up. -/
theorem feed_eq_push (chunks : List Bytes) {s : LineSplitter}
    (h : s.buf.length ≤ MAX_LINE_BYTES) : (feed p chunks s).1 = (s.push p chunks.flatten).1 := by
  induction chunks generalizing s with
  | nil =>
      have hfits : ¬ MAX_LINE_BYTES < s.buf.length + ([] : Bytes).length := Nat.not_lt.mpr h
      have hpush : s.push p [] = if MAX_LINE_BYTES < s.buf.length + ([] : Bytes).length
          then (([], some tooLong), s) else (([], none), { s with buf := s.buf ++ [] }) := rfl
      rw [feed, List.flatten_nil, hpush, if_neg hfits]
  | cons chunk chunks ih =>
      have hkeeps := LineSplitter.push_keeps (p := p) chunk h
      rw [feed, List.flatten_cons, (LineSplitter.push_append chunk chunks.flatten s).1]
      rcases hpush : s.push p chunk with ⟨⟨lines, e⟩, t⟩
      rw [hpush] at hkeeps
      cases e with
      | some e => rfl
      | none =>
          simp only [← ih hkeeps]

theorem cutAtNewlines_eq (bs : Bytes) :
    (cutAtNewlines bs).1 ++ [(cutAtNewlines bs).2] = List.splitOn 0x0A bs := by
  induction bs with
  | nil => rfl
  | cons b bs ih =>
      rw [List.splitOn_cons_eq_if_modifyHead, ← ih, cutAtNewlines]
      rcases cutAtNewlines bs with ⟨heads, tail⟩
      by_cases hb : b = 0x0A
      · simp only [if_pos hb, if_pos (beq_iff_eq.mpr hb)]
        rfl
      · simp only [if_neg hb, if_neg (fun h => hb (eq_of_beq h))]
        rcases heads with _ | ⟨head, heads⟩
        · rfl
        · rfl

/-- A line that arrives whole is the line of the reference. -/
theorem finishLine_reference (line : Bytes) (s : LineSplitter) :
    (referenceLine (!s.seenFirstLine) line = none ∧ ∃ e, (s.finishLine p line).1 = .error e) ∨
    ∃ text, referenceLine (!s.seenFirstLine) line = some text ∧
      s.finishLine p line = (.ok text, { s with seenFirstLine := true }) := by
  by_cases hlong : MAX_LINE_BYTES < line.length
  · exact .inl ⟨if_pos hlong, tooLong, by rw [LineSplitter.finishLine, if_pos hlong]⟩
  · cases hutf : Text.fromUtf8 (stripCr line) with
    | error e =>
        refine .inl ⟨by rw [referenceLine_eq, if_neg hlong, hutf], ?_⟩
        rcases LineSplitter.finishLine_cases (p := p) line s with ⟨text, htext, -⟩ | ⟨e, -, he⟩
        · rw [LineSplitter.lineText, LineSplitter.finishLine, if_neg hlong] at htext
          simp only [hutf] at htext
          cases htext
        · exact ⟨e, he⟩
    | ok text =>
        refine .inr ⟨if (!s.seenFirstLine) && text.head? == some '\uFEFF' then text.tail else text,
          ?_, ?_⟩
        · rw [referenceLine_eq, if_neg hlong, hutf]
        · rw [LineSplitter.finishLine, if_neg hlong]
          simp only [hutf]
          -- The mark is looked for in the first line only.
          rcases s.seenFirstLine with _ | _
          · simp
          · rfl

/-- A push on a splitter that keeps nothing is the reference. -/
theorem pushParts_reference (tail : Bytes) (heads : List Bytes) {s : LineSplitter}
    (h : s.buf = []) :
    ((s.pushParts p tail heads).1.1, (s.pushParts p tail heads).1.2.isSome)
      = reference (!s.seenFirstLine) (heads ++ [tail]) := by
  induction heads generalizing s with
  | nil =>
      have hreference : reference (!s.seenFirstLine) ([] ++ [tail])
          = ([], decide (MAX_LINE_BYTES < tail.length)) := rfl
      unfold LineSplitter.pushParts
      rw [h, List.length_nil, Nat.zero_add, hreference]
      -- What is not ended yet is a line that may be too long already.
      by_cases hlong : MAX_LINE_BYTES < tail.length
      · rw [if_pos hlong, decide_eq_true hlong]
        rfl
      · rw [if_neg hlong, decide_eq_false hlong]
        rfl
  | cons head heads ih =>
      have hrest : ∀ first, reference first (head :: heads ++ [tail])
          = match referenceLine first head with
            | none => ([], true)
            | some text => (text :: (reference false (heads ++ [tail])).1,
                (reference false (heads ++ [tail])).2) := by
        intro first
        rcases heads with _ | ⟨head', heads⟩
        · rfl
        · rfl
      rw [hrest]
      unfold LineSplitter.pushParts
      -- The first part ends the line that was begun.
      have hend : s.endLine p head = s.finishLine p head := if_pos h
      rw [hend]
      rcases finishLine_reference (p := p) head s with ⟨hnone, e, he⟩ | ⟨text, hsome, htext⟩
      · rw [hnone]
        rcases hfinish : s.finishLine p head with ⟨r, t⟩
        rw [hfinish] at he
        cases he
        rfl
      · rw [hsome, htext]
        have hih := ih (s := { s with seenFirstLine := true }) h
        simp only [Bool.not_true] at hih
        simp only [← hih]

/-- Under every chunking, the splitter is the reference. -/
theorem outcome_eq_reference (p : PacketPlatform) (chunks : List Bytes) :
    outcome p chunks = reference true (List.splitOn 0x0A chunks.flatten) := by
  have hpush := pushParts_reference (p := p) (cutAtNewlines chunks.flatten).2
    (cutAtNewlines chunks.flatten).1 (s := .new) rfl
  rw [cutAtNewlines_eq] at hpush
  rw [outcome, feed_eq_push chunks (Nat.zero_le _)]
  exact hpush

/-- The splitter gives the lines of the reference on the whole stream and fails
    where the reference does, whatever the chunks; and what it keeps of a line
    is never longer than a line may be. -/
theorem line_splitter_reference (p : PacketPlatform) (chunks : List Bytes) :
    outcome p chunks = reference true (List.splitOn 0x0A chunks.flatten) ∧
    (feed p chunks .new).2.buf.length ≤ MAX_LINE_BYTES :=
  ⟨outcome_eq_reference p chunks, feed_keeps chunks (Nat.zero_le _)⟩

/-- Lines with a terminator behind each. -/
def terminated (terminator : Bytes) (ls : List Bytes) : Bytes := ls.flatMap (· ++ terminator)

/-- A line that can be read, if its carriage return is not counted. -/
def Readable (line : Bytes) : Prop :=
  line.length ≤ MAX_LINE_BYTES ∧ ∃ text, Text.fromUtf8 line = .ok text

/-- A line of exactly the length that is accepted comes to be read. -/
def Longest (ls : List Bytes) : Prop :=
  ∃ before line after, ls = before ++ line :: after ∧ (∀ l ∈ before, Readable l) ∧
    Readable line ∧ line.length = MAX_LINE_BYTES

theorem longest_cons {line : Bytes} {ls : List Bytes} :
    Longest (line :: ls) ↔ Readable line ∧ (line.length = MAX_LINE_BYTES ∨ Longest ls) := by
  constructor
  · rintro ⟨before, l, after, heq, hbefore, hl, hlen⟩
    rcases before with _ | ⟨b, before⟩
    · cases heq
      exact ⟨hl, .inl hlen⟩
    · cases heq
      refine ⟨hbefore _ List.mem_cons_self, .inr ⟨before, l, after, rfl, ?_, hl, hlen⟩⟩
      exact fun l hl => hbefore l (List.mem_cons_of_mem _ hl)
  · rintro ⟨hline, hlen | ⟨before, l, after, rfl, hbefore, hl, hlen⟩⟩
    · exact ⟨[], line, ls, rfl, fun l hl => absurd hl List.not_mem_nil, hline, hlen⟩
    · exact ⟨line :: before, l, after, rfl, List.forall_mem_cons.mpr ⟨hline, hbefore⟩, hl, hlen⟩

/-- Terminated lines are cut into the lines, with the terminator but for its line
    feed, and nothing after. -/
theorem splitOn_terminated (front : Bytes) (hfront : 0x0A ∉ front) (ls : List Bytes)
    (h : ∀ l ∈ ls, 0x0A ∉ l) :
    List.splitOn 0x0A (terminated (front ++ [0x0A]) ls) = ls.map (· ++ front) ++ [[]] := by
  induction ls with
  | nil => rfl
  | cons l ls ih =>
      have hline : 0x0A ∉ l ++ front := by
        rw [List.mem_append, not_or]
        exact ⟨h l List.mem_cons_self, hfront⟩
      have hsplit : terminated (front ++ [0x0A]) (l :: ls)
          = (l ++ front) ++ 0x0A :: terminated (front ++ [0x0A]) ls := by
        rw [terminated, List.flatMap_cons]
        simp only [List.append_assoc, List.cons_append]
        rfl
      rw [hsplit, List.splitOn_append_cons_self_of_not_mem hline,
        ih fun l hl => h l (List.mem_cons_of_mem _ hl)]
      rfl

theorem reference_cons (first : Bool) (line : Bytes) (ls : List Bytes) :
    reference first (line :: ls ++ [[]])
      = match referenceLine first line with
        | none => ([], true)
        | some text => (text :: (reference false (ls ++ [[]])).1,
            (reference false (ls ++ [[]])).2) := by
  rcases ls with _ | ⟨l, ls⟩
  · rfl
  · rfl

theorem stripCr_append (line : Bytes) : stripCr (line ++ [0x0D]) = line := by
  rw [stripCr, if_pos List.getLast?_concat, List.dropLast_concat]

/-- A carriage return makes a difference to no line that is shorter than a line
    may be. -/
theorem referenceLine_cr (first : Bool) {line : Bytes} (h : line.getLast? ≠ some 0x0D)
    (hlen : line.length ≠ MAX_LINE_BYTES) :
    referenceLine first (line ++ [0x0D]) = referenceLine first line := by
  have hlong : MAX_LINE_BYTES < (line ++ [0x0D]).length ↔ MAX_LINE_BYTES < line.length := by
    rw [List.length_append, List.length_singleton]
    omega
  rw [referenceLine_eq, referenceLine_eq, stripCr_append, stripCr, if_neg h]
  simp only [hlong]

theorem referenceLine_eq_none (first : Bool) {line : Bytes} (h : line.getLast? ≠ some 0x0D) :
    referenceLine first line = none ↔ ¬ Readable line := by
  rw [referenceLine_eq, Readable, stripCr, if_neg h]
  by_cases hlong : MAX_LINE_BYTES < line.length
  · rw [if_pos hlong]
    exact iff_of_true rfl fun hreadable => absurd hlong (Nat.not_lt.mpr hreadable.1)
  · rw [if_neg hlong]
    rcases hutf : Text.fromUtf8 line with e | text
    · simp
    · simp [Nat.le_of_not_lt hlong]

/-- The two terminators make a difference exactly where a longest line is read. -/
theorem reference_terminators (first : Bool) (ls : List Bytes)
    (h : ∀ l ∈ ls, l.getLast? ≠ some 0x0D) :
    reference first (ls ++ [[]]) = reference first (ls.map (· ++ [0x0D]) ++ [[]]) ↔ ¬ Longest ls := by
  induction ls generalizing first with
  | nil =>
      refine iff_of_true rfl ?_
      rintro ⟨before, line, after, heq, -⟩
      exact List.append_ne_nil_of_right_ne_nil before (List.cons_ne_nil line after) heq.symm
  | cons line ls ih =>
      have hline := h line List.mem_cons_self
      have hrest := fun first => ih first fun l hl => h l (List.mem_cons_of_mem _ hl)
      rw [List.map_cons, reference_cons, reference_cons, longest_cons]
      by_cases hreadable : Readable line
      · by_cases hlen : line.length = MAX_LINE_BYTES
        · -- The line is read without the carriage return and refused with it.
          have hlong : referenceLine first (line ++ [0x0D]) = none := by
            refine if_pos ?_
            rw [List.length_append, List.length_singleton, hlen]
            exact Nat.lt_succ_self _
          rcases htext : referenceLine first line with _ | text
          · exact absurd hreadable ((referenceLine_eq_none first hline).mp htext)
          · rw [hlong]
            refine iff_of_false (fun heq => ?_) (fun hnot => hnot ⟨hreadable, .inl hlen⟩)
            cases heq
        · rw [referenceLine_cr first hline hlen]
          rcases htext : referenceLine first line with _ | text
          · exact absurd hreadable ((referenceLine_eq_none first hline).mp htext)
          · simp only [hreadable, hlen, true_and, false_or, ← hrest false, List.cons.injEq,
              Prod.ext_iff]
      · -- Both stop here.
        have hnone := (referenceLine_eq_none first hline).mpr hreadable
        have hnone' : referenceLine first (line ++ [0x0D]) = none := by
          by_cases hlen : line.length = MAX_LINE_BYTES
          · refine if_pos ?_
            rw [List.length_append, List.length_singleton, hlen]
            exact Nat.lt_succ_self _
          · rw [referenceLine_cr first hline hlen, hnone]
        rw [hnone, hnone']
        exact iff_of_true rfl fun hlongest => hreadable hlongest.1

/-- The outcome of terminated lines. -/
theorem outcome_terminated (p : PacketPlatform) (front : Bytes) (hfront : 0x0A ∉ front)
    {ls chunks : List Bytes} (h : ∀ l ∈ ls, 0x0A ∉ l)
    (hchunks : chunks.flatten = terminated (front ++ [0x0A]) ls) :
    outcome p chunks = reference true (ls.map (· ++ front) ++ [[]]) := by
  rw [outcome_eq_reference, hchunks, splitOn_terminated front hfront ls h]

theorem outcome_lf (p : PacketPlatform) {ls chunks : List Bytes} (h : ∀ l ∈ ls, 0x0A ∉ l)
    (hchunks : chunks.flatten = terminated [0x0A] ls) :
    outcome p chunks = reference true (ls ++ [[]]) := by
  have hlf := outcome_terminated p [] List.not_mem_nil h hchunks
  simpa only [List.append_nil, List.map_id'] using hlf

theorem outcome_crlf (p : PacketPlatform) {ls chunks : List Bytes} (h : ∀ l ∈ ls, 0x0A ∉ l)
    (hchunks : chunks.flatten = terminated [0x0D, 0x0A] ls) :
    outcome p chunks = reference true (ls.map (· ++ [0x0D]) ++ [[]]) :=
  outcome_terminated p [0x0D] (by decide) h hchunks

/-- Line feeds and carriage returns with line feeds end the same lines, unless a
    line of exactly the length that is accepted comes to be read. -/
theorem terminators_iff (p : PacketPlatform) (ls : List Bytes)
    (h : ∀ l ∈ ls, 0x0A ∉ l ∧ l.getLast? ≠ some 0x0D) (chunks chunks' : List Bytes)
    (hlf : chunks.flatten = terminated [0x0A] ls)
    (hcrlf : chunks'.flatten = terminated [0x0D, 0x0A] ls) :
    outcome p chunks = outcome p chunks' ↔ ¬ Longest ls := by
  rw [outcome_lf p (fun l hl => (h l hl).1) hlf, outcome_crlf p (fun l hl => (h l hl).1) hcrlf]
  exact reference_terminators true ls fun l hl => (h l hl).2

/-- Some lines, one of them empty and one that is not text. -/
def severalLines : List Bytes := [[0x61], [], [0x62, 0x63], [0xFF], [0x64]]

/-- They are read up to the one that is not text, whole and byte by byte. -/
theorem terminators_iff_short :
    let whole := [terminated [0x0A] severalLines]
    let single := (terminated [0x0D, 0x0A] severalLines).map fun b => [b]
    outcome .basic whole = outcome .basic single
      ∧ outcome .basic single = ([['a'], [], ['b', 'c']], true) := by
  intro whole single
  refine ⟨(terminators_iff .basic severalLines (by decide) whole single rfl rfl).mpr ?_,
    by decide +kernel⟩
  have hshort : ∀ l ∈ severalLines, l.length ≠ MAX_LINE_BYTES := by decide
  rintro ⟨before, line, after, heq, _, _, hlength⟩
  refine hshort line ?_ hlength
  rw [heq]
  exact List.mem_append_right before List.mem_cons_self

theorem toUtf8_replicate (n : Nat) :
    Text.toUtf8 (List.replicate n 'a') = List.replicate n 0x61 := by
  induction n with
  | zero => rfl
  | succ n ih =>
      rw [List.replicate_succ, List.replicate_succ, Text.toUtf8_cons, ih]
      rfl

/-- The longest line that is accepted is refused with a carriage return. -/
theorem terminators_differ :
    ¬ ∀ (p : PacketPlatform) (ls : List Bytes),
      (∀ l ∈ ls, 0x0A ∉ l ∧ l.getLast? ≠ some 0x0D) → ∀ chunks chunks' : List Bytes,
      chunks.flatten = terminated [0x0A] ls → chunks'.flatten = terminated [0x0D, 0x0A] ls →
      outcome p chunks = outcome p chunks' := by
  intro h
  have hline : ∀ l ∈ [List.replicate MAX_LINE_BYTES (0x61 : UInt8)],
      0x0A ∉ l ∧ l.getLast? ≠ some 0x0D := by
    intro l hl
    rw [List.mem_singleton.mp hl]
    have hbyte : ∀ b ∈ List.replicate MAX_LINE_BYTES (0x61 : UInt8), b = 0x61 :=
      fun b hb => List.eq_of_mem_replicate hb
    refine ⟨fun hmem => ?_, fun hlast => ?_⟩
    · exact absurd (hbyte _ hmem) (by decide)
    · exact absurd (hbyte _ (List.mem_of_getLast? hlast)) (by decide)
  have heq := h .basic _ hline [_] [_] List.flatten_singleton List.flatten_singleton
  rw [outcome_lf .basic (fun l hl => (hline l hl).1) List.flatten_singleton,
    outcome_crlf .basic (fun l hl => (hline l hl).1) List.flatten_singleton,
    reference_terminators true _ fun l hl => (hline l hl).2] at heq
  refine heq ⟨[], _, [], rfl, fun l hl => absurd hl List.not_mem_nil, ⟨?_, ?_⟩, ?_⟩
  · exact Nat.le_of_eq (List.length_replicate)
  · exact ⟨_, toUtf8_replicate MAX_LINE_BYTES ▸ Text.fromUtf8_toUtf8 _⟩
  · exact List.length_replicate

end OutOfProc

end Psrp

import Psrp.Core.OutOfProc.Packet

/-!
# Lines in Any Chunks

Cutting a stream into lines does not depend on the chunks it comes in.

A push cuts its chunk at the line feeds and goes through the parts. Cutting
two chunks in a row cuts the same parts, except that the last of the first
chunk and the first of the second are one (`cutAtNewlines_append`); and a line
that is put together from two pieces ends the way the whole line does
(`endLine_pushed`).

## Theorems

* `LineSplitter.push_append`: Two chunks are cut like one.
-/

namespace Psrp

namespace OutOfProc

/-- Two chunks in a row share the part in the middle. -/
theorem cutAtNewlines_append (a b : Bytes) :
    cutAtNewlines (a ++ b) = match (cutAtNewlines b).1 with
      | [] => ((cutAtNewlines a).1, (cutAtNewlines a).2 ++ (cutAtNewlines b).2)
      | head :: heads =>
        ((cutAtNewlines a).1 ++ ((cutAtNewlines a).2 ++ head) :: heads, (cutAtNewlines b).2) := by
  induction a with
  | nil =>
      rw [List.nil_append, cutAtNewlines]
      rcases cutAtNewlines b with ⟨heads, tail⟩
      cases heads <;> rfl
  | cons x a ih =>
      rw [List.cons_append, cutAtNewlines, ih, cutAtNewlines]
      rcases cutAtNewlines b with ⟨bheads, btail⟩
      rcases cutAtNewlines a with ⟨aheads, atail⟩
      by_cases hx : x = 0x0A
      · simp only [hx, if_true]
        cases bheads <;> rfl
      · simp only [if_neg hx]
        cases bheads with
        | nil => cases aheads <;> rfl
        | cons head heads => cases aheads <;> rfl

namespace LineSplitter

variable {p : PacketPlatform} {s t : LineSplitter}

/-- The lines that end with each of some parts. -/
def pushHeads (p : PacketPlatform) :
    List Bytes → LineSplitter → (List Text × Option PsrpError) × LineSplitter
  | [], s => (([], none), s)
  | head :: heads, s =>
    match s.endLine p head with
    | (.error e, s) => (([], some e), s)
    | (.ok line, s) =>
      let ((lines, e), s) := pushHeads p heads s
      ((line :: lines, e), s)

/-- A push goes through the finished lines first. -/
theorem pushParts_eq (tail : Bytes) (heads : List Bytes) (s : LineSplitter) :
    s.pushParts p tail heads = match s.pushHeads p heads with
      | ((lines, some e), t) => ((lines, some e), t)
      | ((lines, none), t) =>
        if MAX_LINE_BYTES < t.buf.length + tail.length then ((lines, some tooLong), t)
        else ((lines, none), { t with buf := t.buf ++ tail }) := by
  induction heads generalizing s with
  | nil => rfl
  | cons head heads ih =>
      unfold pushParts pushHeads
      rcases hend : endLine p head s with ⟨r, t⟩
      cases r with
      | error e => rfl
      | ok line =>
          simp only [ih]
          rcases pushHeads p heads t with ⟨⟨lines, e⟩, u⟩
          cases e with
          | some e => rfl
          | none =>
              simp only []
              split <;> rfl

theorem pushHeads_append (heads heads' : List Bytes) (s : LineSplitter) :
    s.pushHeads p (heads ++ heads') = match s.pushHeads p heads with
      | ((lines, some e), t) => ((lines, some e), t)
      | ((lines, none), t) => ((lines ++ (t.pushHeads p heads').1.1, (t.pushHeads p heads').1.2),
        (t.pushHeads p heads').2) := by
  induction heads generalizing s with
  | nil => rfl
  | cons head heads ih =>
      rw [List.cons_append, pushHeads, pushHeads]
      rcases s.endLine p head with ⟨line, t⟩
      cases line with
      | error e => rfl
      | ok line =>
          simp only [ih]
          rcases pushHeads p heads t with ⟨⟨lines, e⟩, u⟩
          cases e <;> rfl

/-- The text of a line: not too long, UTF-8 but for a carriage return, and
    without the byte order mark that may open the first. -/
def lineText (p : PacketPlatform) (seenFirstLine : Bool) (line : Bytes) : Except PsrpError Text :=
  (finishLine p line { buf := [], seenFirstLine }).1

theorem finishLine_cases (line : Bytes) (s : LineSplitter) :
    (∃ text, lineText p s.seenFirstLine line = .ok text
      ∧ s.finishLine p line = (.ok text, { s with seenFirstLine := true }))
    ∨ ∃ e, lineText p s.seenFirstLine line = .error e
      ∧ (s.finishLine p line).1 = .error e := by
  unfold lineText finishLine
  split
  · exact Or.inr ⟨_, rfl, rfl⟩
  · cases hutf : Text.fromUtf8 (stripCr line) with
    | error e =>
        simp only [hutf]
        exact Or.inr ⟨_, rfl, rfl⟩
    | ok text =>
        simp only [hutf]
        exact Or.inl ⟨_, rfl, rfl⟩

theorem lineText_tooLong (seenFirstLine : Bool) (line : Bytes) (h : MAX_LINE_BYTES < line.length) :
    lineText p seenFirstLine line = .error tooLong := by
  unfold lineText finishLine
  rw [if_pos h]

/-- A line ends the same way whatever part of it was kept before. -/
theorem endLine_cases (head : Bytes) (s : LineSplitter) :
    (∃ text, lineText p s.seenFirstLine (s.buf ++ head) = .ok text
      ∧ s.endLine p head = (.ok text, { buf := [], seenFirstLine := true }))
    ∨ ∃ e, lineText p s.seenFirstLine (s.buf ++ head) = .error e
      ∧ (s.endLine p head).1 = .error e := by
  unfold endLine
  by_cases hbuf : s.buf = []
  · rw [if_pos hbuf, hbuf, List.nil_append]
    rcases finishLine_cases (p := p) head s with ⟨text, htext, hline⟩ | h
    · exact Or.inl ⟨text, htext, by rw [hline, hbuf]⟩
    · exact Or.inr h
  · rw [if_neg hbuf]
    split
    · next hlong =>
        exact Or.inr ⟨_, lineText_tooLong _ _ (by rw [List.length_append]; exact hlong), rfl⟩
    · exact finishLine_cases (s.buf ++ head) { s with buf := [] }

/-- A part that goes on makes no difference to how its line ends. -/
theorem pushHeads_kept (piece head : Bytes) (heads : List Bytes) (s : LineSplitter) :
    (s.pushHeads p ((piece ++ head) :: heads)).1
        = (pushHeads p (head :: heads) { s with buf := s.buf ++ piece }).1
      ∧ ((s.pushHeads p ((piece ++ head) :: heads)).1.2 = none →
        s.pushHeads p ((piece ++ head) :: heads)
          = pushHeads p (head :: heads) { s with buf := s.buf ++ piece }) := by
  have hwhole := endLine_cases (p := p) (piece ++ head) s
  have hpieces := endLine_cases (p := p) head { s with buf := s.buf ++ piece }
  rw [← List.append_assoc] at hwhole
  simp only [pushHeads]
  rcases hwhole with ⟨text, htext, hline⟩ | ⟨e, htext, hline⟩
  · rcases hpieces with ⟨text', htext', hline'⟩ | ⟨e', htext', hline'⟩
    · rw [htext, Except.ok.injEq] at htext'
      rw [hline, hline', htext']
      exact ⟨rfl, fun _ => rfl⟩
    · rw [htext] at htext'
      cases htext'
  · rcases hpieces with ⟨text', htext', hline'⟩ | ⟨e', htext', hline'⟩
    · rw [htext] at htext'
      cases htext'
    · rw [htext, Except.error.injEq] at htext'
      rcases hend : s.endLine p (piece ++ head) with ⟨r, t⟩
      rcases hend' : endLine p head { s with buf := s.buf ++ piece } with ⟨r', t'⟩
      rw [hend] at hline
      rw [hend'] at hline'
      simp only [] at hline hline'
      rw [hline, hline', htext']
      exact ⟨rfl, fun h => by cases h⟩

/-- Two chunks in a row are cut like one. -/
theorem push_append (a b : Bytes) (s : LineSplitter) :
    (s.push p (a ++ b)).1 = (match s.push p a with
      | ((lines, some e), _) => (lines, some e)
      | ((lines, none), t) => (lines ++ (t.push p b).1.1, (t.push p b).1.2))
    ∧ ∀ lines t, s.push p a = ((lines, none), t) → (t.push p b).1.2 = none →
      s.push p (a ++ b) = ((lines ++ (t.push p b).1.1, none), (t.push p b).2) := by
  unfold push
  rw [cutAtNewlines_append]
  rcases cutAtNewlines a with ⟨aheads, atail⟩
  rcases cutAtNewlines b with ⟨bheads, btail⟩
  simp only [pushParts_eq]
  rcases hA : pushHeads p aheads s with ⟨⟨ls, e⟩, t⟩
  cases e with
  | some e =>
      -- The first chunk already has the line that is an error.
      have hstop : ∀ heads, s.pushHeads p (aheads ++ heads) = ((ls, some e), t) := by
        intro heads
        rw [pushHeads_append, hA]
      have hnil := hstop []
      rw [List.append_nil] at hnil
      cases bheads with
      | nil => exact ⟨by rw [hnil], fun _ _ h => by cases h⟩
      | cons head heads => exact ⟨by rw [hstop], fun _ _ h => by cases h⟩
  | none =>
      simp only []
      cases bheads with
      | nil =>
          -- The line goes on beyond both chunks.
          simp only [hA, pushHeads, List.length_append]
          by_cases ha : MAX_LINE_BYTES < t.buf.length + atail.length
          · rw [if_pos ha, if_pos (by omega)]
            exact ⟨rfl, fun _ _ h => by cases h⟩
          · rw [if_neg ha]
            by_cases hb : MAX_LINE_BYTES < t.buf.length + atail.length + btail.length
            · simp only [← Nat.add_assoc, hb, if_true, List.length_append, List.append_nil]
              refine ⟨trivial, fun lines u hu hnone => ?_⟩
              cases hu
              rw [List.length_append, if_pos hb] at hnone
              cases hnone
            · simp only [← Nat.add_assoc, hb, if_false, List.length_append, List.append_nil,
                List.append_assoc]
              refine ⟨trivial, fun lines u hu _ => ?_⟩
              cases hu
              rw [List.length_append, if_neg hb, List.append_assoc]
              simp only [List.append_nil]
      | cons head heads =>
          -- The line ends in the second chunk.
          have hkept := pushHeads_kept (p := p) atail head heads t
          simp only [pushHeads_append, hA]
          by_cases ha : MAX_LINE_BYTES < t.buf.length + atail.length
          · rw [if_pos ha]
            have hlong : t.pushHeads p ((atail ++ head) :: heads)
                = (([], some tooLong), (t.endLine p (atail ++ head)).2) := by
              have hend := endLine_cases (p := p) (atail ++ head) t
              have htext := lineText_tooLong (p := p) t.seenFirstLine (t.buf ++ (atail ++ head))
                (by rw [List.length_append, List.length_append]; omega)
              rcases hend with ⟨text, h, _⟩ | ⟨e, h, hend⟩
              · rw [htext] at h
                cases h
              · rw [htext, Except.error.injEq] at h
                rcases hline : t.endLine p (atail ++ head) with ⟨r, u⟩
                rw [hline] at hend
                simp only [] at hend
                rw [pushHeads, hline, hend, h]
            rw [hlong]
            exact ⟨by rw [List.append_nil], fun _ _ h => by cases h⟩
          · rw [if_neg ha]
            simp only []
            rcases hW : t.pushHeads p ((atail ++ head) :: heads) with ⟨⟨ws, e⟩, u⟩
            rcases hP : pushHeads p (head :: heads) { t with buf := t.buf ++ atail }
              with ⟨⟨ps, e'⟩, u'⟩
            rw [hW, hP] at hkept
            rcases hkept with ⟨heq, hsame⟩
            cases heq
            cases e with
            | some e =>
                refine ⟨rfl, fun lines v hv hnone => ?_⟩
                cases hv
                rw [hP] at hnone
                cases hnone
            | none =>
                cases hsame rfl
                simp only []
                refine ⟨by split <;> rfl, ?_⟩
                intro lines v hv hnone
                cases hv
                simp only [hP] at hnone ⊢
                split at hnone
                · cases hnone
                · next hb =>
                    simp only [if_neg hb]

end LineSplitter

end OutOfProc

end Psrp

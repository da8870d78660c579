import Psrp.Core.KnownHosts

/-!
# Lines and Fields of a `known_hosts` File

A `known_hosts` file is its fields, line by line. `fieldLines` reads them off
the text, and what stands between the fields leaves no trace in them: any gap
is as good as any other, and a line may end in `\r\n` (`Respaced`).

A scan from the end of the text (`scan`) is what the proofs go by, since it
looks at one character at a time: it keeps the field that the text begins
with, the further fields of its first line, and the fields of the lines after.

## Main definitions

* `fieldLines`: The fields of every line.
* `scan`: The same, one character at a time.
* `Respaced`: Texts that differ in their gaps and line ends only.

## Theorems

* `fieldLines_eq_scan`: The scan finds the fields.
* `Respaced.fieldLines_eq`: Gaps and line ends leave no trace.
-/

namespace Psrp

/-- The fields of every line, a last line that is not ended included. -/
def fieldLines (s : Text) : List (List Text) := (List.splitOn '\n' s).map splitAsciiWhitespace

/-- A field in front of others, if it is one. -/
def pushField (field : Text) (fields : List Text) : List Text :=
  if field = [] then fields else field :: fields

/-- The field that a text begins with, the further fields of its first line, and
    the fields of the lines after. -/
def scan : Text → Text × List Text × List (List Text)
  | [] => ([], [], [])
  | c :: s =>
    let (field, fields, rest) := scan s
    if c = '\n' then ([], [], pushField field fields :: rest)
    else if isAsciiWhitespace c then ([], pushField field fields, rest)
    else (c :: field, fields, rest)

theorem scan_cons (c : Char) (s : Text) : scan (c :: s)
    = if c = '\n' then ([], [], pushField (scan s).1 (scan s).2.1 :: (scan s).2.2)
      else if isAsciiWhitespace c then ([], pushField (scan s).1 (scan s).2.1, (scan s).2.2)
      else (c :: (scan s).1, (scan s).2.1, (scan s).2.2) := rfl

/-- A gap between fields. -/
def IsGap (gap : Text) : Prop :=
  gap ≠ [] ∧ ∀ c ∈ gap, isAsciiWhitespace c = true ∧ c ≠ '\n'

/-- Texts that differ in their gaps, and in how their lines end. -/
inductive Respaced : Text → Text → Prop where
  | nil : Respaced [] []
  | keep (c : Char) {s t : Text} : Respaced s t → Respaced (c :: s) (c :: t)
  | gap {gap gap' s t : Text} : IsGap gap → IsGap gap' → Respaced s t →
      Respaced (gap ++ s) (gap' ++ t)
  | lineEnd {s t : Text} : Respaced s t → Respaced ('\r' :: '\n' :: s) ('\n' :: t)

theorem filter_cons_isEmpty (field : Text) (fields : List Text) :
    (field :: fields).filter (!·.isEmpty) = pushField field (fields.filter (!·.isEmpty)) := by
  rcases field with _ | ⟨c, field⟩
  · rfl
  · rfl

/-- What the scan keeps is what splitting gives. -/
theorem scan_splits (s : Text) :
    ∃ piece pieces field toks, List.splitOn '\n' s = piece :: pieces ∧
      piece.splitOnP isAsciiWhitespace = field :: toks ∧
      scan s = (field, toks.filter (!·.isEmpty), pieces.map splitAsciiWhitespace) := by
  induction s with
  | nil => exact ⟨[], [], [], [], List.splitOn_nil '\n', List.splitOnP_nil, rfl⟩
  | cons c s ih =>
      rcases ih with ⟨piece, pieces, field, toks, hlines, hfields, hscan⟩
      rw [List.splitOn_cons_eq_if_modifyHead, hlines, scan_cons, hscan]
      by_cases hnewline : c = '\n'
      · subst hnewline
        refine ⟨[], piece :: pieces, [], [], if_pos rfl, List.splitOnP_nil, ?_⟩
        rw [if_pos rfl, List.map_cons, splitAsciiWhitespace, hfields, filter_cons_isEmpty]
        rfl
      · rw [if_neg (fun h => hnewline (eq_of_beq h)), if_neg hnewline]
        by_cases hspace : isAsciiWhitespace c = true
        · refine ⟨c :: piece, pieces, [], field :: toks, rfl, ?_, ?_⟩
          · rw [List.splitOnP_cons_eq_if_modifyHead, if_pos hspace, hfields]
          · rw [if_pos hspace, filter_cons_isEmpty]
        · refine ⟨c :: piece, pieces, c :: field, toks, rfl, ?_, ?_⟩
          · rw [List.splitOnP_cons_eq_if_modifyHead, if_neg hspace, hfields]
            rfl
          · rw [if_neg hspace]

/-- The fields of every line, as the scan finds them. -/
theorem fieldLines_eq_scan (s : Text) :
    fieldLines s = pushField (scan s).1 (scan s).2.1 :: (scan s).2.2 := by
  rcases scan_splits s with ⟨piece, pieces, field, toks, hlines, hfields, hscan⟩
  rw [fieldLines, hlines, hscan, List.map_cons, splitAsciiWhitespace, hfields, filter_cons_isEmpty]

/-- A gap ends the field behind it, however long it is. -/
theorem scan_gap {gap : Text} (h : IsGap gap) (s : Text) :
    scan (gap ++ s) = ([], pushField (scan s).1 (scan s).2.1, (scan s).2.2) := by
  rcases h with ⟨hne, hgap⟩
  induction gap with
  | nil => exact absurd rfl hne
  | cons c gap ih =>
      rcases hgap c List.mem_cons_self with ⟨hspace, hnewline⟩
      rw [List.cons_append, scan_cons, if_neg hnewline, if_pos hspace]
      rcases gap with _ | ⟨d, gap⟩
      · rfl
      · rw [ih (List.cons_ne_nil d gap) fun c hc => hgap c (List.mem_cons_of_mem _ hc)]
        rfl

theorem Respaced.scan_eq {s t : Text} (h : Respaced s t) : scan s = scan t := by
  induction h with
  | nil => rfl
  | keep c _ ih => rw [scan_cons, scan_cons, ih]
  | gap hgap hgap' _ ih => rw [scan_gap hgap, scan_gap hgap', ih]
  | lineEnd _ ih =>
      -- The `\r` is a gap at the end of its line.
      rw [scan_cons, scan_cons, scan_cons, ih]
      rfl

/-- Gaps and line ends leave no trace in the fields. -/
theorem Respaced.fieldLines_eq {s t : Text} (h : Respaced s t) : fieldLines s = fieldLines t := by
  rw [fieldLines_eq_scan, fieldLines_eq_scan, h.scan_eq]

end Psrp

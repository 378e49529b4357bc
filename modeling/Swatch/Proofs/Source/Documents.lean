-- SUMMARY: The lines of a document and of a source agree just if all line breaks are ordinary.
import Swatch.Proofs.Document.Breaks
import Swatch.Proofs.Source.Lines

/-!
# Lines of documents and of sources

A document and a source cut a text differently. A document breaks it at every line break
and keeps what ends a line; a source breaks it at line feeds only and drops a carriage
return in front of one. Where every break is a line feed, alone or behind a carriage
return, they have as many lines, the lines read the same, and every offset is on the same
line. Any other break gives the document a line that the source lacks.
-/

namespace Swatch

/-! ## What the lines read -/

/-- Only a carriage return at the end is stripped, so characters in front stay. -/
theorem stripReturn_cons {c : Char} (hc : c ≠ '\r') (t : Text) :
    stripReturn (c :: t) = c :: stripReturn t := by
  cases t with
  | nil => simp [stripReturn, hc]
  | cons d t =>
    rw [stripReturn, stripReturn, List.getLast?_cons_cons, List.dropLast_cons_cons]
    split <;> rfl

/-- Where all breaks are ordinary, the lines of a document read as line feeds cut them out, without
the carriage returns in front of those. -/
theorem map_lineContent_eq_map_stripReturn {t : Text} (h : t.OrdinaryBreaks) :
    (documentLines t).map lineContent = (splitLines t).map stripReturn := by
  induction t with
  | nil => rfl
  | cons c t ih =>
    have hrest := ih h.2
    by_cases hc : c = '\n'
    · subst hc
      rw [documentLines_feed, splitLines_feed, List.map_cons, List.map_cons, hrest]
      rfl
    · obtain ⟨line, lines, hlines⟩ := exists_documentLines t
      obtain ⟨part, parts, hparts⟩ := exists_splitLines t
      rw [documentLines_cons_of_ne hc h hlines, splitLines_cons_of_ne hc hparts, List.map_cons,
        List.map_cons]
      rw [hlines, hparts, List.map_cons, List.map_cons, List.cons.injEq] at hrest
      refine congrArg₂ List.cons ?_ hrest.2
      by_cases hbreak : isLineBreak c
      · -- A carriage return and its line feed are all that stands on this line.
        obtain ⟨rfl, hhead⟩ := (h.1 hbreak).resolve_left hc
        obtain ⟨rest, rfl⟩ := List.head?_eq_some_iff.1 hhead
        rw [documentLines_feed] at hlines
        rw [splitLines_feed] at hparts
        obtain ⟨rfl, -⟩ := List.cons.inj hlines
        obtain ⟨rfl, -⟩ := List.cons.inj hparts
        rfl
      · have hreturn : c ≠ '\r' := by
          rintro rfl
          exact hbreak (by decide)
        rw [lineContent_cons hbreak, stripReturn_cons hreturn, hrest.1]

theorem Line.map_text_ofParts (start : Nat) (parts : List Text) :
    (ofParts start parts).map text = parts.map stripReturn := by
  induction parts generalizing start with
  | nil => rfl
  | cons part parts ih => rw [ofParts, List.map_cons, List.map_cons, ih]

namespace Document

variable {d : Document}

/-! ## How many lines there are -/

theorem lineCount_eq_iff :
    d.lineCount = Source.lineCount { text := d.text } ↔ d.text.OrdinaryBreaks := by
  rw [Source.lineCount_eq_count]
  exact (length_documentLines d.text).2

theorem lineCount_le : Source.lineCount { text := d.text } ≤ d.lineCount := by
  rw [Source.lineCount_eq_count]
  exact (length_documentLines d.text).1

theorem lineCount_pos : 0 < d.lineCount :=
  List.length_pos_iff.2 (documentLines_ne_nil d.text)

/-! ## The line of an offset -/

/-- A place is further down in the document than in the source by as many lines as there are breaks
before it that are not ordinary. -/
theorem positionAt_line (d : Document) (offset : Nat) :
    (d.positionAt offset).line = Source.lineOf { text := d.text } offset
      + d.text.extraBreaks (d.text.charsBefore offset) := by
  rw [positionAt, lines, Position.locate_line, Source.lineOf_eq_count, Nat.zero_add]

/-! ## Agreement -/

/-- The lines of a document agree with those of its text as a source in their number, in what they
read and in the offsets on them just if all line breaks are ordinary. -/
theorem lines_agree_iff (d : Document) :
    let s : Source := { text := d.text }
    (d.lineCount = s.lineCount ∧ (∀ n, d.lineAt? n = s.lines[n]?.map Line.text) ∧
      ∀ offset, (d.positionAt offset).line = s.lineOf offset) ↔ d.text.OrdinaryBreaks := by
  intro s
  refine ⟨fun h => lineCount_eq_iff.1 h.1,
    fun h => ⟨lineCount_eq_iff.2 h, fun n => ?_, fun offset => ?_⟩⟩
  · rw [s.lines_eq, ← List.getElem?_map, Line.ofText, Line.map_text_ofParts,
      ← map_lineContent_eq_map_stripReturn h, List.getElem?_map]
    rfl
  · rw [positionAt_line, Text.extraBreaks_eq_zero h, Nat.add_zero]

end Document

end Swatch

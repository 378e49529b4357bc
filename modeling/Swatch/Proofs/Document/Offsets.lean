-- SUMMARY: Offsets and positions of a document taken to each other, and how both are ordered.
import Swatch.Proofs.Document.Position
import Swatch.Proofs.Text.Bytes

/-!
# Offsets and positions

Every offset has a position on a line of the document, and the position leads back to
the offset, or to the start of the character that the offset is inside of. Later offsets
have later positions.

Positions lead to offsets in their order as long as they are on lines of the document. One
below the last line is read as a place on it with the same column, and that place may well
be before the place of an earlier position.
-/

namespace Swatch

namespace Position

variable {lines : List Text} {i j : Nat}

/-! ## From places to positions -/

/-- Counting from the next number on moves all lines by one. -/
theorem locate_succ (start : Nat) (lines : List Text) (i : Nat) :
    locate (start + 1) lines i
      = ⟨(locate start lines i).line + 1, (locate start lines i).column⟩ := by
  fun_induction locate start lines i with
  | case1 => rfl
  | case2 => rfl
  | case3 start l l' lines i hlt => rw [locate, if_pos hlt]
  | case4 start l l' lines i hge ih => rw [locate, if_neg hge, ih]

theorem locate_first {l : Text} (l' : Text) (lines : List Text) (h : i < l.length) :
    locate 0 (l :: l' :: lines) i = ⟨0, i⟩ := by
  rw [locate, if_pos h]

theorem locate_below {l : Text} (l' : Text) (lines : List Text) (h : ¬ i < l.length) :
    locate 0 (l :: l' :: lines) i
      = ⟨(locate 0 (l' :: lines) (i - l.length)).line + 1,
          (locate 0 (l' :: lines) (i - l.length)).column⟩ := by
  rw [locate, if_neg h, locate_succ]

/-- A position leads back to the place that it was found for. -/
theorem index_locate (hlines : lines ≠ []) (hi : i ≤ lines.flatten.length) :
    index lines (locate 0 lines i) = i := by
  induction lines generalizing i with
  | nil => exact absurd rfl hlines
  | cons l lines ih =>
    cases lines with
    | nil => exact Nat.min_eq_left (by simpa using hi)
    | cons l' lines =>
      by_cases hlt : i < l.length
      · rw [locate_first l' lines hlt]
        exact Nat.min_eq_left (Nat.le_of_lt hlt)
      · rw [List.flatten_cons, List.length_append] at hi
        have hrest := ih (List.cons_ne_nil _ _) (i := i - l.length) (by omega)
        rw [locate_below l' lines hlt, index, hrest]
        omega

/-- A place is on one of the lines and not behind it; only on the last line it may be at its end. -/
theorem exists_line_locate (hlines : lines ≠ []) (hi : i ≤ lines.flatten.length) :
    ∃ line, lines[(locate 0 lines i).line]? = some line ∧
      ((locate 0 lines i).column < line.length ∨
        (locate 0 lines i).line + 1 = lines.length ∧ (locate 0 lines i).column = line.length) := by
  induction lines generalizing i with
  | nil => exact absurd rfl hlines
  | cons l lines ih =>
    cases lines with
    | nil =>
      refine ⟨l, rfl, ?_⟩
      simp only [List.flatten_cons, List.flatten_nil, List.append_nil] at hi
      simpa [locate] using Nat.lt_or_eq_of_le hi
    | cons l' lines =>
      by_cases hlt : i < l.length
      · rw [locate_first l' lines hlt]
        exact ⟨l, rfl, .inl hlt⟩
      · rw [List.flatten_cons, List.length_append] at hi
        obtain ⟨line, hline, hcolumn⟩ := ih (List.cons_ne_nil _ _) (i := i - l.length) (by omega)
        rw [locate_below l' lines hlt]
        refine ⟨line, hline, hcolumn.imp_right fun hend => ?_⟩
        exact ⟨congrArg Nat.succ hend.1, hend.2⟩

/-- Later places have later positions. -/
theorem locate_mono (lines : List Text) (h : i ≤ j) : (locate 0 lines i).le (locate 0 lines j) := by
  induction lines generalizing i j with
  | nil => exact le_iff.2 (.inr ⟨rfl, h⟩)
  | cons l lines ih =>
    cases lines with
    | nil => exact le_iff.2 (.inr ⟨rfl, h⟩)
    | cons l' lines =>
      by_cases hj : j < l.length
      · rw [locate_first l' lines (Nat.lt_of_le_of_lt h hj), locate_first l' lines hj]
        exact le_iff.2 (.inr ⟨rfl, h⟩)
      · rw [locate_below l' lines hj]
        by_cases hi : i < l.length
        · rw [locate_first l' lines hi]
          exact le_iff.2 (.inl (Nat.succ_pos _))
        · have hrest := le_iff.1 (ih (Nat.sub_le_sub_right h l.length))
          rw [locate_below l' lines hi, le_iff]
          exact hrest.imp Nat.succ_lt_succ (.imp_left (congrArg Nat.succ))

/-! ## From positions to places -/

theorem index_le_length (lines : List Text) (p : Position) :
    index lines p ≤ lines.flatten.length := by
  fun_induction index lines p with
  | case1 => exact Nat.le_refl 0
  | case2 l line column =>
    rw [List.flatten_singleton]
    exact Nat.min_le_right column l.length
  | case3 l l' lines column =>
    rw [List.flatten_cons, List.length_append]
    exact Nat.le_trans (Nat.min_le_right _ _) (Nat.le_add_right _ _)
  | case4 l l' lines line column ih =>
    rw [List.flatten_cons, List.length_append]
    exact Nat.add_le_add_left ih _

/-- The only positions whose places are not in their order are on the last line or below it, on
different lines, and the earlier one is further right as far as the last line goes. -/
theorem index_le_index_iff {p q : Position} (h : p.le q) :
    index lines p ≤ index lines q ↔
      ¬ (lines.length ≤ p.line + 1 ∧ p.line < q.line ∧
        q.column < min p.column (lines.getLastD []).length) := by
  rw [le_iff] at h
  fun_induction index lines p generalizing q with
  | case1 p => simp
  | case2 l line column =>
    obtain ⟨line', column'⟩ := q
    simp only [index, List.length_singleton, List.getLastD_cons, List.getLastD_nil] at h ⊢
    omega
  | case3 l l' lines column =>
    obtain ⟨line', column'⟩ := q
    cases line' with
    | zero =>
      simp only [index, Nat.lt_irrefl, false_or, true_and, false_and, and_false,
        not_false_eq_true, iff_true] at h ⊢
      omega
    | succ line' =>
      simp only [index, List.length_cons]
      omega
  | case4 l l' lines line column ih =>
    obtain ⟨line', column'⟩ := q
    cases line' with
    | zero => simp at h
    | succ line' =>
      have hrest := ih (q := ⟨line', column'⟩) (by simpa using h)
      simp only [index, List.length_cons, List.getLastD_cons] at hrest ⊢
      rw [Nat.add_le_add_iff_left, hrest]
      omega

end Position

namespace Document

/-! ## From offsets to positions and back -/

theorem length_flatten_lines (d : Document) : d.lines.flatten.length = d.text.length :=
  congrArg List.length (documentLines_flatten d.text)

theorem charsBefore_le_flatten (d : Document) (offset : Nat) :
    d.text.charsBefore offset ≤ d.lines.flatten.length := by
  rw [length_flatten_lines]
  exact d.text.charsBefore_le_length offset

theorem offsetAt_positionAt (d : Document) (offset : Nat) :
    d.offsetAt (d.positionAt offset) = d.text.boundaryBelow offset := by
  have hlines : d.lines ≠ [] := documentLines_ne_nil d.text
  have hindex := Position.index_locate hlines (d.charsBefore_le_flatten offset)
  rw [offsetAt, indexAt, positionAt, hindex, Text.boundaryBelow]

/-- A carriage return and the line feed behind it are on one line, what follows is on the next. -/
theorem positionAt_line_return {d : Document} {before behind : Text}
    (htext : d.text = before ++ '\r' :: '\n' :: behind) :
    (d.positionAt (before.size + 1)).line = (d.positionAt before.size).line ∧
      (d.positionAt (before.size + 2)).line = (d.positionAt before.size).line + 1 := by
  have hline (n k : Nat) (hk : Text.charsBefore ('\r' :: '\n' :: behind) n = k) :
      (d.positionAt (before.size + n)).line = before.count '\n' + d.text.extraBreaks before.length
        + (('\r' :: '\n' :: behind).take k).count '\n'
        + Text.extraBreaks ('\r' :: '\n' :: behind) k := by
    rw [positionAt, lines, Position.locate_line, htext, Text.charsBefore_append, hk,
      Text.extraBreaks_append, List.take_length_add_append, List.count_append]
    omega
  have hpair : Text.charsBefore ('\r' :: '\n' :: behind) 2 = 2 :=
    (Text.charsBefore_append ['\r', '\n'] behind 0).trans (by simp)
  have hstart : (d.positionAt before.size).line = _ := hline 0 0 rfl
  rw [hstart, hline 1 1 rfl, hline 2 2 hpair]
  simp [Text.extraBreaks]

/-- Positions of offsets lead back to the last boundary up to the offset, are in order, and lie on a
line of the document in front of its end, or at the end of the last line. A carriage return and a
line feed behind it end one line together. -/
theorem positionAt_well_placed (d : Document) :
    (∀ offset, IsGreatest {b | d.text.isBoundary b ∧ b ≤ min offset d.text.size}
      (d.offsetAt (d.positionAt offset))) ∧
    (∀ m n, m ≤ n → (d.positionAt m).le (d.positionAt n)) ∧
    (∀ offset, ∃ line, d.lines[(d.positionAt offset).line]? = some line ∧
      ((d.positionAt offset).column < line.length ∨
        (d.positionAt offset).line + 1 = d.lineCount ∧
          (d.positionAt offset).column = line.length)) ∧
    (∀ before behind, d.text = before ++ '\r' :: '\n' :: behind →
      (d.positionAt (before.size + 1)).line = (d.positionAt before.size).line ∧
        (d.positionAt (before.size + 2)).line = (d.positionAt before.size).line + 1) := by
  refine ⟨fun offset => ?_, fun m n h => ?_, fun offset => ?_, fun before behind htext => ?_⟩
  · rw [offsetAt_positionAt]
    exact d.text.isGreatest_boundaryBelow offset
  · exact Position.locate_mono d.lines (d.text.charsBefore_mono h)
  · exact Position.exists_line_locate (documentLines_ne_nil d.text)
      (d.charsBefore_le_flatten offset)
  · exact positionAt_line_return htext

/-- An offset between a carriage return and its line feed, and one inside a character. -/
theorem positionAt_well_placed_return :
    let d : Document := { key := ⟨"/p".toList⟩, text := "a\r\né".toList }
    d.text = ['a'] ++ '\r' :: '\n' :: ['é'] ∧ 2 ≤ 4 ∧
      IsGreatest {b | d.text.isBoundary b ∧ b ≤ min 4 d.text.size} 3 ∧
      (d.positionAt 2).le (d.positionAt 4) ∧
      (∃ line, d.lines[(d.positionAt 2).line]? = some line ∧ (d.positionAt 2).column < line.length) ∧
      (d.positionAt 2).line = (d.positionAt 1).line ∧
      (d.positionAt 3).line = (d.positionAt 1).line + 1 := by
  intro d
  have htext : d.text = ['a'] ++ '\r' :: '\n' :: ['é'] := rfl
  obtain ⟨hback, hordered, hplaced, hpair⟩ := positionAt_well_placed d
  obtain ⟨line, hline, hcolumn⟩ := hplaced 2
  have hlast : ¬ (d.positionAt 2).line + 1 = d.lineCount := by decide
  refine ⟨htext, by decide, hback 4, hordered 2 4 (by decide), ?_, hpair _ _ htext⟩
  exact ⟨line, hline, hcolumn.resolve_right fun hend => hlast hend.1⟩

/-! ## The order of positions -/

/-- Two positions are read as places in the other order: both are on the last line or below it, the
later one is further down, and as far as the last line goes the earlier one is further right. -/
def RunsBack (d : Document) (p q : Position) : Prop :=
  d.lineCount ≤ p.line + 1 ∧ p.line < q.line ∧
    q.column < min p.column (d.lines.getLastD []).length

instance (d : Document) (p q : Position) : Decidable (d.RunsBack p q) :=
  inferInstanceAs (Decidable (_ ∧ _ ∧ _))

theorem indexAt_le_length (d : Document) (p : Position) : d.indexAt p ≤ d.text.length := by
  rw [← length_flatten_lines]
  exact Position.index_le_length d.lines p

/-- Positions have their offsets, and edits their ends, in order, unless they run back. -/
theorem offsetAt_le_iff {d : Document} {p q : Position} (h : p.le q) :
    (d.offsetAt p ≤ d.offsetAt q ↔ ¬ d.RunsBack p q) ∧
      (∀ e : Edit, e.start = p → e.stop = q →
        (d.indexAt e.start ≤ d.indexAt e.stop ↔ ¬ d.RunsBack p q)) := by
  have hindex : d.indexAt p ≤ d.indexAt q ↔ ¬ d.RunsBack p q := Position.index_le_index_iff h
  constructor
  · rw [offsetAt, offsetAt, Text.sizeOfFirst_le_iff (d.indexAt_le_length p), hindex]
  · rintro e rfl rfl
    exact hindex

/-- A column behind the end of a line is read as the start of the next one. -/
theorem offsetAt_le_iff_line_end :
    let d : Document := { key := ⟨"/p".toList⟩, text := "ab\ncd".toList }
    let p : Position := ⟨0, 9⟩
    let q : Position := ⟨1, 0⟩
    p.le q ∧ ¬ d.RunsBack p q ∧ d.offsetAt p ≤ d.offsetAt q ∧
      d.indexAt (Edit.mk p q []).start ≤ d.indexAt (Edit.mk p q []).stop := by
  intro d p q
  have hle : p.le q := by decide
  have hruns : ¬ d.RunsBack p q := by decide
  obtain ⟨hoffset, hedit⟩ := offsetAt_le_iff (d := d) hle
  exact ⟨hle, hruns, hoffset.2 hruns, (hedit ⟨p, q, []⟩ rfl rfl).2 hruns⟩

/-- The start of a line that the document lacks is read as the start of its last line. -/
theorem offsetAt_runs_back :
    let d : Document := { key := ⟨"/p".toList⟩, text := "ab".toList }
    let p : Position := ⟨0, 2⟩
    let q : Position := ⟨1, 0⟩
    p.le q ∧ ¬ d.offsetAt p ≤ d.offsetAt q ∧
      ¬ d.indexAt (Edit.mk p q []).start ≤ d.indexAt (Edit.mk p q []).stop := by
  decide

end Document

end Swatch

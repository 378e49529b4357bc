-- SUMMARY: The strings of a source stand in order, inside their lines and apart from each other.
import Swatch.Proofs.Source.Lines
import Mathlib.Data.List.Pairwise

/-!
# Strings of a source

The pieces of a line join to the line, so its strings stand one behind the other with
their quotes between them, and their contents are inside the line. Strings on different
lines are apart as their lines are. A string is therefore on the line that it is listed
for, and two strings that share an offset are the same string.
-/

namespace Swatch

/-- The pieces of a line join to the line. -/
theorem pieces_flatMap_text (t : Text) : (pieces t).flatMap Piece.text = t := by
  fun_induction pieces t with
  | case1 => rfl
  | case2 rest content after heq ih =>
    have happend := quotedContent_append rest
    rw [heq] at happend
    simpa [Piece.text, ih] using happend.symm
  | case3 rest content heq =>
    have happend := quotedContent_append rest
    rw [heq] at happend
    simpa [Piece.text] using happend.symm
  | case4 rest => simp [Piece.text]
  | case5 c rest _ _ literal after heq ih =>
    simpa [Piece.text, ih] using (characterLiteral?_append heq).symm
  | case6 c rest _ _ _ ih => simp [Piece.text, ih]

namespace Line

theorem map_fst_cells (l : Line) : l.cells.map Prod.fst = l.text := by
  rw [cells, List.map_flatMap]
  simp only [List.map_map, Function.comp_def, List.map_id']
  exact pieces_flatMap_text l.text

/-- The strings among pieces stand one behind the other. -/
theorem quotedFrom_spec (offset : Nat) (ps : List Piece) :
    (quotedFrom offset ps).Pairwise (fun q q' => q.content.stop < q'.content.start) ∧
      ∀ q ∈ quotedFrom offset ps, offset < q.content.start ∧ q.content.start ≤ q.content.stop ∧
        q.content.stop ≤ offset + Text.size (ps.flatMap Piece.text) := by
  induction ps generalizing offset with
  | nil => exact ⟨.nil, by simp [quotedFrom]⟩
  | cons p ps ih =>
    obtain ⟨hpairwise, hbounds⟩ := ih (offset + p.text.size)
    have hsize : Text.size ((p :: ps).flatMap Piece.text)
        = p.text.size + Text.size (ps.flatMap Piece.text) := by simp
    have hrest : ∀ q ∈ quotedFrom (offset + p.text.size) ps, offset < q.content.start ∧
        q.content.start ≤ q.content.stop ∧
        q.content.stop ≤ offset + Text.size ((p :: ps).flatMap Piece.text) := by
      intro q hq
      have hq := hbounds q hq
      omega
    cases p with
    | quoted content closed =>
      have htext : offset + 1 + content.size ≤ offset + (Piece.quoted content closed).text.size := by
        have hquote : '"'.utf8Size = 1 := rfl
        simp [Piece.text, hquote]
        omega
      refine ⟨List.pairwise_cons.2 ⟨fun q hq => ?_, hpairwise⟩, fun q hq => ?_⟩
      · have hq := hbounds q hq
        simp only [Interval.ofSize]
        omega
      · rcases List.mem_cons.1 hq with rfl | hq
        · simp only [Interval.ofSize, hsize]
          omega
        · exact hrest q hq
    | character literal => exact ⟨hpairwise, hrest⟩
    | remark text => exact ⟨hpairwise, hrest⟩
    | code c => exact ⟨hpairwise, hrest⟩

theorem pairwise_quotes (l : Line) :
    l.quotes.Pairwise fun q q' => q.content.stop < q'.content.start :=
  (quotedFrom_spec l.start (pieces l.text)).1

/-- The content of a string is inside its line, behind the first byte. -/
theorem quotes_bounds {l : Line} {q : Quoted} (hq : q ∈ l.quotes) :
    l.start < q.content.start ∧ q.content.start ≤ q.content.stop ∧
      q.content.stop ≤ l.extent.stop := by
  have hbounds := (quotedFrom_spec l.start (pieces l.text)).2 q hq
  rwa [pieces_flatMap_text] at hbounds

end Line

namespace Source

variable {s : Source}

theorem mem_quotes {n : Nat} {q : Quoted} (hq : q ∈ s.quotes n) :
    ∃ l, s.lines[n]? = some l ∧ q ∈ l.quotes := by
  unfold quotes at hq
  split at hq
  · next l hl => exact ⟨l, hl, hq⟩
  · cases hq

theorem quotes_start_le_stop {n : Nat} {q : Quoted} (hq : q ∈ s.quotes n) :
    q.content.start ≤ q.content.stop := by
  obtain ⟨l, -, hmem⟩ := mem_quotes hq
  exact (Line.quotes_bounds hmem).2.1

/-- A string is on the line that it is listed for. -/
theorem lineOf_quote {n : Nat} {q : Quoted} (hq : q ∈ s.quotes n) {offset : Nat}
    (hstart : q.content.start ≤ offset) (hstop : offset ≤ q.content.stop) :
    s.lineOf offset = n := by
  obtain ⟨l, hl, hmem⟩ := mem_quotes hq
  obtain ⟨hfirst, -, hlast⟩ := Line.quotes_bounds hmem
  exact lineOf_eq hl (by omega) (by omega)

/-- Strings on a higher line end before those on a lower line start. -/
theorem quotes_stop_lt_start {n m : Nat} (hlt : n < m) {q q' : Quoted} (hq : q ∈ s.quotes n)
    (hq' : q' ∈ s.quotes m) : q.content.stop < q'.content.start := by
  obtain ⟨l, hl, hmem⟩ := mem_quotes hq
  obtain ⟨l', hl', hmem'⟩ := mem_quotes hq'
  have hbounds := Line.quotes_bounds hmem
  have hbounds' := Line.quotes_bounds hmem'
  have hlines := stop_lt_start hl hl' hlt
  omega

theorem pairwise_quotes (s : Source) (n : Nat) :
    (s.quotes n).Pairwise fun q q' => q.content.stop < q'.content.start := by
  unfold quotes
  split
  · exact Line.pairwise_quotes _
  · exact .nil

/-- Two strings of a source are the same or share no offset. -/
theorem quotes_eq_or_disjoint {n m : Nat} {q q' : Quoted} (hq : q ∈ s.quotes n)
    (hq' : q' ∈ s.quotes m) : q = q' ∨ q.content.Disjoint q'.content := by
  rcases Nat.lt_trichotomy n m with hlt | rfl | hlt
  · exact .inr (Interval.disjoint_of_le (Nat.le_of_lt (quotes_stop_lt_start hlt hq hq')))
  · have hpairwise : (s.quotes n).Pairwise fun q q' => q.content.Disjoint q'.content :=
      (s.pairwise_quotes n).imp fun hlt => Interval.disjoint_of_le (Nat.le_of_lt hlt)
    have hsymm : Std.Symm fun q q' : Quoted => q.content.Disjoint q'.content := ⟨fun _ _ h => h.symm⟩
    by_cases heq : q = q'
    · exact .inl heq
    · exact .inr (hpairwise.forall hq hq' heq)
  · exact .inr (Interval.disjoint_of_le (Nat.le_of_lt (quotes_stop_lt_start hlt hq' hq))).symm

/-! ## Strings of some lines -/

theorem mem_stringsIn {lines : LineRange} {q : Quoted} :
    q ∈ s.stringsIn lines ↔ ∃ n, lines.first ≤ n ∧ n ≤ lines.last ∧ q ∈ s.quotes n ∧
      s.inBlockComment q.content.start = false := by
  simp only [stringsIn, List.mem_filter, List.mem_flatMap, LineRange.mem_toList,
    Bool.not_eq_true']
  constructor
  · rintro ⟨⟨n, ⟨hfirst, hlast⟩, hq⟩, hcomment⟩
    exact ⟨n, hfirst, hlast, hq, hcomment⟩
  · rintro ⟨n, hfirst, hlast, hq, hcomment⟩
    exact ⟨⟨n, ⟨hfirst, hlast⟩, hq⟩, hcomment⟩

/-- The strings of some lines stand one behind the other. -/
theorem pairwise_stringsIn (s : Source) (lines : LineRange) :
    (s.stringsIn lines).Pairwise fun q q' => q.content.stop < q'.content.start := by
  refine List.Pairwise.filter _ (List.pairwise_flatMap.2 ⟨fun n _ => s.pairwise_quotes n, ?_⟩)
  refine (List.pairwise_lt_range' (s := lines.first)).imp fun hlt q hq q' hq' => ?_
  exact quotes_stop_lt_start hlt hq hq'

end Source

end Swatch

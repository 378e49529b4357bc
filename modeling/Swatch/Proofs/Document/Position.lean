-- SUMMARY: Positions as places behind the prefixes of a text, and what an edit does to the text.
import Swatch.Proofs.Document.Breaks

/-!
# Positions and prefixes

The positions that a document has are the places behind the prefixes of its text, and
positions are ordered as those prefixes are by length. An edit whose ends are such
places therefore replaces one part of the text and keeps what stands before and behind
it.
-/

namespace Swatch

namespace Position

variable {p q r : Position}

theorem le_iff : p.le q ↔ p.line < q.line ∨ p.line = q.line ∧ p.column ≤ q.column := by
  simp [le]

theorem le_refl (p : Position) : p.le p :=
  le_iff.2 (.inr ⟨rfl, Nat.le_refl _⟩)

theorem le_trans (hpq : p.le q) (hqr : q.le r) : p.le r := by
  rw [le_iff] at *
  omega

theorem le_total (p q : Position) : p.le q ∨ q.le p := by
  rw [le_iff, le_iff]
  omega

theorem le_antisymm (hpq : p.le q) (hqp : q.le p) : p = q := by
  cases p
  cases q
  rw [le_iff] at *
  simp only [mk.injEq]
  dsimp only at *
  omega

theorem line_le_of_le (h : p.le q) : p.line ≤ q.line := by
  rw [le_iff] at h
  omega

/-! ## Places behind prefixes -/

@[simp] theorem after_line (t : Text) : (after t).line = t.count '\n' := rfl

@[simp] theorem after_column (t : Text) : (after t).column = t.lastPart.length := by
  simp [after, Text.lastPart, Text.firstPart]

theorem after_of_notMem {t : Text} (h : '\n' ∉ t) : after t = ⟨0, t.length⟩ := by
  have hline : (after t).line = 0 := List.count_eq_zero.2 h
  have hcolumn : (after t).column = t.length := by rw [after_column, Text.lastPart_of_notMem h]
  rw [← hline, ← hcolumn]

theorem after_append_of_mem (s : Text) {t : Text} (h : '\n' ∈ t) :
    after (s ++ t) = ⟨s.count '\n' + (after t).line, (after t).column⟩ := by
  have hline : (after (s ++ t)).line = s.count '\n' + (after t).line := by simp
  have hcolumn : (after (s ++ t)).column = (after t).column := by
    simp [Text.lastPart_append_of_mem s h]
  rw [← hline, ← hcolumn]

theorem after_append_of_notMem (s : Text) {t : Text} (h : '\n' ∉ t) :
    after (s ++ t) = ⟨(after s).line, (after s).column + t.length⟩ := by
  have hline : (after (s ++ t)).line = (after s).line := by simp [List.count_eq_zero.2 h]
  have hcolumn : (after (s ++ t)).column = (after s).column + t.length := by
    simp [Text.lastPart_append_of_notMem s h]
  rw [← hline, ← hcolumn]

theorem after_feed_cons (t : Text) :
    after ('\n' :: t) = ⟨(after t).line + 1, (after t).column⟩ := by
  rw [← List.singleton_append]
  by_cases h : '\n' ∈ t
  · rw [after_append_of_mem _ h, Nat.add_comm]
    rfl
  · rw [after_append_of_notMem _ h, after_of_notMem h, after_column]
    simp [Text.lastPart, Text.firstPart]

theorem after_cons_of_mem {c : Char} (hc : c ≠ '\n') {t : Text} (h : '\n' ∈ t) :
    after (c :: t) = after t := by
  have hnone : List.count '\n' [c] = 0 := List.count_eq_zero.2 (by simpa using hc.symm)
  rw [← List.singleton_append, after_append_of_mem _ h, hnone, Nat.zero_add]

/-- A character put in front moves the places of the first line only. -/
theorem after_cons_of_ne {c : Char} (hc : c ≠ '\n') (t : Text) :
    after (c :: t) = ⟨(after t).line,
      if (after t).line = 0 then (after t).column + 1 else (after t).column⟩ := by
  by_cases h : '\n' ∈ t
  · have hpos : t.count '\n' ≠ 0 := (List.count_pos_iff.2 h).ne'
    rw [after_cons_of_mem hc h, after_line, if_neg hpos]
    rfl
  · rw [after_of_notMem h, after_of_notMem (by simp [h, hc.symm]), if_pos rfl]
    rfl

theorem after_le_after_append (s t : Text) : (after s).le (after (s ++ t)) := by
  by_cases h : '\n' ∈ t
  · have hpos : 0 < t.count '\n' := List.count_pos_iff.2 h
    rw [after_append_of_mem s h, le_iff]
    exact .inl (Nat.lt_add_of_pos_right hpos)
  · rw [after_append_of_notMem s h, le_iff]
    simp

/-- A longer prefix ends at a later place. -/
theorem not_after_append_le {s t : Text} (ht : t ≠ []) : ¬(after (s ++ t)).le (after s) := by
  intro hle
  have heq := le_antisymm (after_le_after_append s t) hle
  by_cases h : '\n' ∈ t
  · have hpos : 0 < t.count '\n' := List.count_pos_iff.2 h
    rw [after_append_of_mem s h] at heq
    have hline : s.count '\n' = s.count '\n' + t.count '\n' := congrArg line heq
    omega
  · have hlength : 0 < t.length := List.length_pos_iff.2 ht
    rw [after_append_of_notMem s h] at heq
    have hcolumn : (after s).column = (after s).column + t.length := congrArg column heq
    omega

/-- Positions behind two prefixes of one text are ordered as the prefixes are. -/
theorem exists_append_of_after_le {s t behind behind' : Text} (h : s ++ behind = t ++ behind')
    (hle : (after s).le (after t)) : ∃ between, t = s ++ between := by
  rcases List.append_eq_append_iff.1 h with ⟨between, ht, -⟩ | ⟨between, hs, -⟩
  · exact ⟨between, ht⟩
  · by_cases hnil : between = []
    · exact ⟨[], by simp [hs, hnil]⟩
    · rw [hs] at hle
      exact absurd hle (not_after_append_le hnil)

/-! ## Characters before a place -/

/-- A character put in front of the first line stands before all places of later lines. -/
theorem index_cons_of_pos {c : Char} {line : Text} {lines : List Text} (hlines : lines ≠ [])
    {p : Position} (hp : 0 < p.line) :
    index ((c :: line) :: lines) p = index (line :: lines) p + 1 := by
  obtain ⟨line', lines, rfl⟩ := List.exists_cons_of_ne_nil hlines
  obtain ⟨n, column⟩ := p
  obtain ⟨n, rfl⟩ := Nat.exists_eq_add_one.2 hp
  simp only [index, List.length_cons]
  omega

theorem index_first (line : Text) (lines : List Text) (column : Nat) :
    index (line :: lines) ⟨0, column⟩ = min column line.length := by
  cases lines <;> rfl

/-- The place behind a prefix has as many characters before it as the prefix is long. -/
theorem index_after {s t : Text} (h : Text.OrdinaryBreaks (s ++ t)) :
    index (documentLines (s ++ t)) (after s) = s.length := by
  induction s with
  | nil =>
    obtain ⟨line, lines, hl⟩ := exists_documentLines t
    rw [List.nil_append, hl, after_of_notMem (by simp), index_first]
    simp
  | cons c s ih =>
    rw [List.cons_append] at h ⊢
    have hrest := ih h.2
    obtain ⟨line, lines, hl⟩ := exists_documentLines (s ++ t)
    by_cases hc : c = '\n'
    · subst hc
      rw [hl] at hrest
      rw [documentLines_feed, hl, after_feed_cons, index, hrest]
      simp [Nat.add_comm]
    · rw [documentLines_cons_of_ne hc h hl]
      by_cases hfeed : '\n' ∈ s
      · have hpos : 0 < s.count '\n' := List.count_pos_iff.2 hfeed
        have hlines : lines ≠ [] := by
          rintro rfl
          have hlength := (length_documentLines (s ++ t)).1
          rw [hl, List.count_append, List.length_singleton] at hlength
          omega
        rw [after_cons_of_mem hc hfeed, index_cons_of_pos hlines hpos, ← hl, hrest]
        rfl
      · rw [hl, after_of_notMem hfeed, index_first] at hrest
        rw [after_of_notMem (by simp [hfeed, Ne.symm hc]), index_first]
        simp only [List.length_cons]
        omega

/-- Every place on a line of a text is behind a prefix. -/
theorem exists_prefix {t line : Text} {p : Position} (hline : (splitLines t)[p.line]? = some line)
    (hcolumn : p.column ≤ line.length) :
    ∃ before behind, t = before ++ behind ∧ p = after before := by
  induction t generalizing p line with
  | nil =>
    obtain ⟨n, column⟩ := p
    cases n with
    | zero =>
      obtain rfl : [] = line := by simpa using hline
      obtain rfl : column = 0 := Nat.le_zero.1 hcolumn
      exact ⟨[], [], rfl, rfl⟩
    | succ n => simp at hline
  | cons c t ih =>
    obtain ⟨n, column⟩ := p
    dsimp only at hline hcolumn
    by_cases hc : c = '\n'
    · subst hc
      rw [splitLines_feed] at hline
      cases n with
      | zero =>
        obtain rfl : [] = line := by simpa using hline
        obtain rfl : column = 0 := Nat.le_zero.1 hcolumn
        exact ⟨[], '\n' :: t, rfl, rfl⟩
      | succ n =>
        obtain ⟨before, behind, rfl, hp⟩ := ih (p := ⟨n, column⟩) (by simpa using hline) hcolumn
        exact ⟨'\n' :: before, behind, rfl, by rw [after_feed_cons, ← hp]⟩
    · obtain ⟨first, rest, hl⟩ := exists_splitLines t
      rw [splitLines_cons_of_ne hc hl] at hline
      cases n with
      | zero =>
        obtain rfl : c :: first = line := by simpa using hline
        cases column with
        | zero => exact ⟨[], c :: t, rfl, rfl⟩
        | succ column =>
          have hfirst : (splitLines t)[(⟨0, column⟩ : Position).line]? = some first := by simp [hl]
          obtain ⟨before, behind, rfl, hp⟩ := ih hfirst (by simpa using hcolumn)
          exact ⟨c :: before, behind, rfl, by rw [after_cons_of_ne hc, ← hp, if_pos rfl]⟩
      | succ n =>
        obtain ⟨before, behind, rfl, hp⟩ :=
          ih (p := ⟨n + 1, column⟩) (by simpa [hl] using hline) hcolumn
        exact ⟨c :: before, behind, rfl,
          by rw [after_cons_of_ne hc, ← hp, if_neg (Nat.succ_ne_zero n)]⟩

end Position

/-! ## Edits of a part -/

/-- The edit replaces the part `removed` of a text that starts with `before` and `removed`. -/
def Edit.Replaces (e : Edit) (before removed : Text) : Prop :=
  e.start = .after before ∧ e.stop = .after (before ++ removed)

/-- The position is on a line of the document and not behind the end of that line. -/
def Document.Has (d : Document) (p : Position) : Prop :=
  ∃ line, d.lineAt? p.line = some line ∧ p.column ≤ line.length

theorem Document.Has.exists_prefix {d : Document} (hd : d.text.OnlyFeeds) {p : Position}
    (hp : d.Has p) : ∃ before behind, d.text = before ++ behind ∧ p = .after before := by
  obtain ⟨line, hline, hcolumn⟩ := hp
  rw [lineAt?_eq_splitLines hd] at hline
  exact Position.exists_prefix hline hcolumn

/-- An edit between two positions of a document replaces a part of its text. -/
theorem Edit.exists_replaces {d : Document} (hd : d.text.OnlyFeeds) {e : Edit}
    (hle : e.start.le e.stop) (hstart : d.Has e.start) (hstop : d.Has e.stop) :
    ∃ before removed behind, d.text = before ++ removed ++ behind ∧ e.Replaces before removed := by
  obtain ⟨before, rest, hbefore, hs⟩ := hstart.exists_prefix hd
  obtain ⟨upTo, behind, hupTo, hp⟩ := hstop.exists_prefix hd
  rw [hs, hp] at hle
  obtain ⟨removed, rfl⟩ := Position.exists_append_of_after_le (hbefore.symm.trans hupTo) hle
  exact ⟨before, removed, behind, hupTo, hs, hp⟩

/-- What an edit does to the text: the part between its ends is replaced. -/
theorem Document.edit_text {d : Document} (hd : d.text.OrdinaryBreaks) {e : Edit}
    {before removed behind : Text} (htext : d.text = before ++ removed ++ behind)
    (he : e.Replaces before removed) : (d.edit e).text = before ++ e.text ++ behind := by
  have hstart : d.indexAt e.start = before.length := by
    have hsplit : d.text = before ++ (removed ++ behind) := by rw [htext, List.append_assoc]
    rw [indexAt, lines, he.1, hsplit, Position.index_after (hsplit ▸ hd)]
  have hstop : d.indexAt e.stop = (before ++ removed).length := by
    rw [indexAt, lines, he.2, htext, Position.index_after (htext ▸ hd)]
  have hmax : max before.length (before ++ removed).length = (before ++ removed).length := by
    rw [List.length_append]
    omega
  simp only [edit, hstart, hstop, hmax]
  rw [htext, List.drop_left, List.append_assoc before removed, List.take_left]

theorem Document.edit_onlyFeeds {d : Document} (hd : d.text.OnlyFeeds) {e : Edit}
    (hfeeds : e.text.OnlyFeeds) {before removed behind : Text}
    (htext : d.text = before ++ removed ++ behind) (he : e.Replaces before removed) :
    (d.edit e).text.OnlyFeeds := by
  rw [edit_text hd.ordinaryBreaks htext he]
  rw [htext] at hd
  exact (hd.left.left.append hfeeds).append hd.right

/-- A line above an edit stays. -/
theorem Document.edit_lineAt?_above {d : Document} (hd : d.text.OnlyFeeds) {e : Edit}
    (hfeeds : e.text.OnlyFeeds) {before removed behind : Text}
    (htext : d.text = before ++ removed ++ behind) (he : e.Replaces before removed) {line : Nat}
    (hline : line < e.start.line) : (d.edit e).lineAt? line = d.lineAt? line := by
  rw [he.1] at hline
  rw [lineAt?_eq_splitLines (edit_onlyFeeds hd hfeeds htext he), lineAt?_eq_splitLines hd,
    edit_text hd.ordinaryBreaks htext he, htext, List.append_assoc, List.append_assoc before removed,
    getElem?_splitLines_append_left before _ hline, getElem?_splitLines_append_left before _ hline]

/-- A line below an edit moves by the lines that the edit adds and removes. -/
theorem Document.edit_lineAt?_below {d : Document} (hd : d.text.OnlyFeeds) {e : Edit}
    (hfeeds : e.text.OnlyFeeds) {before removed behind : Text}
    (htext : d.text = before ++ removed ++ behind) (he : e.Replaces before removed) {line : Nat}
    (hline : e.stop.line < line) :
    (d.edit e).lineAt? (line + e.linesAdded - e.linesRemoved) = d.lineAt? line := by
  have hstart : e.start.line = before.count '\n' := congrArg Position.line he.1
  have hstop : e.stop.line = (before ++ removed).count '\n' := congrArg Position.line he.2
  obtain ⟨n, hn⟩ := Nat.exists_eq_add_of_lt hline
  have hline' : line = (before ++ removed).count '\n' + (n + 1) := by omega
  have hmoved : line + e.linesAdded - e.linesRemoved
      = (before ++ e.text).count '\n' + (n + 1) := by
    rw [Edit.linesRemoved, Edit.linesAdded, hstart, hstop, hline']
    simp only [List.count_append]
    omega
  rw [lineAt?_eq_splitLines (edit_onlyFeeds hd hfeeds htext he), lineAt?_eq_splitLines hd,
    edit_text hd.ordinaryBreaks htext he, hmoved, hline', htext, getElem?_splitLines_append_right,
    getElem?_splitLines_append_right]

end Swatch

-- SUMMARY: Colored text and warnings of a window are those of the whole text on its lines.
import Swatch.Proofs.Scan.Apart
import Mathlib.Data.List.Sort

/-!
# Colored text in a window

What a code or a braced color colors is told by its string alone, and a string is on
one line. A literal in front of a string colors it unless something of it is covered,
and only codes and braced colors of that very string can cover it. So text is colored
in a window just if it is colored in the whole text and is on a line of the window.

Marks of one role stand one behind the other, so two scans with the same marks list
them in the same order. Warnings are given line by line.
-/

namespace Swatch

def Source.allLines (s : Source) : LineRange :=
  ⟨0, s.lineCount - 1⟩

/-- The lines of a range are those of a text that are in the range. -/
theorem LineRange.toList_eq_filter {r : LineRange} {count : Nat} (hlast : r.last < count) :
    r.toList = (LineRange.toList ⟨0, count - 1⟩).filter (· ∈ r) := by
  refine List.Pairwise.eq_of_mem_iff (r := (· < ·)) List.pairwise_lt_range'
    (List.Pairwise.filter _ List.pairwise_lt_range') fun line => ?_
  rw [List.mem_filter, mem_toList, mem_toList, decide_eq_true_eq]
  refine (and_iff_right_of_imp fun hmem => ⟨Nat.zero_le _, ?_⟩).symm
  exact Nat.le_sub_one_of_lt (Nat.lt_of_le_of_lt hmem.2 hlast)

/-- The warning is about a string on one of the lines. -/
def Advisory.isOn (lines : LineRange) : Advisory → Bool
  | .crashRisk line _ => line ∈ lines
  | .capacityExceeded _ _ => false

namespace Source

variable {s : Source} {style : Style} {q : Quoted} {m : Mark} {lines : LineRange}

/-- The whole text is the window of all lines. -/
theorem hasWindow_allLines (s : Source) : s.HasWindow s.allLines [] s.text [] := by
  have hlast : s.allLines.last < s.lineCount :=
    Nat.sub_one_lt_of_lt (s.lineOf_lt_lineCount 0)
  have hle : s.allLines.first ≤ s.allLines.last := Nat.zero_le _
  obtain ⟨before, part, after, h⟩ := exists_hasWindow hle hlast
  have hbefore : before = [] :=
    Text.size_eq_zero_iff.1 (Nat.le_zero.1 ((h.first_le_iff 0).1 (Nat.zero_le _)))
  have hafter : after = [] := by
    have hlast := (h.le_last_iff (before.size + part.size + 1)).1
      (Nat.le_sub_one_of_lt (s.lineOf_lt_lineCount _))
    exact hlast.resolve_right (Nat.not_succ_le_self _)
  subst hbefore hafter
  have hpart : part = s.text := by
    rw [← h.hasLines.text_eq, List.nil_append, List.append_nil]
  exact hpart ▸ h

/-! ## Lines of marks -/

theorem line_eq_of_within {n : Nat} (hq : q ∈ s.quotes n) (hempty : m.extent.isEmpty = false)
    (hline : m.line = s.lineOf m.extent.start) (hwithin : m.extent.Within q.content) :
    m.line = n := by
  have hlt := Interval.start_lt_stop hempty
  rw [hline]
  exact lineOf_quote hq hwithin.start_le (Nat.le_trans (Nat.le_of_lt hlt) hwithin.stop_le)

theorem codeMarks_line {n : Nat} (hq : q ∈ s.quotes n) (h : m ∈ s.codeMarks style q) :
    m.line = n := by
  obtain ⟨-, hempty, hline, -⟩ := mem_codeMarks h
  exact line_eq_of_within hq hempty hline (codeMarks_within hq h)

theorem inlineMarks_line {n : Nat} (hq : q ∈ s.quotes n) (h : m ∈ s.inlineMarks style q) :
    m.line = n := by
  obtain ⟨-, hempty, hline, -⟩ := mem_inlineMarks h
  exact line_eq_of_within hq hempty hline (inlineMarks_within hq h)

/-- The marks of the strings of some lines are those of any string that are on the lines. -/
theorem mem_flatMap_strings {marks : Quoted → List Mark}
    (hline : ∀ {n q m}, q ∈ s.quotes n → m ∈ marks q → m.line = n) :
    m ∈ (s.stringsIn lines).flatMap marks ↔ m.line ∈ lines ∧
      ∃ n, ∃ q ∈ s.quotes n, s.inBlockComment q.content.start = false ∧ m ∈ marks q := by
  simp only [List.mem_flatMap, mem_stringsIn]
  constructor
  · rintro ⟨q, ⟨n, hfirst, hlast, hq, hcomment⟩, hm⟩
    exact ⟨hline hq hm ▸ ⟨hfirst, hlast⟩, n, q, hq, hcomment, hm⟩
  · rintro ⟨hmem, n, q, hq, hcomment, hm⟩
    have hmem := hline hq hm ▸ hmem
    exact ⟨q, ⟨n, hmem.1, hmem.2, hq, hcomment⟩, hm⟩

/-! ## What is covered -/

/-- Codes and braced colors of a string that is in no block comment cover a part of an interval. -/
def IsCovered (s : Source) (i : Interval) : Prop :=
  ∃ offset ∈ i, ∃ n, ∃ q ∈ s.quotes n, s.inBlockComment q.content.start = false ∧
    ∃ j ∈ s.codeCover q ++ s.inlineCover q, offset ∈ j

theorem cover_within {n : Nat} (hq : q ∈ s.quotes n) {j : Interval}
    (hj : j ∈ s.codeCover q ++ s.inlineCover q) : j.Within q.content := by
  refine within_content (s := s) (quotes_start_le_stop hq) ?_
  rcases List.mem_append.1 hj with hj | hj
  · rcases List.mem_append.1 hj with hj | hj
    · obtain ⟨l, hl, rfl⟩ := List.mem_map.1 hj
      obtain ⟨c, hc, rfl⟩ := List.mem_map.1 hl
      exact ((GameText.areCodes_codes _ _).finds c hc).within
    · obtain ⟨r, hr, rfl⟩ := List.mem_map.1 hj
      obtain ⟨hr, hhue⟩ := List.mem_filter.1 hr
      obtain ⟨o, ho, hgoverns⟩ := GameText.mem_runs hr hhue
      exact hgoverns.within ho
  · obtain ⟨r, hr, hj⟩ := List.mem_flatMap.1 hj
    obtain ⟨o, ho, hgoverns, hcode⟩ := Inline.mem_runs hr
    simp only [List.mem_cons, List.not_mem_nil, or_false] at hj
    rcases hj with rfl | rfl
    · exact hcode ▸ ho.within
    · exact hgoverns.within ho

/-- What is covered of a string is covered by the string itself. -/
theorem meets_cover_stringsIn_iff {n : Nat} (hq : q ∈ s.quotes n) (hn : n ∈ lines)
    (hempty : q.content.isEmpty = false) :
    (s.cover (s.stringsIn lines)).meets q.content ↔ s.IsCovered q.content := by
  rw [meets_cover_iff hempty]
  refine exists_congr fun offset => and_congr_right fun hoffset => ?_
  constructor
  · rintro ⟨q', hq', j, hj, hmem⟩
    obtain ⟨k, -, -, hq', hcomment⟩ := mem_stringsIn.1 hq'
    exact ⟨k, q', hq', hcomment, j, hj, hmem⟩
  · rintro ⟨k, q', hq', hcomment, j, hj, hmem⟩
    have hoffset' := (cover_within hq' hj).mem hmem
    have hk : k = n := by
      rw [← lineOf_quote hq hoffset.1 (Nat.le_of_lt hoffset.2),
        lineOf_quote hq' hoffset'.1 (Nat.le_of_lt hoffset'.2)]
    subst hk
    exact ⟨q', mem_stringsIn.2 ⟨k, hn.1, hn.2, hq', hcomment⟩, j, hj, hmem⟩

/-! ## Colored text -/

/-- A literal of the text colors the string argument behind it, of which nothing is covered. -/
def ColorsArgument (s : Source) (style : Style) (m : Mark) : Prop :=
  ∃ o a, Pattern.Finds ColorArgument.token 0 s.text o ∧ ColorArgument.ofOccurrence? s o = some a ∧
    ¬ s.IsCovered a.string.content ∧ m ∈ s.mark? ⟨a.literal.color, style, .text⟩ a.string.content

theorem HasWindow.mem_argumentMarks_iff {before part after : Text}
    (h : s.HasWindow lines before part after) :
    m ∈ s.argumentMarks style (s.cover (s.stringsIn lines))
        ⟨before.size, before.size + (stripReturn part).size⟩
      ↔ m.line ∈ lines ∧ s.ColorsArgument style m := by
  -- The string is on the line of the literal, and its own line tells whether it is covered.
  have hmeets {o : Occurrence} {a : ColorArgument} (ha : ColorArgument.ofOccurrence? s o = some a)
      (hline : s.lineOf o.offset ∈ lines) (hempty : a.string.content.isEmpty = false) :
      (s.cover (s.stringsIn lines)).meets a.string.content ↔ s.IsCovered a.string.content :=
    meets_cover_stringsIn_iff (ColorArgument.ofOccurrence?_string ha).1 hline hempty
  simp only [argumentMarks, List.mem_filterMap, h.mem_colorArguments_iff]
  constructor
  · rintro ⟨a, ⟨o, ho, ha, hline⟩, hm⟩
    split at hm
    · cases hm
    · next hnot =>
      obtain ⟨-, hextent, hempty, hmline⟩ := mem_mark? hm
      refine ⟨?_, o, a, ho, ha, fun hcovered => hnot ((hmeets ha hline hempty).2 hcovered), hm⟩
      rwa [hmline, ColorArgument.lineOf_string ha]
  · rintro ⟨hline, o, a, ho, ha, hnot, hm⟩
    obtain ⟨-, hextent, hempty, hmline⟩ := mem_mark? hm
    rw [hmline, ColorArgument.lineOf_string ha] at hline
    refine ⟨a, ⟨o, ho, ha, hline⟩, ?_⟩
    rw [if_neg (mt (hmeets ha hline hempty).1 hnot)]
    exact hm

/-- Text of the source that is colored, wherever it stands. -/
def Colors (s : Source) (settings : Settings) (m : Mark) : Prop :=
  (settings.gameText.enabled ∧ ∃ n, ∃ q ∈ s.quotes n, s.inBlockComment q.content.start = false ∧
      m ∈ s.codeMarks settings.gameText.style q) ∨
    (settings.inlineText.enabled ∧ ∃ n, ∃ q ∈ s.quotes n, s.inBlockComment q.content.start = false ∧
      m ∈ s.inlineMarks settings.inlineText.style q) ∨
    (settings.inlineText.enabled ∧ s.ColorsArgument settings.inlineText.style m)

theorem HasWindow.mem_textMarks_iff {before part after : Text}
    (h : s.HasWindow lines before part after) {settings : Settings} :
    m ∈ s.textMarks settings lines ⟨before.size, before.size + (stripReturn part).size⟩
      ↔ m.line ∈ lines ∧ s.Colors settings m := by
  simp only [textMarks, List.mem_append, Scan.mem_ofFamily, mem_flatMap_strings codeMarks_line,
    mem_flatMap_strings inlineMarks_line, h.mem_argumentMarks_iff, Colors]
  by_cases hline : m.line ∈ lines <;> simp [hline, or_assoc]

/-! ## Warnings -/

/-- The first string of a line that is warned about, if there is one. -/
def firstRisk? (s : Source) (n : Nat) : Option Quoted :=
  (s.quotes n).find? fun q => !s.inBlockComment q.content.start && s.isRisky q

/-- Nothing more is said about a line that has been warned about. -/
theorem warnings_of_warned {n : Nat} {strings : List Quoted}
    (hline : ∀ q ∈ strings, s.lineOf q.content.start = n) : s.warnings (some n) strings = [] := by
  induction strings with
  | nil => rfl
  | cons q strings ih =>
    obtain ⟨hq, hrest⟩ := List.forall_mem_cons.1 hline
    simp [warnings, hq, ih hrest]

/-- The warnings about the strings of one line, if the line has not been warned about. -/
theorem warnings_line {n : Nat} {strings : List Quoted}
    (hline : ∀ q ∈ strings, s.lineOf q.content.start = n) {last : Option Nat}
    (hlast : last ≠ some n) :
    s.warnings last strings
      = ((strings.find? s.isRisky).map fun q => .crashRisk n q.content).toList := by
  induction strings with
  | nil => rfl
  | cons q strings ih =>
    obtain ⟨hq, hrest⟩ := List.forall_mem_cons.1 hline
    cases hrisky : s.isRisky q with
    | true => simp [warnings, hrisky, hq, hlast, warnings_of_warned hrest]
    | false => simp [warnings, hrisky, ih hrest]

/-- The warnings about strings that follow others depend on the last warning about those. -/
theorem exists_warnings_append (last : Option Nat) (strings strings' : List Quoted) :
    ∃ last', s.warnings last (strings ++ strings')
        = s.warnings last strings ++ s.warnings last' strings' ∧
      (last' = last ∨ ∃ q ∈ strings, last' = some (s.lineOf q.content.start)) := by
  induction strings generalizing last with
  | nil => exact ⟨last, rfl, .inl rfl⟩
  | cons q strings ih =>
    simp only [List.cons_append, warnings]
    split
    · obtain ⟨last', heq, hlast⟩ := ih (some (s.lineOf q.content.start))
      refine ⟨last', by rw [heq, List.cons_append], .inr ?_⟩
      rcases hlast with rfl | ⟨q', hq', rfl⟩
      · exact ⟨q, List.mem_cons_self, rfl⟩
      · exact ⟨q', List.mem_cons_of_mem q hq', rfl⟩
    · obtain ⟨last', heq, hlast⟩ := ih last
      refine ⟨last', heq, hlast.imp_right ?_⟩
      rintro ⟨q', hq', rfl⟩
      exact ⟨q', List.mem_cons_of_mem q hq', rfl⟩

/-- Each line has the warning about the first of its strings that is risky, if it has any. -/
theorem warnings_eq_filterMap {numbers : List Nat} (hnumbers : numbers.Pairwise (· < ·))
    {last : Option Nat} (hlast : ∀ n ∈ numbers, last ≠ some n) :
    s.warnings last ((numbers.flatMap s.quotes).filter fun q => !s.inBlockComment q.content.start)
      = numbers.filterMap fun n => (s.firstRisk? n).map fun q => .crashRisk n q.content := by
  induction numbers generalizing last with
  | nil => rfl
  | cons n numbers ih =>
    obtain ⟨hbelow, hnumbers⟩ := List.pairwise_cons.1 hnumbers
    obtain ⟨hn, hrest⟩ := List.forall_mem_cons.1 hlast
    rw [List.flatMap_cons, List.filter_append]
    have hline : ∀ q ∈ (s.quotes n).filter fun q => !s.inBlockComment q.content.start,
        s.lineOf q.content.start = n := by
      intro q hq
      have hq := (List.mem_filter.1 hq).1
      exact lineOf_quote hq (Nat.le_refl _) (quotes_start_le_stop hq)
    obtain ⟨last', hsplit, hlast'⟩ := s.exists_warnings_append last
      ((s.quotes n).filter fun q => !s.inBlockComment q.content.start)
      ((numbers.flatMap s.quotes).filter fun q => !s.inBlockComment q.content.start)
    -- The line that is carried on is not below this one.
    have hcarried : ∀ m ∈ numbers, last' ≠ some m := by
      intro m hm
      rcases hlast' with rfl | ⟨q, hq, rfl⟩
      · exact hrest m hm
      · rw [hline q hq]
        intro heq
        exact Nat.ne_of_lt (hbelow m hm) (Option.some.inj heq)
    rw [hsplit, warnings_line hline hn, ih hnumbers hcarried, List.find?_filter, List.filterMap_cons]
    cases hfirst : s.firstRisk? n with
    | none =>
      rw [firstRisk?] at hfirst
      simp [hfirst]
    | some q =>
      rw [firstRisk?] at hfirst
      simp [hfirst]

theorem warnings_stringsIn_eq (s : Source) (lines : LineRange) :
    s.warnings none (s.stringsIn lines)
      = lines.toList.filterMap fun n => (s.firstRisk? n).map fun q => .crashRisk n q.content := by
  apply warnings_eq_filterMap
  · exact List.pairwise_lt_range'
  · intro n _ heq
    cases heq

/-- Each line is warned about by itself, so the warnings of some lines are those about these
lines. -/
theorem warnings_stringsIn {count : Nat} (hlast : lines.last < count) :
    s.warnings none (s.stringsIn lines)
      = (s.warnings none (s.stringsIn ⟨0, count - 1⟩)).filter (·.isOn lines) := by
  rw [warnings_stringsIn_eq, warnings_stringsIn_eq, LineRange.toList_eq_filter hlast,
    List.filterMap_filter, List.filter_filterMap]
  refine List.filterMap_congr fun n _ => ?_
  cases s.firstRisk? n with
  | none => simp
  | some q => simp [Option.filter, Advisory.isOn]

end Source

namespace Scan

variable {s : Source} {lines : LineRange} {settings : Settings}

/-- A mark starts before another one. -/
def Precedes (m n : Mark) : Prop :=
  m.extent.start < n.extent.start

instance : Std.Irrefl Precedes := ⟨fun _ => Nat.lt_irrefl _⟩

instance : Std.Antisymm Precedes := ⟨fun _ _ h h' => absurd (Nat.lt_trans h h') (Nat.lt_irrefl _)⟩

theorem isEmpty_of_mem {m : Mark} (h : m ∈ (ofLines s lines settings).marks) :
    m.extent.isEmpty = false ∧ m.line = s.lineOf m.extent.start := by
  cases hwindow : s.window? lines with
  | none => simp [ofLines, hwindow] at h
  | some window =>
    rcases List.mem_append.1 ((perm_marks settings hwindow).mem_iff.1 h) with h | h
    · exact (mem_textMarks h).2
    · exact (Source.mem_literalMarks (mem_ofFamily.1 h).2).2

/-- The marks of one role stand in order. -/
theorem pairwise_precedes (s : Source) (lines : LineRange) (settings : Settings) (role : Role)
    {keep : Mark → Bool} (hkeep : ∀ m, keep m → m.paint.role = role) :
    ((ofLines s lines settings).marks.filter keep).Pairwise Precedes := by
  refine ((pairwise_marks s lines settings).filter keep).imp_of_mem fun {m n} hm hn hle => ?_
  obtain ⟨hm, hkm⟩ := List.mem_filter.1 hm
  obtain ⟨-, hkn⟩ := List.mem_filter.1 hn
  have hlt := Interval.start_lt_stop (isEmpty_of_mem hm).1
  exact Nat.lt_of_lt_of_le hlt (hle ((hkeep m hkm).trans (hkeep n hkn).symm))

theorem mem_text_iff {before part after : Text} (h : s.HasWindow lines before part after)
    {m : Mark} : m ∈ (ofLines s lines settings).marks ∧ m.paint.role = .text
      ↔ m.line ∈ lines ∧ s.Colors settings m := by
  rw [(perm_marks settings h.window_eq).mem_iff, List.mem_append, ← h.mem_textMarks_iff]
  constructor
  · rintro ⟨hm | hm, hrole⟩
    · exact hm
    · rw [(Source.mem_literalMarks (mem_ofFamily.1 hm).2).1] at hrole
      cases hrole
  · exact fun hm => ⟨.inl hm, (mem_textMarks hm).1⟩

theorem mem_allLines (hlast : lines.last < s.lineCount) {line : Nat} (h : line ∈ lines) :
    line ∈ s.allLines :=
  ⟨Nat.zero_le _, Nat.le_sub_one_of_lt (Nat.lt_of_le_of_lt h.2 hlast)⟩

/-- Text is colored in a window just if it is colored in the whole text, on a line of the window,
and the warnings are those about these lines. -/
theorem text_of_window (text : Text) (settings : Settings) {lines : LineRange}
    (hle : lines.first ≤ lines.last) (hlast : lines.last < Source.lineCount { text }) :
    let whole := ofText text (Source.allLines { text }) settings
    let scan := ofText text lines settings
    scan.marks.filter (·.paint.role = .text)
        = whole.marks.filter (fun m => m.paint.role = .text ∧ m.line ∈ lines) ∧
      scan.advisories = whole.advisories.filter (·.isOn lines) := by
  intro whole scan
  obtain ⟨before, part, after, hwindow⟩ := Source.exists_hasWindow hle hlast
  have hwhole := Source.hasWindow_allLines { text }
  constructor
  · refine List.Pairwise.eq_of_mem_iff (pairwise_precedes _ _ _ .text fun m hm => ?_)
      (pairwise_precedes _ _ _ .text fun m hm => ?_) fun m => ?_
    · simpa using hm
    · exact (of_decide_eq_true hm).1
    · simp only [List.mem_filter, decide_eq_true_eq, ← and_assoc]
      refine (mem_text_iff hwindow).trans (Iff.trans ?_
        (and_congr_left fun _ => (mem_text_iff hwhole).symm))
      constructor
      · exact fun h => ⟨⟨mem_allLines hlast h.1, h.2⟩, h.1⟩
      · exact fun h => ⟨h.2, h.1.2⟩
  · simp only [scan, whole, ofText, ofLines, hwindow.window_eq, hwhole.window_eq]
    exact Source.warnings_stringsIn hlast

/-- The literal in front of a string on the next line colors nothing, and of the whole text only
what the middle line shows is left. -/
theorem text_of_window_middle_line :
    let text : Text := "f(0xFF0000,\n\"~r~a~\",\"b\")\n\"\x7b00FF00\x7dc\"".toList
    let lines : LineRange := ⟨1, 1⟩
    let whole := ofText text (Source.allLines { text }) {}
    lines.first ≤ lines.last ∧ lines.last < Source.lineCount { text } ∧
      (whole.marks.filter fun m => m.paint.role = .text ∧ m.line ∈ lines).map (·.extent)
        = [⟨16, 18⟩] ∧
      whole.advisories.filter (·.isOn lines) = [.crashRisk 1 ⟨13, 18⟩] := by
  intro text lines whole
  have hle : lines.first ≤ lines.last := by decide
  have hlast : lines.last < Source.lineCount { text } := by decide +kernel
  obtain ⟨hmarks, hadvisories⟩ := text_of_window text {} hle hlast
  refine ⟨hle, hlast, ?_, ?_⟩
  · rw [← hmarks]
    decide +kernel
  · rw [← hadvisories]
    decide +kernel

end Scan

end Swatch

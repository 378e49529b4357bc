-- SUMMARY: Scans never fail, and their marks are whole characters of lines and of strings.
import Swatch.Proofs.Offsets.Scan
import Swatch.Proofs.Scan.Window

/-!
# Scans never fail

A mark is made of whole characters: it is a token, the run behind a token, or the content
of a string, and each of these is a part of the text. Tokens of literals have no line end,
and colored text is inside a string, so a mark stays on the line that it starts on. Each
string is listed outside of block comments; one that is colored as an argument starts as
far outside of them as the literal in front of it, since nothing opens or closes a comment
in between.

A scan by offsets reads nothing in vain, so its marks are those of the scan.
-/

namespace Swatch

/-! ## Parts of texts -/

/-- An interval covers whole characters of a text that starts at `base`. -/
def Text.HasPart (t : Text) (base : Nat) (i : Interval) : Prop :=
  ∃ left part right : Text, left ++ (part ++ right) = t ∧ i = .ofSize (base + left.size) part.size

section HasPart

variable {base : Nat} {t : Text} {i : Interval}

theorem Text.HasPart.isBoundary (h : t.HasPart 0 i) :
    t.isBoundary i.start ∧ t.isBoundary i.stop := by
  obtain ⟨left, part, right, htext, rfl⟩ := h
  refine ⟨Text.isBoundary_iff.2 ⟨left, part ++ right, htext, ?_⟩,
    Text.isBoundary_iff.2 ⟨left ++ part, right, ?_, ?_⟩⟩
  · simp [Interval.ofSize]
  · rw [List.append_assoc, htext]
  · simp [Interval.ofSize]

/-- A part of a part is a part. -/
theorem Text.HasPart.widen {before content after : Text}
    (h : content.HasPart (base + before.size) i) :
    HasPart (before ++ (content ++ after)) base i := by
  obtain ⟨left, part, right, rfl, rfl⟩ := h
  refine ⟨before ++ left, part, right ++ after, by simp, ?_⟩
  rw [Text.size_append, Nat.add_assoc]

variable {p : Pattern} {o : Occurrence}

theorem Occurrence.Governs.hasPart {stop : Text → Bool} (h : o.Governs stop i)
    (ho : p.Finds base t o) : t.HasPart base i := by
  obtain ⟨part, rest, hafter, rfl, -⟩ := h.exists_part
  refine ⟨o.before.reverse ++ o.token, part, rest, ?_, ?_⟩
  · rw [← ho.text_eq, hafter, List.append_assoc]
  · rw [Text.size_append, Text.size_reverse, ← Nat.add_assoc, ← ho.offset_eq]
    rfl

end HasPart

/-! ## Sound marks -/

/-- A mark that a scan of some lines may give: it is not empty, covers whole characters on one of
the lines, and colors text inside a string only, one that does not start in a block comment. -/
structure Mark.IsSound (s : Source) (lines : LineRange) (m : Mark) : Prop where
  start_lt_stop : m.extent.start < m.extent.stop
  start_isBoundary : s.text.isBoundary m.extent.start
  stop_isBoundary : s.text.isBoundary m.extent.stop
  line_mem : m.line ∈ lines
  within_line : ∃ l, s.lines[m.line]? = some l ∧ m.extent.Within l.extent
  within_string : m.paint.role = .text → ∃ q ∈ s.quotes m.line,
    s.inBlockComment q.content.start = false ∧ m.extent.Within q.content

/-! ## Lines -/

/-- Characters that are no carriage return are not stripped, nor is what stands in front of them. -/
theorem size_le_stripReturn {part : Text} (lead more : Text) (hne : part ≠ [])
    (hpart : ∀ c ∈ part, c ≠ '\r') :
    lead.size + part.size ≤ (stripReturn (lead ++ (part ++ more))).size := by
  obtain ⟨ret, hstrip, hret⟩ := exists_stripReturn_append (lead ++ (part ++ more))
  have hsize := congrArg Text.size hstrip
  simp only [Text.size_append] at hsize
  rcases hret with rfl | rfl
  · simp only [Text.size_nil] at hsize
    omega
  · have hreturn : '\r'.utf8Size = 1 := rfl
    rcases List.eq_nil_or_concat' more with rfl | ⟨start, c, rfl⟩
    · have hlast := congrArg List.getLast? hstrip
      obtain ⟨start, c, rfl⟩ := (List.eq_nil_or_concat' part).resolve_left hne
      simp only [List.append_nil, ← List.append_assoc, List.getLast?_concat, Option.some.injEq]
        at hlast
      exact absurd hlast.symm (hpart c (by simp))
    · have hpos := Char.utf8Size_pos c
      simp only [Text.size_append, Text.size_cons, Text.size_nil] at hsize
      omega

/-- Pairs that end in a character are not completed by a text without it. -/
theorem Text.countPair_append {a b : Char} {right : Text} (h : b ∉ right) (left : Text) :
    countPair a b (left ++ right) = countPair a b left := by
  have hright (t : Text) (ht : b ∉ t) (c : Char) : countPair a b (c :: t) = 0 := by
    induction t generalizing c with
    | nil => rfl
    | cons d t ih =>
      obtain ⟨hd, ht⟩ := not_or.1 (mt List.mem_cons.2 ht)
      rw [countPair, if_neg fun heq => hd heq.2.symm, ih ht]
  induction left with
  | nil =>
    cases right with
    | nil => rfl
    | cons c right => exact hright right (fun hmem => h (List.mem_cons_of_mem c hmem)) c
  | cons c left ih =>
    cases left with
    | nil => exact hright right h c
    | cons d left => rw [List.cons_append, List.cons_append, countPair, countPair, ← ih]; rfl

/-- A token of a color argument has no characters of the marks of comments. -/
theorem ColorArgument.IsToken.ne_mark_of_mem {token : Text} (h : IsToken token) {c : Char}
    (hc : c ∈ token) : c ≠ '/' ∧ c ≠ '*' := by
  obtain ⟨x, digits, lead, trail, rfl, hx, -, hdigits, hlead, htrail⟩ := h
  have hplain : isWordChar c ∨ isBlank c ∨ c = ',' ∨ c = '"' := by
    simp only [List.mem_append, List.mem_cons, List.not_mem_nil, or_false] at hc
    rcases hc with (rfl | rfl | hc) | hc | rfl | hc | rfl
    · exact .inl (by decide)
    · exact .inl (isWordChar_of_isMark hx)
    · exact .inl (isWordChar_of_isHexDigit (hdigits c hc))
    · exact .inr (.inl (hlead c hc))
    · exact .inr (.inr (.inl rfl))
    · exact .inr (.inl (htrail c hc))
    · exact .inr (.inr (.inr rfl))
  constructor <;> rintro rfl <;> exact absurd hplain (by decide)

namespace Source

open Pattern (endsLine)

variable {s : Source} {style : Style} {lines : LineRange} {m : Mark}

/-- Characters that end no line stay on the line of the first one. -/
theorem exists_line_of_part {left part right : Text} (htext : left ++ (part ++ right) = s.text)
    (hne : part ≠ []) (hpart : ∀ c ∈ part, endsLine c = false) :
    ∃ l, s.lines[s.lineOf left.size]? = some l ∧
      Interval.Within (.ofSize left.size part.size) l.extent := by
  have hcount := s.lineOf_lt_lineCount left.size
  rw [lineCount_eq_count] at hcount
  obtain ⟨before, line, after, hlines, hfeed, hline⟩ :=
    exists_hasLines s.text (Nat.le_of_lt_succ hcount)
  have hl := getElem?_lines hlines hfeed
  rw [hline] at hl
  refine ⟨_, hl, (le_lineOf_iff hl left.size).1 (Nat.le_refl _), ?_⟩
  -- The part starts on the line, so it stands in what is left of the line.
  have hstop := (lineOf_le_iff hlines left.size).1
    (by rw [List.count_append, List.count_eq_zero.2 hfeed, hline]; exact Nat.le_refl _)
  obtain ⟨lead, rfl, hrest⟩ := Text.exists_middle (hlines.text_eq.trans htext.symm)
    ((le_lineOf_iff hl left.size).1 (Nat.le_refl _))
  have hsize := congrArg Text.size hrest
  simp only [Text.size_append] at hsize hstop
  obtain ⟨tail, rfl, htail⟩ := Text.exists_middle hrest.symm (by
    rcases hstop with rfl | hle
    · simp only [Text.size_nil] at hsize
      omega
    · omega)
  rcases Nat.lt_or_ge tail.size part.size with hlt | hle
  · -- The part would have the line feed behind the line.
    obtain ⟨more, rfl, hafter⟩ := Text.exists_middle htail.symm (Nat.le_of_lt hlt)
    cases more with
    | nil => simp at hlt
    | cons c more =>
      obtain rfl : c = '\n' := by simpa [hafter] using hlines.after_starts
      exact absurd (hpart '\n' (by simp)) (by decide)
  · obtain ⟨more, rfl, -⟩ := Text.exists_middle htail hle
    have hstrip := size_le_stripReturn lead more hne fun c hc => by
      rintro rfl
      exact absurd (hpart '\r' hc) (by decide)
    simp only [Line.extent, Interval.ofSize, Text.size_append]
    omega

/-! ## Comments -/

/-- Behind characters that belong to no mark of a comment, a place is as far inside of comments as
before them. -/
theorem inBlockComment_behind {left part right : Text} (htext : left ++ (part ++ right) = s.text)
    (hpart : ∀ c ∈ part, c ≠ '/' ∧ c ≠ '*') :
    s.inBlockComment (left.size + part.size) = s.inBlockComment left.size := by
  have hslash : '/' ∉ part := fun hmem => (hpart '/' hmem).1 rfl
  have hstar : '*' ∉ part := fun hmem => (hpart '*' hmem).2 rfl
  have hbefore : s.text.splitAt? left.size = some (left, part ++ right) :=
    Text.splitAt?_eq_some_iff.2 ⟨htext, rfl⟩
  have hbehind : s.text.splitAt? (left.size + part.size) = some (left ++ part, right) :=
    Text.splitAt?_eq_some_iff.2 ⟨by rw [List.append_assoc, htext], Text.size_append _ _⟩
  simp only [inBlockComment, hbefore, hbehind, Text.countPair_append hslash,
    Text.countPair_append hstar]

/-! ## Colored text -/

/-- A string is a part of its text. -/
theorem hasPart_content {n : Nat} {q : Quoted} (hq : q ∈ s.quotes n) :
    s.text.HasPart 0 q.content := by
  obtain ⟨before, content, after, htext, hcontent⟩ := Offsets.exists_content hq
  exact ⟨before, content, after, htext, by rw [hcontent, Interval.ofSize, Nat.zero_add]⟩

/-- A part of a string is a part of its text. -/
theorem hasPart_of_content {n : Nat} {q : Quoted} (hq : q ∈ s.quotes n) {i : Interval}
    (h : (s.text.slice q.content).HasPart q.content.start i) : s.text.HasPart 0 i := by
  obtain ⟨before, content, after, htext, hcontent⟩ := Offsets.exists_content hq
  have hslice : s.text.slice q.content = content := by
    rw [hcontent, ← htext, ← List.append_assoc, Text.slice_append]
  rw [hslice, hcontent, ← Nat.zero_add before.size] at h
  exact htext ▸ h.widen

/-- Colored text inside a string is on the line of the string. -/
theorem isSound_of_string {n : Nat} {q : Quoted} (hq : q ∈ s.quotes n) (hn : n ∈ lines)
    (hcomment : s.inBlockComment q.content.start = false) (hempty : m.extent.isEmpty = false)
    (hline : m.line = s.lineOf m.extent.start) (hpart : s.text.HasPart 0 m.extent)
    (hwithin : m.extent.Within q.content) : m.IsSound s lines := by
  obtain ⟨l, hl, hmem⟩ := mem_quotes hq
  obtain ⟨hstart, -, hstop⟩ := Line.quotes_bounds hmem
  have hm := line_eq_of_within hq hempty hline hwithin
  exact {
    start_lt_stop := Interval.start_lt_stop hempty
    start_isBoundary := hpart.isBoundary.1
    stop_isBoundary := hpart.isBoundary.2
    line_mem := hm ▸ hn
    within_line := ⟨l, hm ▸ hl, hwithin.trans ⟨Nat.le_of_lt hstart, hstop⟩⟩
    within_string := fun _ => ⟨q, hm ▸ hq, hcomment, hwithin⟩ }

theorem isSound_of_mem_codeMarks {q : Quoted} (hq : q ∈ s.stringsIn lines)
    (h : m ∈ s.codeMarks style q) : m.IsSound s lines := by
  obtain ⟨n, hfirst, hlast, hq, hcomment⟩ := mem_stringsIn.1 hq
  obtain ⟨-, hempty, hline, -, o, ho, hgoverns⟩ := mem_codeMarks h
  exact isSound_of_string hq ⟨hfirst, hlast⟩ hcomment hempty hline
    (hasPart_of_content hq (hgoverns.hasPart ho)) (codeMarks_within hq h)

theorem isSound_of_mem_inlineMarks {q : Quoted} (hq : q ∈ s.stringsIn lines)
    (h : m ∈ s.inlineMarks style q) : m.IsSound s lines := by
  obtain ⟨n, hfirst, hlast, hq, hcomment⟩ := mem_stringsIn.1 hq
  obtain ⟨-, hempty, hline, -, o, ho, hgoverns⟩ := mem_inlineMarks h
  exact isSound_of_string hq ⟨hfirst, hlast⟩ hcomment hempty hline
    (hasPart_of_content hq (hgoverns.hasPart ho)) (inlineMarks_within hq h)

/-- The string of a color argument starts in no block comment, as its literal does. -/
theorem inBlockComment_argument {o : Occurrence} {a : ColorArgument}
    (ho : Pattern.Finds ColorArgument.token 0 s.text o)
    (ha : ColorArgument.ofOccurrence? s o = some a) :
    s.inBlockComment a.string.content.start = false := by
  have hliteral : s.inBlockComment o.offset = false := by
    unfold ColorArgument.ofOccurrence? at ha
    split at ha
    · cases ha
    · next hplain =>
      simp only [inComment, Bool.or_eq_true, not_or, Bool.not_eq_true] at hplain
      exact hplain.1.2
  have hoffset := ho.offset_eq
  rw [Nat.zero_add, ← Text.size_reverse] at hoffset
  rw [(ColorArgument.ofOccurrence?_string ha).2, Occurrence.extent, Interval.ofSize, hoffset,
    inBlockComment_behind ho.text_eq, ← hoffset, hliteral]
  exact fun c hc => (ColorArgument.finds_iff.1 ho).2.2.ne_mark_of_mem hc

theorem isSound_of_mem_argumentMarks {before part after : Text}
    (h : s.HasWindow lines before part after) {strings : List Quoted}
    (hm : m ∈ s.argumentMarks style (s.cover strings)
      ⟨before.size, before.size + (stripReturn part).size⟩) : m.IsSound s lines := by
  obtain ⟨-, hempty, hline, -, a, ha, hextent⟩ := mem_argumentMarks hm
  obtain ⟨o, ho, ha, hmem⟩ := h.mem_colorArguments_iff.1 ha
  have hq := (ColorArgument.ofOccurrence?_string ha).1
  exact isSound_of_string hq hmem (inBlockComment_argument ho ha) hempty hline
    (hextent ▸ hasPart_content hq) (hextent ▸ ⟨Nat.le_refl _, Nat.le_refl _⟩)

/-! ## Literals -/

/-- A literal of a window is a token without line ends. -/
theorem exists_token {window : Interval} {l : Literal} (hl : l ∈ s.literals window) :
    ∃ (p : Pattern) (o : Occurrence), p.Finds window.start (s.text.slice window) o ∧
      l.extent = o.extent ∧ ∀ c ∈ o.token, endsLine c = false := by
  have hends {c : Char} (hc : c ≠ '\n' ∧ c ≠ '\r') : endsLine c = false := by
    simpa [endsLine] using hc
  rcases List.mem_append.1 hl with hl | hl
  · rcases List.mem_append.1 (List.mem_filter.1 hl).1 with hl | hl
    · obtain ⟨o, ho, hextent⟩ := (Hex.areTokens_literals _ _).finds l hl
      refine ⟨_, o, ho, hextent, fun c hc => hends ?_⟩
      have hchar := (Hex.ensures_token.finds ho).isTokenChar_of_mem hc
      constructor <;> rintro rfl <;> exact absurd hchar (by decide)
    · obtain ⟨o, ho, hextent⟩ := (Braced.areTokens_literals _ _).finds l hl
      refine ⟨_, o, ho, hextent, fun c hc => hends ?_⟩
      have hchar := (Braced.ensures_token.finds ho).isHexDigit_of_mem hc
      constructor <;> rintro rfl <;> exact absurd hchar (by decide)
  · obtain ⟨o, ho, hextent⟩ := (Tuple.areTokens_literals _ _).finds l (List.mem_filter.1 hl).1
    refine ⟨_, o, ho, hextent, fun c hc => hends ?_⟩
    have hchar := (Tuple.ensures_token.finds ho).chars c hc
    constructor <;> rintro rfl <;> exact absurd hchar (by decide)

theorem isSound_of_mem_literalMarks {before part after : Text}
    (h : s.HasWindow lines before part after)
    (hm : m ∈ s.literalMarks style ⟨before.size, before.size + (stripReturn part).size⟩) :
    m.IsSound s lines := by
  obtain ⟨hrole, hempty, hline⟩ := mem_literalMarks hm
  obtain ⟨l, hl, hm⟩ := List.mem_filterMap.1 hm
  obtain ⟨p, o, ho, hextent, hends⟩ := exists_token hl
  obtain ⟨ret, htext, -, -⟩ := h.text_eq
  rw [h.slice_eq] at ho
  have hm : m.extent = o.extent := (mem_mark? hm).2.1.trans hextent
  have hread : before ++ o.before.reverse ++ (o.token ++ (o.after ++ (ret ++ after))) = s.text := by
    rw [← htext, ← ho.text_eq]
    simp
  have hoffset : Text.size (before ++ o.before.reverse) = o.offset := by
    rw [Text.size_append, Text.size_reverse, ho.offset_eq]
  obtain ⟨l, hl, hwithin⟩ := exists_line_of_part hread ho.token_ne_nil hends
  have hpart : s.text.HasPart 0 m.extent := by
    refine ⟨_, _, _, hread, ?_⟩
    rw [hm, hoffset, Nat.zero_add]
    rfl
  have hmem : s.lineOf o.offset ∈ lines := by
    have hstop := ho.stop_add_after
    have hstart := ho.start_lt_stop
    dsimp only at hstop
    exact h.lineOf_mem ho.base_le (by omega)
  rw [hoffset] at hl hwithin
  rw [hm] at hline
  exact {
    start_lt_stop := Interval.start_lt_stop hempty
    start_isBoundary := hpart.isBoundary.1
    stop_isBoundary := hpart.isBoundary.2
    line_mem := hline ▸ hmem
    within_line := ⟨l, hline ▸ hl, hm ▸ hwithin⟩
    within_string := fun htext => by
      rw [hrole] at htext
      cases htext }

end Source

/-! ## Scans -/

namespace Scan

theorem isSound_of_mem_marks {s : Source} {lines : LineRange} (hle : lines.first ≤ lines.last)
    (hlast : lines.last < s.lineCount) {settings : Settings} {m : Mark}
    (hm : m ∈ (ofLines s lines settings).marks) : m.IsSound s lines := by
  obtain ⟨before, part, after, h⟩ := Source.exists_hasWindow hle hlast
  rcases List.mem_append.1 ((perm_marks settings h.window_eq).mem_iff.1 hm) with hm | hm
  · rcases List.mem_append.1 hm with hm | hm
    · rcases List.mem_append.1 hm with hm | hm
      · obtain ⟨q, hq, hm⟩ := List.mem_flatMap.1 (mem_ofFamily.1 hm).2
        exact Source.isSound_of_mem_codeMarks hq hm
      · obtain ⟨q, hq, hm⟩ := List.mem_flatMap.1 (mem_ofFamily.1 hm).2
        exact Source.isSound_of_mem_inlineMarks hq hm
    · exact Source.isSound_of_mem_argumentMarks h (mem_ofFamily.1 hm).2
  · exact Source.isSound_of_mem_literalMarks h (mem_ofFamily.1 hm).2

/-- A scan of lines that the text has never fails: read by offsets, it reads nothing in vain, its
marks are sound, and they are in order. -/
theorem never_fails (text : Text) {lines : LineRange} (settings : Settings)
    (hle : lines.first ≤ lines.last) (hlast : lines.last < Source.lineCount { text }) :
    Offsets.scan text lines settings = .ok (ofText text lines settings) ∧
      (∀ m ∈ (ofText text lines settings).marks, m.IsSound { text } lines) ∧
      (ofText text lines settings).marks.Pairwise fun m n => m.extent.le n.extent :=
  ⟨Offsets.scan_eq hle hlast settings, fun _ hm => isSound_of_mem_marks hle hlast hm,
    sorted_marks { text } lines settings⟩

/-- A string that is not closed at the end of its line, colored by the literal in front of it. -/
theorem never_fails_shown :
    let text : Text := "f(0xFF0000, \"é\\\r\n\"~r~ü".toList
    let lines : LineRange := ⟨0, 0⟩
    let settings : Settings := { hex := { enabled := false } }
    let scan := ofText text lines settings
    lines.first ≤ lines.last ∧ lines.last < Source.lineCount { text } ∧
      scan.marks.map (·.extent) = [⟨13, 16⟩] ∧
      Offsets.scan text lines settings = .ok scan ∧
      (∀ m ∈ scan.marks, m.IsSound { text } lines) ∧
      scan.marks.Pairwise fun m n => m.extent.le n.extent := by
  intro text lines settings scan
  have hle : lines.first ≤ lines.last := by decide
  have hlast : lines.last < Source.lineCount { text } := by decide +kernel
  exact ⟨hle, hlast, by decide +kernel, never_fails text settings hle hlast⟩

end Scan

end Swatch

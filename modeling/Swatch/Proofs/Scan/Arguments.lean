-- SUMMARY: A literal in front of a string colors the string just if the string has no colors of its own.
import Swatch.Proofs.Scan.Sound

/-!
# Strings colored as arguments

A string that is an argument is colored by the literal in front of it unless something of
it is covered. Codes and braced colors cover what they color and themselves, whether their
family is shown or not, and they are inside their own string. So nothing of a string is
covered just if it has no code and no braced color, whatever the strings beside it have.

A run stands behind its code, so it never has the whole content of its string. A mark on
the whole content is therefore one of an argument.
-/

namespace Swatch

/-! ## Runs and covers of a string -/

/-- Each braced color has a run, which may be empty. -/
theorem Inline.map_code_runs (base : Nat) (t : Text) :
    (runs base t).map (·.code) = Braced.literals base t := by
  rw [runs, Braced.literals_eq, List.map_filterMap]
  refine List.filterMap_congr fun o _ => ?_
  unfold Run.ofOccurrence? Braced.literal?
  cases Braced.read? o.token <;> rfl

/-- Without a code no run has a color. -/
theorem GameText.filter_runs_eq_nil {base : Nat} {t : Text} (h : literals base t = []) :
    (runs base t).filter (·.hue.isSome) = [] := by
  have hcodes : codes base t = [] := List.map_eq_nil_iff.1 h
  refine List.filter_eq_nil_iff.2 fun r hr => ?_
  simp only [runs, hcodes, runsAfter, List.mem_filter, List.mem_singleton] at hr
  simp [hr.1]

namespace Source

variable {s : Source} {style : Style} {q : Quoted} {m : Mark} {n : Nat}

/-- A string that is not empty and has no colors of its own. -/
structure IsPlain (s : Source) (q : Quoted) : Prop where
  content_ne_nil : s.text.slice q.content ≠ []
  no_code : GameText.literals q.content.start (s.text.slice q.content) = []
  no_braced : Braced.literals q.content.start (s.text.slice q.content) = []

theorem isEmpty_content_iff (hq : q ∈ s.quotes n) :
    q.content.isEmpty = false ↔ s.text.slice q.content ≠ [] := by
  obtain ⟨left, part, right, htext, hcontent⟩ := hasPart_content hq
  have hslice : s.text.slice q.content = part := by
    rw [hcontent, ← htext, ← List.append_assoc, Nat.zero_add, Interval.ofSize, Text.slice_append]
  rw [hslice, hcontent]
  simp [Interval.isEmpty, Interval.ofSize]

/-- What covers a string is a code or a braced color of it, or a run behind one. -/
theorem exists_cover_iff (hq : q ∈ s.quotes n) :
    (∃ j ∈ s.codeCover q ++ s.inlineCover q, ∃ offset ∈ q.content, offset ∈ j) ↔
      GameText.literals q.content.start (s.text.slice q.content) ≠ [] ∨
        Braced.literals q.content.start (s.text.slice q.content) ≠ [] := by
  -- A literal of the string is not empty and inside the content.
  have hshares {p : Pattern} {literals : List Literal}
      (h : AreTokens p q.content.start (s.text.slice q.content) literals) {l : Literal}
      (hl : l ∈ literals) : ∃ offset ∈ q.content, offset ∈ l.extent := by
    obtain ⟨o, ho, hextent⟩ := h.finds l hl
    have hmem : o.offset ∈ l.extent := hextent ▸ ⟨Nat.le_refl _, ho.start_lt_stop⟩
    have hwithin := within_content (s := s) (quotes_start_le_stop hq) ho.within
    exact ⟨o.offset, (hextent ▸ hwithin).mem hmem, hmem⟩
  constructor
  · rintro ⟨j, hj, -⟩
    by_contra hnone
    obtain ⟨hcode, hbraced⟩ := not_or.1 hnone
    rw [not_not] at hcode hbraced
    have hruns := hbraced
    rw [← Inline.map_code_runs, List.map_eq_nil_iff] at hruns
    simp [codeCover, inlineCover, hcode, hruns, GameText.filter_runs_eq_nil hcode] at hj
  · rintro (hcode | hbraced)
    · obtain ⟨l, hl⟩ := List.exists_mem_of_ne_nil _ hcode
      exact ⟨l.extent, List.mem_append_left _ (List.mem_append_left _ (List.mem_map_of_mem hl)),
        hshares (GameText.areTokens_literals _ _) hl⟩
    · obtain ⟨l, hl⟩ := List.exists_mem_of_ne_nil _ hbraced
      have hl' := hl
      rw [← Inline.map_code_runs] at hl'
      obtain ⟨r, hr, rfl⟩ := List.mem_map.1 hl'
      exact ⟨r.code.extent, List.mem_append_right _ (List.mem_flatMap.2 ⟨r, hr, List.mem_cons_self⟩),
        hshares (Braced.areTokens_literals _ _) hl⟩

/-- Strings that share an offset are the same. -/
theorem eq_of_mem_content {k : Nat} {q' : Quoted} (hq : q ∈ s.quotes n) (hq' : q' ∈ s.quotes k)
    {offset : Nat} (hmem : offset ∈ q.content) (hmem' : offset ∈ q'.content) : q = q' :=
  (quotes_eq_or_disjoint hq hq').resolve_right fun hapart => hapart offset hmem hmem'

/-- Only the colors of a string itself cover something of it. -/
theorem isCovered_iff (hq : q ∈ s.quotes n) (hcomment : s.inBlockComment q.content.start = false) :
    s.IsCovered q.content ↔
      GameText.literals q.content.start (s.text.slice q.content) ≠ [] ∨
        Braced.literals q.content.start (s.text.slice q.content) ≠ [] := by
  rw [← exists_cover_iff hq]
  constructor
  · rintro ⟨offset, hoffset, k, q', hq', -, j, hj, hmem⟩
    obtain rfl := eq_of_mem_content hq hq' hoffset ((cover_within hq' hj).mem hmem)
    exact ⟨j, hj, offset, hoffset, hmem⟩
  · rintro ⟨j, hj, offset, hoffset, hmem⟩
    exact ⟨offset, hoffset, n, q, hq, hcomment, j, hj, hmem⟩

theorem isPlain_iff (hq : q ∈ s.quotes n) (hcomment : s.inBlockComment q.content.start = false) :
    s.IsPlain q ↔ q.content.isEmpty = false ∧ ¬ s.IsCovered q.content := by
  rw [isCovered_iff hq hcomment, not_or, not_not, not_not, isEmpty_content_iff hq]
  exact ⟨fun ⟨hne, hcode, hbraced⟩ => ⟨hne, hcode, hbraced⟩,
    fun ⟨hne, hcode, hbraced⟩ => ⟨hne, hcode, hbraced⟩⟩

/-! ## Marks on a whole string -/

/-- A run is behind a token of its string, so it has not the whole content of a string. -/
theorem extent_ne_content {p : Pattern} {o : Occurrence} {stop : Text → Bool} {run : Interval}
    {k : Nat} {q' : Quoted} (hq : q ∈ s.quotes n) (hq' : q' ∈ s.quotes k)
    (ho : p.Finds q'.content.start (s.text.slice q'.content) o) (hgoverns : o.Governs stop run)
    (hempty : run.isEmpty = false) : run ≠ q.content := by
  rintro rfl
  have hwithin := within_content (s := s) (quotes_start_le_stop hq') (hgoverns.within ho)
  have hmem : q.content.start ∈ q.content := ⟨Nat.le_refl _, Interval.start_lt_stop hempty⟩
  obtain rfl := eq_of_mem_content hq hq' hmem (hwithin.mem hmem)
  have hstart := hgoverns.start_eq
  have hlt := ho.start_lt_stop
  have hle := ho.base_le
  omega

/-- What is colored on the whole content of a string is colored as an argument. -/
theorem colors_content_iff {settings : Settings} (hinline : settings.inlineText.enabled)
    (hq : q ∈ s.quotes n) (hextent : m.extent = q.content) :
    s.Colors settings m ↔ s.ColorsArgument settings.inlineText.style m := by
  constructor
  · rintro (⟨-, k, q', hq', -, hm⟩ | ⟨-, k, q', hq', -, hm⟩ | ⟨-, hm⟩)
    · obtain ⟨-, hempty, -, -, o, ho, hgoverns⟩ := mem_codeMarks hm
      exact absurd hextent (extent_ne_content hq hq' ho hgoverns hempty)
    · obtain ⟨-, hempty, -, -, o, ho, hgoverns⟩ := mem_inlineMarks hm
      exact absurd hextent (extent_ne_content hq hq' ho hgoverns hempty)
    · exact hm
  · exact fun hm => .inr (.inr ⟨hinline, hm⟩)

end Source

namespace Scan

variable {s : Source} {lines : LineRange} {settings : Settings} {before part after : Text}
  {a : ColorArgument} {m : Mark}

/-- A mark on the whole content of a string is one of an argument, whichever families are shown. -/
theorem mem_content_iff (h : s.HasWindow lines before part after)
    (hinline : settings.inlineText.enabled) {n : Nat} {q : Quoted} (hq : q ∈ s.quotes n)
    (hextent : m.extent = q.content) :
    m ∈ (ofLines s lines settings).marks ∧ m.paint.role = .text ↔
      m.line ∈ lines ∧ s.ColorsArgument settings.inlineText.style m := by
  rw [mem_text_iff h, Source.colors_content_iff hinline hq hextent]

/-- An argument colors its string just if the string is plain. -/
theorem exists_mark_iff (h : s.HasWindow lines before part after)
    (hinline : settings.inlineText.enabled)
    (ha : a ∈ s.colorArguments ⟨before.size, before.size + (stripReturn part).size⟩) :
    (∃ m ∈ (ofLines s lines settings).marks,
        m.paint = ⟨a.literal.color, settings.inlineText.style, .text⟩ ∧
        m.extent = a.string.content) ↔ s.IsPlain a.string := by
  obtain ⟨o, ho, ha, hline⟩ := h.mem_colorArguments_iff.1 ha
  have hq := (ColorArgument.ofOccurrence?_string ha).1
  rw [Source.isPlain_iff hq (Source.inBlockComment_argument ho ha)]
  constructor
  · rintro ⟨m, hm, hpaint, hextent⟩
    obtain ⟨-, o', a', -, -, hcovered, hm'⟩ :=
      (mem_content_iff h hinline hq hextent).1 ⟨hm, by rw [hpaint]⟩
    obtain ⟨-, hextent', hempty, -⟩ := Source.mem_mark? hm'
    rw [← hextent', hextent] at hempty hcovered
    exact ⟨hempty, hcovered⟩
  · rintro ⟨hempty, hcovered⟩
    let m : Mark := ⟨⟨a.literal.color, settings.inlineText.style, .text⟩, a.string.content,
      s.lineOf a.string.content.start⟩
    have hmark : m ∈ s.mark? m.paint a.string.content := by
      simp [Source.mark?, hempty, m]
    refine ⟨m, ((mem_content_iff h hinline hq rfl).2 ⟨?_, o, a, ho, ha, hcovered, hmark⟩).1,
      rfl, rfl⟩
    show s.lineOf a.string.content.start ∈ lines
    rwa [ColorArgument.lineOf_string ha]

/-- Where colored text is the whole content of a string, an argument colors the string. -/
theorem exists_argument_of_mem (h : s.HasWindow lines before part after)
    (hinline : settings.inlineText.enabled) {n : Nat} {q : Quoted} (hq : q ∈ s.quotes n)
    (hm : m ∈ (ofLines s lines settings).marks) (hrole : m.paint.role = .text)
    (hextent : m.extent = q.content) :
    ∃ a ∈ s.colorArguments ⟨before.size, before.size + (stripReturn part).size⟩,
      a.string = q ∧ m.paint = ⟨a.literal.color, settings.inlineText.style, .text⟩ := by
  obtain ⟨hline, o, a, ho, ha, -, hmark⟩ := (mem_content_iff h hinline hq hextent).1 ⟨hm, hrole⟩
  obtain ⟨hpaint, hextent', hempty, hmline⟩ := Source.mem_mark? hmark
  rw [hmline, ColorArgument.lineOf_string ha] at hline
  have hmem : a.string.content.start ∈ a.string.content :=
    ⟨Nat.le_refl _, Interval.start_lt_stop hempty⟩
  have hstring := Source.eq_of_mem_content (ColorArgument.ofOccurrence?_string ha).1 hq hmem
    (by rwa [← hextent, hextent'])
  exact ⟨a, h.mem_colorArguments_iff.2 ⟨o, ho, ha, hline⟩, hstring, hpaint⟩

/-- While braced colors are shown, a literal colors the string argument behind it, whole and with
its own color, just if the string is not empty and has neither a code nor a braced color. Whether
other families are shown makes no difference, and nothing else colors the whole content of a
string. -/
theorem argument_colors_plain_string (text : Text) {lines : LineRange} {settings : Settings}
    (hle : lines.first ≤ lines.last) (hlast : lines.last < Source.lineCount { text })
    (hinline : settings.inlineText.enabled) :
    let s : Source := { text }
    let marks := (ofText text lines settings).marks
    ∃ window, s.window? lines = some window ∧
      (∀ a ∈ s.colorArguments window,
        (∃ m ∈ marks, m.paint = ⟨a.literal.color, settings.inlineText.style, .text⟩ ∧
          m.extent = a.string.content) ↔ s.IsPlain a.string) ∧
      (∀ settings' : Settings, settings'.inlineText = settings.inlineText →
        ∀ a ∈ s.colorArguments window, ∀ m, m.paint.role = .text → m.extent = a.string.content →
          (m ∈ (ofText text lines settings').marks ↔ m ∈ marks)) ∧
      ∀ m ∈ marks, m.paint.role = .text → ∀ n, ∀ q ∈ s.quotes n, m.extent = q.content →
        ∃ a ∈ s.colorArguments window, a.string = q ∧
          m.paint = ⟨a.literal.color, settings.inlineText.style, .text⟩ := by
  intro s marks
  obtain ⟨before, part, after, h⟩ := Source.exists_hasWindow (s := s) hle hlast
  refine ⟨_, h.window_eq, fun a ha => exists_mark_iff h hinline ha, ?_,
    fun m hm hrole n q hq hextent => exists_argument_of_mem h hinline hq hm hrole hextent⟩
  intro settings' hsettings a ha m hrole hextent
  obtain ⟨o, -, ha, -⟩ := h.mem_colorArguments_iff.1 ha
  have hq := (ColorArgument.ofOccurrence?_string ha).1
  have hmem := mem_content_iff h hinline hq hextent
  have hmem' : m ∈ (ofLines s lines settings').marks ∧ _ ↔ _ :=
    mem_content_iff h (hsettings ▸ hinline) hq hextent
  rw [hsettings, ← hmem, and_iff_left hrole, and_iff_left hrole] at hmem'
  exact hmem'

/-- Two literals are in front of a string each: the first one colors its string, and the second one
leaves its string to the code in it. -/
theorem argument_colors_plain_string_beside_code :
    let text : Text := "f(0xFF0000, \"ab\", 0x00FF00, \"~r~c\")".toList
    let s : Source := { text }
    let lines : LineRange := ⟨0, 0⟩
    let marks := (ofText text lines {}).marks
    lines.first ≤ lines.last ∧ lines.last < s.lineCount ∧ ({} : Settings).inlineText.enabled ∧
      ∃ window, s.window? lines = some window ∧
        (∃ a ∈ s.colorArguments window, a.string = ⟨⟨13, 15⟩, true⟩ ∧
          ∃ m ∈ marks, m.paint = ⟨a.literal.color, .text, .text⟩ ∧ m.extent = ⟨13, 15⟩) ∧
        ∃ a ∈ s.colorArguments window, a.string = ⟨⟨29, 33⟩, true⟩ ∧
          ¬ ∃ m ∈ marks, m.paint = ⟨a.literal.color, .text, .text⟩ ∧ m.extent = ⟨29, 33⟩ := by
  intro text s lines marks
  have hle : lines.first ≤ lines.last := by decide
  have hlast : lines.last < s.lineCount := by decide +kernel
  have hinline : ({} : Settings).inlineText.enabled := rfl
  obtain ⟨window, hwindow, hplain, -, -⟩ := argument_colors_plain_string text hle hlast hinline
  refine ⟨hle, hlast, hinline, window, hwindow, ?_⟩
  have hstrings : (s.window? lines).map (fun window => (s.colorArguments window).map (·.string))
      = some [⟨⟨13, 15⟩, true⟩, ⟨⟨29, 33⟩, true⟩] := by decide +kernel
  rw [hwindow, Option.map_some, Option.some.injEq] at hstrings
  obtain ⟨a, ha, hstring⟩ : ∃ a ∈ s.colorArguments window, a.string = ⟨⟨13, 15⟩, true⟩ :=
    List.mem_map.1 (by rw [hstrings]; simp)
  obtain ⟨a', ha', hstring'⟩ : ∃ a ∈ s.colorArguments window, a.string = ⟨⟨29, 33⟩, true⟩ :=
    List.mem_map.1 (by rw [hstrings]; simp)
  have hiff := hplain a ha
  have hiff' := hplain a' ha'
  rw [hstring] at hiff
  rw [hstring'] at hiff'
  refine ⟨⟨a, ha, hstring, hiff.2 ⟨?_, ?_, ?_⟩⟩, a', ha', hstring', fun hmark => ?_⟩
  · decide +kernel
  · decide +kernel
  · decide +kernel
  · exact absurd (hiff'.1 hmark).no_code (by decide +kernel)

end Scan

end Swatch

-- SUMMARY: No byte is painted twice in the same role.
import Swatch.Proofs.Cover
import Swatch.Proofs.Literal.Apart
import Swatch.Proofs.Source.Argument

/-!
# Marks that share no offset

Colored text stands inside strings, and two strings of a source are the same or share
no offset. Inside one string the runs behind codes and behind braced colors keep apart.
A string that is colored as an argument meets nothing that is covered, and every run is
covered. Literals are tokens, and tokens of the three spellings keep apart.
-/

namespace Swatch

open Swatch.Interval (Disjoint Within)

/-! ## Inside a string -/

theorem Pattern.Finds.within {p : Pattern} {base : Nat} {t : Text} {o : Occurrence}
    (ho : p.Finds base t o) : o.extent.Within ⟨base, base + t.size⟩ where
  start_le := ho.base_le
  stop_le := by
    rw [← ho.stop_add_after]
    exact Nat.le_add_right _ _

theorem Occurrence.Governs.within {p : Pattern} {base : Nat} {t : Text} {o : Occurrence}
    {stop : Text → Bool} {run : Interval} (h : o.Governs stop run) (ho : p.Finds base t o) :
    run.Within ⟨base, base + t.size⟩ where
  start_le := by
    rw [h.start_eq]
    exact Nat.le_trans ho.base_le (Nat.le_of_lt ho.start_lt_stop)
  stop_le := h.stop_le ho

namespace Source

variable {s : Source} {style : Style} {q : Quoted} {m : Mark}

theorem mem_mark? {paint : Paint} {extent : Interval} (h : m ∈ s.mark? paint extent) :
    m.paint = paint ∧ m.extent = extent ∧ extent.isEmpty = false ∧
      m.line = s.lineOf extent.start := by
  unfold mark? at h
  split at h
  · cases h
  · next hempty =>
    obtain rfl := Option.some.inj h
    exact ⟨rfl, rfl, Bool.eq_false_iff.2 hempty, rfl⟩

/-- What a string reads fits into its content. -/
theorem within_content {i : Interval} (hq : q.content.start ≤ q.content.stop)
    (h : i.Within ⟨q.content.start, q.content.start + (s.text.slice q.content).size⟩) :
    i.Within q.content where
  start_le := h.start_le
  stop_le := by
    have hsize := s.text.size_slice_le q.content
    have hstop := h.stop_le
    dsimp only at hstop
    omega

/-- Text that a code colors stands behind a code of the string, and is covered. -/
theorem mem_codeMarks (h : m ∈ s.codeMarks style q) :
    m.paint.role = .text ∧ m.extent.isEmpty = false ∧ m.line = s.lineOf m.extent.start ∧
      m.extent ∈ s.codeCover q ∧
      ∃ o, Pattern.Finds GameText.token q.content.start (s.text.slice q.content) o ∧
        o.Governs Braced.heads m.extent := by
  obtain ⟨r, hr, hm⟩ := List.mem_filterMap.1 h
  simp only [Option.bind_eq_bind, Option.bind_eq_some_iff] at hm
  obtain ⟨color, hcolor, hm⟩ := hm
  obtain ⟨hpaint, hextent, hempty, hline⟩ := mem_mark? hm
  have hhue : r.hue.isSome := by
    rw [← Option.isSome_map, ← GameText.Run.color, hcolor]
    rfl
  rw [hpaint, hline, hextent]
  refine ⟨rfl, hempty, rfl, ?_, GameText.mem_runs hr hhue⟩
  exact List.mem_append_right _ (List.mem_map_of_mem (List.mem_filter.2 ⟨hr, hhue⟩))

theorem mem_inlineMarks (h : m ∈ s.inlineMarks style q) :
    m.paint.role = .text ∧ m.extent.isEmpty = false ∧ m.line = s.lineOf m.extent.start ∧
      m.extent ∈ s.inlineCover q ∧
      ∃ o, Pattern.Finds Braced.token q.content.start (s.text.slice q.content) o ∧
        o.Governs Inline.stops m.extent := by
  obtain ⟨r, hr, hm⟩ := List.mem_filterMap.1 h
  obtain ⟨hpaint, hextent, hempty, hline⟩ := mem_mark? hm
  obtain ⟨o, ho, hgoverns, -⟩ := Inline.mem_runs hr
  rw [hpaint, hline, hextent]
  refine ⟨rfl, hempty, rfl, ?_, o, ho, hgoverns⟩
  exact List.mem_flatMap.2 ⟨r, hr, by simp⟩

theorem pairwise_codeMarks (s : Source) (style : Style) (q : Quoted) :
    (s.codeMarks style q).Pairwise fun m n => m.extent.Disjoint n.extent := by
  refine List.pairwise_filterMap.2 ((GameText.pairwise_runs _ _).imp ?_)
  intro r r' hle m hm n hn
  simp only [Option.bind_eq_bind, Option.bind_eq_some_iff] at hm hn
  obtain ⟨_, -, hm⟩ := hm
  obtain ⟨_, -, hn⟩ := hn
  rw [(mem_mark? hm).2.1, (mem_mark? hn).2.1]
  exact Interval.disjoint_of_le hle

theorem pairwise_inlineMarks (s : Source) (style : Style) (q : Quoted) :
    (s.inlineMarks style q).Pairwise fun m n => m.extent.Disjoint n.extent := by
  refine List.pairwise_filterMap.2 ((Inline.pairwise_runs _ _).imp ?_)
  intro r r' hle m hm n hn
  rw [(mem_mark? hm).2.1, (mem_mark? hn).2.1]
  exact Interval.disjoint_of_le hle

/-! ## Strings of a window -/

theorem codeMarks_within {n : Nat} (hq : q ∈ s.quotes n) (h : m ∈ s.codeMarks style q) :
    m.extent.Within q.content := by
  obtain ⟨-, -, -, -, o, ho, hgoverns⟩ := mem_codeMarks h
  exact within_content (quotes_start_le_stop hq) (hgoverns.within ho)

theorem inlineMarks_within {n : Nat} (hq : q ∈ s.quotes n) (h : m ∈ s.inlineMarks style q) :
    m.extent.Within q.content := by
  obtain ⟨-, -, -, -, o, ho, hgoverns⟩ := mem_inlineMarks h
  exact within_content (quotes_start_le_stop hq) (hgoverns.within ho)

/-- Marks of different strings share no offset. -/
theorem pairwise_flatMap_strings {lines : LineRange} {marks : Quoted → List Mark}
    (hwithin : ∀ {n q m}, q ∈ s.quotes n → m ∈ marks q → m.extent.Within q.content)
    (hmarks : ∀ q, (marks q).Pairwise fun m n => m.extent.Disjoint n.extent) :
    ((s.stringsIn lines).flatMap marks).Pairwise fun m n => m.extent.Disjoint n.extent := by
  refine List.pairwise_flatMap.2 ⟨fun q _ => hmarks q, ?_⟩
  refine (s.pairwise_stringsIn lines).imp_of_mem fun {q q'} hq hq' hlt m hm n hn => ?_
  obtain ⟨k, -, -, hq, -⟩ := mem_stringsIn.1 hq
  obtain ⟨k', -, -, hq', -⟩ := mem_stringsIn.1 hq'
  have hcontents := Interval.disjoint_of_le (Nat.le_of_lt hlt)
  exact hcontents.mono (hwithin hq hm) (hwithin hq' hn)

/-- Text behind a code and text behind a braced color share no offset. -/
theorem disjoint_codeMarks_inlineMarks {style' : Style} {q' : Quoted} {n : Mark} {k k' : Nat}
    (hq : q ∈ s.quotes k) (hq' : q' ∈ s.quotes k') (hm : m ∈ s.codeMarks style q)
    (hn : n ∈ s.inlineMarks style' q') : m.extent.Disjoint n.extent := by
  rcases quotes_eq_or_disjoint hq hq' with rfl | hcontents
  · obtain ⟨-, -, -, -, o, ho, hgoverns⟩ := mem_codeMarks hm
    obtain ⟨-, -, -, -, o', ho', hgoverns'⟩ := mem_inlineMarks hn
    exact disjoint_runs ho ho' hgoverns hgoverns'
  · exact hcontents.mono (codeMarks_within hq hm) (inlineMarks_within hq' hn)

/-! ## Strings that are colored as arguments -/

/-- What codes and braced colors cover is met where an offset is shared with it. -/
theorem meets_cover_iff {strings : List Quoted} {i : Interval} (hi : i.isEmpty = false) :
    (s.cover strings).meets i ↔
      ∃ offset ∈ i, ∃ q ∈ strings, ∃ j ∈ s.codeCover q ++ s.inlineCover q, offset ∈ j := by
  obtain ⟨hnormal, hcovers⟩ := Cover.foldl_add_spec
    (strings.flatMap s.codeCover ++ strings.flatMap s.inlineCover) (c := {}) Cover.isNormal_nil
  rw [cover, Cover.meets_iff hnormal hi]
  refine exists_congr fun offset => and_congr_right fun _ => ?_
  rw [hcovers]
  simp only [Cover.Covers, List.mem_append, List.mem_flatMap, List.not_mem_nil]
  constructor
  · rintro (⟨j, ⟨q, hq, hj⟩ | ⟨q, hq, hj⟩, hmem⟩ | ⟨j, ⟨⟩, -⟩)
    · exact ⟨q, hq, j, .inl hj, hmem⟩
    · exact ⟨q, hq, j, .inr hj, hmem⟩
  · rintro ⟨q, hq, j, hj | hj, hmem⟩
    · exact .inl ⟨j, .inl ⟨q, hq, hj⟩, hmem⟩
    · exact .inl ⟨j, .inr ⟨q, hq, hj⟩, hmem⟩

theorem mem_argumentMarks {strings : List Quoted} {window : Interval}
    (h : m ∈ s.argumentMarks style (s.cover strings) window) :
    m.paint.role = .text ∧ m.extent.isEmpty = false ∧ m.line = s.lineOf m.extent.start ∧
      (s.cover strings).meets m.extent = false ∧
      ∃ a ∈ s.colorArguments window, m.extent = a.string.content := by
  obtain ⟨a, ha, hm⟩ := List.mem_filterMap.1 h
  split at hm
  · cases hm
  · next hmeets =>
    obtain ⟨hpaint, hextent, hempty, hline⟩ := mem_mark? hm
    rw [hpaint, hline, hextent]
    exact ⟨rfl, hempty, rfl, Bool.eq_false_iff.2 hmeets, a, ha, rfl⟩

/-- A colored string shares no offset with what is covered. -/
theorem disjoint_argumentMarks {strings : List Quoted} {window : Interval}
    (hm : m ∈ s.argumentMarks style (s.cover strings) window) (hq : q ∈ strings) {j : Interval}
    (hj : j ∈ s.codeCover q ++ s.inlineCover q) : j.Disjoint m.extent := by
  obtain ⟨-, hempty, -, hmeets, -⟩ := mem_argumentMarks hm
  intro offset hoffset hmem
  have hcovered := (meets_cover_iff (s := s) hempty).2 ⟨offset, hmem, q, hq, j, hj, hoffset⟩
  exact absurd (hmeets.symm.trans hcovered) (by decide)

/-- Different arguments color different strings. -/
theorem pairwise_argumentMarks (s : Source) (style : Style) (strings : List Quoted)
    (window : Interval) : (s.argumentMarks style (s.cover strings) window).Pairwise
      fun m n => m.extent.Disjoint n.extent := by
  have harguments : (s.colorArguments window).Pairwise
      fun a a' => a.string.content.Disjoint a'.string.content := by
    refine List.pairwise_filterMap.2
      ((ColorArgument.token.pairwise_occurrences _ _).imp_of_mem ?_)
    intro o o' ho ho' hle a ha a' ha'
    obtain ⟨hquote, hstart⟩ := ColorArgument.ofOccurrence?_string ha
    obtain ⟨hquote', hstart'⟩ := ColorArgument.ofOccurrence?_string ha'
    have hlt := (Pattern.finds_of_mem ho').start_lt_stop
    refine (quotes_eq_or_disjoint hquote hquote').resolve_left fun heq => ?_
    rw [heq] at hstart
    omega
  refine List.pairwise_filterMap.2 (harguments.imp ?_)
  intro a a' hdisjoint m hm n hn
  split at hm
  · cases hm
  · split at hn
    · cases hn
    · rw [(mem_mark? hm).2.1, (mem_mark? hn).2.1]
      exact hdisjoint

/-! ## Literals -/

/-- The literals of a window are tokens, and no two of them share an offset. -/
theorem pairwise_literals (s : Source) (window : Interval) :
    (s.literals window).Pairwise fun l l' => l.extent.Disjoint l'.extent := by
  have hmarked := Hex.areTokens_literals window.start (s.text.slice window)
  have hbraced := Braced.areTokens_literals window.start (s.text.slice window)
  have htuples := (Tuple.areTokens_literals window.start (s.text.slice window)).filter
    fun l => s.admitsTuple l.extent.start
  refine List.pairwise_append.2 ⟨List.Pairwise.filter _ (List.pairwise_append.2
    ⟨hmarked.pairwise_disjoint, hbraced.pairwise_disjoint, ?_⟩), htuples.pairwise_disjoint, ?_⟩
  · exact hmarked.disjoint hbraced disjoint_marked_braced
  · intro l hl l' hl'
    rcases List.mem_append.1 (List.mem_filter.1 hl).1 with hl | hl
    · exact (htuples.disjoint hmarked disjoint_tuple_marked l' hl' l hl).symm
    · exact (htuples.disjoint hbraced disjoint_tuple_braced l' hl' l hl).symm

theorem mem_literalMarks {window : Interval} (h : m ∈ s.literalMarks style window) :
    m.paint.role = .literal ∧ m.extent.isEmpty = false ∧ m.line = s.lineOf m.extent.start := by
  obtain ⟨l, -, hm⟩ := List.mem_filterMap.1 h
  obtain ⟨hpaint, hextent, hempty, hline⟩ := mem_mark? hm
  rw [hpaint, hline, hextent]
  exact ⟨rfl, hempty, rfl⟩

theorem pairwise_literalMarks (s : Source) (style : Style) (window : Interval) :
    (s.literalMarks style window).Pairwise fun m n => m.extent.Disjoint n.extent := by
  refine List.pairwise_filterMap.2 ((s.pairwise_literals window).imp ?_)
  intro l l' hdisjoint m hm n hn
  rw [(mem_mark? hm).2.1, (mem_mark? hn).2.1]
  exact hdisjoint

/-! ## Scans -/

/-- The text that a scan of some lines colors. -/
def textMarks (s : Source) (settings : Settings) (lines : LineRange) (window : Interval) :
    List Mark :=
  let strings := s.stringsIn lines
  Scan.ofFamily settings.gameText (fun style => strings.flatMap (s.codeMarks style))
    ++ Scan.ofFamily settings.inlineText (fun style => strings.flatMap (s.inlineMarks style))
    ++ Scan.ofFamily settings.inlineText (fun style => s.argumentMarks style (s.cover strings) window)

end Source

namespace Scan

theorem mem_ofFamily {f : Family} {marks : Style → List Mark} {m : Mark} :
    m ∈ ofFamily f marks ↔ f.enabled ∧ m ∈ marks f.style := by
  unfold ofFamily
  split <;> simp [*]

theorem pairwise_ofFamily {f : Family} {marks : Style → List Mark} {R : Mark → Mark → Prop}
    (h : ∀ style, (marks style).Pairwise R) : (ofFamily f marks).Pairwise R := by
  unfold ofFamily
  split
  · exact h f.style
  · exact .nil

variable {s : Source} {lines : LineRange} {settings : Settings} {window : Interval} {m : Mark}

theorem perm_marks (settings : Settings) (h : s.window? lines = some window) :
    (ofLines s lines settings).marks.Perm
      (s.textMarks settings lines window
        ++ ofFamily settings.hex (fun style => s.literalMarks style window)) := by
  simp only [ofLines, h]
  exact List.mergeSort_perm _ _

theorem mem_textMarks (h : m ∈ s.textMarks settings lines window) :
    m.paint.role = .text ∧ m.extent.isEmpty = false ∧ m.line = s.lineOf m.extent.start := by
  rcases List.mem_append.1 h with h | h
  · rcases List.mem_append.1 h with h | h
    · obtain ⟨q, -, hm⟩ := List.mem_flatMap.1 (mem_ofFamily.1 h).2
      obtain ⟨hrole, hempty, hline, -⟩ := Source.mem_codeMarks hm
      exact ⟨hrole, hempty, hline⟩
    · obtain ⟨q, -, hm⟩ := List.mem_flatMap.1 (mem_ofFamily.1 h).2
      obtain ⟨hrole, hempty, hline, -⟩ := Source.mem_inlineMarks hm
      exact ⟨hrole, hempty, hline⟩
  · obtain ⟨hrole, hempty, hline, -⟩ := Source.mem_argumentMarks (mem_ofFamily.1 h).2
    exact ⟨hrole, hempty, hline⟩

/-- Colored text is colored by one code, one braced color or one argument. -/
theorem pairwise_textMarks (s : Source) (settings : Settings) (lines : LineRange)
    (window : Interval) :
    (s.textMarks settings lines window).Pairwise fun m n => m.extent.Disjoint n.extent := by
  refine List.pairwise_append.2 ⟨List.pairwise_append.2 ⟨?codes, ?braced, ?_⟩, ?arguments, ?_⟩
  case codes =>
    exact pairwise_ofFamily fun style =>
      Source.pairwise_flatMap_strings Source.codeMarks_within (s.pairwise_codeMarks style)
  case braced =>
    exact pairwise_ofFamily fun style =>
      Source.pairwise_flatMap_strings Source.inlineMarks_within (s.pairwise_inlineMarks style)
  case arguments =>
    exact pairwise_ofFamily fun style => s.pairwise_argumentMarks style _ window
  · intro m hm n hn
    obtain ⟨q, hq, hm⟩ := List.mem_flatMap.1 (mem_ofFamily.1 hm).2
    obtain ⟨q', hq', hn⟩ := List.mem_flatMap.1 (mem_ofFamily.1 hn).2
    obtain ⟨k, -, -, hq, -⟩ := Source.mem_stringsIn.1 hq
    obtain ⟨k', -, -, hq', -⟩ := Source.mem_stringsIn.1 hq'
    exact Source.disjoint_codeMarks_inlineMarks hq hq' hm hn
  · intro m hm n hn
    have hn := (mem_ofFamily.1 hn).2
    rcases List.mem_append.1 hm with hm | hm
    · obtain ⟨q, hq, hm⟩ := List.mem_flatMap.1 (mem_ofFamily.1 hm).2
      obtain ⟨-, -, -, hcover, -⟩ := Source.mem_codeMarks hm
      exact Source.disjoint_argumentMarks hn hq (List.mem_append_left _ hcover)
    · obtain ⟨q, hq, hm⟩ := List.mem_flatMap.1 (mem_ofFamily.1 hm).2
      obtain ⟨-, -, -, hcover, -⟩ := Source.mem_inlineMarks hm
      exact Source.disjoint_argumentMarks hn hq (List.mem_append_right _ hcover)

theorem sorted_marks (s : Source) (lines : LineRange) (settings : Settings) :
    (ofLines s lines settings).marks.Pairwise fun m n => m.extent.le n.extent := by
  unfold ofLines
  split
  · exact .nil
  · refine List.pairwise_mergeSort ?_ ?_ _
    · exact fun _ _ _ => Interval.le_trans
    · exact fun m n => Interval.le_total m.extent n.extent

/-- The marks of a scan are in order, and those of one role stand one behind the other. -/
theorem pairwise_marks (s : Source) (lines : LineRange) (settings : Settings) :
    (ofLines s lines settings).marks.Pairwise fun m n =>
      m.paint.role = n.paint.role → m.extent.stop ≤ n.extent.start := by
  cases hwindow : s.window? lines with
  | none => simp [ofLines, hwindow]
  | some window =>
    have hperm := perm_marks settings hwindow
    have hapart : (ofLines s lines settings).marks.Pairwise fun m n =>
        m.paint.role = n.paint.role → m.extent.Disjoint n.extent := by
      refine (hperm.pairwise_iff fun h hrole => (h hrole.symm).symm).2
        (List.pairwise_append.2 ⟨?_, ?_, ?_⟩)
      · refine (pairwise_textMarks s settings lines window).imp fun h _ => ?_
        exact h
      · refine pairwise_ofFamily fun style =>
          (s.pairwise_literalMarks style window).imp fun h _ => ?_
        exact h
      · intro m hm n hn hrole
        have hm := (mem_textMarks hm).1
        have hn := (Source.mem_literalMarks (mem_ofFamily.1 hn).2).1
        rw [hm, hn] at hrole
        cases hrole
    have hempty : ∀ m ∈ (ofLines s lines settings).marks, m.extent.isEmpty = false := fun m hm => by
      rcases List.mem_append.1 (hperm.mem_iff.1 hm) with hm | hm
      · exact (mem_textMarks hm).2.1
      · exact (Source.mem_literalMarks (mem_ofFamily.1 hm).2).2.1
    refine (hapart.and (sorted_marks s lines settings)).imp_of_mem fun {m n} _ hn h hrole => ?_
    exact (h.1 hrole).stop_le (Interval.start_lt_stop (hempty n hn)) (Interval.start_le_of_le h.2)

/-- No byte is painted twice in the same role. -/
theorem marks_of_role_apart (text : Text) (lines : LineRange) (settings : Settings) :
    (ofText text lines settings).marks.Pairwise fun m n =>
      m.paint.role = n.paint.role → m.extent.Disjoint n.extent :=
  (pairwise_marks { text } lines settings).imp fun h hrole => Interval.disjoint_of_le (h hrole)

end Scan

end Swatch

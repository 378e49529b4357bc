-- SUMMARY: A line is warned about just if one of its strings may crash the program that shows it.
import Swatch.Proofs.Literal.Colorless
import Swatch.Proofs.Scan.Sound

/-!
# Which lines are warned about

A string may crash the program that shows it if its tildes are odd in number, and it is,
or will be, shown with its codes. Strings are read line by line, and the line of the last
warning is all that is carried from one string to the next. Within a line this keeps
everything silent behind the first warning; it never tells anything about the lines
below, so each line is warned about by itself.
-/

namespace Swatch

/-- The place of the quote that opens a string. -/
def Quoted.opening (q : Quoted) : Nat :=
  q.content.start - 1

theorem GameText.bearsCode_iff_finds (t : Text) :
    bearsCode t ↔ ∃ o, Pattern.Finds token 0 t o := by
  rw [bearsCode_iff 0]
  constructor
  · intro hcodes
    obtain ⟨o, ho⟩ := List.exists_mem_of_ne_nil _ hcodes
    exact ⟨o, Pattern.finds_of_mem ho⟩
  · rintro ⟨o, ho⟩
    rcases ho.mem_or_inside with hmem | ⟨o', hmem, -⟩
    · exact List.ne_nil_of_mem hmem
    · exact List.ne_nil_of_mem hmem

namespace Source

/-! ## Strings that may crash -/

/-- A string may crash the program that shows it: it does not start in a block comment, its tildes
are odd in number, and it has a code or is an argument of a function that shows codes. -/
structure MayCrash (s : Source) (q : Quoted) : Prop where
  outside : s.inBlockComment q.opening = false
  odd : Odd ((s.text.slice q.content).count '~')
  shown : (∃ o, Pattern.Finds GameText.token 0 (s.text.slice q.content) o) ∨
    ∃ name, s.enclosingCall? q.opening = some name ∧ GameText.isShowingFunction name

/-- The first string of a line that may crash the program that shows it. -/
structure IsFirstRisk (s : Source) (n : Nat) (q : Quoted) : Prop where
  mem : q ∈ s.quotes n
  mayCrash : s.MayCrash q
  first : ∀ q' ∈ s.quotes n, s.MayCrash q' → q.content.start ≤ q'.content.start

variable {s : Source} {n : Nat} {q : Quoted}

/-- A quote belongs to no mark of a comment. -/
theorem inBlockComment_opening (hq : q ∈ s.quotes n) :
    s.inBlockComment q.opening = s.inBlockComment q.content.start := by
  obtain ⟨before, content, after, htext, hcontent⟩ := Offsets.exists_quoted hq
  have hplain : ∀ c ∈ ['"'], c ≠ '/' ∧ c ≠ '*' :=
    List.forall_mem_singleton.2 ⟨by decide, by decide⟩
  have hbehind := inBlockComment_behind htext hplain
  rw [Quoted.opening, hcontent]
  exact hbehind.symm

theorem isRisky_iff : s.isRisky q ↔
    Odd ((s.text.slice q.content).count '~') ∧
      ((∃ o, Pattern.Finds GameText.token 0 (s.text.slice q.content) o) ∨
        ∃ name, s.enclosingCall? q.opening = some name ∧ GameText.isShowingFunction name) := by
  rw [isRisky, Bool.and_eq_true, Bool.or_eq_true, GameText.bearsCode_iff_finds,
    Option.any_eq_true, GameText.isUnbalanced, beq_iff_eq, Nat.odd_iff]
  rfl

/-- The search for strings to warn about looks at what stands behind the quote. -/
theorem mayCrash_iff (hq : q ∈ s.quotes n) :
    s.MayCrash q ↔ (!s.inBlockComment q.content.start && s.isRisky q) = true := by
  rw [Bool.and_eq_true, Bool.not_eq_true', ← inBlockComment_opening hq, isRisky_iff]
  constructor
  · intro h
    exact ⟨h.outside, h.odd, h.shown⟩
  · intro ⟨houtside, hodd, hshown⟩
    exact ⟨houtside, hodd, hshown⟩

theorem isFirstRisk_of_firstRisk? (h : s.firstRisk? n = some q) : s.IsFirstRisk n q := by
  have hpairwise := s.pairwise_quotes n
  obtain ⟨hrisky, before, after, hsplit, hbefore⟩ := List.find?_eq_some_iff_append.1 h
  have hq : q ∈ s.quotes n := List.mem_of_find?_eq_some h
  have hle := quotes_start_le_stop hq
  refine ⟨hq, (mayCrash_iff hq).2 hrisky, ?_⟩
  intro q' hq' hcrash
  have hrisky' := (mayCrash_iff hq').1 hcrash
  rw [hsplit, List.pairwise_append, List.pairwise_cons] at hpairwise
  rw [hsplit, List.mem_append, List.mem_cons] at hq'
  rcases hq' with hmem | rfl | hmem
  · have hnot := hbefore q' hmem
    rw [hrisky'] at hnot
    cases hnot
  · exact Nat.le_refl _
  · have hlt := hpairwise.2.1.1 q' hmem
    omega

theorem isSome_firstRisk?_iff : (s.firstRisk? n).isSome ↔ ∃ q ∈ s.quotes n, s.MayCrash q := by
  rw [firstRisk?, List.find?_isSome]
  refine exists_congr fun q => and_congr_right fun hq => ?_
  exact (mayCrash_iff hq).symm

end Source

namespace Scan

theorem advisories_eq_filterMap {s : Source} {lines : LineRange} (hle : lines.first ≤ lines.last)
    (hlast : lines.last < s.lineCount) (settings : Settings) :
    (ofLines s lines settings).advisories
      = lines.toList.filterMap fun n => (s.firstRisk? n).map fun q => .crashRisk n q.content := by
  obtain ⟨before, part, after, hwindow⟩ := Source.exists_hasWindow hle hlast
  simp only [ofLines, hwindow.window_eq]
  exact s.warnings_stringsIn_eq lines

/-- A scan warns about strings only, line after line: about each line that has a string which may
crash the program that shows it, once, and about the first such string. -/
theorem warns_first_risks (text : Text) {lines : LineRange} (settings : Settings)
    (hle : lines.first ≤ lines.last) (hlast : lines.last < Source.lineCount { text }) :
    let s : Source := { text }
    ∃ risks : List (Nat × Interval),
      (ofText text lines settings).advisories = risks.map (fun r => .crashRisk r.1 r.2) ∧
        (risks.map Prod.fst).Pairwise (· < ·) ∧
        (∀ n, n ∈ risks.map Prod.fst ↔ n ∈ lines ∧ ∃ q ∈ s.quotes n, s.MayCrash q) ∧
        ∀ r ∈ risks, ∃ q, s.IsFirstRisk r.1 q ∧ r.2 = q.content := by
  intro s
  let risk (n : Nat) : Option (Nat × Interval) := (s.firstRisk? n).map fun q => (n, q.content)
  have hlines : (lines.toList.filterMap risk).map Prod.fst
      = lines.toList.filter fun n => (s.firstRisk? n).isSome := by
    rw [List.map_filterMap, ← List.filterMap_eq_filter]
    refine List.filterMap_congr fun n _ => ?_
    cases h : s.firstRisk? n <;> simp [risk, h, Option.guard]
  refine ⟨lines.toList.filterMap risk, ?_, ?_, ?_, ?_⟩
  · rw [List.map_filterMap]
    simp only [risk, Option.map_map]
    exact advisories_eq_filterMap hle hlast settings
  · rw [hlines]
    exact List.Pairwise.filter _ List.pairwise_lt_range'
  · intro n
    rw [hlines, List.mem_filter, Source.isSome_firstRisk?_iff, LineRange.mem_toList]
  · intro r hr
    obtain ⟨n, -, hn⟩ := List.mem_filterMap.1 hr
    obtain ⟨q, hq, rfl⟩ := Option.map_eq_some_iff.1 hn
    exact ⟨q, Source.isFirstRisk_of_firstRisk? hq, rfl⟩

/-- Nothing is said about a lone tilde that nobody shows, nor about a string in a comment. The next
line has two strings that may crash, the first of which is named, and the last line has a code. -/
theorem warns_first_risks_three_lines :
    let text : Text := "f(\"~\")\n/* \"~r~~\" */ GameTextForAll(\"é~\", \"~\")\n\"~r~~\"".toList
    let lines : LineRange := ⟨0, 2⟩
    let s : Source := { text }
    lines.first ≤ lines.last ∧ lines.last < s.lineCount ∧
      (ofText text lines {}).advisories = [.crashRisk 1 ⟨36, 39⟩, .crashRisk 2 ⟨48, 52⟩] ∧
      (¬ ∃ q ∈ s.quotes 0, s.MayCrash q) ∧ ∃ q, s.IsFirstRisk 1 q ∧ q.content = ⟨36, 39⟩ := by
  intro text lines s
  have hle : lines.first ≤ lines.last := by decide
  have hlast : lines.last < s.lineCount := by decide +kernel
  have hadvisories : (ofText text lines {}).advisories
      = [.crashRisk 1 ⟨36, 39⟩, .crashRisk 2 ⟨48, 52⟩] := by decide +kernel
  obtain ⟨risks, heq, -, hmem, hfirst⟩ := warns_first_risks text {} hle hlast
  have hinj : Function.Injective fun r : Nat × Interval => Advisory.crashRisk r.1 r.2 := by
    rintro ⟨n, i⟩ ⟨m, j⟩ hsame
    cases hsame
    rfl
  obtain rfl : risks = [(1, ⟨36, 39⟩), (2, ⟨48, 52⟩)] :=
    hinj.list_map (heq.symm.trans hadvisories)
  refine ⟨hle, hlast, hadvisories, ?_, ?_⟩
  · intro hcrash
    have habove := (hmem 0).2 ⟨by decide, hcrash⟩
    exact absurd habove (by decide)
  · obtain ⟨q, hq, hcontent⟩ := hfirst (1, ⟨36, 39⟩) List.mem_cons_self
    exact ⟨q, hq, hcontent.symm⟩

end Scan

end Swatch

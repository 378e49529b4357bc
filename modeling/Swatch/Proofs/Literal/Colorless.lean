-- SUMMARY: Codes with a long s, which some searches take for codes although they name no color.
import Swatch.Proofs.Literal.Coloring

/-!
# Codes without a color

The long s folds to `s`, so `~ſ~` has the shape of a code. It names no color and is no
literal, yet the test for codes and the end of a run behind a braced color go by the shape
alone. They agree with the literals just where no code of this kind decides.

A run behind a braced color goes on to the first place at which another braced color or a
code starts. No code reaches over the end of the braced color, so the first code behind it
is one of the codes that the search through the whole string finds, however many codes
stand in front of it.
-/

namespace Swatch

/-! ## The first literal from an offset on -/

/-- Where the first literal starts that starts at an offset or behind it, or `stop` if there is no
such literal. -/
def firstFrom (literals : List Literal) (start stop : Nat) : Nat :=
  ((literals.find? fun l => start ≤ l.extent.start).map (·.extent.start)).getD stop

theorem InOrder.isFirst_firstFrom {literals : List Literal} (h : InOrder literals)
    {start stop : Nat} (hstart : start ≤ stop) (hstop : ∀ l ∈ literals, l.extent.start ≤ stop) :
    IsFirst (fun offset => ∃ l ∈ literals, l.extent.start = offset) start stop
      (firstFrom literals start stop) := by
  unfold firstFrom
  cases hfind : literals.find? fun l => start ≤ l.extent.start with
  | none =>
    refine ⟨hstart, Nat.le_refl stop, fun hlt => absurd hlt (Nat.lt_irrefl stop), ?_⟩
    rintro _ hle ⟨l, hl, rfl⟩
    exact absurd hle (by simpa using List.find?_eq_none.1 hfind l hl)
  | some first =>
    obtain ⟨hfirst, before, behind, rfl, hbefore⟩ := List.find?_eq_some_iff_append.1 hfind
    refine ⟨by simpa using hfirst, hstop first (by simp), fun _ => ⟨first, by simp, rfl⟩, ?_⟩
    rintro _ hle ⟨l, hl, rfl⟩
    rcases List.mem_append.1 hl with hl | hl
    · exact absurd hle (by simpa using hbefore l hl)
    · rcases List.mem_cons.1 hl with rfl | hl
      · exact Nat.le_refl _
      · have hwide := h.start_lt_stop first (by simp)
        have hlater := (List.pairwise_cons.1 (List.pairwise_append.1 h.pairwise).2.1).1 l hl
        exact Nat.le_trans (Nat.le_of_lt hwide) hlater

theorem AreTokens.isFirst_firstFrom {p : Pattern} {t : Text} {literals : List Literal}
    (h : AreTokens p 0 t literals) {start : Nat} (hstart : start ≤ t.size) :
    IsFirst (fun offset => ∃ l ∈ literals, l.extent.start = offset) start t.size
      (firstFrom literals start t.size) := by
  refine h.inOrder.isFirst_firstFrom hstart fun l hl => ?_
  obtain ⟨o, ho, hextent⟩ := h.finds l hl
  have hlt := ho.start_lt_stop
  have hstop := ho.stop_add_after
  have hoffset : l.extent.start = o.offset := congrArg Interval.start hextent
  omega

namespace GameText

/-! ## Codes and their literals -/

/-- A code whose letter is the long s, with its lightening steps. -/
def IsColorless (token : Text) : Prop :=
  ∃ steps, token = '~' :: longS :: '~' :: steps

instance (token : Text) : Decidable (IsColorless token) :=
  decidable_of_iff (token.take 3 = ['~', longS, '~']) (by
    constructor
    · intro h
      refine ⟨token.drop 3, (List.take_append_drop 3 token).symm.trans ?_⟩
      rw [h]
      rfl
    · rintro ⟨steps, rfl⟩
      rfl)

section Finds

variable {base : Nat} {t : Text} {o o' : Occurrence}

theorem exists_letter (ho : Pattern.Finds token base t o) :
    ∃ letter steps, o.token = '~' :: letter :: '~' :: steps ∧ isCodeLetter letter := by
  obtain ⟨n, hn, htake⟩ := ho.found
  obtain ⟨hheads, hn⟩ := Option.ite_none_right_eq_some.1 hn
  unfold heads at hheads
  split at hheads
  · next letter rest htext =>
    rw [htext] at htake
    have hlong : n = (n - 2) + 2 := by
      rw [htext] at hn
      have hn := Option.some.inj hn
      omega
    rw [hlong] at htake
    exact ⟨letter, rest.take (n - 2), htake.symm, hheads⟩
  · cases hheads

/-- A code is no literal just if its letter is the long s. -/
theorem literal?_eq_none_iff (ho : Pattern.Finds token base t o) :
    literal? o = none ↔ IsColorless o.token := by
  obtain ⟨letter, steps, htoken, hletter⟩ := exists_letter ho
  constructor
  · intro hnone
    simp only [literal?, htoken, letterAndSteps?, Option.bind_eq_bind, Option.bind_some,
      Option.bind_eq_none_iff, reduceCtorEq, Option.pure_def] at hnone
    have hhue : (hue? letter).isSome = false := by
      rw [Option.isSome_eq_false_iff, Option.isNone_iff_eq_none]
      exact Option.eq_none_iff_forall_ne_some.2 hnone
    rw [isCodeLetter, hhue, Bool.false_or, beq_iff_eq] at hletter
    exact ⟨steps, hletter ▸ htoken⟩
  · rintro ⟨steps', htoken'⟩
    have hnone : hue? longS = none := by decide
    simp [literal?, htoken', letterAndSteps?, hnone]

theorem startsAt_of_finds (ho : Pattern.Finds token 0 t o) : t.StartsAt heads o.offset :=
  ⟨o.before.reverse, o.token ++ o.after, ho.text_eq, by simp [ho.offset_eq], heads_of_finds ho⟩

/-- Where a code starts, its token is found. -/
theorem exists_finds {offset : Nat} (h : t.StartsAt heads offset) :
    ∃ o, Pattern.Finds token 0 t o ∧ o.offset = offset := by
  obtain ⟨left, right, rfl, rfl, hheads⟩ := h
  obtain ⟨n, hn⟩ : ∃ n, token left.reverse right = some n := ⟨_, if_pos hheads⟩
  obtain ⟨part, after, rfl, hlength, hpart⟩ := ensures_token left.reverse right n hn
  refine ⟨⟨left.reverse, part, after, left.size⟩, ⟨by simp, by simp, ?_, n, hn, ?_⟩, rfl⟩
  · rintro rfl
    cases hpart.1
  · rw [← hlength, List.take_left]

/-- No code reaches over the end of a braced color, so the first one behind it is an occurrence. -/
theorem exists_occurrence (hbraced : Pattern.Finds Braced.token 0 t o') {offset : Nat}
    (hbehind : o'.extent.stop ≤ offset) (hstarts : t.StartsAt heads offset)
    (hfirst : ∀ {other}, o'.extent.stop ≤ other → t.StartsAt heads other → offset ≤ other) :
    ∃ o ∈ token.occurrences 0 t, o.offset = offset := by
  obtain ⟨o, ho, rfl⟩ := exists_finds hstarts
  refine ho.mem_or_inside.elim (fun hmem => ⟨o, hmem, rfl⟩) fun ⟨outer, houter, hlt, hinside⟩ => ?_
  have houter' := Pattern.finds_of_mem houter
  have hwide := houter'.start_lt_stop
  have hwide' := hbraced.start_lt_stop
  have hapart := disjoint_code_braced houter' hbraced
  rcases Nat.lt_or_ge outer.offset o'.offset with hbefore | hafter
  · have hstop := hapart.stop_le hwide' (Nat.le_of_lt hbefore)
    have hstop' : outer.extent.stop ≤ o'.offset := hstop
    omega
  · have hstop : o'.extent.stop ≤ outer.offset := hapart.symm.stop_le hwide hafter
    have hle := hfirst hstop (startsAt_of_finds houter')
    omega

/-- No literal starts where a code without a color does. -/
theorem not_exists_literal (ho : Pattern.Finds token 0 t o) (hcolorless : IsColorless o.token) :
    ¬ ∃ l ∈ literals 0 t, l.extent.start = o.offset := by
  rintro ⟨l, hl, hstart⟩
  rw [literals_eq] at hl
  obtain ⟨o', ho', hl⟩ := List.mem_filterMap.1 hl
  have ho' := Pattern.finds_of_mem ho'
  have hoffset : o'.offset = o.offset := (congrArg Interval.start (literal?_extent hl)).symm.trans hstart
  obtain ⟨mid, hrest, -, hmid⟩ := ho.standsIn.exists_middle ho'.standsIn (Nat.le_of_eq hoffset.symm)
  obtain rfl : mid = [] := Text.size_eq_zero_iff.1 (by omega)
  obtain ⟨steps, htoken⟩ := hcolorless
  obtain ⟨letter, steps', htoken', -⟩ := exists_letter ho'
  rw [htoken, htoken'] at hrest
  simp only [List.nil_append, List.cons_append, List.cons.injEq] at hrest
  obtain ⟨-, hletter, -⟩ := hrest
  have hnone := (literal?_eq_none_iff ho').2 ⟨steps', hletter ▸ htoken'⟩
  cases hnone.symm.trans hl

/-- No braced color starts where a code does. -/
theorem not_startsAt_braced (ho : Pattern.Finds token 0 t o) :
    ¬ t.StartsAt Braced.heads o.offset := by
  rintro ⟨left, right, hcut, hsize, hheads⟩
  have hoffset := ho.offset_eq
  obtain ⟨-, rfl⟩ := Text.append_inj_of_size (hcut.trans ho.text_eq.symm) (by
    rw [Text.size_reverse]
    omega)
  obtain ⟨letter, steps, htoken, -⟩ := exists_letter ho
  rw [htoken] at hheads
  cases hheads

end Finds

/-! ## Searches that go by the shape of a code -/

theorem bearsCode_iff (base : Nat) (t : Text) :
    bearsCode t ↔ token.occurrences base t ≠ [] := by
  rw [Pattern.occurrences]
  fun_induction Pattern.occurrencesFrom token [] base t with
  | case1 => simp [bearsCode]
  | case2 before offset c rest hnone ih =>
    have hheads : heads (c :: rest) = false := by
      rw [← Offsets.isSome_codeToken before, hnone]
      rfl
    rw [bearsCode, hheads, Bool.false_or, ih]
  | case3 before offset c rest n hn token ih =>
    have hheads : heads (c :: rest) = true := by
      rw [← Offsets.isSome_codeToken before, hn]
      rfl
    simp [bearsCode, hheads]

theorem literals_ne_nil_iff (t : Text) :
    literals 0 t ≠ [] ↔ ∃ o ∈ token.occurrences 0 t, ¬ IsColorless o.token := by
  rw [literals_eq, ne_eq, List.filterMap_eq_nil_iff]
  simp only [not_forall]
  refine exists_congr fun o => ⟨fun ⟨ho, hsome⟩ => ⟨ho, ?_⟩, fun ⟨ho, hcolor⟩ => ⟨ho, ?_⟩⟩
  · rwa [← literal?_eq_none_iff (Pattern.finds_of_mem ho)]
  · rwa [literal?_eq_none_iff (Pattern.finds_of_mem ho)]

/-- A run behind a braced color goes on to the first place at which a braced color or a code
starts. -/
theorem isFirst_stop {content : Text} {r : Inline.Run} (hr : r ∈ Inline.runs 0 content) :
    ∃ o, Pattern.Finds Braced.token 0 content o ∧ r.extent.start = o.extent.stop ∧
      IsFirst (fun offset => content.StartsAt Braced.heads offset ∨ content.StartsAt heads offset)
        r.extent.start content.size r.extent.stop := by
  obtain ⟨o, ho, hr⟩ := List.mem_filterMap.1 hr
  obtain ⟨color, -, hr⟩ := Option.bind_eq_some_iff.1 hr
  obtain rfl := Option.some.inj hr
  have ho := Pattern.finds_of_mem ho
  have hleft : o.extent.stop = Text.size (o.before.reverse ++ o.token) := by
    simp [Occurrence.extent, Interval.ofSize, ho.offset_eq]
  have hfirst := Text.isFirst_upTo Inline.stops (o.before.reverse ++ o.token) o.after
  rw [List.append_assoc, ho.text_eq, ← hleft] at hfirst
  refine ⟨o, ho, rfl, hfirst.congr fun offset => ?_⟩
  simp only [Text.StartsAt, Inline.stops, Bool.or_eq_true]
  constructor
  · rintro ⟨left, right, hcut, hsize, hheads | hheads⟩
    · exact .inl ⟨left, right, hcut, hsize, hheads⟩
    · exact .inr ⟨left, right, hcut, hsize, hheads⟩
  · rintro (⟨left, right, hcut, hsize, hheads⟩ | ⟨left, right, hcut, hsize, hheads⟩)
    · exact ⟨left, right, hcut, hsize, .inl hheads⟩
    · exact ⟨left, right, hcut, hsize, .inr hheads⟩

/-- Where the literals say that a run ends: at the next braced color, at the next literal of a
code or at the end of the content. -/
def literalStop (content : Text) (start : Nat) : Nat :=
  min (firstFrom (Braced.literals 0 content) start content.size)
    (firstFrom (literals 0 content) start content.size)

theorem isFirst_literalStop {content : Text} {start : Nat} (hstart : start ≤ content.size) :
    IsFirst (fun offset => content.StartsAt Braced.heads offset ∨
        ∃ l ∈ literals 0 content, l.extent.start = offset)
      start content.size (literalStop content start) := by
  have hbraced := (Braced.areTokens_literals 0 content).isFirst_firstFrom hstart
  have hcode := (areTokens_literals 0 content).isFirst_firstFrom hstart
  exact (hbraced.or hcode).congr fun offset => or_congr_left Braced.exists_start_iff

theorem stop_eq_iff {content : Text} {r : Inline.Run} (hr : r ∈ Inline.runs 0 content) :
    r.extent.stop = literalStop content r.extent.start ↔
      ∀ o ∈ token.occurrences 0 content, o.offset = r.extent.stop → ¬ IsColorless o.token := by
  obtain ⟨o', hbraced, hstart, hfirst⟩ := isFirst_stop hr
  have hliteral := isFirst_literalStop (Nat.le_trans hfirst.start_le hfirst.le_stop)
  have hheads {offset : Nat} (h : ∃ l ∈ literals 0 content, l.extent.start = offset) :
      content.StartsAt heads offset := by
    obtain ⟨l, hl, rfl⟩ := h
    obtain ⟨o, ho, hextent⟩ := (areTokens_literals 0 content).finds l hl
    exact congrArg Interval.start hextent ▸ startsAt_of_finds ho
  constructor
  · intro heq o ho hoffset hcolorless
    have ho := Pattern.finds_of_mem ho
    have hwide := ho.start_lt_stop
    have hstop := ho.stop_add_after
    rcases hliteral.holds (by omega) with h | h
    · exact not_startsAt_braced ho (by rwa [hoffset, heq])
    · exact not_exists_literal ho hcolorless (by rwa [hoffset, heq])
  · intro hcolor
    refine IsFirst.eq ⟨hfirst.start_le, hfirst.le_stop, fun hlt => ?_, fun hle hother => ?_⟩ hliteral
    · rcases hfirst.holds hlt with h | h
      · exact .inl h
      · -- What starts here is the first code behind the braced color.
        obtain ⟨o, ho, hoffset⟩ := exists_occurrence hbraced (hstart ▸ hfirst.start_le) h
          fun hle hother => hfirst.le (hstart ▸ hle) (.inr hother)
        have hsome : literal? o ≠ none := by
          rw [ne_eq, literal?_eq_none_iff (Pattern.finds_of_mem ho)]
          exact hcolor o ho hoffset
        obtain ⟨l, hl⟩ := Option.ne_none_iff_exists'.1 hsome
        refine .inr ⟨l, literals_eq 0 content ▸ List.mem_filterMap.2 ⟨o, ho, hl⟩, ?_⟩
        exact (congrArg Interval.start (literal?_extent hl)).trans hoffset
    · exact hfirst.le hle (hother.imp_right hheads)

/-- The test for codes agrees with the literals unless all codes of the content are without a color,
and a run behind a braced color ends where the literals say unless it ends at such a code. -/
theorem codes_agree_iff (content : Text) :
    ((bearsCode content ↔ literals 0 content ≠ []) ↔
      literals 0 content ≠ [] ∨ ∀ o ∈ token.occurrences 0 content, ¬ IsColorless o.token) ∧
    ∀ r ∈ Inline.runs 0 content,
      (r.extent.stop = literalStop content r.extent.start ↔
        ∀ o ∈ token.occurrences 0 content, o.offset = r.extent.stop → ¬ IsColorless o.token) := by
  refine ⟨?_, fun r hr => stop_eq_iff hr⟩
  rw [bearsCode_iff 0]
  constructor
  · intro hiff
    by_cases hsome : literals 0 content ≠ []
    · exact .inl hsome
    · refine .inr fun o ho => absurd (List.ne_nil_of_mem ho) (hiff.not.2 hsome)
  · rintro (hsome | hcolor)
    · obtain ⟨o, ho, -⟩ := (literals_ne_nil_iff content).1 hsome
      exact iff_of_true (List.ne_nil_of_mem ho) hsome
    · refine ⟨fun hcodes => ?_, fun hsome => ?_⟩
      · obtain ⟨o, ho⟩ := List.exists_mem_of_ne_nil _ hcodes
        exact (literals_ne_nil_iff content).2 ⟨o, ho, hcolor o ho⟩
      · obtain ⟨o, ho, -⟩ := (literals_ne_nil_iff content).1 hsome
        exact List.ne_nil_of_mem ho

/-- With codes that name colors only, both searches agree with the literals. -/
theorem codes_agree_iff_colored :
    let content : Text := "\x7bFF0000\x7da~s~~h~b\x7b00FF00\x7dc".toList
    (bearsCode content ∧ literals 0 content ≠ []) ∧
      (Inline.runs 0 content).map (·.extent) = [⟨8, 9⟩, ⟨24, 25⟩] ∧
      ∀ r ∈ Inline.runs 0 content, r.extent.stop = literalStop content r.extent.start := by
  intro content
  have hbears : bearsCode content := by decide +kernel
  have hcolor : ∀ o ∈ token.occurrences 0 content, ¬ IsColorless o.token := by decide +kernel
  obtain ⟨hcodes, hruns⟩ := codes_agree_iff content
  exact ⟨⟨hbears, (hcodes.2 (.inr hcolor)).1 hbears⟩, by decide +kernel,
    fun r hr => (hruns r hr).2 fun o ho _ => hcolor o ho⟩

/-- A long s between tildes passes for a code and ends a run, but it is no literal. -/
theorem colorless_code_parts_searches :
    let lone : Text := "~\u017f~".toList
    let content : Text := "\x7bFF0000\x7da~\u017f~b".toList
    ¬ (bearsCode lone ↔ literals 0 lone ≠ []) ∧
      ∃ r ∈ Inline.runs 0 content, r.extent = ⟨8, 9⟩ ∧ literalStop content r.extent.start = 14 := by
  intro lone content
  have hlone : ¬ (bearsCode lone ↔ literals 0 lone ≠ []) := by decide +kernel
  have hrun : ∃ r ∈ Inline.runs 0 content, r.extent = ⟨8, 9⟩ := by decide +kernel
  obtain ⟨r, hr, hextent⟩ := hrun
  exact ⟨hlone, r, hr, hextent, by rw [hextent]; decide +kernel⟩

end GameText

end Swatch

-- SUMMARY: The tokens of color arguments: what they look like, and that they lie in one line.
import Swatch.Proofs.Color.Digits
import Swatch.Proofs.Literal.Token
import Swatch.Proofs.Source.Quotes

/-!
# Tokens of color arguments

The token of a color argument is a marked literal, a comma with blanks around it, and a
quote. It is found wherever it stands outside of a word, whatever follows the quote.
Behind its first word there is no zero, so no token starts inside another one, and the
places of tokens in a text are just the occurrences.

The blanks may be line breaks. A token colors a string of its own line only, so a token
that does lies in one line, and is found in every window with that line.
-/

namespace Swatch

open Pattern (Finds IsSeparated)

theorem isWordChar_of_isHexDigit {c : Char} (h : isHexDigit c) : isWordChar c :=
  isWordChar_of_isAlphanum (isAlphanum_of_isHexDigit h)

theorem isHexDigit_of_isBlank {c : Char} (h : isBlank c) : isHexDigit c = false := by
  refine Bool.eq_false_iff.2 fun hdigit => ?_
  have hplain := isBlank_of_isAlphanum (isAlphanum_of_isHexDigit hdigit)
  rw [h] at hplain
  cases hplain

theorem takeWhile_append_of_stop {f : Char → Bool} {part : Text} (hpart : ∀ c ∈ part, f c)
    {c : Char} (hc : f c = false) (rest : Text) :
    (part ++ c :: rest).takeWhile f = part :=
  takeWhile_append_of_head hpart hc

namespace ColorArgument

/-- A marked literal of six or eight digits, a comma with blanks around it, and a quote. -/
structure IsToken (token : Text) : Prop where
  exists_parts : ∃ x digits lead trail,
    token = ('0' :: x :: digits) ++ (lead ++ ',' :: (trail ++ ['"'])) ∧ isMark x ∧
      (digits.length = 6 ∨ digits.length = 8) ∧ (∀ c ∈ digits, isHexDigit c) ∧
      (∀ c ∈ lead, isBlank c) ∧ ∀ c ∈ trail, isBlank c

theorem token_eq_some_iff {before t : Text} {n : Nat} :
    token before t = some n ↔ endsInWord before = false ∧
      ∃ word after, IsToken word ∧ t = word ++ after ∧ word.length = n + 1 := by
  constructor
  · intro h
    unfold token at h
    split at h
    · next x rest =>
      simp only [drop_length_takeWhile, ← List.drop_drop] at h
      split at h
      · next hstart =>
        simp only [Bool.and_eq_true, Bool.not_eq_true', Bool.or_eq_true, beq_iff_eq] at hstart
        obtain ⟨⟨hbefore, hx⟩, hlength⟩ := hstart
        split at h
        · next rest' hcomma =>
          split at h
          · next hquote =>
            obtain ⟨after, hafter⟩ := List.head?_eq_some_iff.1 hquote
            refine ⟨hbefore, _, after, ⟨x, rest.takeWhile isHexDigit,
              (rest.dropWhile isHexDigit).takeWhile isBlank, rest'.takeWhile isBlank, rfl, hx, hlength,
              fun c hc => List.mem_takeWhile_imp hc, fun c hc => List.mem_takeWhile_imp hc,
              fun c hc => List.mem_takeWhile_imp hc⟩, ?_, ?_⟩
            · have htrail : rest' = rest'.takeWhile isBlank ++ '"' :: after := by
                rw [← hafter, List.takeWhile_append_dropWhile]
              have hlead : rest.dropWhile isHexDigit
                  = (rest.dropWhile isHexDigit).takeWhile isBlank ++ ',' :: rest' := by
                rw [← hcomma, List.takeWhile_append_dropWhile]
              have hrest : rest = rest.takeWhile isHexDigit
                  ++ ((rest.dropWhile isHexDigit).takeWhile isBlank
                    ++ ',' :: (rest'.takeWhile isBlank ++ '"' :: after)) := by
                rw [← htrail, ← hlead, List.takeWhile_append_dropWhile]
              simp only [List.cons_append, List.append_assoc, List.nil_append, List.cons.injEq,
                true_and]
              exact hrest
            · have hn := Option.some.inj h
              simp only [List.length_append, List.length_cons, List.length_nil]
              omega
          · cases h
        · cases h
      · cases h
    · cases h
  · rintro ⟨hbefore, word, after, ⟨x, digits, lead, trail, rfl, hx, hlength, hdigits, hlead, htrail⟩,
      rfl, hn⟩
    have hcomma : isHexDigit ',' = false := by decide
    have hblank : isBlank ',' = false := by decide
    have hquote : isBlank '"' = false := by decide
    have hword : (digits ++ (lead ++ ',' :: (trail ++ '"' :: after))).takeWhile isHexDigit
        = digits := by
      cases lead with
      | nil => exact takeWhile_append_of_stop hdigits hcomma _
      | cons c lead =>
        exact takeWhile_append_of_stop hdigits (isHexDigit_of_isBlank (hlead c List.mem_cons_self)) _
    have hstart : (!endsInWord before && (x == 'x' || x == 'X')
        && (digits.length == 6 || digits.length == 8)) = true := by
      simpa [hbefore, isMark] using ⟨hx, hlength⟩
    simp only [List.length_append, List.length_cons, List.length_nil] at hn
    simp only [token, List.cons_append, List.append_assoc, List.nil_append, hword, List.drop_left,
      takeWhile_append_of_stop hlead hblank, ← List.drop_drop, hstart, if_true,
      takeWhile_append_of_stop htrail hquote, List.head?_cons, Option.some.injEq]
    omega

theorem ensures_token : token.Ensures fun before token _ =>
    endsInWord before = false ∧ IsToken token := by
  intro before t n h
  obtain ⟨hbefore, word, after, hword, heq, hlength⟩ := token_eq_some_iff.1 h
  exact ⟨word, after, heq, hlength, hbefore, hword⟩

theorem accepts_token : token.Accepts fun before token _ =>
    endsInWord before = false ∧ IsToken token := by
  rintro before word after ⟨hbefore, hword⟩
  have hne : word ≠ [] := by
    obtain ⟨x, digits, lead, trail, heq, -⟩ := hword
    simp [heq]
  obtain ⟨n, hn⟩ := Nat.exists_eq_add_one.2 (List.length_pos_iff.2 hne)
  exact ⟨n, token_eq_some_iff.2 ⟨hbefore, word, after, hword, rfl, hn⟩, hn⟩

/-- A token is the same whatever follows it. -/
theorem finds_iff {base : Nat} {t : Text} {o : Occurrence} :
    Finds token base t o ↔ o.StandsIn base t ∧ endsInWord o.before = false ∧ IsToken o.token :=
  ensures_token.finds_iff accepts_token

/-- Behind the first word of a token stands no zero, and no token starts inside a word. -/
theorem isSeparated_token : IsSeparated token := by
  refine ensures_token.isSeparated fun before skipped shared after hne hshared hP => ?_
  refine Option.eq_none_iff_forall_ne_some.2 fun n hn => ?_
  obtain ⟨-, x, digits, lead, trail, hword, hx, -, hdigits, hlead, htrail⟩ := hP
  obtain ⟨hbefore, word, after', ⟨x', digits', lead', trail', rfl, -⟩, hrest, -⟩ :=
    token_eq_some_iff.1 hn
  have hzero : '0' ∈ shared := by
    obtain ⟨c, shared, rfl⟩ := List.exists_cons_of_ne_nil hshared
    simp only [List.cons_append, List.cons.injEq] at hrest
    simp [hrest.1]
  rcases List.append_eq_append_iff.1 hword with ⟨more, hstart, -⟩ | ⟨more, -, hend⟩
  · -- The second token would start inside the first word.
    obtain ⟨start, c, rfl⟩ := (List.eq_nil_or_concat skipped).resolve_left hne
    have hc : c ∈ '0' :: x :: digits := by simp [hstart]
    have hwordChar : isWordChar c := by
      simp only [List.mem_cons] at hc
      rcases hc with rfl | rfl | hc
      · rfl
      · exact isWordChar_of_isMark hx
      · exact isWordChar_of_isHexDigit (hdigits c hc)
    simp [endsInWord, hwordChar] at hbefore
  · have hmem : '0' ∈ lead ++ ',' :: (trail ++ ['"']) := by simp [hend, hzero]
    simp only [List.mem_append, List.mem_cons, List.not_mem_nil, or_false] at hmem
    rcases hmem with hmem | hmem | hmem | hmem
    · exact absurd (hlead _ hmem) (by decide)
    · exact absurd hmem (by decide)
    · exact absurd (htrail _ hmem) (by decide)
    · exact absurd hmem (by decide)

/-- The string of an argument opens right behind the token, on the line of the literal. -/
theorem ofOccurrence?_string {s : Source} {o : Occurrence} {a : ColorArgument}
    (h : ofOccurrence? s o = some a) :
    a.string ∈ s.quotes (s.lineOf o.offset) ∧ a.string.content.start = o.extent.stop := by
  unfold ofOccurrence? at h
  split at h
  · cases h
  · simp only [Option.bind_eq_bind, Option.bind_eq_some_iff, Option.pure_def, Option.some.injEq]
      at h
    obtain ⟨-, -, -, -, string, hfind, rfl⟩ := h
    exact ⟨List.mem_of_find?_eq_some hfind, by simpa using List.find?_some hfind⟩

theorem lineOf_string {s : Source} {o : Occurrence} {a : ColorArgument}
    (h : ofOccurrence? s o = some a) :
    s.lineOf a.string.content.start = s.lineOf o.offset := by
  have hquote := (ofOccurrence?_string h).1
  exact Source.lineOf_quote hquote (Nat.le_refl _) (Source.quotes_start_le_stop hquote)

end ColorArgument

/-! ## Windows -/

/-- The arguments of a window are those of the text whose literals are on its lines. -/
theorem Source.HasWindow.mem_colorArguments_iff {s : Source} {lines : LineRange}
    {before part after : Text} (h : s.HasWindow lines before part after) {a : ColorArgument} :
    a ∈ s.colorArguments ⟨before.size, before.size + (stripReturn part).size⟩ ↔
      ∃ o, Finds ColorArgument.token 0 s.text o ∧ ColorArgument.ofOccurrence? s o = some a ∧
        s.lineOf o.offset ∈ lines := by
  obtain ⟨ret, htext, -, -⟩ := h.text_eq
  have hword (t : Text) : endsInWord (t ++ before.reverse) = endsInWord t := by
    rcases h.hasLines.before_ends with rfl | hlast
    · simp
    · obtain ⟨start, rfl⟩ := List.getLast?_eq_some_iff.1 hlast
      rw [List.reverse_append]
      exact endsInWord_append_stop (by decide) t start.reverse
  rw [colorArguments, h.slice_eq, List.mem_filterMap]
  simp only [ColorArgument.isSeparated_token.mem_occurrences_iff]
  constructor
  · rintro ⟨o, ho, ha⟩
    have hstart := ho.start_lt_stop
    have hstop := ho.stop_add_after
    refine ⟨o.widen before.reverse (ret ++ after), ?_, ha, h.lineOf_mem ho.base_le (by
      simp only [Occurrence.widen_offset]
      omega)⟩
    obtain ⟨⟨hread, hoffset⟩, hbefore, htoken⟩ := ColorArgument.finds_iff.1 ho
    refine ColorArgument.finds_iff.2 ⟨⟨?_, ?_⟩, ?_, htoken⟩
    · rw [← htext, ← hread]
      simp [Occurrence.widen]
    · simp only [Occurrence.widen, Text.size_append, Text.size_reverse]
      omega
    · rw [← hbefore]
      exact hword o.before
  · rintro ⟨o, ho, ha, hline⟩
    obtain ⟨⟨hread, hoffset⟩, hbefore, htoken⟩ := ColorArgument.finds_iff.1 ho
    -- The quote opens a string of the line, so the token ends in the window.
    obtain ⟨hquote, hcontent⟩ := ColorArgument.ofOccurrence?_string ha
    obtain ⟨l, hl, hmem⟩ := Source.mem_quotes hquote
    have hbounds := Line.quotes_bounds hmem
    have hwindow := h.stop_le hl hline.2
    have hfirst := (h.first_le_iff o.offset).1 hline.1
    have hextent : o.extent.stop = o.offset + o.token.size := rfl
    obtain ⟨mid, hmid, hrest⟩ := Text.exists_middle (htext.trans hread.symm) (by
      simp only [Text.size_reverse]
      omega)
    have hsize := congrArg Text.size hmid
    have htoken' : mid ++ o.token ++ o.after = stripReturn part ++ (ret ++ after) := by
      rw [List.append_assoc, hrest]
    obtain ⟨more, hpart, -⟩ := Text.exists_middle htoken' (by
      simp only [Text.size_append, Text.size_reverse] at hsize ⊢
      omega)
    have hbefore' : o.before = mid.reverse ++ before.reverse := by
      simpa using congrArg List.reverse hmid
    refine ⟨⟨mid.reverse, o.token, more, o.offset⟩, ColorArgument.finds_iff.2 ⟨⟨?_, ?_⟩, ?_, htoken⟩, ha⟩
    · simp [hpart]
    · simp only [Text.size_append, Text.size_reverse] at hsize ⊢
      omega
    · rw [← hword, ← hbefore', hbefore]

end Swatch

-- SUMMARY: Which marked and braced literals are colors, and that all well-formed ones are found.
import Swatch.Proofs.Color.Digits
import Swatch.Proofs.Literal.Apart

/-!
# Marked and braced literals

A marked literal is well formed if six or eight hexadecimal digits follow its mark. One
more kind of token is read as a color: behind the mark of a token the digits may bring a
mark of their own, which is counted as two of eight digits and then passed over.

A marked token goes on as long as it can and starts outside of a word, so none starts
inside another one, and a braced token does not either. The places of tokens in a text are
therefore just the occurrences, whatever stands around them: each well-formed literal is
found once, in its place, with the color that its digits write.
-/

namespace Swatch

/-! ## Marked literals -/

namespace Hex

/-- A well-formed marked literal: six or eight hexadecimal digits behind the mark. -/
structure IsWellFormed (t : Text) : Prop where
  shape : ∃ x digits, t = '0' :: x :: digits ∧ isMark x ∧
    (digits.length = 6 ∨ digits.length = 8) ∧ ∀ d ∈ digits, isHexDigit d

/-- Six hexadecimal digits behind two marks. -/
structure HasTwoMarks (t : Text) : Prop where
  shape : ∃ x y digits, t = '0' :: x :: '0' :: y :: digits ∧ isMark x ∧ isMark y ∧
    digits.length = 6 ∧ ∀ d ∈ digits, isHexDigit d

/-- How a well-formed literal is spelled, and the color that its digits write in either case. -/
inductive Denotes : Text → Spelling → Color → Prop
  | alpha {x : Char} {digits : Text} {c : Color} (hx : isMark x)
      (hdigits : digits.map Char.toUpper = c.rgbaDigits) :
      Denotes ('0' :: x :: digits) .hexAlpha c
  | solid {x : Char} {digits : Text} {c : Color} (hx : isMark x)
      (hdigits : digits.map Char.toUpper = c.rgbDigits) (halpha : c.alpha = 255) :
      Denotes ('0' :: x :: digits) .hexNoAlpha c

theorem not_isHexDigit_of_isMark {x : Char} (hx : isMark x) : isHexDigit x = false := by
  rcases hx with rfl | rfl <;> decide

theorem utf8Size_of_isMark {x : Char} (hx : isMark x) : x.utf8Size = 1 := by
  rcases hx with rfl | rfl <;> decide

theorem digits?_eq_some_iff {t digits : Text} :
    digits? t = some digits ↔ ∃ x, isMark x ∧ t = '0' :: x :: digits := by
  constructor
  · intro h
    unfold digits? at h
    split at h
    · exact ⟨'x', .inl rfl, by rw [Option.some.inj h]⟩
    · exact ⟨'X', .inr rfl, by rw [Option.some.inj h]⟩
    · cases h
  · rintro ⟨x, rfl | rfl, rfl⟩ <;> rfl

/-- A literal is read if its digits, without a mark of their own, are a color, and if they are as
many as its spelling asks for with that mark. -/
theorem read?_eq_some_iff {t : Text} {spelling : Spelling} {c : Color} :
    read? t = some (spelling, c) ↔ ∃ (x : Char) (digits : Text), isMark x ∧ t = '0' :: x :: digits ∧
      (digits.size = 8 ∧ spelling = .hexAlpha ∨ digits.size = 6 ∧ spelling = .hexNoAlpha) ∧
      Color.ofDigits? (Color.stripMark digits) = some c := by
  constructor
  · intro h
    obtain ⟨digits, hdigits, hread⟩ := Option.bind_eq_some_iff.1 h
    obtain ⟨x, hx, rfl⟩ := digits?_eq_some_iff.1 hdigits
    simp only [Option.bind_eq_bind, Option.bind_some, Option.bind_none, Option.pure_def] at hread
    split at hread
    · next hsize =>
      obtain ⟨_, hc, heq⟩ := Option.bind_eq_some_iff.1 hread
      cases heq
      exact ⟨x, digits, hx, rfl, .inl ⟨hsize, rfl⟩, hc⟩
    · next hsize =>
      obtain ⟨_, hc, heq⟩ := Option.bind_eq_some_iff.1 hread
      cases heq
      exact ⟨x, digits, hx, rfl, .inr ⟨hsize, rfl⟩, hc⟩
    · cases hread
  · rintro ⟨x, digits, hx, rfl, ⟨hsize, rfl⟩ | ⟨hsize, rfl⟩, hc⟩ <;>
      simp [read?, digits?_eq_some_iff.2 ⟨x, hx, rfl⟩, hsize, Color.ofHex?, hc]

/-- A well-formed literal is read, and as what it denotes. -/
theorem IsWellFormed.exists_read? {t : Text} (h : IsWellFormed t) :
    ∃ spelling c, read? t = some (spelling, c) ∧ Denotes t spelling c := by
  obtain ⟨x, digits, rfl, hx, hlength, hdigits⟩ := h
  obtain ⟨c, hc⟩ := Color.exists_ofDigits? hdigits hlength
  have hsize := size_of_isHexDigit hdigits
  have hstrip := Color.stripMark_of_isHexDigit hdigits
  rcases hlength with hlength | hlength
  · obtain ⟨hwritten, halpha⟩ := Color.rgbDigits_of_ofDigits? hc hlength
    refine ⟨.hexNoAlpha, c, read?_eq_some_iff.2 ⟨x, digits, hx, rfl, ?_, by rw [hstrip, hc]⟩,
      .solid hx hwritten halpha⟩
    exact .inr ⟨hsize.trans hlength, rfl⟩
  · have hwritten := Color.rgbaDigits_of_ofDigits? hc hlength
    refine ⟨.hexAlpha, c, read?_eq_some_iff.2 ⟨x, digits, hx, rfl, ?_, by rw [hstrip, hc]⟩,
      .alpha hx hwritten⟩
    exact .inl ⟨hsize.trans hlength, rfl⟩

/-- Six digits behind two marks are read as a literal with an alpha channel. -/
theorem HasTwoMarks.exists_read? {t : Text} (h : HasTwoMarks t) :
    ∃ c, read? t = some (.hexAlpha, c) := by
  obtain ⟨x, y, digits, rfl, hx, hy, hlength, hdigits⟩ := h
  obtain ⟨c, hc⟩ := Color.exists_ofDigits? hdigits (.inl hlength)
  have hzero : '0'.utf8Size = 1 := by decide
  have hsize : Text.size ('0' :: y :: digits) = 8 := by
    simp only [Text.size_cons, hzero, utf8Size_of_isMark hy, size_of_isHexDigit hdigits, hlength]
  have hstrip : Color.stripMark ('0' :: y :: digits) = digits := by rcases hy with rfl | rfl <;> rfl
  exact ⟨c, read?_eq_some_iff.2
    ⟨x, '0' :: y :: digits, hx, rfl, .inl ⟨hsize, rfl⟩, by rw [hstrip, hc]⟩⟩

/-- What is passed over in front of digits is nothing, one more mark or a single character. -/
theorem stripMark_cases (digits : Text) :
    Color.stripMark digits = digits ∨
      (∃ y, isMark y ∧ digits = '0' :: y :: Color.stripMark digits) ∨
      digits = '#' :: Color.stripMark digits := by
  unfold Color.stripMark
  split
  · exact .inr (.inl ⟨'x', .inl rfl, rfl⟩)
  · exact .inr (.inl ⟨'X', .inr rfl, rfl⟩)
  · exact .inr (.inr rfl)
  · exact .inl rfl

/-- Nothing is read but well-formed literals and six digits behind two marks. -/
theorem isSome_read?_iff {t : Text} : (read? t).isSome ↔ IsWellFormed t ∨ HasTwoMarks t := by
  constructor
  · intro h
    obtain ⟨⟨spelling, c⟩, hread⟩ := Option.isSome_iff_exists.1 h
    obtain ⟨x, digits, hx, rfl, hsize, hc⟩ := read?_eq_some_iff.1 hread
    have hzero : '0'.utf8Size = 1 := by decide
    have hhash : '#'.utf8Size = 1 := by decide
    obtain ⟨hdigits, hlength⟩ := Color.digits_of_ofDigits? hc
    have hstripped := size_of_isHexDigit hdigits
    rcases stripMark_cases digits with hstrip | ⟨y, hy, hstrip⟩ | hstrip
    · rw [hstrip] at hdigits hlength
      exact .inl ⟨x, digits, rfl, hx, hlength, hdigits⟩
    · have hwide := congrArg Text.size hstrip
      simp only [Text.size_cons, hzero, utf8Size_of_isMark hy] at hwide
      exact .inr ⟨x, y, Color.stripMark digits, by rw [← hstrip], hx, hy, by omega, hdigits⟩
    · -- A hash would be one of the digits, which leaves five or seven.
      have hwide := congrArg Text.size hstrip
      simp only [Text.size_cons, hhash] at hwide
      omega
  · rintro (h | h)
    · obtain ⟨spelling, c, hread, -⟩ := h.exists_read?
      rw [hread]
      rfl
    · obtain ⟨c, hread⟩ := h.exists_read?
      rw [hread]
      rfl

/-- Behind two marks stands a character that is no digit. -/
theorem IsWellFormed.not_hasTwoMarks {t : Text} (h : IsWellFormed t) : ¬ HasTwoMarks t := by
  obtain ⟨x, digits, rfl, -, -, hdigits⟩ := h
  rintro ⟨x', y, digits', heq, -, hy, -, -⟩
  simp only [List.cons.injEq, true_and] at heq
  have hdigit := hdigits y (by simp [heq.2])
  exact absurd hdigit (by simp [not_isHexDigit_of_isMark hy])

/-! ### In a text -/

theorem IsWellFormed.isWhole {before t after : Text} (h : IsWellFormed t)
    (hstarts : endsInWord before = false) (hends : after.head?.any isTokenChar = false) :
    IsWhole before t after := by
  obtain ⟨x, digits, rfl, hx, hlength, hdigits⟩ := h
  have hbody (d : Char) (hd : d ∈ digits) : isTokenChar d := by
    simp [isTokenChar, isAlphanum_of_isHexDigit (hdigits d hd)]
  refine ⟨⟨hstarts, x, digits, rfl, hx, hbody⟩, ?_, hends⟩
  rw [List.length_cons, List.length_cons]
  omega

theorem mem_literals_iff {base : Nat} {t : Text} {l : Literal} :
    l ∈ literals base t ↔ ∃ o spelling c, o.StandsIn base t ∧ IsWhole o.before o.token o.after ∧
      read? o.token = some (spelling, c) ∧ l = .ofOccurrence o spelling c := by
  simp only [literals, List.mem_filterMap, isSeparated_token.mem_occurrences_iff,
    ensures_isWhole.finds_iff accepts_isWhole, Option.bind_eq_bind, Option.bind_eq_some_iff,
    Option.pure_def, Option.some.injEq, Prod.exists]
  constructor
  · rintro ⟨o, ⟨hplace, hwhole⟩, spelling, c, hread, rfl⟩
    exact ⟨o, spelling, c, hplace, hwhole, hread, rfl⟩
  · rintro ⟨o, spelling, c, hplace, hwhole, hread, rfl⟩
    exact ⟨o, ⟨hplace, hwhole⟩, spelling, c, hread, rfl⟩

/-- A literal shares no offset with a token that is not read. -/
theorem disjoint_of_read?_eq_none {base : Nat} {t : Text} {o : Occurrence}
    (hplace : o.StandsIn base t) (hwhole : IsWhole o.before o.token o.after)
    (hread : read? o.token = none) {l : Literal} (hl : l ∈ literals base t) :
    l.extent.Disjoint o.extent := by
  obtain ⟨o', spelling, c, hplace', hwhole', hread', rfl⟩ := mem_literals_iff.1 hl
  have hfinds := (ensures_isWhole.finds_iff accepts_isWhole).2 ⟨hplace, hwhole⟩
  have hfinds' := (ensures_isWhole.finds_iff accepts_isWhole).2 ⟨hplace', hwhole'⟩
  refine isSeparated_token.disjoint hfinds' hfinds ?_
  rintro rfl
  cases hread.symm.trans hread'

/-- A text is read just if it is well formed, unless it is six digits behind two marks, which are
read all the same. So the literals of a text are well formed if and only if no token of it has two
marks, and no literal meets a token that is malformed in another way. -/
theorem literals_well_formed_iff (base : Nat) (t : Text) :
    (((read? t).isSome ↔ IsWellFormed t) ↔ ¬ HasTwoMarks t) ∧
    (∀ l ∈ literals base t, IsWellFormed l.raw ∨ HasTwoMarks l.raw) ∧
    ((∀ l ∈ literals base t, IsWellFormed l.raw) ↔
      ∀ o : Occurrence, o.StandsIn base t → IsWhole o.before o.token o.after →
        ¬ HasTwoMarks o.token) ∧
    ∀ o : Occurrence, o.StandsIn base t → IsWhole o.before o.token o.after →
      ¬ IsWellFormed o.token → ¬ HasTwoMarks o.token →
      ∀ l ∈ literals base t, l.extent.Disjoint o.extent := by
  have hraw (l : Literal) (hl : l ∈ literals base t) :
      IsWellFormed l.raw ∨ HasTwoMarks l.raw := by
    obtain ⟨o, spelling, c, -, -, hread, rfl⟩ := mem_literals_iff.1 hl
    exact isSome_read?_iff.1 (Option.isSome_of_eq_some hread)
  refine ⟨?_, hraw, ?_, fun o hplace hwhole hform hmarks l hl => ?_⟩
  · rw [isSome_read?_iff]
    constructor
    · intro hread hmarks
      exact (hread.1 (.inr hmarks)).not_hasTwoMarks hmarks
    · intro hmarks
      exact or_iff_left hmarks
  · constructor
    · intro hform o hplace hwhole hmarks
      obtain ⟨c, hread⟩ := hmarks.exists_read?
      have hl := mem_literals_iff.2 ⟨o, _, c, hplace, hwhole, hread, rfl⟩
      exact (hform _ hl).not_hasTwoMarks hmarks
    · intro hmarks l hl
      refine (hraw l hl).resolve_right fun hraw => ?_
      obtain ⟨o, spelling, c, hplace, hwhole, -, rfl⟩ := mem_literals_iff.1 hl
      exact hmarks o hplace hwhole hraw
  · have hread : read? o.token = none := by
      rw [← Option.not_isSome_iff_eq_none, isSome_read?_iff]
      exact not_or.2 ⟨hform, hmarks⟩
    exact disjoint_of_read?_eq_none hplace hwhole hread hl

/-- A token with letters that are no digits is passed over, and the literal behind it is found. -/
theorem literals_well_formed_iff_malformed :
    let o : Occurrence := ⟨[], "0xFF00ZZ".toList, ",0xFF0000".toList, 0⟩
    let t : Text := "0xFF00ZZ,0xFF0000".toList
    o.StandsIn 0 t ∧ IsWhole o.before o.token o.after ∧
      ¬ IsWellFormed o.token ∧ ¬ HasTwoMarks o.token ∧
      (literals 0 t).map (·.extent) = [⟨9, 17⟩] ∧
      ∀ l ∈ literals 0 t, l.extent.Disjoint o.extent := by
  intro o t
  have hplace : o.StandsIn 0 t := ⟨by decide +kernel, rfl⟩
  have hwhole : IsWhole o.before o.token o.after :=
    ⟨⟨rfl, 'x', "FF00ZZ".toList, by decide +kernel, .inl rfl,
      List.all_eq_true.1 (by decide +kernel)⟩, by decide +kernel, by decide +kernel⟩
  have hread : ¬ (read? o.token).isSome := by decide +kernel
  obtain ⟨hform, hmarks⟩ := not_or.1 (isSome_read?_iff.not.1 hread)
  have hfound : (literals 0 t).map (·.extent) = [⟨9, 17⟩] := by decide +kernel
  exact ⟨hplace, hwhole, hform, hmarks, hfound,
    (literals_well_formed_iff 0 t).2.2.2 o hplace hwhole hform hmarks⟩

/-- Behind a second mark the literal that is found has six digits and not eight. -/
theorem malformed_literal_with_two_marks :
    let t : Text := "0x0xFF0000".toList
    (read? t).isSome ∧ ¬ IsWellFormed t ∧ (literals 0 t).map (·.raw) = [t] := by
  intro t
  have hmarks : HasTwoMarks t :=
    ⟨'x', 'x', "FF0000".toList, by decide +kernel, .inl rfl, .inl rfl, by decide +kernel,
      List.all_eq_true.1 (by decide +kernel)⟩
  have hfound : (literals 0 t).map (·.raw) = [t] := by decide +kernel
  exact ⟨isSome_read?_iff.2 (.inr hmarks), fun hform => hform.not_hasTwoMarks hmarks, hfound⟩

end Hex

/-! ## Literals in braces -/

namespace Braced

/-- The color that six digits in braces write in either case. -/
structure Denotes (t : Text) (c : Color) : Prop where
  shape : ∃ digits, t = '{' :: (digits ++ ['}']) ∧ digits.map Char.toUpper = c.rgbDigits
  alpha_eq : c.alpha = 255

/-- Six hexadecimal digits in braces are a color. -/
theorem exists_read? {token : Text} (h : IsToken token) :
    ∃ c, read? token = some c ∧ Denotes token c := by
  obtain ⟨digits, rfl, hlength, hdigits⟩ := h
  have hsize : Text.size digits = 6 := by rw [size_of_isHexDigit hdigits, hlength]
  obtain ⟨c, hc⟩ := Color.exists_ofDigits? hdigits (.inl hlength)
  obtain ⟨hwritten, halpha⟩ := Color.rgbDigits_of_ofDigits? hc hlength
  refine ⟨c, ?_, ⟨digits, rfl, hwritten⟩, halpha⟩
  simp [read?, digits?, hsize, Color.ofHex?, Color.stripMark_of_isHexDigit hdigits, hc]

theorem mem_literals_iff {base : Nat} {t : Text} {l : Literal} :
    l ∈ literals base t ↔ ∃ o c, o.StandsIn base t ∧ IsToken o.token ∧ read? o.token = some c ∧
      l = .ofOccurrence o .braced c := by
  simp only [literals, List.mem_filterMap, isSeparated_token.mem_occurrences_iff,
    ensures_token.finds_iff accepts_isToken, Option.bind_eq_bind, Option.bind_eq_some_iff,
    Option.pure_def, Option.some.injEq]
  constructor
  · rintro ⟨o, ⟨hplace, htoken⟩, c, hread, rfl⟩
    exact ⟨o, c, hplace, htoken, hread, rfl⟩
  · rintro ⟨o, c, hplace, htoken, hread, rfl⟩
    exact ⟨o, ⟨hplace, htoken⟩, c, hread, rfl⟩

end Braced

/-! ## Every well-formed literal is found -/

/-- A well-formed marked literal that stands alone and six digits in braces, wherever they stand,
are found once, in their place and with the color that they write. Nothing else is found in
braces, and the literals of either kind stand one behind the other. -/
theorem hexadecimal_literals_found (base : Nat) (t : Text) :
    (∀ o : Occurrence, o.StandsIn base t → Hex.IsWellFormed o.token →
      endsInWord o.before = false → o.after.head?.any Hex.isTokenChar = false →
      ∃ spelling c, Hex.Denotes o.token spelling c ∧
        (Hex.literals base t).filter (fun l => l.extent = o.extent)
          = [.ofOccurrence o spelling c]) ∧
    (∀ o : Occurrence, o.StandsIn base t → Braced.IsToken o.token →
      ∃ c, Braced.Denotes o.token c ∧
        (Braced.literals base t).filter (fun l => l.extent = o.extent)
          = [.ofOccurrence o .braced c]) ∧
    (∀ l ∈ Braced.literals base t, ∃ o c, o.StandsIn base t ∧ Braced.IsToken o.token ∧
      Braced.Denotes o.token c ∧ l = .ofOccurrence o .braced c) ∧
    InOrder (Hex.literals base t) ∧ InOrder (Braced.literals base t) := by
  have hmarked := (Hex.areTokens_literals base t).inOrder
  have hbraced := (Braced.areTokens_literals base t).inOrder
  refine ⟨fun o hplace hform hstarts hends => ?_, fun o hplace htoken => ?_, fun l hl => ?_,
    hmarked, hbraced⟩
  · obtain ⟨spelling, c, hread, hdenotes⟩ := hform.exists_read?
    have hwhole := hform.isWhole hstarts hends
    have hl := Hex.mem_literals_iff.2 ⟨o, spelling, c, hplace, hwhole, hread, rfl⟩
    exact ⟨spelling, c, hdenotes, hmarked.filter_extent hl⟩
  · obtain ⟨c, hread, hdenotes⟩ := Braced.exists_read? htoken
    have hl := Braced.mem_literals_iff.2 ⟨o, c, hplace, htoken, hread, rfl⟩
    exact ⟨c, hdenotes, hbraced.filter_extent hl⟩
  · obtain ⟨o, c, hplace, htoken, hread, rfl⟩ := Braced.mem_literals_iff.1 hl
    obtain ⟨c', hread', hdenotes⟩ := Braced.exists_read? htoken
    obtain rfl : c' = c := Option.some.inj (hread'.symm.trans hread)
    exact ⟨o, c', hplace, htoken, hdenotes, rfl⟩

/-- A literal between a malformed token and one in braces is found, and so is the one in braces. -/
theorem hexadecimal_literals_found_crowded :
    let t : Text := "0xFG,0xff00007f\x7b00fF00\x7d".toList
    let marked : Occurrence := ⟨(t.take 5).reverse, (t.drop 5).take 10, t.drop 15, 5⟩
    let braced : Occurrence := ⟨(t.take 15).reverse, t.drop 15, [], 15⟩
    marked.StandsIn 0 t ∧ braced.StandsIn 0 t ∧
      (∃ spelling c, Hex.Denotes marked.token spelling c ∧
        (Hex.literals 0 t).filter (fun l => l.extent = marked.extent)
          = [.ofOccurrence marked spelling c]) ∧
      ∃ c, Braced.Denotes braced.token c ∧
        (Braced.literals 0 t).filter (fun l => l.extent = braced.extent)
          = [.ofOccurrence braced .braced c] := by
  intro t marked braced
  have hmarked : marked.StandsIn 0 t := ⟨by decide +kernel, by decide +kernel⟩
  have hbraced : braced.StandsIn 0 t := ⟨by decide +kernel, by decide +kernel⟩
  have hform : Hex.IsWellFormed marked.token :=
    ⟨'x', "ff00007f".toList, by decide +kernel, .inl rfl, by decide +kernel,
      List.all_eq_true.1 (by decide +kernel)⟩
  have htoken : Braced.IsToken braced.token :=
    ⟨"00fF00".toList, by decide +kernel, by decide +kernel, List.all_eq_true.1 (by decide +kernel)⟩
  obtain ⟨hfound, hfound', -⟩ := hexadecimal_literals_found 0 t
  exact ⟨hmarked, hbraced, hfound marked hmarked hform (by decide +kernel) (by decide +kernel),
    hfound' braced hbraced htoken⟩

end Swatch

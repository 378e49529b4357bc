-- SUMMARY: What the tokens of literals look like, and which of them do not look beyond a line.
import Swatch.Proofs.Text.Number
import Swatch.Proofs.Text.Occurrence
import Swatch.Literal.GameText
import Swatch.Literal.Tuple
import Mathlib

/-!
# Tokens of literals

Each pattern says what its tokens look like and where they may stand. Marked tokens,
braced tokens and number lists consist of characters that no line ends in, and what
stands beyond the end of a line is no word, so these patterns do not look beyond their
line. Whatever such a pattern reads, it reads in a text that goes on behind the line.
-/

namespace Swatch

namespace Pattern

/-- Every token that a pattern finds has a property, which may depend on its surroundings. -/
def Ensures (p : Pattern) (P : Text → Text → Text → Prop) : Prop :=
  ∀ before t n, p before t = some n →
    ∃ token after, t = token ++ after ∧ token.length = n + 1 ∧ P before token after

variable {p : Pattern} {P : Text → Text → Text → Prop}

theorem Ensures.fits (hp : p.Ensures P) {before t : Text} {n : Nat} (h : p before t = some n) :
    n < t.length := by
  obtain ⟨token, after, rfl, hlength, -⟩ := hp before t n h
  rw [List.length_append, hlength]
  omega

theorem Ensures.imp {Q : Text → Text → Text → Prop} (hp : p.Ensures P)
    (himp : ∀ {before token after}, P before token after → Q before token after) : p.Ensures Q := by
  intro before t n h
  obtain ⟨token, after, ht, hlength, hP⟩ := hp before t n h
  exact ⟨token, after, ht, hlength, himp hP⟩

theorem Ensures.finds (hp : p.Ensures P) {base : Nat} {t : Text} {o : Occurrence}
    (ho : p.Finds base t o) : P o.before o.token o.after := by
  obtain ⟨n, hn, htake⟩ := ho.found
  obtain ⟨token, after, heq, hlength, hP⟩ := hp _ _ n hn
  have htoken : o.token = token := by
    rw [← htake, heq, ← hlength, List.take_left]
  have hafter : o.after = after := by
    rw [htoken] at heq
    exact List.append_cancel_left heq
  rwa [htoken, hafter]

/-- If none is found inside a text with the property, tokens never start inside each other. -/
theorem Ensures.isSeparated (hp : p.Ensures P)
    (hnone : ∀ before mid shared after, mid ≠ [] → shared ≠ [] → P before (mid ++ shared) after →
      p (mid.reverse ++ before) (shared ++ after) = none) : p.IsSeparated := by
  intro before mid rest n hmid hn hle
  obtain ⟨token, after, heq, hlength, hP⟩ := hp _ _ n hn
  obtain ⟨shared, rfl⟩ := List.prefix_of_prefix_length_le (List.prefix_append mid rest)
    (heq ▸ List.prefix_append token after) (by omega)
  rw [List.append_assoc] at heq
  rw [List.append_cancel_left heq]
  refine hnone before mid shared after hmid ?_ hP
  rintro rfl
  rw [List.append_nil] at hlength
  omega

/-- Every text with a property is found as a token, whole and wherever it stands. -/
def Accepts (p : Pattern) (P : Text → Text → Text → Prop) : Prop :=
  ∀ before token after, P before token after →
    ∃ n, p before (token ++ after) = some n ∧ token.length = n + 1

/-- The places of tokens are those of the texts with the property. -/
theorem Ensures.finds_iff (hp : p.Ensures P) (hp' : p.Accepts P) {base : Nat} {t : Text}
    {o : Occurrence} : p.Finds base t o ↔ o.StandsIn base t ∧ P o.before o.token o.after := by
  constructor
  · exact fun ho => ⟨ho.standsIn, hp.finds ho⟩
  · rintro ⟨ho, hP⟩
    obtain ⟨n, hn, hlength⟩ := hp' _ _ _ hP
    refine ⟨ho.text_eq, ho.offset_eq, List.ne_nil_of_length_pos (by omega), n, hn, ?_⟩
    rw [← hlength, List.take_left]

end Pattern

/-! ## Characters -/

theorem toNat_lt_of_isAlphanum {c : Char} (h : c.isAlphanum) : c.toNat < 0x80 := by
  have hrange := toNat_of_isAlphanum h
  omega

theorem isWordChar_of_isAlphanum {c : Char} (h : c.isAlphanum) : isWordChar c := by
  simp [isWordChar, toNat_lt_of_isAlphanum h, h]

theorem isWordChar_of_isTokenChar {c : Char} (h : Hex.isTokenChar c) : isWordChar c := by
  simp only [Hex.isTokenChar, Bool.or_eq_true, beq_iff_eq] at h
  rcases h with h | rfl
  · exact isWordChar_of_isAlphanum h
  · decide

/-- A letter of a mark, which is no hexadecimal digit. -/
def isMark (c : Char) : Prop :=
  c = 'x' ∨ c = 'X'

theorem isWordChar_of_isMark {c : Char} (h : isMark c) : isWordChar c := by
  rcases h with rfl | rfl <;> decide

/-- A line's end stops whatever goes on while characters have a property that it has not. -/
theorem takeWhile_append_stop {f : Char → Bool} {c : Char} (hc : f c = false) (t beyond : Text) :
    (t ++ c :: beyond).takeWhile f = t.takeWhile f := by
  induction t with
  | nil => simp [hc]
  | cons d t ih =>
    rw [List.cons_append, List.takeWhile_cons, List.takeWhile_cons, ih]

theorem dropWhile_append_stop {f : Char → Bool} {c : Char} (hc : f c = false) (t beyond : Text) :
    (t ++ c :: beyond).dropWhile f = t.dropWhile f ++ c :: beyond := by
  induction t with
  | nil => simp [hc]
  | cons d t ih =>
    rw [List.cons_append, List.dropWhile_cons, List.dropWhile_cons, ih]
    split <;> rfl

/-- What goes on while characters have a property stops before a character that has it not. -/
theorem takeWhile_append_of_head {f : Char → Bool} {part rest : Text} (hpart : ∀ c ∈ part, f c)
    (hrest : rest.head?.any f = false) : (part ++ rest).takeWhile f = part := by
  rw [List.takeWhile_append_of_pos hpart]
  cases rest with
  | nil => simp
  | cons c rest =>
    rw [List.takeWhile_cons_of_neg (by simpa using hrest), List.append_nil]

/-- What goes on while characters have a property is cut off by its length. -/
theorem drop_length_takeWhile (f : Char → Bool) (t : Text) :
    t.drop (t.takeWhile f).length = t.dropWhile f := by
  calc t.drop (t.takeWhile f).length
      = (t.takeWhile f ++ t.dropWhile f).drop (t.takeWhile f).length := by
        rw [List.takeWhile_append_dropWhile]
    _ = t.dropWhile f := List.drop_left

theorem endsInWord_append_stop {c : Char} (hc : isWordChar c = false) (before beyond : Text) :
    endsInWord (before ++ c :: beyond) = endsInWord before := by
  cases before with
  | nil => simp [endsInWord, hc]
  | cons d before => rfl

theorem startsWithWord_append_stop {c : Char} (hc : isWordChar c = false) (t beyond : Text) :
    startsWithWord (t ++ c :: beyond) = startsWithWord t :=
  endsInWord_append_stop hc t beyond

/-- What a text starts with, without the character `c`, stands before the first `c`. -/
theorem prefix_append_stop_iff {c : Char} {w t beyond : Text} (hc : c ∉ w) :
    w <+: t ++ c :: beyond ↔ w <+: t := by
  constructor
  · rintro ⟨more, hmore⟩
    rcases List.append_eq_append_iff.1 hmore with ⟨mid, ht, -⟩ | ⟨mid, hw, hrest⟩
    · exact ⟨mid, ht.symm⟩
    · cases mid with
      | nil => exact ⟨[], by simpa using hw⟩
      | cons d mid =>
        simp only [List.cons_append, List.cons.injEq] at hrest
        exact absurd (by simp [hw, hrest.1]) hc
  · exact fun h => h.trans (List.prefix_append t _)

open Pattern (endsLine)

theorem endsLine_cases {c : Char} (hc : endsLine c) : c = '\n' ∨ c = '\r' := by
  simpa [endsLine] using hc

theorem isWordChar_of_endsLine {c : Char} (hc : endsLine c) : isWordChar c = false := by
  rcases endsLine_cases hc with rfl | rfl <;> decide

/-! ## Marked tokens -/

namespace Hex

/-- A marked token: it starts outside of a word and is one word. -/
structure IsToken (before token after : Text) : Prop where
  starts : endsInWord before = false
  shape : ∃ x body, token = '0' :: x :: body ∧ isMark x ∧ ∀ c ∈ body, isTokenChar c

theorem IsToken.isTokenChar_of_mem {before token after : Text} (h : IsToken before token after)
    {c : Char} (hc : c ∈ token) : isTokenChar c := by
  obtain ⟨x, body, rfl, hx, hbody⟩ := h.shape
  simp only [List.mem_cons] at hc
  rcases hc with rfl | rfl | hc
  · rfl
  · rcases hx with rfl | rfl <;> rfl
  · exact hbody c hc

/-- A marked token that goes on as long as it can. -/
structure IsWhole (before token after : Text) : Prop extends IsToken before token after where
  long : 3 ≤ token.length
  ends : after.head?.any isTokenChar = false

theorem ensures_isWhole : token.Ensures IsWhole := by
  intro before t n h
  unfold token at h
  split at h
  · next x d rest =>
    split at h
    · next hstart =>
      simp only [Bool.and_eq_true, Bool.not_eq_true', Bool.or_eq_true, beq_iff_eq] at hstart
      obtain ⟨⟨hbefore, hx⟩, hd⟩ := hstart
      have hends : (rest.dropWhile isTokenChar).head?.any isTokenChar = false := by
        have hnot := List.head?_dropWhile_not isTokenChar rest
        cases hhead : (rest.dropWhile isTokenChar).head? with
        | none => rfl
        | some c => simpa [hhead] using hnot
      refine ⟨'0' :: x :: d :: rest.takeWhile isTokenChar, rest.dropWhile isTokenChar, ?_, ?_,
        ⟨hbefore, x, d :: rest.takeWhile isTokenChar, rfl, hx, ?_⟩, by simp, hends⟩
      · simp [List.takeWhile_append_dropWhile]
      · simpa using h
      · intro c hc
        rcases List.mem_cons.1 hc with rfl | hc
        · exact hd
        · exact List.mem_takeWhile_imp hc
    · cases h
  · cases h

theorem ensures_token : token.Ensures IsToken :=
  ensures_isWhole.imp fun h => h.toIsToken

theorem accepts_isWhole : token.Accepts IsWhole := by
  intro before _ after h
  obtain ⟨x, body, rfl, hx, hbody⟩ := h.shape
  have hlong := h.long
  obtain ⟨d, rest, rfl⟩ : ∃ d rest, body = d :: rest :=
    List.exists_cons_of_ne_nil (by rintro rfl; simp at hlong)
  obtain ⟨hd, hrest⟩ := List.forall_mem_cons.1 hbody
  refine ⟨rest.length + 2, ?_, by simp⟩
  rw [List.cons_append, List.cons_append, List.cons_append, token,
    takeWhile_append_of_head hrest h.ends]
  rcases hx with rfl | rfl <;> simp [h.starts, hd]

/-- A marked token ends behind its last letter, digit or underscore, so none starts inside it. -/
theorem isSeparated_token : token.IsSeparated := by
  refine ensures_token.isSeparated fun before mid shared after hmid _ h => ?_
  obtain ⟨start, c, rfl⟩ := (List.eq_nil_or_concat mid).resolve_left hmid
  have hc : isWordChar c := isWordChar_of_isTokenChar (h.isTokenChar_of_mem (by simp))
  unfold token
  split
  · simp [endsInWord, hc]
  · rfl

theorem token_congr {before before' : Text} (h : endsInWord before = endsInWord before')
    (t : Text) : token before t = token before' t := by
  unfold token
  split
  · rw [h]
  · rfl

theorem isLocal_token : token.IsLocal where
  left hc before beyond t :=
    token_congr (endsInWord_append_stop (isWordChar_of_endsLine hc) before beyond) t
  right {c} hc before t beyond := by
    have hstop : isTokenChar c = false := by rcases endsLine_cases hc with rfl | rfl <;> decide
    have hmark : (c == 'x' || c == 'X') = false := by
      rcases endsLine_cases hc with rfl | rfl <;> decide
    have hzero : c ≠ '0' := by rcases endsLine_cases hc with rfl | rfl <;> decide
    match t, beyond with
    | [], _ => simp [token, hzero]
    | [a], [] => simp [token]
    | [a], _ :: _ =>
      by_cases ha : a = '0'
      · subst ha
        simp [token, hmark]
      · simp [token, ha]
    | [a, b], _ =>
      by_cases ha : a = '0'
      · subst ha
        simp [token, hstop]
      · simp [token, ha]
    | a :: b :: d :: t, _ =>
      by_cases ha : a = '0'
      · subst ha
        simp [token, takeWhile_append_stop hstop]
      · simp [token, ha]
  fits := ensures_token.fits

end Hex

/-! ## Braced tokens -/

namespace Braced

/-- A braced token: six hexadecimal digits between braces. -/
def IsToken (token : Text) : Prop :=
  ∃ digits, token = '{' :: (digits ++ ['}']) ∧ digits.length = 6 ∧ ∀ d ∈ digits, isHexDigit d

theorem heads_iff {t : Text} : heads t ↔ ∃ token, IsToken token ∧ token <+: t := by
  constructor
  · intro h
    unfold heads at h
    split at h
    · next d₁ d₂ d₃ d₄ d₅ d₆ rest =>
      refine ⟨['{', d₁, d₂, d₃, d₄, d₅, d₆, '}'], ⟨[d₁, d₂, d₃, d₄, d₅, d₆], rfl, rfl, ?_⟩,
        rest, rfl⟩
      exact List.all_eq_true.1 h
    · cases h
  · rintro ⟨_, ⟨digits, rfl, hlength, hdigits⟩, rest, rfl⟩
    match digits, hlength with
    | [d₁, d₂, d₃, d₄, d₅, d₆], _ => exact List.all_eq_true.2 hdigits

theorem IsToken.length_eq {token : Text} (h : IsToken token) : token.length = 8 := by
  obtain ⟨digits, rfl, hlength, -⟩ := h
  simp [hlength]

/-- A braced token has no characters but its braces and hexadecimal digits. -/
theorem IsToken.isHexDigit_of_mem {token : Text} (h : IsToken token) {c : Char} (hc : c ∈ token) :
    c = '{' ∨ isHexDigit c ∨ c = '}' := by
  obtain ⟨digits, rfl, -, hdigits⟩ := h
  simp only [List.mem_cons, List.mem_append, List.not_mem_nil, or_false] at hc
  rcases hc with rfl | hc | rfl
  · exact .inl rfl
  · exact .inr (.inl (hdigits c hc))
  · exact .inr (.inr rfl)

theorem ensures_token : token.Ensures fun _ token _ => IsToken token := by
  intro before t n h
  unfold token at h
  split at h
  · next hheads =>
    obtain ⟨token, htoken, after, rfl⟩ := heads_iff.1 hheads
    exact ⟨token, after, rfl, by rw [htoken.length_eq, ← Option.some.inj h], htoken⟩
  · cases h

theorem accepts_isToken : token.Accepts fun _ token _ => IsToken token := by
  intro before part after h
  refine ⟨7, ?_, h.length_eq⟩
  rw [token, if_pos (heads_iff.2 ⟨part, h, List.prefix_append part after⟩)]

/-- Behind the brace that opens a token no other one opens inside it. -/
theorem isSeparated_token : token.IsSeparated := by
  refine ensures_token.isSeparated fun before mid shared after hmid hshared h => ?_
  refine Option.eq_none_iff_forall_ne_some.2 fun n hn => ?_
  obtain ⟨digits, heq, -, hdigits⟩ := h
  obtain ⟨_, rest, hrest, -, digits', rfl, -⟩ := ensures_token _ _ n hn
  obtain ⟨brace, mid, rfl⟩ := List.exists_cons_of_ne_nil hmid
  obtain ⟨c, shared, rfl⟩ := List.exists_cons_of_ne_nil hshared
  simp only [List.cons_append, List.cons.injEq] at heq hrest
  obtain ⟨rfl, -⟩ := hrest
  have hmem : '{' ∈ digits ++ ['}'] := by simp [← heq.2]
  rcases List.mem_append.1 hmem with hmem | hmem
  · exact absurd (hdigits _ hmem) (by decide)
  · exact absurd hmem (by decide)

theorem heads_append_stop {c : Char} (hc : Pattern.endsLine c) (t beyond : Text) :
    heads (t ++ c :: beyond) = heads t := by
  have hnot (token : Text) (h : IsToken token) : c ∉ token := fun hmem => by
    rcases endsLine_cases hc with rfl | rfl <;>
      exact absurd (h.isHexDigit_of_mem hmem) (by decide)
  rw [Bool.eq_iff_iff, heads_iff, heads_iff]
  exact exists_congr fun token => and_congr_right fun h => prefix_append_stop_iff (hnot token h)

theorem isLocal_token : token.IsLocal where
  left _ _ _ _ := rfl
  right hc before t beyond := by
    unfold token
    rw [heads_append_stop hc]
  fits := ensures_token.fits

end Braced

/-! ## Number lists -/

namespace Tuple

/-- The characters that separate the numbers of a list. -/
def isSeparator (c : Char) : Bool :=
  isSpaceOrTab c || c == ','

/-- A number list: it stands outside of words and starts with a number. -/
structure IsToken (before token after : Text) : Prop where
  starts : endsInWord before = false
  ends : startsWithWord after = false
  chars : ∀ c ∈ token, isDecimalDigit c ∨ isSeparator c
  shape : ∃ digits separator more, token = digits ++ separator :: more ∧ digits ≠ [] ∧
    (∀ d ∈ digits, isDecimalDigit d) ∧ isSeparator separator

/-- A number: decimal digits of any script, at least one. -/
structure IsNumber (number : Text) : Prop where
  ne_nil : number ≠ []
  digits : ∀ d ∈ number, isDecimalDigit d

/-- A comma with spaces and tabs around it. -/
structure IsComma (part : Text) : Prop where
  shape : ∃ lead trail, part = lead ++ ',' :: trail ∧
    (∀ c ∈ lead, isSpaceOrTab c) ∧ ∀ c ∈ trail, isSpaceOrTab c

/-- Numbers written one behind the other with commas between them. -/
inductive Written : List Text → Text → Prop
  | single {number : Text} (hnumber : IsNumber number) : Written [number] number
  | cons {number comma rest : Text} {numbers : List Text} (hnumber : IsNumber number)
      (hcomma : IsComma comma) (hrest : Written numbers rest) :
      Written (number :: numbers) (number ++ (comma ++ rest))

/-- Three or four numbers of three digits at most, which stand outside of words. -/
structure IsList (numbers : List Text) (before token after : Text) : Prop where
  starts : endsInWord before = false
  ends : startsWithWord after = false
  written : Written numbers token
  length_eq : numbers.length = 3 ∨ numbers.length = 4
  short : ∀ number ∈ numbers, number.length ≤ 3

theorem IsComma.isSeparator {part : Text} (h : IsComma part) : ∀ c ∈ part, isSeparator c := by
  obtain ⟨lead, trail, rfl, hlead, htrail⟩ := h
  intro c hc
  simp only [List.mem_append, List.mem_cons] at hc
  rcases hc with hc | rfl | hc
  · simp [Tuple.isSeparator, hlead c hc]
  · rfl
  · simp [Tuple.isSeparator, htrail c hc]

theorem Written.chars {numbers : List Text} {t : Text} (h : Written numbers t) :
    ∀ c ∈ t, isDecimalDigit c ∨ isSeparator c := by
  induction h with
  | single hnumber => exact fun c hc => .inl (hnumber.digits c hc)
  | cons hnumber hcomma _ ih =>
    intro c hc
    simp only [List.mem_append] at hc
    rcases hc with hc | hc | hc
    · exact .inl (hnumber.digits c hc)
    · exact .inr (hcomma.isSeparator c hc)
    · exact ih c hc

/-- A reader gives the length of what it reads, which a text starts with, and what follows. -/
def Reads (read : Text → Option (Nat × Text)) (P : Text → Prop) : Prop :=
  ∀ t n rest, read t = some (n, rest) → ∃ part, t = part ++ rest ∧ part.length = n ∧ P part

theorem reads_component? :
    Reads component? fun part => IsNumber part ∧ part.length ≤ 3 := by
  intro t n rest h
  simp only [component?, Option.ite_none_right_eq_some, Option.some.injEq, Prod.mk.injEq] at h
  obtain ⟨⟨hpos, hle⟩, rfl, rfl⟩ := h
  refine ⟨t.takeWhile isDecimalDigit, ?_, rfl, ⟨List.ne_nil_of_length_pos hpos, ?_⟩, hle⟩
  · rw [drop_length_takeWhile, List.takeWhile_append_dropWhile]
  · exact fun d hd => List.mem_takeWhile_imp hd

theorem reads_comma? : Reads comma? IsComma := by
  intro t n rest h
  simp only [comma?, drop_length_takeWhile] at h
  split at h
  · next trail hlead =>
    simp only [Option.some.injEq, Prod.mk.injEq] at h
    obtain ⟨rfl, rfl⟩ := h
    refine ⟨t.takeWhile isSpaceOrTab ++ ',' :: trail.takeWhile isSpaceOrTab, ?_, ?_,
      _, _, rfl, fun c hc => List.mem_takeWhile_imp hc, fun c hc => List.mem_takeWhile_imp hc⟩
    · rw [List.append_assoc, List.cons_append, List.takeWhile_append_dropWhile, ← hlead,
        List.takeWhile_append_dropWhile]
    · simp only [List.length_append, List.length_cons]
      omega
  · cases h

theorem reads_next? :
    Reads next? fun part => ∃ comma number, part = comma ++ number ∧ IsComma comma ∧
      IsNumber number ∧ number.length ≤ 3 := by
  intro t n rest h
  simp only [next?, Option.bind_eq_bind, Option.bind_eq_some_iff, Option.pure_def, Option.some.injEq,
    Prod.mk.injEq, Prod.exists] at h
  obtain ⟨n₁, rest₁, h₁, n₂, rest₂, h₂, rfl, rfl⟩ := h
  obtain ⟨comma, rfl, rfl, hcomma⟩ := reads_comma? t n₁ rest₁ h₁
  obtain ⟨number, rfl, rfl, hnumber, hshort⟩ := reads_component? rest₁ n₂ rest₂ h₂
  exact ⟨comma ++ number, by simp, by simp, comma, number, rfl, hcomma, hnumber, hshort⟩

theorem ensures_isList : token.Ensures fun before token after =>
    ∃ numbers, IsList numbers before token after := by
  intro before t n h
  unfold token at h
  split at h
  · cases h
  · next hstart =>
    simp only [Option.bind_eq_bind, Option.bind_eq_some_iff, Prod.exists] at h
    obtain ⟨n₁, rest₁, h₁, n₂, rest₂, h₂, n₃, rest₃, h₃, hlast⟩ := h
    obtain ⟨first, rfl, rfl, hfirst, hle₁⟩ := reads_component? t n₁ rest₁ h₁
    obtain ⟨_, rfl, rfl, comma₂, second, rfl, hcomma₂, hsecond, hle₂⟩ :=
      reads_next? rest₁ n₂ rest₂ h₂
    obtain ⟨_, rfl, rfl, comma₃, third, rfl, hcomma₃, hthird, hle₃⟩ :=
      reads_next? rest₂ n₃ rest₃ h₃
    have hlength : 0 < first.length := List.length_pos_iff.2 hfirst.ne_nil
    have hstarts : endsInWord before = false := by simpa using hstart
    split at hlast
    · next n₄ rest₄ h₄ =>
      obtain ⟨h₄, hends⟩ := Option.filter_eq_some_iff.1 h₄
      obtain ⟨_, rfl, rfl, comma₄, fourth, rfl, hcomma₄, hfourth, hle₄⟩ :=
        reads_next? rest₃ n₄ rest₄ h₄
      refine ⟨first ++ (comma₂ ++ (second ++ (comma₃ ++ (third ++ (comma₄ ++ fourth))))), rest₄,
        by simp, ?_, [first, second, third, fourth], hstarts, by simpa using hends, ?_, .inr rfl, ?_⟩
      · have hn := Option.some.inj hlast
        simp only [List.length_append] at hn ⊢
        omega
      · exact .cons hfirst hcomma₂ (.cons hsecond hcomma₃ (.cons hthird hcomma₄ (.single hfourth)))
      · simp [hle₁, hle₂, hle₃, hle₄]
    · split at hlast
      · cases hlast
      · next hends =>
        refine ⟨first ++ (comma₂ ++ (second ++ (comma₃ ++ third))), rest₃,
          by simp, ?_, [first, second, third], hstarts, by simpa using hends, ?_, .inl rfl, ?_⟩
        · have hn := Option.some.inj hlast
          simp only [List.length_append] at hn ⊢
          omega
        · exact .cons hfirst hcomma₂ (.cons hsecond hcomma₃ (.single hthird))
        · simp [hle₁, hle₂, hle₃]

/-- A list of more than one number starts with a number and a separator. -/
theorem IsList.isToken {numbers : List Text} {before token after : Text}
    (h : IsList numbers before token after) : IsToken before token after := by
  refine ⟨h.starts, h.ends, h.written.chars, ?_⟩
  cases h.written with
  | single => exact absurd h.length_eq (by simp)
  | cons hnumber hcomma hrest =>
    have hseparator := hcomma.isSeparator
    obtain ⟨lead, trail, rfl, -⟩ := hcomma
    obtain ⟨separator, more, hmore⟩ := List.exists_cons_of_ne_nil
      (List.append_ne_nil_of_right_ne_nil lead (List.cons_ne_nil ',' trail))
    rw [hmore] at hseparator ⊢
    exact ⟨_, separator, more ++ _, rfl, hnumber.ne_nil, hnumber.digits,
      hseparator separator (by simp)⟩

theorem ensures_token : token.Ensures IsToken :=
  ensures_isList.imp fun ⟨_, h⟩ => h.isToken

/-- A line's end stops a reader: it reads the same of a text that goes on behind one. -/
def Stops (read : Text → Option (Nat × Text)) : Prop :=
  ∀ {c}, Pattern.endsLine c → ∀ t beyond,
    read (t ++ c :: beyond) = (read t).map fun (n, rest) => (n, rest ++ c :: beyond)

theorem stops_component? : Stops component? := by
  intro c hc t beyond
  have hdigit : isDecimalDigit c = false := by rcases endsLine_cases hc with rfl | rfl <;> decide
  have hle : (t.takeWhile isDecimalDigit).length ≤ t.length := (List.takeWhile_prefix _).length_le
  simp only [component?, takeWhile_append_stop hdigit, List.drop_append_of_le_length hle]
  split <;> rfl

theorem stops_comma? : Stops comma? := by
  intro c hc t beyond
  have hblank : isSpaceOrTab c = false := by rcases endsLine_cases hc with rfl | rfl <;> decide
  have hcomma : c ≠ ',' := by rcases endsLine_cases hc with rfl | rfl <;> decide
  have hle (t : Text) : (t.takeWhile isSpaceOrTab).length ≤ t.length :=
    (List.takeWhile_prefix _).length_le
  simp only [comma?, takeWhile_append_stop hblank, List.drop_append_of_le_length (hle t)]
  cases t.drop (t.takeWhile isSpaceOrTab).length with
  | nil => simp [hcomma]
  | cons d rest =>
    by_cases hd : d = ','
    · subst hd
      simp only [List.cons_append, takeWhile_append_stop hblank,
        List.drop_append_of_le_length (hle rest), Option.map_some]
    · simp [hd]

theorem stops_next? : Stops next? := by
  intro c hc t beyond
  rw [next?, next?, stops_comma? hc]
  cases comma? t with
  | none => rfl
  | some read =>
    simp only [Option.map_some, Option.bind_eq_bind, Option.bind_some, stops_component? hc]
    cases component? read.2 with
    | none => rfl
    | some read' => rfl

theorem isLocal_token : token.IsLocal where
  left hc before beyond t := by
    unfold token
    rw [endsInWord_append_stop (isWordChar_of_endsLine hc)]
  right hc before t beyond := by
    unfold token
    rw [stops_component? hc]
    split
    · rfl
    · cases component? t with
      | none => rfl
      | some first =>
        simp only [Option.map_some, Option.bind_eq_bind, Option.bind_some, stops_next? hc]
        cases next? first.2 with
        | none => rfl
        | some second =>
          simp only [Option.map_some, Option.bind_some, stops_next? hc]
          cases next? second.2 with
          | none => rfl
          | some third =>
            have hword := startsWithWord_append_stop (isWordChar_of_endsLine hc)
            simp only [Option.map_some, Option.bind_some, stops_next? hc, hword]
            cases next? third.2 with
            | none => rfl
            | some fourth =>
              simp only [Option.map_some, Option.filter_some, hword]
              cases startsWithWord fourth.2 <;> rfl
  fits := ensures_token.fits

end Tuple

/-! ## Tilde codes -/

namespace GameText

/-- A tilde code: it starts with a tilde and opens no brace. -/
def IsToken (token : Text) : Prop :=
  token.head? = some '~' ∧ '{' ∉ token

theorem ensures_steps (t : Text) :
    ∃ part after, t = part ++ after ∧ part.length = 3 * steps t ∧ '{' ∉ part := by
  fun_induction steps t with
  | case1 letter rest hletter ih =>
    obtain ⟨part, after, rfl, hlength, hbrace⟩ := ih
    refine ⟨'~' :: letter :: '~' :: part, after, rfl, ?_, ?_⟩
    · simp only [List.length_cons]
      omega
    · have hne : letter ≠ '{' := by
        rintro rfl
        exact absurd hletter (by decide)
      simp [hne.symm, hbrace]
  | case2 letter rest hletter => exact ⟨[], _, rfl, rfl, by simp⟩
  | case3 t _ => exact ⟨[], t, rfl, rfl, by simp⟩

theorem ensures_token : token.Ensures fun _ token _ => IsToken token := by
  intro before t n h
  unfold token at h
  split at h
  · next hheads =>
    unfold heads at hheads
    split at hheads
    · next letter rest =>
      obtain ⟨part, after, rfl, hlength, hbrace⟩ := ensures_steps rest
      have hne : letter ≠ '{' := by
        rintro rfl
        exact absurd hheads (by decide)
      refine ⟨'~' :: letter :: '~' :: part, after, rfl, ?_, rfl, by simp [hne.symm, hbrace]⟩
      have hn := Option.some.inj h
      simp only [List.drop_succ_cons, List.drop_zero] at hn
      simp only [List.length_cons]
      omega
    · cases hheads
  · cases h

end GameText

end Swatch

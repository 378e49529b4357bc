-- SUMMARY: Which lists of numbers are colors, and that no list is read in part.
import Swatch.Proofs.Literal.Apart

/-!
# Lists of numbers

Numbers are written one behind the other with commas between them. Such a list is a color
if it has three or four numbers of three digits at most that are at most 255, and if it
stands alone. No part of a list is ever taken for a color: what is read starts and ends at
numbers of the list, so a comma and a number of the list would be next to it, and then it
is part of a longer list.
-/

namespace Swatch.Tuple

open Pattern (Finds)

/-! ## Characters -/

theorem isWordChar_of_isDecimalDigit {c : Char} (h : isDecimalDigit c) : isWordChar c := by
  have htable : zeroDigits.all fun first => Nat.blt first 0x76 ||
      wordRanges.any fun range => Nat.ble range.1 first && Nat.ble (first + 9) range.2 := by
    decide +kernel
  by_cases hascii : c.toNat < 0x80
  · rw [isDecimalDigit, if_pos hascii] at h
    exact isWordChar_of_isAlphanum (by simp [Char.isAlphanum, h])
  · rw [isDecimalDigit, if_neg hascii] at h
    obtain ⟨first, hfirst, hdigit⟩ := List.any_eq_true.1 h
    have hrange := List.all_eq_true.1 htable first hfirst
    simp only [Bool.and_eq_true, decide_eq_true_eq] at hdigit
    simp only [Bool.or_eq_true, Nat.blt_eq, List.any_eq_true, Bool.and_eq_true, Nat.ble_eq]
      at hrange
    obtain ⟨range, hmem, hlow, hhigh⟩ := hrange.resolve_left (by omega)
    rw [isWordChar, if_neg hascii]
    refine List.any_eq_true.2 ⟨range, hmem, ?_⟩
    simp only [Bool.and_eq_true, decide_eq_true_eq]
    omega

theorem head?_isDecimalDigit_of_startsWithWord {after : Text} (h : startsWithWord after = false) :
    after.head?.any isDecimalDigit = false := by
  cases after with
  | nil => rfl
  | cons c after =>
    refine Bool.eq_false_iff.2 fun hc => ?_
    have hword : isWordChar c := isWordChar_of_isDecimalDigit hc
    simp [startsWithWord, hword] at h

theorem isDecimalDigit_of_isSeparator {c : Char} (h : isSeparator c) :
    isDecimalDigit c = false := by
  simp only [isSeparator, isSpaceOrTab, Bool.or_eq_true, beq_iff_eq] at h
  rcases h with (rfl | rfl) | rfl <;> decide

theorem isSeparator_of_isDecimalDigit {c : Char} (h : isDecimalDigit c) :
    isSeparator c = false := by
  refine Bool.eq_false_iff.2 fun hseparator => ?_
  simp [isDecimalDigit_of_isSeparator hseparator] at h

theorem isBlank_of_isSpaceOrTab {c : Char} (h : isSpaceOrTab c) : isBlank c := by
  simp only [isSpaceOrTab, Bool.or_eq_true, beq_iff_eq] at h
  rcases h with rfl | rfl <;> decide

/-! ## Lists -/

section Written

variable {numbers numbers' : List Text} {t t' after after' : Text}

theorem Written.isNumber (h : Written numbers t) : ∀ number ∈ numbers, IsNumber number := by
  induction h with
  | single hnumber => simpa using hnumber
  | cons hnumber _ _ ih => exact List.forall_mem_cons.2 ⟨hnumber, ih⟩

/-- A list starts with a digit of one of its numbers. -/
theorem Written.exists_head (h : Written numbers t) :
    ∃ number ∈ numbers, ∃ d ∈ number, ∃ rest, t = d :: rest := by
  cases h with
  | single hnumber =>
    obtain ⟨d, number, rfl⟩ := List.exists_cons_of_ne_nil hnumber.ne_nil
    exact ⟨_, List.mem_cons_self, d, List.mem_cons_self, number, rfl⟩
  | cons hnumber _ _ =>
    obtain ⟨d, number, rfl⟩ := List.exists_cons_of_ne_nil hnumber.ne_nil
    exact ⟨_, List.mem_cons_self, d, List.mem_cons_self, _, rfl⟩

/-- A list ends with a digit of one of its numbers. -/
theorem Written.exists_last (h : Written numbers t) :
    ∃ number ∈ numbers, ∃ d ∈ number, ∃ start, t = start ++ [d] := by
  induction h with
  | @single number hnumber =>
    obtain ⟨start, d, rfl⟩ := (List.eq_nil_or_concat' number).resolve_left hnumber.ne_nil
    exact ⟨_, List.mem_cons_self, d, by simp, start, rfl⟩
  | @cons number comma rest numbers _ _ _ ih =>
    obtain ⟨last, hlast, d, hd, start, rfl⟩ := ih
    exact ⟨last, List.mem_cons_of_mem number hlast, d, hd, number ++ (comma ++ start), by simp⟩

theorem Written.exists_digit (h : Written numbers t) (more : Text) :
    ∃ d rest, t ++ more = d :: rest ∧ isDecimalDigit d := by
  obtain ⟨number, hnumber, d, hd, rest, rfl⟩ := h.exists_head
  exact ⟨d, rest ++ more, rfl, (h.isNumber number hnumber).digits d hd⟩

theorem Written.head?_isSeparator (h : Written numbers t) (more : Text) :
    (t ++ more).head?.any isSeparator = false := by
  obtain ⟨d, rest, hhead, hd⟩ := h.exists_digit more
  simp [hhead, isSeparator_of_isDecimalDigit hd]

theorem IsComma.exists_head {comma : Text} (h : IsComma comma) (more : Text) :
    ∃ c rest, comma ++ more = c :: rest ∧ Tuple.isSeparator c := by
  have hseparator := h.isSeparator
  obtain ⟨lead, trail, rfl, -⟩ := h
  cases lead with
  | nil => exact ⟨',', _, rfl, rfl⟩
  | cons c lead => exact ⟨c, _, rfl, hseparator c List.mem_cons_self⟩

theorem IsComma.head?_isDecimalDigit {comma : Text} (h : IsComma comma) (more : Text) :
    (comma ++ more).head?.any isDecimalDigit = false := by
  obtain ⟨c, rest, hhead, hc⟩ := h.exists_head more
  simp [hhead, isDecimalDigit_of_isSeparator hc]

theorem written_single_iff {number : Text} : Written [number] t ↔ IsNumber number ∧ t = number := by
  constructor
  · intro h
    cases h with
    | single hnumber => exact ⟨hnumber, rfl⟩
    | cons _ _ hrest => cases hrest
  · rintro ⟨hnumber, rfl⟩
    exact .single hnumber

theorem written_cons_iff {number next : Text} :
    Written (number :: next :: numbers) t ↔ IsNumber number ∧ ∃ comma rest,
      t = number ++ (comma ++ rest) ∧ IsComma comma ∧ Written (next :: numbers) rest := by
  constructor
  · intro h
    cases h with
    | cons hnumber hcomma hrest => exact ⟨hnumber, _, _, rfl, hcomma, hrest⟩
  · rintro ⟨hnumber, comma, rest, rfl, hcomma, hrest⟩
    exact .cons hnumber hcomma hrest

/-! ### Cutting a list -/

/-- Where a list is cut between a digit and another character before it, it is cut behind a
comma. -/
theorem Written.cut (h : Written numbers t) {start more : Text} {c d : Char}
    (ht : t = start ++ [c] ++ d :: more) (hc : isDecimalDigit c = false) (hd : isDecimalDigit d) :
    ∃ front back part comma, numbers = front ++ back ∧ start ++ [c] = part ++ comma ∧
      Written front part ∧ IsComma comma ∧ Written back (d :: more) := by
  have hnot {number : Text} (hnumber : IsNumber number) : c ∉ number := fun hmem => by
    simp [hnumber.digits c hmem] at hc
  induction h generalizing start with
  | single hnumber => exact absurd (by simp [ht]) (hnot hnumber)
  | @cons number comma rest numbers hnumber hcomma hrest ih =>
    rcases List.append_eq_append_iff.1 ht with ⟨mid, hstart, hmid⟩ | ⟨mid, rfl, -⟩
    · have hd' : d ∉ comma := fun hmem => by
        simp [isDecimalDigit_of_isSeparator (hcomma.isSeparator d hmem)] at hd
      rcases List.append_eq_append_iff.1 hmid with ⟨mid', rfl, hrest'⟩ | ⟨mid', rfl, hmore⟩
      · rcases List.eq_nil_or_concat' mid' with rfl | ⟨start', c', rfl⟩
        · rw [List.append_nil] at hstart
          rw [List.nil_append] at hrest'
          exact ⟨[number], numbers, number, comma, rfl, hstart, .single hnumber, hcomma,
            hrest' ▸ hrest⟩
        · -- The cut lies in the rest of the list.
          obtain rfl : c = c' := by
            simpa using congrArg List.getLast? hstart
          obtain ⟨front, back, part, comma', rfl, hpart, hfront, hcomma', hback⟩ := ih hrest'
          refine ⟨number :: front, back, number ++ (comma ++ part), comma', rfl, ?_,
            .cons hnumber hcomma hfront, hcomma', hback⟩
          rw [hstart, hpart]
          simp
      · cases mid' with
        | nil =>
          rw [List.append_nil] at hcomma
          rw [List.nil_append] at hmore
          exact ⟨[number], numbers, number, mid, rfl, hstart, .single hnumber, hcomma,
            hmore ▸ hrest⟩
        | cons e mid' =>
          simp only [List.cons_append, List.cons.injEq] at hmore
          exact absurd (by simp [hmore.1]) hd'
    · exact absurd (by simp) (hnot hnumber)

/-- Runs of characters that have a property are as long as each other in one text. -/
theorem append_inj_of_head {f : Char → Bool} {part part' rest rest' : Text}
    (h : part ++ rest = part' ++ rest') (hpart : ∀ c ∈ part, f c) (hpart' : ∀ c ∈ part', f c)
    (hrest : rest.head?.any f = false) (hrest' : rest'.head?.any f = false) :
    part = part' ∧ rest = rest' := by
  have hsame : part = part' := by
    rw [← takeWhile_append_of_head hpart hrest, h, takeWhile_append_of_head hpart' hrest']
  subst hsame
  exact ⟨rfl, List.append_cancel_left h⟩

/-- Of two lists that a text starts with, one is the other, or it goes on behind it with a comma. -/
theorem Written.eq_or_longer (h' : Written numbers' t') (h : Written numbers t)
    (heq : t ++ after = t' ++ after') (hafter : after.head?.any isDecimalDigit = false)
    (hafter' : after'.head?.any isDecimalDigit = false)
    (hcomma : ∀ comma rest, IsComma comma → after ≠ comma ++ rest) :
    (numbers = numbers' ∧ t = t') ∨
      ∃ more comma rest, numbers = numbers' ++ more ∧ IsComma comma ∧ Written more rest ∧
        after' = comma ++ (rest ++ after) := by
  induction h' generalizing numbers t with
  | single hnumber' =>
    cases h with
    | single hnumber =>
      obtain ⟨rfl, -⟩ := append_inj_of_head heq hnumber.digits hnumber'.digits hafter hafter'
      exact .inl ⟨rfl, rfl⟩
    | @cons number comma rest numbers hnumber hcomma' hrest =>
      rw [List.append_assoc, List.append_assoc] at heq
      obtain ⟨rfl, hmore⟩ := append_inj_of_head heq hnumber.digits hnumber'.digits
        (hcomma'.head?_isDecimalDigit _) hafter'
      exact .inr ⟨numbers, comma, rest, rfl, hcomma', hrest, hmore.symm⟩
  | @cons number' comma' rest' numbers' hnumber' hcomma' hrest' ih =>
    rw [List.append_assoc number', List.append_assoc comma'] at heq
    cases h with
    | single hnumber =>
      obtain ⟨-, hmore⟩ := append_inj_of_head heq hnumber.digits hnumber'.digits hafter
        (hcomma'.head?_isDecimalDigit _)
      exact absurd hmore (hcomma comma' _ hcomma')
    | @cons number comma rest numbers hnumber hcomma'' hrest =>
      rw [List.append_assoc number, List.append_assoc comma] at heq
      obtain ⟨rfl, hmore⟩ := append_inj_of_head heq hnumber.digits hnumber'.digits
        (hcomma''.head?_isDecimalDigit _) (hcomma'.head?_isDecimalDigit _)
      obtain ⟨rfl, hbehind⟩ := append_inj_of_head hmore hcomma''.isSeparator hcomma'.isSeparator
        (hrest.head?_isSeparator _) (hrest'.head?_isSeparator _)
      rcases ih hrest hbehind with ⟨rfl, rfl⟩ | ⟨more, comma₂, rest₂, rfl, hlonger⟩
      · exact .inl ⟨rfl, rfl⟩
      · exact .inr ⟨more, comma₂, rest₂, rfl, hlonger⟩

end Written

/-! ## Neighbours -/

theorem IsComma.reverse {comma : Text} (h : IsComma comma) : IsComma comma.reverse := by
  obtain ⟨lead, trail, rfl, hlead, htrail⟩ := h
  exact ⟨trail.reverse, lead.reverse, by simp, by simpa using htrail, by simpa using hlead⟩

/-- Behind the blanks in front of it stands the comma itself. -/
theorem IsComma.exists_dropWhile {comma : Text} (h : IsComma comma) (rest : Text) :
    ∃ trail, (comma ++ rest).dropWhile isBlank = ',' :: (trail ++ rest) ∧
      ∀ c ∈ trail, isBlank c := by
  obtain ⟨lead, trail, rfl, hlead, htrail⟩ := h
  have hblank : ∀ c ∈ lead, isBlank c := fun c hc => isBlank_of_isSpaceOrTab (hlead c hc)
  refine ⟨trail, ?_, fun c hc => isBlank_of_isSpaceOrTab (htrail c hc)⟩
  rw [List.append_assoc, List.dropWhile_append_of_pos hblank, List.cons_append,
    List.dropWhile_cons_of_neg (by decide)]

/-- Behind the blanks around a digit stands the digit. -/
theorem dropWhile_append_digit {blanks : Text} (hblanks : ∀ c ∈ blanks, isBlank c) {d : Char}
    (hd : d.isDigit) (rest : Text) : (blanks ++ d :: rest).dropWhile isBlank = d :: rest :=
  Text.dropWhile_isBlank_append hblanks ⟨d, rfl, isBlank_of_isDigit hd⟩

theorem isGlued_of_comma_before {comma : Text} (hcomma : IsComma comma) {d : Char} (hd : d.isDigit)
    (before after : Text) : isGlued (comma.reverse ++ d :: before) after := by
  obtain ⟨trail, hdrop, htrail⟩ := hcomma.reverse.exists_dropWhile (d :: before)
  simp [isGlued, hdrop, endsInDigit, dropWhile_append_digit htrail hd, hd]

theorem isGlued_of_comma_after {comma : Text} (hcomma : IsComma comma) {d : Char} (hd : d.isDigit)
    (before after : Text) : isGlued before (comma ++ d :: after) := by
  obtain ⟨trail, hdrop, htrail⟩ := hcomma.exists_dropWhile (d :: after)
  simp [isGlued, hdrop, startsWithDigit, dropWhile_append_digit htrail hd, hd]

/-- The surroundings of a list that stands alone: it is outside of words, and what stands next to
it, blanks apart, is neither a comma nor a point. -/
structure StandsAlone (before after : Text) : Prop where
  starts : endsInWord before = false
  ends : startsWithWord after = false
  clear_before : ∀ c ∈ (before.dropWhile isBlank).head?, c ≠ ',' ∧ c ≠ '.'
  clear_after : ∀ c ∈ (after.dropWhile isBlank).head?, c ≠ ',' ∧ c ≠ '.'

namespace StandsAlone

variable {before after : Text}

theorem isGlued_eq (h : StandsAlone before after) : isGlued before after = false := by
  unfold isGlued
  rw [Bool.or_eq_false_iff]
  constructor
  · split
    · next hhead => exact absurd rfl (h.clear_before '.' (by simp [hhead])).2
    · next hhead => exact absurd rfl (h.clear_before ',' (by simp [hhead])).1
    · rfl
  · split
    · next hhead => exact absurd rfl (h.clear_after ',' (by simp [hhead])).1
    · next hhead => exact absurd rfl (h.clear_after '.' (by simp [hhead])).2
    · rfl

theorem comma_ne_before (h : StandsAlone before after) {comma : Text} (hcomma : IsComma comma)
    (rest : Text) : before ≠ comma.reverse ++ rest := by
  rintro rfl
  obtain ⟨trail, hdrop, -⟩ := hcomma.reverse.exists_dropWhile rest
  exact (h.clear_before ',' (by simp [hdrop])).1 rfl

theorem comma_ne_after (h : StandsAlone before after) {comma : Text} (hcomma : IsComma comma)
    (rest : Text) : after ≠ comma ++ rest := by
  rintro rfl
  obtain ⟨trail, hdrop, -⟩ := hcomma.exists_dropWhile rest
  exact (h.clear_after ',' (by simp [hdrop])).1 rfl

end StandsAlone

/-! ## Tokens -/

theorem component?_append {number rest : Text} (hnumber : IsNumber number)
    (hshort : number.length ≤ 3) (hrest : rest.head?.any isDecimalDigit = false) :
    component? (number ++ rest) = some (number.length, rest) := by
  have hpos := List.length_pos_iff.2 hnumber.ne_nil
  rw [component?, takeWhile_append_of_head hnumber.digits hrest, if_pos ⟨hpos, hshort⟩,
    List.drop_left]

theorem comma?_append {comma rest : Text} (hcomma : IsComma comma)
    (hrest : rest.head?.any isSpaceOrTab = false) :
    comma? (comma ++ rest) = some (comma.length, rest) := by
  obtain ⟨lead, trail, rfl, hlead, htrail⟩ := hcomma
  have hhead : (',' :: (trail ++ rest)).head?.any isSpaceOrTab = false := rfl
  rw [List.append_assoc, List.cons_append, comma?, takeWhile_append_of_head hlead hhead,
    List.drop_left]
  simp only [takeWhile_append_of_head htrail hrest, List.drop_left, List.length_append,
    List.length_cons]
  congr 2
  omega

theorem next?_append {comma number rest : Text} (hcomma : IsComma comma) (hnumber : IsNumber number)
    (hshort : number.length ≤ 3) (hrest : rest.head?.any isDecimalDigit = false) :
    next? (comma ++ (number ++ rest)) = some (comma.length + number.length, rest) := by
  have hhead : (number ++ rest).head?.any isSpaceOrTab = false := by
    obtain ⟨d, digits, rfl⟩ := List.exists_cons_of_ne_nil hnumber.ne_nil
    have hd := isSeparator_of_isDecimalDigit (hnumber.digits d List.mem_cons_self)
    simp only [isSeparator, Bool.or_eq_false_iff] at hd
    simpa using hd.1
  rw [next?, comma?_append hcomma hhead]
  simp only [Option.bind_eq_bind, Option.bind_some, component?_append hnumber hshort hrest]
  rfl

theorem next?_eq_none {t : Text} (h : ∀ comma rest, IsComma comma → t ≠ comma ++ rest) :
    next? t = none := by
  refine Option.eq_none_iff_forall_ne_some.2 fun ⟨n, rest⟩ hread => ?_
  obtain ⟨_, rfl, -, comma, number, rfl, hcomma, -⟩ := reads_next? t n rest hread
  exact h comma (number ++ rest) hcomma (List.append_assoc comma number rest)

/-- Behind three numbers a fourth one is looked for. -/
theorem token_append {before first comma₂ second comma₃ third rest : Text}
    (hbefore : endsInWord before = false) (hfirst : IsNumber first) (hcomma₂ : IsComma comma₂)
    (hsecond : IsNumber second) (hcomma₃ : IsComma comma₃) (hthird : IsNumber third)
    (hshort : ∀ number ∈ [first, second, third], number.length ≤ 3)
    (hrest : rest.head?.any isDecimalDigit = false) :
    token before (first ++ (comma₂ ++ (second ++ (comma₃ ++ (third ++ rest)))))
      = match (next? rest).filter (fun (_, rest) => !startsWithWord rest) with
        | some (fourth, _) => some (first.length + (comma₂.length + second.length)
            + (comma₃.length + third.length) + fourth - 1)
        | none => if startsWithWord rest then none else some (first.length
            + (comma₂.length + second.length) + (comma₃.length + third.length) - 1) := by
  simp only [List.forall_mem_cons] at hshort
  rw [token, hbefore, component?_append hfirst hshort.1 (hcomma₂.head?_isDecimalDigit _)]
  simp only [Bool.false_eq_true, if_false, Option.bind_eq_bind, Option.bind_some,
    next?_append hcomma₂ hsecond hshort.2.1 (hcomma₃.head?_isDecimalDigit _),
    next?_append hcomma₃ hthird hshort.2.2.1 hrest]
  rfl

/-- A list of three or four short numbers is found as a token if no comma follows it. -/
theorem IsList.found {numbers : List Text} {before t after : Text}
    (h : IsList numbers before t after) (hcomma : ∀ comma rest, IsComma comma → after ≠ comma ++ rest) :
    ∃ n, token before (t ++ after) = some n ∧ t.length = n + 1 := by
  have hafter := head?_isDecimalDigit_of_startsWithWord h.ends
  have hshort := h.short
  rcases h.length_eq with hlength | hlength
  · obtain ⟨first, second, third, rfl⟩ := List.length_eq_three.1 hlength
    obtain ⟨hfirst, comma₂, _, rfl, hcomma₂, hrest⟩ := written_cons_iff.1 h.written
    obtain ⟨hsecond, comma₃, _, rfl, hcomma₃, hrest⟩ := written_cons_iff.1 hrest
    obtain ⟨hthird, rfl⟩ := written_single_iff.1 hrest
    have hpos := List.length_pos_iff.2 hfirst.ne_nil
    have htoken := token_append h.starts hfirst hcomma₂ hsecond hcomma₃ hthird hshort hafter
    rw [next?_eq_none hcomma] at htoken
    simp only [Option.filter_none, h.ends, Bool.false_eq_true, if_false] at htoken
    refine ⟨_, by simpa using htoken, ?_⟩
    simp only [List.length_append]
    omega
  · obtain ⟨first, more, rfl⟩ := List.exists_cons_of_length_eq_add_one hlength
    obtain ⟨second, third, fourth, rfl⟩ := List.length_eq_three.1 (Nat.succ.inj hlength)
    obtain ⟨hfirst, comma₂, _, rfl, hcomma₂, hrest⟩ := written_cons_iff.1 h.written
    obtain ⟨hsecond, comma₃, _, rfl, hcomma₃, hrest⟩ := written_cons_iff.1 hrest
    obtain ⟨hthird, comma₄, last, rfl, hcomma₄, hrest⟩ := written_cons_iff.1 hrest
    obtain ⟨hlast, rfl⟩ := written_single_iff.1 hrest
    have hpos := List.length_pos_iff.2 hfirst.ne_nil
    simp only [List.forall_mem_cons] at hshort
    have htoken := token_append h.starts hfirst hcomma₂ hsecond hcomma₃ hthird
      (by simp [hshort]) (hcomma₄.head?_isDecimalDigit (last ++ after))
    rw [next?_append hcomma₄ hlast hshort.2.2.2.1 hafter] at htoken
    simp only [Option.filter_some, h.ends, Bool.not_false, if_true] at htoken
    refine ⟨_, by simpa using htoken, ?_⟩
    simp only [List.length_append]
    omega

/-! ## Colors -/

/-- The color that three or four numbers are if each has at most three digits and is at most 255. -/
def colorOf? (numbers : List Text) : Option Color :=
  if numbers.all fun number => number.length ≤ 3 ∧ number.decimalFrom 0 ≤ 255 then
    match numbers.map fun number => UInt8.ofNat (number.decimalFrom 0) with
    | [r, g, b] => some ⟨r, g, b, 255⟩
    | [r, g, b, a] => some ⟨r, g, b, a⟩
    | _ => none
  else none

theorem parts_of_notMem {t : Text} (h : ',' ∉ t) : parts t = [t] := by
  induction t with
  | nil => rfl
  | cons c t ih =>
    obtain ⟨hc, ht⟩ := not_or.1 (mt List.mem_cons.2 h)
    rw [parts, if_neg (Ne.symm hc), ih ht]

theorem parts_append_comma {t : Text} (h : ',' ∉ t) (more : Text) :
    parts (t ++ ',' :: more) = t :: parts more := by
  induction t with
  | nil => rw [List.nil_append, parts, if_pos rfl]
  | cons c t ih =>
    obtain ⟨hc, ht⟩ := not_or.1 (mt List.mem_cons.2 h)
    rw [List.cons_append, parts, if_neg (Ne.symm hc), ih ht]

theorem isTrimmed_of_isDigit {number : Text} (hne : number ≠ [])
    (hdigits : ∀ d ∈ number, d.isDigit) : number.IsTrimmed :=
  .of_forall hne fun d hd => isBlank_of_isDigit (hdigits d hd)

section Color

variable {numbers : List Text} {t : Text}

/-- The parts of a list between its commas are its numbers, but for the blanks around them. -/
theorem Written.map_trim_parts (h : Written numbers t)
    (hascii : ∀ number ∈ numbers, ∀ d ∈ number, d.isDigit) {blanks : Text}
    (hblanks : ∀ c ∈ blanks, isSpaceOrTab c) : (parts (blanks ++ t)).map Text.trim = numbers := by
  have hblank {blanks : Text} (hblanks : ∀ c ∈ blanks, isSpaceOrTab c) :
      (∀ c ∈ blanks, isBlank c) ∧ ',' ∉ blanks :=
    ⟨fun c hc => isBlank_of_isSpaceOrTab (hblanks c hc),
      fun hc => absurd (hblanks _ hc) (by decide)⟩
  have hnot {number : Text} (hdigits : ∀ d ∈ number, d.isDigit) : ',' ∉ number :=
    fun hc => absurd (hdigits _ hc) (by decide)
  obtain ⟨hstart, hstart'⟩ := hblank hblanks
  induction h generalizing blanks with
  | @single number hnumber =>
    have hdigits := hascii number List.mem_cons_self
    have htrim : Text.trim (blanks ++ (number ++ [])) = number :=
      (isTrimmed_of_isDigit hnumber.ne_nil hdigits).trim_append hstart (by simp)
    rw [parts_of_notMem (by simp [hstart', hnot hdigits])]
    simpa using htrim
  | @cons number comma rest numbers hnumber hcomma _ ih =>
    obtain ⟨hdigits, hrest⟩ := List.forall_mem_cons.1 hascii
    obtain ⟨lead, trail, rfl, hlead, htrail⟩ := hcomma
    obtain ⟨hlead, hlead'⟩ := hblank hlead
    have hsplit : blanks ++ (number ++ (lead ++ ',' :: trail ++ rest))
        = blanks ++ (number ++ lead) ++ ',' :: (trail ++ rest) := by simp
    rw [hsplit, parts_append_comma (by simp [hstart', hnot hdigits, hlead']), List.map_cons,
      (isTrimmed_of_isDigit hnumber.ne_nil hdigits).trim_append hstart hlead,
      ih hrest htrail (hblank htrail).1 (hblank htrail).2]

theorem mapM_decimalBelow? (hnumbers : ∀ number ∈ numbers, number ≠ [] ∧ ∀ d ∈ number, d.isDigit) :
    numbers.mapM (fun number => (number.decimalBelow? 256).map UInt8.ofNat)
      = if numbers.all fun number => number.decimalFrom 0 ≤ 255 then
          some (numbers.map fun number => UInt8.ofNat (number.decimalFrom 0))
        else none := by
  induction numbers with
  | nil => rfl
  | cons number numbers ih =>
    obtain ⟨⟨hne, hdigits⟩, hrest⟩ := List.forall_mem_cons.1 hnumbers
    have hdecimal : number.decimal? = some (number.decimalFrom 0) := by
      rw [Text.decimal?, if_pos]
      simpa [hne] using hdigits
    rw [List.mapM_cons, ih hrest, Text.decimalBelow?, hdecimal, Option.filter_some]
    by_cases hsmall : number.decimalFrom 0 ≤ 255
    · by_cases hall : numbers.all fun number => number.decimalFrom 0 ≤ 255 <;>
        simp [hsmall, hall, Nat.lt_succ_of_le hsmall]
    · simp [hsmall, show ¬ number.decimalFrom 0 < 256 by omega]

theorem Written.read?_eq (h : Written numbers t)
    (hascii : ∀ number ∈ numbers, ∀ d ∈ number, d.isDigit)
    (hshort : ∀ number ∈ numbers, number.length ≤ 3) : read? t = colorOf? numbers := by
  have hparts : (parts ([] ++ t)).map Text.trim = numbers := h.map_trim_parts hascii (by simp)
  have hchannels : (parts t).mapM channel?
      = numbers.mapM fun number => (number.decimalBelow? 256).map UInt8.ofNat := by
    rw [← hparts, List.mapM_map]
    rfl
  have hall : (numbers.all fun number => number.length ≤ 3 ∧ number.decimalFrom 0 ≤ 255)
      = numbers.all fun number => number.decimalFrom 0 ≤ 255 := by
    rw [Bool.eq_iff_iff, List.all_eq_true, List.all_eq_true]
    simp +contextual [hshort]
  rw [read?, hchannels, colorOf?, hall, mapM_decimalBelow? fun number hnumber =>
    ⟨(h.isNumber number hnumber).ne_nil, hascii number hnumber⟩]
  by_cases hsmall : numbers.all fun number => number.decimalFrom 0 ≤ 255
  · rw [if_pos hsmall, if_pos hsmall]
    rcases numbers.map _ with _ | ⟨r, _ | ⟨g, _ | ⟨b, _ | ⟨a, _ | _⟩⟩⟩⟩ <;> rfl
  · rw [if_neg hsmall, if_neg hsmall]

end Color

theorem shape_of_colorOf? {numbers : List Text} {c : Color} (h : colorOf? numbers = some c) :
    (numbers.length = 3 ∨ numbers.length = 4) ∧ ∀ number ∈ numbers, number.length ≤ 3 := by
  unfold colorOf? at h
  split at h
  · next hall =>
    have hshort (number : Text) (hnumber : number ∈ numbers) : number.length ≤ 3 := by
      have hsmall := List.all_eq_true.1 hall number hnumber
      exact (of_decide_eq_true hsmall).1
    refine ⟨?_, hshort⟩
    split at h
    · next hvalues => exact .inl (by simpa using congrArg List.length hvalues)
    · next hvalues => exact .inr (by simpa using congrArg List.length hvalues)
    · cases h
  · cases h

/-! ## Lists in a text -/

section Found

variable {base : Nat} {t : Text} {o o' : Occurrence} {numbers : List Text}

/-- Where another list starts inside a list, outside of words, it starts behind a comma. -/
theorem Written.cut_of_overlap {numbers' : List Text}
    {token token' mid shared before after after' : Text}
    (h : Written numbers token) (htoken : token = mid ++ shared) (hmid : mid ≠ [])
    (hshared : shared ≠ []) (h' : Written numbers' token')
    (hrest : shared ++ after = token' ++ after')
    (hstarts : endsInWord (mid.reverse ++ before) = false) :
    ∃ front back part comma, numbers = front ++ back ∧ mid = part ++ comma ∧
      Written front part ∧ IsComma comma := by
  obtain ⟨start, c, rfl⟩ := (List.eq_nil_or_concat' mid).resolve_left hmid
  obtain ⟨d, more, rfl⟩ := List.exists_cons_of_ne_nil hshared
  have hc : isDecimalDigit c = false := by
    refine Bool.eq_false_iff.2 fun hc => ?_
    simp [endsInWord, isWordChar_of_isDecimalDigit hc] at hstarts
  have hd : isDecimalDigit d := by
    obtain ⟨e, rest, hhead, he⟩ := h'.exists_digit after'
    rw [hhead, List.cons_append, List.cons.injEq] at hrest
    rwa [hrest.1]
  obtain ⟨front, back, part, comma, hnumbers, hpart, hfront, hcomma, -⟩ := h.cut htoken hc hd
  exact ⟨front, back, part, comma, hnumbers, hpart, hfront, hcomma⟩

/-- A token that starts in front of a list ends in front of it: it would go on with a comma. -/
theorem stop_le_of_standsAlone (hplace : o.StandsIn base t) (hwritten : Written numbers o.token)
    (halone : StandsAlone o.before o.after) (ho' : Finds token base t o')
    (hlt : o'.offset < o.offset) : o'.extent.stop ≤ o.offset := by
  refine Nat.le_of_not_lt fun hinside => ?_
  obtain ⟨mid, shared, htoken, hne, hrest, hbefore⟩ :=
    ho'.standsIn.overlap hplace (Nat.le_of_lt hlt) hinside
  have hmid : mid ≠ [] := by
    rintro rfl
    have hoffset := hplace.offset_eq_of_before_eq ho'.standsIn hbefore
    omega
  obtain ⟨numbers', hlist⟩ := ensures_isList.finds ho'
  obtain ⟨-, -, part, comma, -, rfl, -, hcomma⟩ :=
    hlist.written.cut_of_overlap htoken hmid hne hwritten hrest (hbefore ▸ halone.starts)
  refine halone.comma_ne_before hcomma (part.reverse ++ o'.before) ?_
  rw [hbefore, List.reverse_append, List.append_assoc]

/-- A token that starts in a list and is not part of a longer one is the list itself. -/
theorem eq_of_starts_inside (hplace : o.StandsIn base t) (hwritten : Written numbers o.token)
    (hascii : ∀ number ∈ numbers, ∀ d ∈ number, d.isDigit)
    (halone : StandsAlone o.before o.after) (ho' : Finds token base t o')
    (hle : o.offset ≤ o'.offset) (hlt : o'.offset < o.extent.stop)
    (hglued : isGlued o'.before o'.after = false) :
    o' = o ∧ IsList numbers o.before o.token o.after := by
  obtain ⟨numbers', hlist⟩ := ensures_isList.finds ho'
  obtain ⟨mid, shared, htoken, hne, hrest, hbefore⟩ := hplace.overlap ho'.standsIn hle hlt
  obtain rfl : mid = [] := by
    by_contra hmid
    obtain ⟨front, back, part, comma, rfl, rfl, hfront, hcomma⟩ :=
      hwritten.cut_of_overlap htoken hmid hne hlist.written hrest (hbefore ▸ hlist.starts)
    obtain ⟨number, hnumber, d, hd, part, rfl⟩ := hfront.exists_last
    -- A number of the list and a comma stand in front of the token.
    have hdigit := hascii number (List.mem_append_left back hnumber) d hd
    rw [hbefore] at hglued
    simp [isGlued_of_comma_before hcomma hdigit] at hglued
  rw [List.nil_append] at htoken
  subst htoken
  have hafter := head?_isDecimalDigit_of_startsWithWord halone.ends
  have hafter' := head?_isDecimalDigit_of_startsWithWord hlist.ends
  rcases hlist.written.eq_or_longer hwritten hrest hafter hafter'
    (fun comma rest hcomma => halone.comma_ne_after hcomma rest) with
    ⟨rfl, heq⟩ | ⟨back, comma, rest, rfl, hcomma, hback, hbehind⟩
  · have hsame : o' = o := ho'.standsIn.eq_of_token_eq hplace hbefore heq.symm
    exact ⟨hsame, hsame ▸ hlist⟩
  · -- A comma and a number of the list stand behind the token.
    obtain ⟨number, hnumber, d, hd, more, rfl⟩ := hback.exists_head
    have hdigit := hascii number (List.mem_append_right numbers' hnumber) d hd
    rw [hbehind] at hglued
    simp [isGlued_of_comma_after hcomma hdigit] at hglued

theorem mem_literals_iff {l : Literal} :
    l ∈ literals base t ↔ ∃ o ∈ token.occurrences base t, isGlued o.before o.after = false ∧
      ∃ c, read? o.token = some c ∧ l = .ofOccurrence o .rgbTuple c := by
  simp only [literals, List.mem_filterMap, Option.bind_eq_bind, Option.pure_def,
    Option.ite_none_left_eq_some, Option.bind_eq_some_iff, Option.some.injEq, Bool.not_eq_true,
    @eq_comm _ _ l]

/-- A list that is a color and stands alone is an occurrence. -/
theorem IsList.mem_occurrences (h : IsList numbers o.before o.token o.after)
    (hplace : o.StandsIn base t) (halone : StandsAlone o.before o.after) :
    o ∈ token.occurrences base t := by
  obtain ⟨n, hn, hlength⟩ := h.found fun comma rest hcomma => halone.comma_ne_after hcomma rest
  have hfinds : Finds token base t o := by
    refine ⟨hplace.text_eq, hplace.offset_eq, List.ne_nil_of_length_pos (by omega), n, hn, ?_⟩
    rw [← hlength, List.take_left]
  refine hfinds.mem_or_inside.resolve_right ?_
  rintro ⟨o', ho', hlt, hinside⟩
  have hstop := stop_le_of_standsAlone hplace h.written halone (Pattern.finds_of_mem ho') hlt
  omega

/-- A list of numbers that stands alone is found whole if it is a color, and else no part of it. -/
theorem literals_meeting_list (hplace : o.StandsIn base t) (hwritten : Written numbers o.token)
    (hascii : ∀ number ∈ numbers, ∀ d ∈ number, d.isDigit)
    (halone : StandsAlone o.before o.after) :
    (literals base t).filter
        (fun l => l.extent.start < o.extent.stop ∧ o.extent.start < l.extent.stop)
      = ((colorOf? numbers).map (Literal.ofOccurrence o .rgbTuple)).toList := by
  -- Whatever meets the list is the list.
  have hmeets (l : Literal) (hl : l ∈ literals base t) (hlt : l.extent.start < o.extent.stop)
      (hgt : o.extent.start < l.extent.stop) :
      ∃ c, colorOf? numbers = some c ∧ l = .ofOccurrence o .rgbTuple c := by
    obtain ⟨o', ho', hglued, c, hread, rfl⟩ := mem_literals_iff.1 hl
    have hfinds := Pattern.finds_of_mem ho'
    have hle : o.offset ≤ o'.offset := by
      refine Nat.le_of_not_lt fun hbefore => ?_
      have hstop := stop_le_of_standsAlone hplace hwritten halone hfinds hbefore
      exact absurd hgt (Nat.not_lt.2 hstop)
    obtain ⟨rfl, hlist⟩ := eq_of_starts_inside hplace hwritten hascii halone hfinds hle hlt hglued
    exact ⟨c, by rw [← hwritten.read?_eq hascii hlist.short, hread], rfl⟩
  cases hcolor : colorOf? numbers with
  | none =>
    refine List.filter_eq_nil_iff.2 fun l hl hselect => ?_
    obtain ⟨hlt, hgt⟩ := of_decide_eq_true hselect
    obtain ⟨c, hc, -⟩ := hmeets l hl hlt hgt
    cases hcolor.symm.trans hc
  | some c =>
    obtain ⟨hlength, hshort⟩ := shape_of_colorOf? hcolor
    have hlist : IsList numbers o.before o.token o.after :=
      ⟨halone.starts, halone.ends, hwritten, hlength, hshort⟩
    have hread : read? o.token = some c := by rw [hwritten.read?_eq hascii hshort, hcolor]
    have hl := mem_literals_iff.2
      ⟨o, hlist.mem_occurrences hplace halone, halone.isGlued_eq, c, hread, rfl⟩
    have horder := (areTokens_literals base t).inOrder
    have hwide := horder.start_lt_stop _ hl
    refine horder.filter_eq_singleton hl (decide_eq_true ⟨hwide, hwide⟩)
      fun l hl' hselect hapart => ?_
    obtain ⟨hlt, hgt⟩ := of_decide_eq_true hselect
    obtain ⟨c', -, rfl⟩ := hmeets l hl' hlt hgt
    exact hapart o.offset ⟨Nat.le_refl _, hwide⟩ ⟨Nat.le_refl _, hwide⟩

/-- Three numbers with a blank and a tab around a comma, between brackets. -/
theorem literals_meeting_list_bracketed :
    let t : Text := "f(1 ,\t22,255);".toList
    let o : Occurrence := ⟨"f(".toList.reverse, "1 ,\t22,255".toList, ");".toList, 2⟩
    let numbers : List Text := ["1".toList, "22".toList, "255".toList]
    o.StandsIn 0 t ∧ Written numbers o.token ∧ (∀ number ∈ numbers, ∀ d ∈ number, d.isDigit) ∧
      StandsAlone o.before o.after ∧
      (literals 0 t).filter
          (fun l => l.extent.start < o.extent.stop ∧ o.extent.start < l.extent.stop)
        = [.ofOccurrence o .rgbTuple ⟨1, 22, 255, 255⟩] := by
  intro t o numbers
  have hplace : o.StandsIn 0 t := ⟨by decide +kernel, by decide +kernel⟩
  have hascii : ∀ number ∈ numbers, ∀ d ∈ number, d.isDigit := by
    simpa using (by decide +kernel : numbers.all (·.all Char.isDigit))
  have hwritten : Written numbers o.token := by
    have htoken : o.token
        = "1".toList ++ (" ,\t".toList ++ ("22".toList ++ (",".toList ++ "255".toList))) := by
      decide +kernel
    have hnumber (number : Text) (hmem : number ∈ numbers) : IsNumber number := by
      have hall : numbers.all fun number => !number.isEmpty && number.all isDecimalDigit := by
        decide +kernel
      have hshape := List.all_eq_true.1 hall number hmem
      simp only [Bool.and_eq_true, Bool.not_eq_true', List.isEmpty_eq_false_iff, List.all_eq_true]
        at hshape
      exact ⟨hshape.1, hshape.2⟩
    have hwide : IsComma " ,\t".toList :=
      ⟨" ".toList, "\t".toList, by decide +kernel, List.all_eq_true.1 (by decide +kernel),
        List.all_eq_true.1 (by decide +kernel)⟩
    have hplain : IsComma ",".toList := ⟨[], [], by decide +kernel, by simp, by simp⟩
    rw [htoken]
    exact .cons (hnumber _ (by simp [numbers])) hwide
      (.cons (hnumber _ (by simp [numbers])) hplain (.single (hnumber _ (by simp [numbers]))))
  have halone : StandsAlone o.before o.after := by
    have hbefore : (o.before.dropWhile isBlank).head? = some '(' := by decide +kernel
    have hafter : (o.after.dropWhile isBlank).head? = some ')' := by decide +kernel
    exact ⟨by decide +kernel, by decide +kernel, by simp [hbefore], by simp [hafter]⟩
  have hcolor : colorOf? numbers = some ⟨1, 22, 255, 255⟩ := by decide +kernel
  have hfound := literals_meeting_list hplace hwritten hascii halone
  rw [hcolor] at hfound
  exact ⟨hplace, hwritten, hascii, halone, hfound⟩

end Found

end Swatch.Tuple

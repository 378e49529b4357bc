-- SUMMARY: Decimal numbers read back as they were written, and texts are found again among blanks.
import Swatch.Text.Digit

/-!
# Numbers and the blanks around them

A text that neither starts nor ends with a blank is what is left when blanks around it are
taken away, and no other character is ever lost. A number is written with digits only, so
it is such a text, and reading gives the number back.
-/

namespace Swatch

/-! ## Blanks -/

theorem toNat_of_isAlphanum {c : Char} (h : c.isAlphanum) :
    (48 ≤ c.toNat ∧ c.toNat ≤ 57) ∨ (65 ≤ c.toNat ∧ c.toNat ≤ 90) ∨
      (97 ≤ c.toNat ∧ c.toNat ≤ 122) := by
  change (decide ('A'.val ≤ c.val ∧ c.val ≤ 'Z'.val)
    || (decide ('a'.val ≤ c.val) && decide (c.val ≤ 'z'.val))
    || (decide ('0'.val ≤ c.val) && decide (c.val ≤ '9'.val))) = true at h
  simp only [Bool.or_eq_true, Bool.and_eq_true, decide_eq_true_eq, UInt32.le_iff_toNat_le] at h
  have hval : c.toNat = c.val.toNat := rfl
  have hupper : 'A'.val.toNat = 65 ∧ 'Z'.val.toNat = 90 := ⟨rfl, rfl⟩
  have hlower : 'a'.val.toNat = 97 ∧ 'z'.val.toNat = 122 := ⟨rfl, rfl⟩
  have hdigit : '0'.val.toNat = 48 ∧ '9'.val.toNat = 57 := ⟨rfl, rfl⟩
  omega

theorem isBlank_of_isAlphanum {c : Char} (h : c.isAlphanum) : isBlank c = false := by
  refine Bool.eq_false_iff.2 fun hblank => ?_
  have hrange := toNat_of_isAlphanum h
  simp only [isBlank, Bool.or_eq_true, Bool.and_eq_true, decide_eq_true_eq, beq_iff_eq] at hblank
  omega

theorem isBlank_of_isDigit {c : Char} (h : c.isDigit) : isBlank c = false :=
  isBlank_of_isAlphanum (by simp [Char.isAlphanum, h])

namespace Text

/-- A text that neither starts nor ends with a blank. -/
structure IsTrimmed (t : Text) : Prop where
  starts : ∃ c ∈ t.head?, isBlank c = false
  ends : ∃ c ∈ t.getLast?, isBlank c = false

section Trim

variable {t t' lead trail : Text}

theorem IsTrimmed.of_forall (hne : t ≠ []) (h : ∀ c ∈ t, isBlank c = false) : IsTrimmed t where
  starts := ⟨t.head hne, List.head?_eq_some_head hne, h _ (List.head_mem hne)⟩
  ends := ⟨t.getLast hne, List.getLast?_eq_some_getLast hne, h _ (List.getLast_mem hne)⟩

/-- What stands between two texts does not matter. -/
theorem IsTrimmed.append (h : IsTrimmed t) (between : Text) (h' : IsTrimmed t') :
    IsTrimmed (t ++ (between ++ t')) := by
  obtain ⟨c, hc, hstarts⟩ := h.starts
  obtain ⟨d, hd, hends⟩ := h'.ends
  constructor
  · refine ⟨c, ?_, hstarts⟩
    rw [Option.mem_def] at hc ⊢
    rw [List.head?_append, hc, Option.some_or]
  · refine ⟨d, ?_, hends⟩
    rw [Option.mem_def] at hd ⊢
    rw [List.getLast?_append, List.getLast?_append, hd, Option.some_or, Option.some_or]

theorem dropWhile_isBlank_append (hlead : ∀ c ∈ lead, isBlank c)
    (hstarts : ∃ c ∈ t.head?, isBlank c = false) : (lead ++ t).dropWhile isBlank = t := by
  obtain ⟨c, hc, hblank⟩ := hstarts
  obtain ⟨more, rfl⟩ := List.head?_eq_some_iff.1 hc
  rw [List.dropWhile_append_of_pos hlead, List.dropWhile_cons_of_neg (by simp [hblank])]

theorem IsTrimmed.trim_append (h : IsTrimmed t) (hlead : ∀ c ∈ lead, isBlank c)
    (htrail : ∀ c ∈ trail, isBlank c) : trim (lead ++ (t ++ trail)) = t := by
  have hstart : trimStart (lead ++ (t ++ trail)) = t ++ trail := by
    obtain ⟨c, hc, hblank⟩ := h.starts
    refine dropWhile_isBlank_append hlead ⟨c, ?_, hblank⟩
    rw [Option.mem_def] at hc ⊢
    rw [List.head?_append, hc, Option.some_or]
  have hstop : (trail.reverse ++ t.reverse).dropWhile isBlank = t.reverse := by
    refine dropWhile_isBlank_append (by simpa using htrail) ?_
    rw [List.head?_reverse]
    exact h.ends
  rw [trim, hstart, trimEnd, List.reverse_append, hstop, List.reverse_reverse]

/-- Only blanks are taken away. -/
theorem mem_trim {c : Char} (hc : c ∈ t) (hblank : isBlank c = false) : c ∈ t.trim := by
  have hkept {t : Text} (hc : c ∈ t) : c ∈ t.dropWhile isBlank := by
    rw [← List.takeWhile_append_dropWhile (p := isBlank) (l := t), List.mem_append] at hc
    refine hc.resolve_left fun hmem => ?_
    have htaken := List.all_eq_true.1 List.all_takeWhile c hmem
    rw [hblank] at htaken
    cases htaken
  rw [trim, trimEnd, List.mem_reverse]
  apply hkept
  rw [List.mem_reverse]
  exact hkept hc

end Trim

/-! ## Numbers -/

/-- What holds of ten characters holds of every digit. -/
theorem of_isDigit {p : Char → Prop} (h : ∀ n < 10, p (Char.ofNat (48 + n))) {c : Char}
    (hc : c.isDigit) : p c := by
  have hrange : 48 ≤ c.toNat ∧ c.toNat ≤ 57 := by
    simpa [Char.isDigit, UInt32.le_iff_toNat_le] using hc
  have hp := h (c.toNat - 48) (by omega)
  rwa [Nat.add_sub_cancel' hrange.1, Char.ofNat_toNat] at hp

theorem isDigit_of_mem_ofNat {n : Nat} {c : Char} (h : c ∈ ofNat n) : c.isDigit :=
  Nat.isDigit_of_mem_toDigits (by decide) (by decide) h

theorem ofNat_ne_nil (n : Nat) : ofNat n ≠ [] :=
  Nat.toDigits_ne_nil

theorem exists_cons_ofNat (n : Nat) : ∃ c digits, ofNat n = c :: digits ∧ c.isDigit := by
  obtain ⟨c, digits, hdigits⟩ := List.exists_cons_of_ne_nil (ofNat_ne_nil n)
  exact ⟨c, digits, hdigits, isDigit_of_mem_ofNat (n := n) (by simp [hdigits])⟩

/-- Only the number zero is written with a zero at the start. -/
theorem head?_ofNat {n : Nat} (hn : 0 < n) : (ofNat n).head? ≠ some '0' := by
  induction n using Nat.strongRecOn with
  | ind n ih =>
    rw [ofNat, Nat.toDigits_eq_if (by decide)]
    split
    · next hlt =>
      have hdigit : ∀ d < 10, 0 < d → [Nat.digitChar d].head? ≠ some '0' := by decide
      exact hdigit n hlt hn
    · have hrest := ih (n / 10) (by omega) (by omega)
      obtain ⟨c, digits, hdigits⟩ := List.exists_cons_of_ne_nil (ofNat_ne_nil (n / 10))
      rw [ofNat] at hdigits hrest
      rwa [hdigits] at hrest ⊢

theorem isTrimmed_ofNat (n : Nat) : IsTrimmed (ofNat n) :=
  .of_forall (ofNat_ne_nil n) fun _ hc => isBlank_of_isDigit (isDigit_of_mem_ofNat hc)

theorem decimal?_ofNat (n : Nat) : (ofNat n).decimal? = some n := by
  have hall : (ofNat n).all Char.isDigit := List.all_eq_true.2 fun _ => isDigit_of_mem_ofNat
  rw [decimal?, if_pos (by simp [hall, ofNat_ne_nil])]
  exact congrArg some Nat.ofDigitChars_ten_toDigits

theorem decimalBelow?_ofNat {n bound : Nat} (hn : n < bound) :
    (ofNat n).decimalBelow? bound = some n := by
  simp [decimalBelow?, decimal?_ofNat, hn]

/-- Only digits are read as a number, and at least one. -/
theorem isDigit_of_decimal? {t : Text} {n : Nat} (h : t.decimal? = some n) :
    t ≠ [] ∧ ∀ c ∈ t, c.isDigit := by
  obtain ⟨hshape, -⟩ := Option.ite_none_right_eq_some.1 h
  simpa using hshape

theorem isDigit_of_decimalBelow? {t : Text} {bound n : Nat} (h : t.decimalBelow? bound = some n) :
    t ≠ [] ∧ ∀ c ∈ t, c.isDigit :=
  isDigit_of_decimal? (Option.filter_eq_some_iff.1 h).1

end Text

end Swatch

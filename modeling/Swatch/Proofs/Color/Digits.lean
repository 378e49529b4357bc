-- SUMMARY: Hexadecimal digits, and the colors that six or eight of them write.
import Swatch.Color.Basic
import Swatch.Proofs.Text.Cut
import Mathlib.Tactic.ByContra

/-!
# Colors in hexadecimal digits

A hexadecimal digit is one of twenty-two ASCII characters. Six of them write a solid color
and eight a color with an alpha channel; what is read is written by the same digits again,
up to their case. No other text of digits is a color.
-/

namespace Swatch

/-! ## Digits -/

theorem toNat_of_isHexDigit {c : Char} (h : isHexDigit c) :
    (48 ≤ c.toNat ∧ c.toNat ≤ 57) ∨ (97 ≤ c.toNat ∧ c.toNat ≤ 102) ∨
      (65 ≤ c.toNat ∧ c.toNat ≤ 70) := by
  have hcases : ('0' ≤ c ∧ c ≤ '9') ∨ ('a' ≤ c ∧ c ≤ 'f') ∨ ('A' ≤ c ∧ c ≤ 'F') := by
    by_contra hnone
    simp only [not_or] at hnone
    simp [isHexDigit, hexValue?, hnone] at h
  simp only [Char.le_def, UInt32.le_iff_toNat_le] at hcases
  exact hcases

theorem isAlphanum_of_isHexDigit {c : Char} (h : isHexDigit c) : c.isAlphanum := by
  have hascii : ∀ n < 128, isHexDigit (Char.ofNat n) → (Char.ofNat n).isAlphanum := by decide
  have hrange := toNat_of_isHexDigit h
  have hc := hascii c.toNat (by omega)
  rw [Char.ofNat_toNat] at hc
  exact hc h

theorem utf8Size_of_isHexDigit {c : Char} (h : isHexDigit c) : c.utf8Size = 1 := by
  have hrange := toNat_of_isHexDigit h
  have hval : c.toNat = c.val.toNat := rfl
  rw [Char.utf8Size_eq_one_iff, UInt32.le_iff_toNat_le]
  have hlast : (127 : UInt32).toNat = 127 := rfl
  omega

theorem Text.size_eq_length {t : Text} (h : ∀ c ∈ t, c.utf8Size = 1) : t.size = t.length := by
  induction t with
  | nil => rfl
  | cons c t ih =>
    obtain ⟨hc, ht⟩ := List.forall_mem_cons.1 h
    rw [Text.size_cons, hc, ih ht, List.length_cons, Nat.add_comm]

theorem size_of_isHexDigit {digits : Text} (h : ∀ d ∈ digits, isHexDigit d) :
    digits.size = digits.length :=
  Text.size_eq_length fun d hd => utf8Size_of_isHexDigit (h d hd)

/-- The value of a digit is written by the digit in upper case. -/
theorem hexDigit_of_hexValue? {c : Char} {v : Nat} (h : hexValue? c = some v) :
    v < 16 ∧ hexDigit v = c.toUpper := by
  have hascii : ∀ n < 128, ∀ v ∈ hexValue? (Char.ofNat n),
      v < 16 ∧ hexDigit v = (Char.ofNat n).toUpper := by
    decide
  have hrange := toNat_of_isHexDigit (Option.isSome_of_eq_some h)
  have hc := hascii c.toNat (by omega) v
  rw [Char.ofNat_toNat] at hc
  exact hc h

/-! ## Pairs of digits -/

theorem isHexDigit_of_hexByte? {high low : Char} {b : UInt8} (h : hexByte? high low = some b) :
    isHexDigit high ∧ isHexDigit low := by
  simp only [hexByte?, Option.bind_eq_bind, Option.bind_eq_some_iff] at h
  obtain ⟨_, hhigh, _, hlow, -⟩ := h
  exact ⟨Option.isSome_of_eq_some hhigh, Option.isSome_of_eq_some hlow⟩

theorem exists_hexByte? {high low : Char} (hhigh : isHexDigit high) (hlow : isHexDigit low) :
    ∃ b, hexByte? high low = some b := by
  obtain ⟨h, hh⟩ := Option.isSome_iff_exists.1 hhigh
  obtain ⟨l, hl⟩ := Option.isSome_iff_exists.1 hlow
  exact ⟨_, by rw [hexByte?, hh, hl]; rfl⟩

/-- The byte of a pair is written by the pair in upper case. -/
theorem map_toUpper_of_hexByte? {high low : Char} {b : UInt8} (h : hexByte? high low = some b) :
    [high.toUpper, low.toUpper] = hexByte b := by
  simp only [hexByte?, Option.bind_eq_bind, Option.bind_eq_some_iff, Option.pure_def,
    Option.some.injEq] at h
  obtain ⟨v, hhigh, w, hlow, rfl⟩ := h
  obtain ⟨hv, hhigh⟩ := hexDigit_of_hexValue? hhigh
  obtain ⟨hw, hlow⟩ := hexDigit_of_hexValue? hlow
  have hnumber : (UInt8.ofNat (16 * v + w)).toNat = 16 * v + w := by
    rw [UInt8.toNat_ofNat']
    omega
  have hdiv : (16 * v + w) / 16 = v := by omega
  have hmod : (16 * v + w) % 16 = w := by omega
  rw [hexByte, hnumber, hdiv, hmod, hhigh, hlow]

/-! ## Colors -/

namespace Color

/-- Only hexadecimal digits make a color, six or eight of them. -/
theorem digits_of_ofDigits? {digits : Text} {c : Color} (h : ofDigits? digits = some c) :
    (∀ d ∈ digits, isHexDigit d) ∧ (digits.length = 6 ∨ digits.length = 8) := by
  unfold ofDigits? at h
  split at h
  · simp only [Option.bind_eq_bind, Option.bind_eq_some_iff] at h
    obtain ⟨_, hred, _, hgreen, _, hblue, -⟩ := h
    simp [isHexDigit_of_hexByte? hred, isHexDigit_of_hexByte? hgreen, isHexDigit_of_hexByte? hblue]
  · simp only [Option.bind_eq_bind, Option.bind_eq_some_iff] at h
    obtain ⟨_, hred, _, hgreen, _, hblue, _, halpha, -⟩ := h
    simp [isHexDigit_of_hexByte? hred, isHexDigit_of_hexByte? hgreen, isHexDigit_of_hexByte? hblue,
      isHexDigit_of_hexByte? halpha]
  · cases h

/-- The digits of a solid color, but for their case. -/
theorem rgbDigits_of_ofDigits? {digits : Text} {c : Color} (h : ofDigits? digits = some c)
    (hlength : digits.length = 6) : digits.map Char.toUpper = c.rgbDigits ∧ c.alpha = 255 := by
  unfold ofDigits? at h
  split at h
  · simp only [Option.bind_eq_bind, Option.bind_eq_some_iff, Option.pure_def, Option.some.injEq] at h
    obtain ⟨r, hred, g, hgreen, b, hblue, rfl⟩ := h
    refine ⟨?_, rfl⟩
    rw [rgbDigits, solid, ← map_toUpper_of_hexByte? hred, ← map_toUpper_of_hexByte? hgreen,
      ← map_toUpper_of_hexByte? hblue]
    rfl
  · cases hlength
  · cases h

/-- The digits of a color with an alpha channel, but for their case. -/
theorem rgbaDigits_of_ofDigits? {digits : Text} {c : Color} (h : ofDigits? digits = some c)
    (hlength : digits.length = 8) : digits.map Char.toUpper = c.rgbaDigits := by
  unfold ofDigits? at h
  split at h
  · cases hlength
  · simp only [Option.bind_eq_bind, Option.bind_eq_some_iff, Option.pure_def, Option.some.injEq] at h
    obtain ⟨r, hred, g, hgreen, b, hblue, a, halpha, rfl⟩ := h
    rw [rgbaDigits, rgbDigits, ← map_toUpper_of_hexByte? hred, ← map_toUpper_of_hexByte? hgreen,
      ← map_toUpper_of_hexByte? hblue, ← map_toUpper_of_hexByte? halpha]
    rfl
  · cases h

theorem exists_six {digits : Text} (h : digits.length = 6) :
    ∃ r₁ r₀ g₁ g₀ b₁ b₀, digits = [r₁, r₀, g₁, g₀, b₁, b₀] := by
  rcases digits with _ | ⟨r₁, _ | ⟨r₀, _ | ⟨g₁, _ | ⟨g₀, _ | ⟨b₁, _ | ⟨b₀, _ | _⟩⟩⟩⟩⟩⟩ <;>
    simp at h ⊢

theorem exists_eight {digits : Text} (h : digits.length = 8) :
    ∃ r₁ r₀ g₁ g₀ b₁ b₀ a₁ a₀, digits = [r₁, r₀, g₁, g₀, b₁, b₀, a₁, a₀] := by
  obtain ⟨r₁, r₀, rest, rfl⟩ : ∃ r₁ r₀ rest, digits = r₁ :: r₀ :: rest := by
    rcases digits with _ | ⟨r₁, _ | ⟨r₀, rest⟩⟩ <;> simp at h ⊢
  obtain ⟨g₁, g₀, b₁, b₀, a₁, a₀, rfl⟩ := exists_six (by simpa using h)
  exact ⟨r₁, r₀, g₁, g₀, b₁, b₀, a₁, a₀, rfl⟩

theorem exists_ofDigits? {digits : Text} (h : ∀ d ∈ digits, isHexDigit d)
    (hlength : digits.length = 6 ∨ digits.length = 8) : ∃ c, ofDigits? digits = some c := by
  rcases hlength with hlength | hlength
  · obtain ⟨r₁, r₀, g₁, g₀, b₁, b₀, rfl⟩ := exists_six hlength
    simp only [List.forall_mem_cons] at h
    obtain ⟨hr₁, hr₀, hg₁, hg₀, hb₁, hb₀, -⟩ := h
    obtain ⟨r, hr⟩ := exists_hexByte? hr₁ hr₀
    obtain ⟨g, hg⟩ := exists_hexByte? hg₁ hg₀
    obtain ⟨b, hb⟩ := exists_hexByte? hb₁ hb₀
    exact ⟨.solid r g b, by rw [ofDigits?, hr, hg, hb]; rfl⟩
  · obtain ⟨r₁, r₀, g₁, g₀, b₁, b₀, a₁, a₀, rfl⟩ := exists_eight hlength
    simp only [List.forall_mem_cons] at h
    obtain ⟨hr₁, hr₀, hg₁, hg₀, hb₁, hb₀, ha₁, ha₀, -⟩ := h
    obtain ⟨r, hr⟩ := exists_hexByte? hr₁ hr₀
    obtain ⟨g, hg⟩ := exists_hexByte? hg₁ hg₀
    obtain ⟨b, hb⟩ := exists_hexByte? hb₁ hb₀
    obtain ⟨a, ha⟩ := exists_hexByte? ha₁ ha₀
    exact ⟨⟨r, g, b, a⟩, by rw [ofDigits?, hr, hg, hb, ha]; rfl⟩

theorem isSome_ofDigits?_iff {digits : Text} :
    (ofDigits? digits).isSome ↔
      (∀ d ∈ digits, isHexDigit d) ∧ (digits.length = 6 ∨ digits.length = 8) := by
  rw [Option.isSome_iff_exists]
  constructor
  · rintro ⟨c, hc⟩
    exact digits_of_ofDigits? hc
  · rintro ⟨hdigits, hlength⟩
    exact exists_ofDigits? hdigits hlength

theorem stripMark_of_isHexDigit {digits : Text} (h : ∀ d ∈ digits, isHexDigit d) :
    stripMark digits = digits := by
  unfold stripMark
  split
  · exact absurd (h 'x' (by simp)) (by decide)
  · exact absurd (h 'X' (by simp)) (by decide)
  · exact absurd (h '#' (by simp)) (by decide)
  · rfl

end Color

end Swatch

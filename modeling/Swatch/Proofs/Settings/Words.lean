-- SUMMARY: Every flag, style and 64-bit number has a word that is read as it.
import Mathlib.Data.Nat.Digits.Defs
import Swatch.Proofs.Text.Number
import Swatch.Proofs.Yaml.Block
import Swatch.Settings.Yaml

/-!
# Words for settings

A flag, a style or a number can be read from several texts. Here is one for each of them, the
one that is also written. All of them are words, so they need no quotes.
-/

namespace Swatch.Yaml

namespace Word

def ofBool : Bool → Word
  | true => { text := "true".toList }
  | false => { text := "false".toList }

def ofStyle : Style → Word
  | .text => { text := "text".toList }
  | .underline => { text := "underline".toList }
  | .background => { text := "background".toList }

/-- The digits of a number of 64 bits. -/
def ofUInt64 (n : UInt64) : Word where
  text := Text.ofNat n.toNat
  length_le := by
    have hlength : (Nat.toDigits 10 n.toNat).length ≤ 20 :=
      Nat.toDigits_length 10 n.toNat 20 (by decide) (Nat.lt_trans n.toNat_lt (by decide))
    exact Nat.le_trans hlength (by decide)
  solid := List.all_eq_true.2 fun _ hc =>
    Text.of_isDigit (p := fun c => Yaml.isAllowed c && !isGapChar c) (by decide)
      (Text.isDigit_of_mem_ofNat hc)
  starts := by
    obtain ⟨c, digits, hdigits, hc⟩ := Text.exists_cons_ofNat n.toNat
    rw [hdigits]
    exact Text.of_isDigit (p := fun c => startsWord c) (by decide) hc
  ends := fun hlast =>
    absurd (Text.isDigit_of_mem_ofNat (List.mem_of_getLast? hlast)) (by decide)

end Word

/-! ## Numbers -/

theorem digitsIn?_ten {t : Text} (hne : t ≠ []) (ht : ∀ c ∈ t, c.isDigit) :
    digitsIn? 10 t = some (Text.decimalFrom 0 t) := by
  have hdigit (c : Char) (hc : c.isDigit) :
      ∃ d < 10, hexValue? c = some d ∧ c.toNat - '0'.toNat = d :=
    Text.of_isDigit (p := fun c => ∃ d < 10, hexValue? c = some d ∧ c.toNat - '0'.toNat = d)
      (by decide) hc
  have hfoldl (step : Option Nat → Char → Option Nat) (n : Nat)
      (hstep : ∀ n, ∀ c, c.isDigit → step (some n) c = some (10 * n + (c.toNat - '0'.toNat))) :
      t.foldl step (some n) = some (Text.decimalFrom n t) := by
    clear hne
    induction t generalizing n with
    | nil => rfl
    | cons c t ih =>
      rw [List.foldl_cons, hstep n c (ht c List.mem_cons_self),
        ih fun c hc => ht c (List.mem_cons_of_mem _ hc)]
      rfl
  rw [digitsIn?, if_neg (by simpa using hne)]
  refine hfoldl _ 0 fun n c hc => ?_
  obtain ⟨d, hd, hvalue, rfl⟩ := hdigit c hc
  rw [hvalue]
  exact if_pos hd

/-- The digits of a number have no mark of a base and no zero in front of them. -/
theorem wordOf?_ofNat {n : Nat} (hn : n < UInt64.size) : wordOf? (Text.ofNat n) = some n := by
  have hdecimal : wordIn? 10 (Text.ofNat n) = some n := by
    have hvalue : Text.decimalFrom 0 (Text.ofNat n) = n := Nat.ofDigitChars_ten_toDigits
    rw [wordIn?, digitsIn?_ten (Text.ofNat_ne_nil n) (fun _ => Text.isDigit_of_mem_ofNat), hvalue]
    simpa using hn
  rcases Nat.eq_zero_or_pos n with rfl | hpos
  · decide
  · obtain ⟨c, digits, hdigits, hc⟩ := Text.exists_cons_ofNat n
    have hzero : c ≠ '0' := by simpa [hdigits] using Text.head?_ofNat hpos
    have hplus : c ≠ '+' := by
      rintro rfl
      exact absurd hc (by decide)
    rw [hdigits] at hdecimal ⊢
    simp [wordOf?, markedWord?, hplus, hzero, hdecimal]

namespace Node

theorem bool?_ofBool (b : Bool) : (Word.ofBool b).node.bool? = some b := by
  cases b <;> decide

theorem style?_ofStyle (s : Style) : (Word.ofStyle s).node.style? = some s := by
  cases s <;> decide

theorem word?_ofUInt64 (n : UInt64) : (Word.ofUInt64 n).node.word? = some n.toNat :=
  wordOf?_ofNat n.toNat_lt

end Node

end Swatch.Yaml

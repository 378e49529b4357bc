-- SUMMARY: Decimal and hexadecimal digits, and the numbers that they write.
import Swatch.Text.Basic

/-!
# Digits and numbers

Numbers are read from ASCII digits and written with them. Unicode knows more
decimal digits, ten in a row for each script; `isDecimalDigit` accepts them all.
-/

namespace Swatch

/-! ## Decimal -/

/-- The digit zero of every script that has decimal digits. -/
def zeroDigits : List Nat :=
  [0x0030, 0x0660, 0x06F0, 0x07C0, 0x0966, 0x09E6, 0x0A66, 0x0AE6, 0x0B66, 0x0BE6, 0x0C66, 0x0CE6,
   0x0D66, 0x0DE6, 0x0E50, 0x0ED0, 0x0F20, 0x1040, 0x1090, 0x17E0, 0x1810, 0x1946, 0x19D0, 0x1A80,
   0x1A90, 0x1B50, 0x1BB0, 0x1C40, 0x1C50, 0xA620, 0xA8D0, 0xA900, 0xA9D0, 0xA9F0, 0xAA50, 0xABF0,
   0xFF10, 0x104A0, 0x10D30, 0x10D40, 0x11066, 0x110F0, 0x11136, 0x111D0, 0x112F0, 0x11450,
   0x114D0, 0x11650, 0x116C0, 0x116D0, 0x116DA, 0x11730, 0x118E0, 0x11950, 0x11BF0, 0x11C50,
   0x11D50, 0x11DA0, 0x11F50, 0x16130, 0x16A60, 0x16AC0, 0x16B50, 0x16D70, 0x1CCF0, 0x1D7CE,
   0x1D7D8, 0x1D7E2, 0x1D7EC, 0x1D7F6, 0x1E140, 0x1E2F0, 0x1E4F0, 0x1E5F1, 0x1E950, 0x1FBF0]

def isDecimalDigit (c : Char) : Bool :=
  if c.toNat < 0x80 then c.isDigit
  else zeroDigits.any fun first => first ≤ c.toNat && c.toNat < first + 10

namespace Text

/-- The number that ASCII digits write, continuing from the number `n` already read. -/
def decimalFrom (n : Nat) (t : Text) : Nat :=
  t.foldl (fun n c => 10 * n + (c.toNat - '0'.toNat)) n

/-- Read a text of ASCII digits, at least one, as a number. -/
def decimal? (t : Text) : Option Nat :=
  if !t.isEmpty && t.all Char.isDigit then some (decimalFrom 0 t) else none

/-- Read a number that must stay below `bound`. -/
def decimalBelow? (bound : Nat) (t : Text) : Option Nat :=
  t.decimal?.filter (· < bound)

/-- The ASCII digits of a number, without leading zeros. -/
def ofNat (n : Nat) : Text :=
  Nat.toDigits 10 n

end Text

/-! ## Hexadecimal -/

/-- The value of a hexadecimal digit of either case. -/
def hexValue? (c : Char) : Option Nat :=
  if '0' ≤ c ∧ c ≤ '9' then some (c.toNat - '0'.toNat)
  else if 'a' ≤ c ∧ c ≤ 'f' then some (c.toNat - 'a'.toNat + 10)
  else if 'A' ≤ c ∧ c ≤ 'F' then some (c.toNat - 'A'.toNat + 10)
  else none

/-- Hexadecimal digits of either case. -/
def isHexDigit (c : Char) : Bool :=
  (hexValue? c).isSome

/-- The upper case digit of a value below sixteen. -/
def hexDigit (n : Nat) : Char :=
  if n < 10 then Char.ofNat ('0'.toNat + n) else Char.ofNat ('A'.toNat + (n - 10))

/-- The two upper case digits of a byte. -/
def hexByte (b : UInt8) : Text :=
  [hexDigit (b.toNat / 16), hexDigit (b.toNat % 16)]

/-- Read two hexadecimal digits as a byte. -/
def hexByte? (high low : Char) : Option UInt8 := do
  let h ← hexValue? high
  let l ← hexValue? low
  return UInt8.ofNat (16 * h + l)

/-- Reading undoes writing. -/
theorem hexByte?_hexByte (b : UInt8) :
    hexByte? (hexDigit (b.toNat / 16)) (hexDigit (b.toNat % 16)) = some b := by
  have digit : ∀ n < 16, hexValue? (hexDigit n) = some n := by decide
  have bound : b.toNat < 256 := b.toNat_lt
  rw [hexByte?, digit _ (by omega), digit _ (by omega)]
  simp only [Option.bind_eq_bind, Option.bind_some, Option.pure_def, Option.some.injEq]
  rw [Nat.div_add_mod]
  exact UInt8.ofNat_toNat

end Swatch

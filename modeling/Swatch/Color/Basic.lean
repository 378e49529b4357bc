-- SUMMARY: Colors with an alpha channel: packed words, spellings and shades.
import Swatch.Text.Digit

/-!
# Colors

A color has a red, a green, a blue and an alpha channel of one byte each. This
module packs it into one word and reads and writes its hexadecimal spellings.

Lighter shades and the foreground that reads on top of a color are computed in single
precision, channel by channel and from left to right, so they are exact to the bit.
-/

namespace Swatch

/-- A color with an alpha channel. -/
structure Color where
  red : UInt8
  green : UInt8
  blue : UInt8
  alpha : UInt8
  deriving DecidableEq, Repr, Inhabited

namespace Color

/-- A color that hides what is behind it. -/
def solid (red green blue : UInt8) : Color :=
  ⟨red, green, blue, 255⟩

def white : Color := solid 255 255 255

def black : Color := solid 0 0 0

/-- The color with full alpha. -/
def solidify (c : Color) : Color :=
  { c with alpha := 255 }

/-! ## Packing -/

/-- Unpack a word with alpha in its high byte, then red, green and blue. -/
def ofArgb (word : UInt32) : Color where
  alpha := (word >>> 24).toUInt8
  red := (word >>> 16).toUInt8
  green := (word >>> 8).toUInt8
  blue := word.toUInt8

/-- Pack into a word with alpha in its high byte, then red, green and blue. -/
def toArgb (c : Color) : UInt32 :=
  (c.alpha.toUInt32 <<< 24) ||| (c.red.toUInt32 <<< 16) ||| (c.green.toUInt32 <<< 8)
    ||| c.blue.toUInt32

/-! ## Hexadecimal digits -/

/-- Six digits make a solid color; eight end in the alpha channel. -/
def ofDigits? : Text → Option Color
  | [r₁, r₀, g₁, g₀, b₁, b₀] => do
    return solid (← hexByte? r₁ r₀) (← hexByte? g₁ g₀) (← hexByte? b₁ b₀)
  | [r₁, r₀, g₁, g₀, b₁, b₀, a₁, a₀] => do
    return ⟨← hexByte? r₁ r₀, ← hexByte? g₁ g₀, ← hexByte? b₁ b₀, ← hexByte? a₁ a₀⟩
  | _ => none

/-- The digits behind an optional `0x`, `0X` or `#`. -/
def stripMark : Text → Text
  | '0' :: 'x' :: digits => digits
  | '0' :: 'X' :: digits => digits
  | '#' :: digits => digits
  | digits => digits

/-- Read six or eight hexadecimal digits behind an optional mark. -/
def ofHex? (t : Text) : Option Color :=
  ofDigits? (stripMark t)

def rgbDigits (c : Color) : Text :=
  hexByte c.red ++ hexByte c.green ++ hexByte c.blue

def rgbaDigits (c : Color) : Text :=
  c.rgbDigits ++ hexByte c.alpha

theorem ofDigits?_rgbDigits (c : Color) : ofDigits? c.rgbDigits = some c.solidify := by
  simp [rgbDigits, hexByte, ofDigits?, hexByte?_hexByte, solid, solidify]

theorem ofDigits?_rgbaDigits (c : Color) : ofDigits? c.rgbaDigits = some c := by
  simp [rgbaDigits, rgbDigits, hexByte, ofDigits?, hexByte?_hexByte]

/-! ## Spellings -/

/-- The name of a color in reports: `#` and the digits of all channels. -/
def display (c : Color) : Text :=
  '#' :: c.rgbaDigits

/-- `0xRRGGBBAA` -/
def toHexAlpha (c : Color) : Text :=
  '0' :: 'x' :: c.rgbaDigits

/-- `0xRRGGBB` -/
def toHex (c : Color) : Text :=
  '0' :: 'x' :: c.rgbDigits

/-- Six digits in braces -/
def toBraced (c : Color) : Text :=
  '{' :: c.rgbDigits ++ ['}']

/-- The packed word in decimal -/
def toDecimal (c : Color) : Text :=
  Text.ofNat c.toArgb.toNat

/-- `r, g, b` -/
def toTuple (c : Color) : Text :=
  Text.ofNat c.red.toNat ++ [',', ' '] ++ Text.ofNat c.green.toNat ++ [',', ' ']
    ++ Text.ofNat c.blue.toNat

/-- Every spelling that can be inserted for a color, in the order in which they are offered. -/
def presentations (c : Color) : List Text :=
  [c.toHexAlpha, c.toHex, c.toBraced, c.toDecimal, c.toTuple]

/-! ## Shades -/

/-- The share of the remaining distance to white that one step covers. -/
def lightenShare : Float32 := 0.3

/-- One step of a channel toward white. -/
def lightenStep (channel : Float32) : Float32 :=
  channel + (255 - channel) * lightenShare

/-- A channel after `steps` steps toward white, rounded to the nearest byte, a half upward. -/
def lightenChannel (steps : Nat) (channel : UInt8) : UInt8 :=
  (Nat.repeat lightenStep steps channel.toFloat32).round.toUInt8

/-- The color after `steps` steps toward white; alpha stays. -/
def lightened (c : Color) (steps : Nat) : Color where
  red := lightenChannel steps c.red
  green := lightenChannel steps c.green
  blue := lightenChannel steps c.blue
  alpha := c.alpha

/-- Perceived brightness between 0 and 255, a weighted sum of red, green and blue. -/
def luminance (c : Color) : Float32 :=
  0.299 * c.red.toFloat32 + 0.587 * c.green.toFloat32 + 0.114 * c.blue.toFloat32

/-- Black on bright colors and white on dark ones. -/
def contrast (c : Color) : Color :=
  if c.luminance > 140 then black else white

end Color

end Swatch

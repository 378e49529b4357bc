-- SUMMARY: Color literals as they are found in a text.
import Swatch.Color.Basic
import Swatch.Text.Occurrence

/-!
# Color literals

A literal is a piece of text that names a color. It remembers where it stands,
how it was written and by which spelling it was recognised.
-/

namespace Swatch

inductive Spelling where
  /-- `0xRRGGBBAA` -/
  | hexAlpha
  /-- `0xRRGGBB` -/
  | hexNoAlpha
  /-- Six digits in braces -/
  | braced
  /-- The packed word in decimal -/
  | decimal
  /-- `r, g, b` or `r, g, b, a` -/
  | rgbTuple
  /-- `~x~` and lightening steps -/
  | gameText
  deriving DecidableEq, Repr

def Spelling.name : Spelling → String
  | .hexAlpha => "HexAlpha"
  | .hexNoAlpha => "HexNoAlpha"
  | .braced => "Braced"
  | .decimal => "Decimal"
  | .rgbTuple => "RgbTuple"
  | .gameText => "GameText"

structure Literal where
  extent : Interval
  /-- The literal as it is written. -/
  raw : Text
  spelling : Spelling
  color : Color
  deriving DecidableEq, Repr

/-- The literal that an occurrence is, once its spelling and color are known. -/
def Literal.ofOccurrence (o : Occurrence) (spelling : Spelling) (color : Color) : Literal :=
  ⟨o.extent, o.token, spelling, color⟩

end Swatch

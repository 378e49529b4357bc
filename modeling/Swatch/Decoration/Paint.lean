-- SUMMARY: How a place is painted: color, style and role, and what the host is told about it.
import Swatch.Color.Basic

/-!
# Paint

Places that are painted alike share one paint. The role tells a literal from the
text that it colors; it does not change the looks.
-/

namespace Swatch

inductive Style where
  | text
  | underline
  /-- Behind the text, which is then black or white. -/
  | background
  deriving DecidableEq, Repr

/-- What a painted place is. -/
inductive Role where
  /-- A color literal. -/
  | literal
  /-- Text that a literal or a code colors. -/
  | text
  deriving DecidableEq, Repr

def Style.name : Style → String
  | .text => "Text"
  | .underline => "Underline"
  | .background => "Background"

def Role.name : Role → String
  | .literal => "Literal"
  | .text => "Text"

/-- How a place is painted. -/
structure Paint where
  color : Color
  style : Style
  role : Role
  deriving DecidableEq, Repr

/-- What the host is told when it creates a decoration. -/
structure Appearance where
  style : Style
  color : Color
  /-- The color of the text in front of a background. -/
  foreground : Option Color
  deriving DecidableEq, Repr

def Paint.appearance (p : Paint) : Appearance where
  style := p.style
  color := p.color
  foreground := if p.style = .background then some p.color.contrast else none

end Swatch

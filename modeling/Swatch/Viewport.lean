-- SUMMARY: The lines that a pass looks at: the visible ones and a margin around them.

/-!
# Viewport

A pass looks at the visible lines and at a margin above and below them, so that a
small scroll meets lines that are already done. Line numbers are 64-bit words and
additions stop at the largest one.
-/

namespace Swatch

/-- The largest number that fits into a 64-bit word. -/
def maxWord : Nat := UInt64.size - 1

/-- Lines from `first` to `last`, both included. -/
structure LineRange where
  first : Nat
  last : Nat
  deriving DecidableEq, Repr, Inhabited

def LineRange.toList (r : LineRange) : List Nat :=
  List.range' r.first (r.last + 1 - r.first)

/-- The lines to look at, together with the margin that is part of them. -/
structure Viewport where
  lines : LineRange
  margin : Nat
  deriving DecidableEq, Repr

namespace Viewport

/-- The union of the visible ranges, and a margin on either side. Where nothing is visible the
margin starts at the first line. -/
def ofVisible (visible : List LineRange) (margin : Nat) : Viewport where
  lines :=
    { first := ((visible.map LineRange.first).min?.getD 0) - margin
      last := min ((visible.map LineRange.last).max?.getD 0 + margin) maxWord }
  margin := margin

/-- The lines that a text of `count` lines has. -/
def clamp? (v : Viewport) (count : Nat) : Option LineRange :=
  if v.lines.first < count then some ⟨v.lines.first, min v.lines.last (count - 1)⟩ else none

end Viewport

end Swatch

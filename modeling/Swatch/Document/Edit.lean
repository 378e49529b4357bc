-- SUMMARY: Edits that replace a range of a document, and the edit between two texts.
import Swatch.Document.Position

/-!
# Edits

An edit replaces the text between two positions of the document as it was before.
It knows how many lines it removes and adds, where the added lines are counted by
line feeds alone.

Between any two different texts there is an edit that keeps what they start and
end with.
-/

namespace Swatch

/-- Replace what stands between two positions by a text. -/
structure Edit where
  start : Position
  stop : Position
  text : Text
  deriving DecidableEq, Repr

namespace Edit

/-- An edit that adds text and removes none. -/
def isInsertion (e : Edit) : Bool :=
  e.start == e.stop

def linesRemoved (e : Edit) : Nat :=
  e.stop.line - e.start.line

def linesAdded (e : Edit) : Nat :=
  e.text.count '\n'

/-- By how many lines the document grows, as a signed 64-bit word. -/
def lineDelta (e : Edit) : Int :=
  ((e.linesAdded : Int) - e.linesRemoved).bmod UInt64.size

/-! ## The edit between two texts -/

/-- What two texts both start with, and how each goes on. -/
def splitCommon : Text → Text → Text × Text × Text
  | c :: old, d :: new =>
    if c = d then
      let (common, old, new) := splitCommon old new
      (c :: common, old, new)
    else ([], c :: old, d :: new)
  | old, new => ([], old, new)

/-- How many characters two texts both end with. -/
def commonEnd (old new : Text) : Nat :=
  (splitCommon old.reverse new.reverse).1.length

/-- The edit that turns one text into another, if they differ. What both texts start with stays,
and of the rest what both end with. -/
def between? (old new : Text) : Option Edit :=
  if old = new then none
  else
    let (common, oldRest, newRest) := splitCommon old new
    let kept := commonEnd oldRest newRest
    let removed := oldRest.take (oldRest.length - kept)
    some
      { start := .after common
        stop := .after (common ++ removed)
        text := newRest.take (newRest.length - kept) }

end Edit

end Swatch

-- SUMMARY: One ignored line, and how an edit moves it.
import Swatch.Document.Basic

/-!
# Ignored lines

An entry remembers a line of a document, what stood on it and when it was ignored.
The path of an entry may be written in any way; it belongs to the document whose
path has the same components.

An edit moves the entries below it, leaves those above it alone, and swallows
those whose line it removes. Line numbers are moved in signed 64-bit arithmetic
and never fall below the first line.
-/

namespace Swatch.Ignored

/-- A line that is not highlighted. -/
structure Entry where
  path : Path
  line : Nat
  /-- What stood on the line when it was ignored. -/
  content : Text
  /-- When the line was ignored, in seconds. -/
  timestamp : Nat
  deriving DecidableEq, Repr, Inhabited

namespace Entry

def belongsTo (e : Entry) (key : DocumentKey) : Bool :=
  e.path.same key.path

def isAt (e : Entry) (key : DocumentKey) (line : Nat) : Bool :=
  e.line == line && e.belongsTo key

end Entry

/-! ## Moving lines -/

inductive Fate where
  | keep
  /-- The line moves by a number of lines. -/
  | shift (delta : Int)
  /-- The line is swallowed. -/
  | drop
  deriving DecidableEq, Repr

/-- What an edit does to a line. A line that the edit starts on stays, unless the edit pushes the
whole line down or removes all of it; a line that the edit stops on survives if the edit stops
before its first character. -/
def fate (line : Nat) (e : Edit) : Fate :=
  if line < e.start.line then .keep
  else if line = e.start.line then
    if e.isInsertion ∧ e.start.column = 0 ∧ 0 < e.lineDelta then .shift e.lineDelta
    else if ¬e.isInsertion ∧ e.start.column = 0 ∧ e.start.line < e.stop.line then .drop
    else .keep
  else if e.stop.line < line ∨ (line = e.stop.line ∧ e.stop.column = 0) then .shift e.lineDelta
  else .drop

/-- A line number moved by a number of lines. -/
def shiftLine (line : Nat) (delta : Int) : Nat :=
  ((line + delta).bmod UInt64.size).toNat

/-- Where an edit leaves a line; nowhere if it swallows the line. -/
def moveLine (line : Nat) (e : Edit) : Option Nat :=
  match fate line e with
  | .keep => some line
  | .shift delta => some (if delta = 0 then line else shiftLine line delta)
  | .drop => none

/-- The entry after an edit of a document. -/
def Entry.move (key : DocumentKey) (e : Edit) (entry : Entry) : Option Entry :=
  if entry.belongsTo key then (moveLine entry.line e).map fun line => { entry with line }
  else some entry

/-- An edit of a document swallows the entry or moves it by at least one line. -/
def Entry.isTouched (key : DocumentKey) (e : Edit) (entry : Entry) : Bool :=
  entry.belongsTo key &&
    match fate entry.line e with
    | .keep => false
    | .shift delta => delta != 0
    | .drop => true

end Swatch.Ignored

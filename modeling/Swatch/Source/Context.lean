-- SUMMARY: Where a place of a source text stands: on which line, in which remark, string and call.
import Swatch.Source.Line

/-!
# Places of a source text

A source text knows its lines, which end at line feeds; a carriage return before
the line feed, or at the very end, belongs to no line. Every question about a
place has an answer: places beyond the text, and places where the text cannot be
cut, are in no remark, no string and no call.

Block comments are found by counting: a place is inside one if more of them have
been opened than closed before it, wherever the marks stand.
-/

namespace Swatch

/-! ## Lines -/

/-- A text cut at every line feed; there is always at least one part. -/
def splitLines : Text → List Text
  | [] => [[]]
  | c :: t =>
    if c = '\n' then [] :: splitLines t
    else
      match splitLines t with
      | line :: lines => (c :: line) :: lines
      | [] => [[c]]

theorem splitLines_ne_nil (t : Text) : splitLines t ≠ [] := by
  fun_cases splitLines t <;> simp

/-- A line without the carriage return that it ends with. -/
def stripReturn (t : Text) : Text :=
  if t.getLast? = some '\r' then t.dropLast else t

/-- Parts of a text, the first of which starts at an offset, as lines. -/
def Line.ofParts (start : Nat) : List Text → List Line
  | [] => []
  | part :: parts => ⟨start, stripReturn part⟩ :: ofParts (start + part.size + 1) parts

def Line.ofText (t : Text) : List Line :=
  Line.ofParts 0 (splitLines t)

structure Source where
  text : Text
  lines : List Line := Line.ofText text
  lines_eq : lines = Line.ofText text := by rfl

namespace Source

def lineCount (s : Source) : Nat :=
  s.lines.length

/-- The line of a place; places beyond the text are on the last line. -/
def lineOf (s : Source) (offset : Nat) : Nat :=
  s.lines.countP (·.start ≤ offset) - 1

/-- The line of a place inside the text. -/
def lineAt? (s : Source) (offset : Nat) : Option Line :=
  if offset ≤ s.text.size then s.lines[s.lineOf offset]? else none

/-! ## Remarks and comments -/

/-- A place is behind the `//` of its line. -/
def inRemark (s : Source) (offset : Nat) : Bool :=
  ((s.lineAt? offset).bind Line.remark?).any (· ≤ offset)

/-- More block comments are opened than closed before a place. -/
def inBlockComment (s : Source) (offset : Nat) : Bool :=
  match s.text.splitAt? offset with
  | some (before, _) => before.countPair '*' '/' < before.countPair '/' '*'
  | none => false

/-- A place is in a remark or in a block comment. -/
def inComment (s : Source) (offset : Nat) : Bool :=
  s.inRemark offset || s.inBlockComment offset

/-! ## Strings -/

def quotes (s : Source) (line : Nat) : List Quoted :=
  match s.lines[line]? with
  | some l => l.quotes
  | none => []

def quoteAt? (s : Source) (offset : Nat) : Option Quoted :=
  ((s.lineAt? offset).map Line.quotes).bind (·.find? (·.holds offset))

def inString (s : Source) (offset : Nat) : Bool :=
  (s.quoteAt? offset).isSome

def isBrace (c : Char) : Bool :=
  c == '{' || c == '}'

/-- A place is between an opening and a closing brace of one string. -/
def inBracesInString (s : Source) (offset : Nat) : Bool :=
  match s.quoteAt? offset with
  | none => false
  | some q =>
    match (s.text.slice q.content).splitAt? (offset - q.content.start) with
    | none => false
    | some (before, after) =>
      before.reverse.find? isBrace == some '{' && after.find? isBrace == some '}'

/-! ## Calls -/

/-- The innermost function whose argument list holds a place, as far as the line of the place
tells. -/
def enclosingCall? (s : Source) (offset : Nat) : Option Text :=
  (s.lineAt? offset).bind fun l => Swatch.enclosingCall? 0 (l.cellsBefore offset)

end Source

end Swatch

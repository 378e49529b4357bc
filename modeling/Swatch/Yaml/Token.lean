-- SUMMARY: The tokens of a YAML stream and the characters that they are made of.
import Swatch.Text.Digit

/-!
# YAML tokens

A YAML stream is read as tokens first. Indentation shows up as tokens that open
and close blocks, so that what follows needs no columns. Five characters break a
line; three of them are all read as a line feed.
-/

namespace Swatch.Yaml

/-! ## Characters -/

/-- Spaces and tabs. -/
def isBlankChar (c : Char) : Bool :=
  c == ' ' || c == '\t'

def isBreak (c : Char) : Bool :=
  c == '\n' || c == '\r' || c == '\u0085' || c == '\u2028' || c == '\u2029'

/-- Characters that separate: blanks and breaks. -/
def isGapChar (c : Char) : Bool :=
  isBlankChar c || isBreak c

/-- The text is at an end: it is empty or goes on with a blank or a break. -/
def atGap (t : Text) : Bool :=
  t.head?.all isGapChar

def isNameChar (c : Char) : Bool :=
  c.isAlphanum || c == '_' || c == '-'

/-- Characters that a stream may hold: no control characters but tabs and breaks. -/
def isAllowed (c : Char) : Bool :=
  let n := c.toNat
  n == 0x09 || n == 0x0A || n == 0x0D || (0x20 ≤ n && n ≤ 0x7E) || n == 0x85
    || (0xA0 ≤ n && n ≤ 0xFFFD) || 0x10000 ≤ n

/-- The mark that may start a line; it counts as one column. -/
def byteOrderMark : Char := '\ufeff'

/-- Drop what breaks the line; a carriage return and a line feed go together. -/
def dropBreak : Text → Text
  | '\r' :: '\n' :: t => t
  | c :: t => if isBreak c then t else c :: t
  | [] => []

/-- The breaks of a text, each read as the character that it stands for. -/
def breaksOf : Text → Text
  | [] => []
  | '\r' :: '\n' :: t => '\n' :: breaksOf t
  | c :: t =>
    if c == '\u2028' || c == '\u2029' then c :: breaksOf t
    else if isBreak c then '\n' :: breaksOf t
    else breaksOf t

/-- What a gap inside a scalar is read as. Blanks on one line stay; a single break becomes a space,
and of several breaks the first one is dropped. -/
def foldGap (gap : Text) : Text :=
  match breaksOf gap with
  | [] => gap
  | ['\n'] => [' ']
  | '\n' :: more => more
  | breaks => breaks

/-- How many characters follow the last break of a text, if there is a break. -/
def columnAfter? (t : Text) : Option Nat :=
  if t.any isBreak then some (t.reverse.takeWhile (!isBreak ·)).length else none

/-- A line starts with three of a character and a gap behind them. -/
def startsWithThree (c : Char) : Text → Bool
  | a :: b :: d :: t => a == c && b == c && d == c && atGap t
  | _ => false

/-- A line starts or ends a document. -/
def startsWithMarker (t : Text) : Bool :=
  startsWithThree '-' t || startsWithThree '.' t

/-! ## Tokens -/

inductive Quoting where
  | plain
  | quoted
  | literal
  | folded
  deriving DecidableEq, Repr

inductive Token where
  | version (major minor : Nat)
  /-- A handle and what it stands for in tags. -/
  | tagHandle (handle start : Text)
  | documentStart
  | documentEnd
  | blockList
  | blockMap
  | blockEnd
  | flowListStart
  | flowListEnd
  | flowMapStart
  | flowMapEnd
  | blockItem
  | flowItem
  | key
  | value
  | alias (name : Text)
  | anchor (name : Text)
  | tag (handle suffix : Text)
  | scalar (text : Text) (quoting : Quoting)
  | streamEnd
  deriving DecidableEq, Repr

end Swatch.Yaml

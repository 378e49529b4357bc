-- SUMMARY: Lines of a document and positions by line and column.
import Swatch.Text.Basic

/-!
# Positions

A document's lines end at any of the line breaks that Unicode knows, where a
carriage return and a line feed count as one break. A line includes what ends it,
so joining the lines gives the text back; the last line is empty if the text ends
in a break.

A position names a line and a column, both counted from zero, the column in
characters. Positions beyond the end are read as the last place that their line,
or the text, has.
-/

namespace Swatch

/-! ## Lines -/

/-- The characters that end a line: line feed, vertical tab, form feed, carriage return, next line,
line separator and paragraph separator. -/
def isLineBreak (c : Char) : Bool :=
  let n := c.toNat
  (0x0A ≤ n && n ≤ 0x0D) || n == 0x85 || n == 0x2028 || n == 0x2029

/-- The lines of a text, each with what ends it; there is always at least one. -/
def documentLines : Text → List Text
  | [] => [[]]
  | '\r' :: '\n' :: t => ['\r', '\n'] :: documentLines t
  | c :: t =>
    if isLineBreak c then [c] :: documentLines t
    else
      match documentLines t with
      | line :: lines => (c :: line) :: lines
      | [] => [[c]]

theorem documentLines_ne_nil (t : Text) : documentLines t ≠ [] := by
  fun_cases documentLines t <;> simp

/-- Nothing is lost between the lines. -/
theorem documentLines_flatten (t : Text) : (documentLines t).flatten = t := by
  fun_induction documentLines t with
  | case1 => rfl
  | case2 t ih => simp [ih]
  | case3 c t _ _ ih => simp [ih]
  | case4 c t _ _ line lines heq ih => rw [heq] at ih; simpa using ih
  | case5 c t _ _ heq => exact absurd heq (documentLines_ne_nil t)

/-! ## Positions -/

/-- A line and a column, counted from zero. -/
structure Position where
  line : Nat
  column : Nat
  deriving DecidableEq, Repr, Inhabited

namespace Position

/-- Positions are ordered by line, then by column. -/
def le (p q : Position) : Bool :=
  decide (p.line < q.line) || (decide (p.line = q.line) && decide (p.column ≤ q.column))

/-- The position of a character, counted from the start of the first of some lines. The place
behind the last character is on the last line. -/
def locate (line : Nat) : List Text → (index : Nat) → Position
  | [], index => ⟨line, index⟩
  | [_], index => ⟨line, index⟩
  | l :: l' :: lines, index =>
    if index < l.length then ⟨line, index⟩ else locate (line + 1) (l' :: lines) (index - l.length)

/-- How many characters of some lines stand before a position. -/
def index : List Text → Position → Nat
  | [], _ => 0
  | [l], ⟨_, column⟩ => min column l.length
  | l :: _ :: _, ⟨0, column⟩ => min column l.length
  | l :: l' :: lines, ⟨line + 1, column⟩ => l.length + index (l' :: lines) ⟨line, column⟩

/-- The place behind a text, counting only line feeds as breaks. -/
def after (before : Text) : Position where
  line := before.count '\n'
  column := (before.reverse.takeWhile (· ≠ '\n')).length

end Position

end Swatch

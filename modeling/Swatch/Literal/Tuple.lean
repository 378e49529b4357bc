-- SUMMARY: Literals written as three or four decimal components, and reading any spelling.
import Swatch.Literal.GameText

/-!
# Number tuples

Three or four numbers of at most three digits each, with commas between them,
are a color if they stand alone: short lists of numbers are everywhere, so one
that is glued to further numbers is left alone. Spaces and tabs may surround a
comma, line breaks may not.

A text that is typed or selected as a color may use any spelling, among them a plain
packed number, which is never picked up while scanning. Blanks around the text do not
matter.
-/

namespace Swatch.Tuple

/-! ## Recognition -/

/-- A number of one to three digits that no further digit follows: its length and what follows. -/
def component? (t : Text) : Option (Nat × Text) :=
  let digits := t.takeWhile isDecimalDigit
  if 1 ≤ digits.length ∧ digits.length ≤ 3 then some (digits.length, t.drop digits.length) else none

/-- A comma with spaces and tabs around it: its length and what follows. -/
def comma? (t : Text) : Option (Nat × Text) :=
  let lead := (t.takeWhile isSpaceOrTab).length
  match t.drop lead with
  | ',' :: rest =>
    let trail := (rest.takeWhile isSpaceOrTab).length
    some (lead + 1 + trail, rest.drop trail)
  | _ => none

/-- A comma and a number behind it. -/
def next? (t : Text) : Option (Nat × Text) := do
  let (comma, rest) ← comma? t
  let (number, rest) ← component? rest
  return (comma + number, rest)

/-- Three numbers, and a fourth one where it ends outside a word. Without a fourth one the third
has to end outside a word. -/
def token : Pattern := fun before t =>
  if endsInWord before then none
  else do
    let (first, rest) ← component? t
    let (second, rest) ← next? rest
    let (third, rest) ← next? rest
    let length := first + second + third
    match (next? rest).filter (fun (_, rest) => !startsWithWord rest) with
    | some (fourth, _) => return length + fourth - 1
    | none => if startsWithWord rest then none else return length - 1

/-! ## Neighbours -/

/-- A text, given with its last character first, ends in a blank-padded digit. -/
def endsInDigit (before : Text) : Bool :=
  (before.dropWhile isBlank).head?.any Char.isDigit

/-- A text starts with a blank-padded digit. -/
def startsWithDigit (after : Text) : Bool :=
  (after.dropWhile isBlank).head?.any Char.isDigit

/-- Numbers on either side make a tuple part of a longer list, and so does a decimal point before
it or a fraction behind it. Blanks do not separate, line breaks included. -/
def isGlued (before after : Text) : Bool :=
  (match before.dropWhile isBlank with
    | '.' :: _ => true
    | ',' :: rest => endsInDigit rest
    | _ => false)
  || (match after.dropWhile isBlank with
    | ',' :: rest => startsWithDigit rest
    | '.' :: d :: _ => d.isDigit
    | _ => false)

/-! ## Reading -/

def parts : Text → List Text
  | [] => [[]]
  | c :: t =>
    if c = ',' then [] :: parts t
    else
      match parts t with
      | part :: more => (c :: part) :: more
      | [] => [[c]]

/-- One component: ASCII digits with blanks around them, 255 at most. -/
def channel? (part : Text) : Option UInt8 :=
  (part.trim.decimalBelow? 256).map UInt8.ofNat

/-- Read three components, or four of which the last is the alpha channel. -/
def read? (t : Text) : Option Color :=
  match (parts t).mapM channel? with
  | some [r, g, b] => some (.solid r g b)
  | some [r, g, b, a] => some ⟨r, g, b, a⟩
  | _ => none

/-- The tuples of a text that starts at `base` and that stand alone, in order. -/
def literals (base : Nat) (t : Text) : List Literal :=
  (token.occurrences base t).filterMap fun o => do
    if isGlued o.before o.after then none
    else
      let color ← read? o.token
      return .ofOccurrence o .rgbTuple color

end Swatch.Tuple

/-! ## Reading any spelling -/

namespace Swatch

def Decimal.read? (t : Text) : Option Color :=
  (t.decimalBelow? UInt32.size).map fun n => .ofArgb (UInt32.ofNat n)

/-- The spelling and the color of a text without blanks around it. Digits alone are a packed word or
nothing at all. -/
def Color.readExact? (t : Text) : Option (Spelling × Color) :=
  Hex.read? t
  <|> (Braced.read? t).map (Spelling.braced, ·)
  <|>
    if t.decimal?.isSome then (Decimal.read? t).map (Spelling.decimal, ·)
    else
      (Tuple.read? t).map (Spelling.rgbTuple, ·)
      <|> (GameText.read? t).map (Spelling.gameText, ·)

def Color.read? (t : Text) : Option (Spelling × Color) :=
  Color.readExact? t.trim

end Swatch

-- SUMMARY: Literals written with a 0x mark and literals written in braces.
import Swatch.Literal.Basic
import Swatch.Text.Word

/-!
# Hexadecimal literals

A token that starts with `0x` is taken up to the last letter, digit or
underscore before it is judged, so that a malformed one is skipped whole instead
of yielding a color from its first digits. A braced literal is exactly six
digits between braces.
-/

namespace Swatch

/-! ## With a mark -/

namespace Hex

/-- The characters that a marked token is made of. -/
def isTokenChar (c : Char) : Bool :=
  c.isAlphanum || c == '_'

/-- A marked token starts outside a word and goes on as long as it can. -/
def token : Pattern
  | before, '0' :: x :: d :: rest =>
    if !endsInWord before && (x == 'x' || x == 'X') && isTokenChar d then
      some ((rest.takeWhile isTokenChar).length + 2)
    else none
  | _, _ => none

/-- What follows the mark `0x` or `0X`. -/
def digits? : Text → Option Text
  | '0' :: 'x' :: digits => some digits
  | '0' :: 'X' :: digits => some digits
  | _ => none

/-- Read one marked literal: eight digits carry an alpha channel and six do not. -/
def read? (t : Text) : Option (Spelling × Color) := do
  let digits ← digits? t
  let spelling ←
    match digits.size with
    | 8 => some Spelling.hexAlpha
    | 6 => some Spelling.hexNoAlpha
    | _ => none
  let color ← Color.ofHex? digits
  return (spelling, color)

/-- The marked literals of a text that starts at `base`, in order. -/
def literals (base : Nat) (t : Text) : List Literal :=
  (token.occurrences base t).filterMap fun o => do
    let (spelling, color) ← read? o.token
    return .ofOccurrence o spelling color

end Hex

/-! ## In braces -/

namespace Braced

/-- Six hexadecimal digits between braces start the text. -/
def heads : Text → Bool
  | '{' :: d₁ :: d₂ :: d₃ :: d₄ :: d₅ :: d₆ :: '}' :: _ =>
    [d₁, d₂, d₃, d₄, d₅, d₆].all isHexDigit
  | _ => false

/-- A braced token stands anywhere, also inside a word. -/
def token : Pattern :=
  fun _ t => if heads t then some 7 else none

/-- What stands between the braces that open and close a text. -/
def digits? : Text → Option Text
  | '{' :: rest => if rest.getLast? = some '}' then some rest.dropLast else none
  | _ => none

def read? (t : Text) : Option Color := do
  let digits ← digits? t
  if digits.size = 6 then Color.ofHex? digits else none

/-- The braced literals of a text that starts at `base`, in order. -/
def literals (base : Nat) (t : Text) : List Literal :=
  (token.occurrences base t).filterMap fun o => do
    let color ← read? o.token
    return .ofOccurrence o .braced color

end Braced

end Swatch

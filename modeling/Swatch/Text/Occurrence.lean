-- SUMMARY: Patterns, and the occurrences of a pattern in a text.
import Swatch.Text.Basic

/-!
# Occurrences of a pattern

A pattern looks at one place of a text, with what stands before it and what
stands after it, and says whether a token starts there and how long it is. The
occurrences of a pattern are found from left to right; after a token the search
goes on behind it, so occurrences never overlap.
-/

namespace Swatch

/-- Where a token may start: given what stands before the place, nearest character first,
and what stands after it, how many characters beyond the first one the token has. -/
abbrev Pattern := Text → Text → Option Nat

/-- A token in its surroundings. -/
structure Occurrence where
  /-- What stands before the token, nearest character first. -/
  before : Text
  token : Text
  after : Text
  /-- The byte offset of the token's first character. -/
  offset : Nat
  deriving DecidableEq, Repr

namespace Occurrence

/-- The bytes that the token covers. -/
def extent (o : Occurrence) : Interval :=
  Interval.ofSize o.offset o.token.size

end Occurrence

namespace Pattern

/-- The occurrences from a place on, given what stands before it and its offset. -/
def occurrencesFrom (p : Pattern) (before : Text) (offset : Nat) : Text → List Occurrence
  | [] => []
  | c :: rest =>
    match p before (c :: rest) with
    | none => p.occurrencesFrom (c :: before) (offset + c.utf8Size) rest
    | some n =>
      let token : Text := c :: rest.take n
      ⟨before, token, rest.drop n, offset⟩ ::
        p.occurrencesFrom (token.reverse ++ before) (offset + token.size) (rest.drop n)
  termination_by t => t.length

/-- The occurrences in a text that starts at the offset `base`. -/
def occurrences (p : Pattern) (base : Nat) (t : Text) : List Occurrence :=
  p.occurrencesFrom [] base t

end Pattern

end Swatch

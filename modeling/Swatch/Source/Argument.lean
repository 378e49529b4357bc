-- SUMMARY: Colors among the arguments of calls: number tuples, and literals in front of a string.
import Swatch.Literal.GameText
import Swatch.Literal.Tuple
import Swatch.Source.Context

/-!
# Colors among arguments

A number tuple is a color outside of calls and inside the calls that set the
color of a drawn text; in any other call the numbers mean something else. A
marked literal that is the argument right before a string colors that string.
-/

namespace Swatch

/-! ## Number tuples -/

/-- The functions that set the color of a drawn text, in lower case. -/
def colorSetters : List String :=
  ["textdrawcolor", "textdrawcolour", "playertextdrawcolor", "playertextdrawcolour"]

/-- A function of this name sets the color of a drawn text. -/
def isColorSetter (name : Text) : Bool :=
  colorSetters.any fun f => f.toList == GameText.foldCase name

namespace Source

/-- A tuple that starts here may be shown as a color. -/
def admitsTuple (s : Source) (offset : Nat) : Bool :=
  !(s.inComment offset || s.inString offset) && (s.enclosingCall? offset).all isColorSetter

/-- The tuples inside a window of the source that may be shown as colors. -/
def tuples (s : Source) (window : Interval) : List Literal :=
  (Tuple.literals window.start (s.text.slice window)).filter fun l => s.admitsTuple l.extent.start

end Source

/-! ## Literals in front of a string -/

/-- A literal that colors the string argument behind it. -/
structure ColorArgument where
  literal : Literal
  string : Quoted
  /-- The function that is called. -/
  function : Text
  deriving DecidableEq, Repr

namespace ColorArgument

/-- A marked literal of six or eight digits, a comma, and an opening quote. -/
def token : Pattern
  | before, '0' :: x :: rest =>
    let digits := (rest.takeWhile isHexDigit).length
    let lead := ((rest.drop digits).takeWhile isBlank).length
    if !endsInWord before && (x == 'x' || x == 'X') && (digits == 6 || digits == 8) then
      match rest.drop (digits + lead) with
      | ',' :: rest =>
        let trail := (rest.takeWhile isBlank).length
        if (rest.drop trail).head? = some '"' then some (digits + lead + trail + 3) else none
      | _ => none
    else none
  | _, _ => none

/-- The literal with which a token starts. -/
def lead (token : Text) : Text :=
  token.takeWhile fun c => !(isBlank c || c == ',')

/-- The argument that an occurrence of the token is, if it stands in a call and outside of strings
and comments, and if the quote opens a string of the line of the literal. -/
def ofOccurrence? (s : Source) (o : Occurrence) : Option ColorArgument :=
  if s.inComment o.offset || s.inString o.offset then none
  else do
    let raw := lead o.token
    let (spelling, color) ← Hex.read? raw
    let function ← s.enclosingCall? o.offset
    let string ← (s.quotes (s.lineOf o.offset)).find? (·.content.start == o.extent.stop)
    return ⟨⟨.ofSize o.offset raw.size, raw, spelling, color⟩, string, function⟩

end ColorArgument

/-- The literals inside a window of the source that color the string argument behind them. -/
def Source.colorArguments (s : Source) (window : Interval) : List ColorArgument :=
  (ColorArgument.token.occurrences window.start (s.text.slice window)).filterMap
    (ColorArgument.ofOccurrence? s)

end Swatch

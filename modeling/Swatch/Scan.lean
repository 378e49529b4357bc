-- SUMMARY: One scan of a window of lines: the places to paint and the warnings.
import Swatch.Cover
import Swatch.Literal.GameText
import Swatch.Settings.Basic
import Swatch.Source.Argument
import Swatch.Viewport

/-!
# Scanning a window

A scan looks at whole lines. Strings come first: text behind tilde codes, then
text behind braced colors; both cover the places that they color, whether their
family is shown or not. A literal in front of a string argument colors the string
unless some of it is covered. Literals themselves come last.

A string with an odd number of tildes is warned about, once for each line, if it
holds a code or is passed to a function that shows codes.
-/

namespace Swatch

/-- Something the user should know about a pass. -/
inductive Advisory where
  /-- More places than the limit were found; only the first ones are painted. -/
  | capacityExceeded (limit found : Nat)
  /-- A string of the line has an odd number of tildes. -/
  | crashRisk (line : Nat) (content : Interval)
  deriving DecidableEq, Repr

/-- A place and its paint. -/
structure Mark where
  paint : Paint
  extent : Interval
  /-- The line on which the place starts. -/
  line : Nat
  deriving DecidableEq, Repr

structure Scan where
  /-- The places to paint, in order. -/
  marks : List Mark := []
  /-- Warnings about strings, at most one for each line. -/
  advisories : List Advisory := []
  deriving DecidableEq, Repr

namespace Source

/-- The bytes of some lines, without what ends the last one. -/
def window? (s : Source) (lines : LineRange) : Option Interval := do
  let first ← s.lines[lines.first]?
  let last ← s.lines[lines.last]?
  return ⟨first.start, last.extent.stop⟩

/-- A place as a mark, unless it is empty. -/
def mark? (s : Source) (paint : Paint) (extent : Interval) : Option Mark :=
  if extent.isEmpty then none else some ⟨paint, extent, s.lineOf extent.start⟩

/-- The strings of some lines that do not start in a block comment. -/
def stringsIn (s : Source) (lines : LineRange) : List Quoted :=
  (lines.toList.flatMap s.quotes).filter fun q => !s.inBlockComment q.content.start

/-! ## Warnings -/

/-- An unbalanced string that is, or will be, shown with its codes. -/
def isRisky (s : Source) (q : Quoted) : Bool :=
  let content := s.text.slice q.content
  GameText.isUnbalanced content &&
    (GameText.bearsCode content ||
      (s.enclosingCall? (q.content.start - 1)).any GameText.isShowingFunction)

/-- One warning for each line, given the line that was warned about last. -/
def warnings (s : Source) (lastLine : Option Nat) : List Quoted → List Advisory
  | [] => []
  | q :: qs =>
    let line := s.lineOf q.content.start
    if s.isRisky q && lastLine != some line then
      .crashRisk line q.content :: s.warnings (some line) qs
    else s.warnings lastLine qs

/-! ## Text colored by codes -/

/-- The places that the tilde codes of a string cover: the codes and the runs behind them. -/
def codeCover (s : Source) (q : Quoted) : List Interval :=
  let content := s.text.slice q.content
  let runs := (GameText.runs q.content.start content).filter (·.hue.isSome)
  (GameText.literals q.content.start content).map Literal.extent ++ runs.map GameText.Run.extent

/-- The text that the tilde codes of a string color. -/
def codeMarks (s : Source) (style : Style) (q : Quoted) : List Mark :=
  (GameText.runs q.content.start (s.text.slice q.content)).filterMap fun r => do
    s.mark? ⟨← r.color, style, .text⟩ r.extent

/-- The places that the braced colors of a string cover: the braced colors and their runs. -/
def inlineCover (s : Source) (q : Quoted) : List Interval :=
  (Inline.runs q.content.start (s.text.slice q.content)).flatMap fun r => [r.code.extent, r.extent]

/-- The text that the braced colors of a string color. -/
def inlineMarks (s : Source) (style : Style) (q : Quoted) : List Mark :=
  (Inline.runs q.content.start (s.text.slice q.content)).filterMap fun r =>
    s.mark? ⟨r.code.color, style, .text⟩ r.extent

/-- What the codes and the braced colors of some strings cover. -/
def cover (s : Source) (strings : List Quoted) : Cover :=
  (strings.flatMap s.codeCover ++ strings.flatMap s.inlineCover).foldl Cover.add {}

/-- The strings that a literal in front of them colors: those of which nothing is covered. -/
def argumentMarks (s : Source) (style : Style) (cover : Cover) (window : Interval) : List Mark :=
  (s.colorArguments window).filterMap fun a =>
    if cover.meets a.string.content then none
    else s.mark? ⟨a.literal.color, style, .text⟩ a.string.content

/-! ## Literals -/

/-- The literals of a window: marked ones and braced ones outside of comments, then tuples. -/
def literals (s : Source) (window : Interval) : List Literal :=
  let text := s.text.slice window
  (Hex.literals window.start text ++ Braced.literals window.start text).filter
      (fun l => !s.inComment l.extent.start)
    ++ s.tuples window

def literalMarks (s : Source) (style : Style) (window : Interval) : List Mark :=
  (s.literals window).filterMap fun l => s.mark? ⟨l.color, style, .literal⟩ l.extent

end Source

namespace Scan

/-- The marks of a family, if it is shown. -/
def ofFamily (f : Family) (marks : Style → List Mark) : List Mark :=
  if f.enabled then marks f.style else []

/-- Scan some lines of a source. Lines beyond the text have nothing on them. -/
def ofLines (s : Source) (lines : LineRange) (settings : Settings) : Scan :=
  match s.window? lines with
  | none => {}
  | some window =>
    let strings := s.stringsIn lines
    let marks :=
      ofFamily settings.gameText (fun style => strings.flatMap (s.codeMarks style))
      ++ ofFamily settings.inlineText (fun style => strings.flatMap (s.inlineMarks style))
      ++ ofFamily settings.inlineText (fun style => s.argumentMarks style (s.cover strings) window)
      ++ ofFamily settings.hex (fun style => s.literalMarks style window)
    { marks := marks.mergeSort fun m n => m.extent.le n.extent
      advisories := s.warnings none strings }

def ofText (text : Text) (lines : LineRange) (settings : Settings) : Scan :=
  ofLines { text } lines settings

end Scan

end Swatch

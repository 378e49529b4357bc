-- SUMMARY: What the program prints.
import Swatch.CommandLine.Command
import Swatch.Files.Script
import Swatch.Ignored.Registry
import Swatch.Literal.Basic
import Swatch.Session

/-!
# Output

Every place of a pass is one line: where it starts, its role, its color, its style
and its text, with tabs between them. Warnings follow. A failure is one line, and
behind it the reason why a file could not be read.
-/

namespace Swatch.CommandLine

structure Outcome where
  code : Nat := 0
  out : Text := []
  err : Text := []
  deriving DecidableEq, Repr

def lineOf (t : Text) : Text :=
  t ++ ['\n']

/-! ## Passes -/

def markLine (d : Document) (m : Mark) : Text :=
  let p := d.positionAt m.extent.start
  lineOf (['\t'].intercalate
    [Text.ofNat (p.line + 1) ++ ':' :: Text.ofNat (p.column + 1),
     m.paint.role.name.toList,
     m.paint.color.display,
     m.paint.style.name.toList,
     d.text.slice m.extent])

def advisoryLine : Advisory → Text
  | .capacityExceeded limit found =>
    lineOf ("warning: ".toList ++ Text.ofNat found
      ++ " color decorations found, only the first ".toList ++ Text.ofNat limit
      ++ " are shown".toList)
  | .crashRisk line _ =>
    lineOf ("warning: line ".toList ++ Text.ofNat (line + 1)
      ++ ": odd number of '~' in a GameText string can crash the client".toList)

def reportLines (d : Document) (r : Report) : Text :=
  r.marks.flatMap (markLine d) ++ r.advisories.flatMap advisoryLine

/-! ## Colors and ignored lines -/

/-- A color, how it was spelled, and all its spellings. -/
def conversionLines (spelling : Spelling) (c : Color) : Text :=
  lineOf (spelling.name.toList ++ ' ' :: c.display) ++ c.presentations.flatMap lineOf

/-- The name of a line that is counted from zero. -/
def place (p : Path) (line : Nat) : Text :=
  p ++ ':' :: Text.ofNat (line + 1)

/-- The ignored lines, the most recent one first. -/
def ignoredLines (r : Ignored.Registry) : Text :=
  if r.isEmpty then lineOf "No ignored lines".toList
  else r.entries.flatMap fun e => lineOf (place e.path e.line ++ '\t' :: e.content.trim)

/-! ## Failures -/

inductive Failure where
  | unreadable (p : Path) (e : FileError)
  | notAColor (literal : Text)
  | tooFewLines (p : Path) (count : Nat)
  | noLine (p : Path) (line : Nat)
  | badLines (e : LineError)
  deriving DecidableEq, Repr

def Failure.message : Failure → Text
  | .unreadable p _ => "Failed to read ".toList ++ p
  | .notAColor literal => "Not a color literal: ".toList ++ literal
  | .tooFewLines p count => p ++ " has only ".toList ++ Text.ofNat count ++ " lines".toList
  | .noLine p line => p ++ " has no line ".toList ++ Text.ofNat (line + 1)
  | .badLines e => e.message.toList

/-- What stands behind a failure. -/
def Failure.cause? : Failure → Option FileError
  | .unreadable _ e => some e
  | _ => none

def Failure.outcome (f : Failure) : Outcome where
  code := 1
  err :=
    lineOf ("Error: ".toList ++ f.message ++
      match f.cause? with
      | some e => "\n\nCaused by:\n    ".toList ++ e.message.toList
      | none => [])

/-! ## Usage -/

def version : Text :=
  lineOf "pawn-colors 0.3.0".toList

def help : Text :=
  ["Color literal highlighter for PAWN sources",
   "",
   "Usage: pawn-colors [--config PATH] COMMAND",
   "",
   "  scan FILE [--from N] [--to N]  Print every color decoration in a file",
   "  convert LITERAL                Show every spelling of a color literal",
   "  ignore FILE LINE               Stop highlighting a line",
   "  unignore FILE LINE             Restore highlighting on a line",
   "  ignored                        List ignored lines, most recent first",
   "  watch FILE                     Rescan a file every time it changes on disk"].flatMap
    fun line => lineOf line.toList

def UsageError.message : UsageError → String
  | .unknownArgument => "error: unexpected argument"
  | .emptyValue => "error: a value is required"
  | .badValue => "error: a line number is not a number"
  | .needlessValue => "error: a flag takes no value"
  | .repeatedOption => "error: an option is given more than once"
  | .missingOperand => "error: a required argument is missing"
  | .unknownCommand => "error: unrecognized command"
  | .missingCommand => "error: a command is required"
  | .noArguments | .helpWanted | .versionWanted => ""

def UsageError.outcome : UsageError → Outcome
  | .helpWanted => { out := help }
  | .versionWanted => { out := version }
  | .noArguments => { code := 2, err := help }
  | e => { code := 2, err := lineOf e.message.toList }

end Swatch.CommandLine

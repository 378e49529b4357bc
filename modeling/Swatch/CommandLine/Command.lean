-- SUMMARY: The commands of the program, from arguments to lines counted from zero.
import Swatch.CommandLine.Arguments
import Swatch.Files.Path
import Swatch.Viewport

/-!
# Commands

The program is given a command with operands and options of its own. A settings
file may be named in front of the command or behind it; behind it counts more.

A request has lines as the user counts them, from one. A command has lines counted
from zero.
-/

namespace Swatch.CommandLine

inductive Verb where
  | scan
  | convert
  | ignore
  | unignore
  | ignored
  | watch
  deriving DecidableEq, Repr

/-- What the user asks for. Lines are counted from one. -/
inductive Request where
  | scan (file : Path) (first last : Option Nat)
  | convert (literal : Text)
  | ignore (file : Path) (line : Nat)
  | unignore (file : Path) (line : Nat)
  | listIgnored
  | watch (file : Path)
  deriving DecidableEq, Repr

/-- What the program is going to do. Lines are counted from zero. -/
inductive Command where
  /-- Show the places on some lines of a file, or on all of them. -/
  | scan (file : Path) (lines : Option LineRange)
  | convert (literal : Text)
  | ignore (file : Path) (line : Nat)
  | unignore (file : Path) (line : Nat)
  | listIgnored
  | watch (file : Path)
  deriving DecidableEq, Repr

/-! ## From arguments to requests -/

def settingsOption : Parameter := ⟨"config", .path⟩

def fileOperand : Parameter := ⟨"file", .path⟩

namespace Verb

def all : List Verb :=
  [scan, convert, ignore, unignore, ignored, watch]

def name : Verb → String
  | scan => "scan"
  | convert => "convert"
  | ignore => "ignore"
  | unignore => "unignore"
  | ignored => "ignored"
  | watch => "watch"

def ofName? (t : Text) : Option Verb :=
  all.find? (·.name.toList == t)

def grammar : Verb → Grammar
  | scan =>
    { options := [settingsOption, ⟨"from", .word⟩, ⟨"to", .word⟩], operands := [fileOperand] }
  | convert => { options := [settingsOption], operands := [⟨"literal", .text⟩] }
  | ignore | unignore =>
    { options := [settingsOption], operands := [fileOperand, ⟨"line", .word⟩] }
  | ignored => { options := [settingsOption] }
  | watch => { options := [settingsOption], operands := [fileOperand] }

/-- The request that the values of a command make, if no operand is missing. -/
def request? (values : Values) : Verb → Option Request
  | scan => do return .scan (← Table.get? "file" values) (values.word? "from") (values.word? "to")
  | convert => do return .convert (← Table.get? "literal" values)
  | ignore => do return .ignore (← Table.get? "file" values) (← values.word? "line")
  | unignore => do return .unignore (← Table.get? "file" values) (← values.word? "line")
  | ignored => some .listIgnored
  | watch => do return .watch (← Table.get? "file" values)

end Verb

/-- The name that asks for help about a command. -/
def helpName : String := "help"

/-- What the program accepts in front of a command. -/
def frontGrammar : Grammar where
  options := [settingsOption]
  commands := helpName :: Verb.all.map Verb.name
  hasVersion := true

structure Invocation where
  request : Request
  /-- The settings file to use instead of the user's. -/
  settingsFile : Option Path := none
  deriving DecidableEq, Repr

/-- Which help is asked for by the words behind `help`: that about the program or a command. -/
def helpOn : List Text → UsageError
  | [] => .helpWanted
  | t :: more =>
    if (Verb.ofName? t).isNone && t != helpName.toList then .unknownCommand
    else if more.isEmpty then .helpWanted
    else .unknownCommand

def Verb.read (verb : Verb) (args : List Text) : Except UsageError (Request × Values) := do
  let values ← verb.grammar.read args
  match verb.request? values with
  | some request => return (request, values)
  | none => throw .missingOperand

/-- Read the arguments of the program. The arguments of the command are looked at before an option
that is still held. -/
def Invocation.ofArguments (args : List Text) : Except UsageError Invocation := do
  let (r, command) ← Reading.steps frontGrammar { operands := [] } args
  match command with
  | none =>
    let r ← r.settle
    throw (if r.values.isEmpty then .noArguments else .missingCommand)
  | some (name, args) =>
    match Verb.ofName? name with
    | none => throw (helpOn args)
    | some verb =>
      let (request, values) ← verb.read args
      let r ← r.settle
      return ⟨request, Table.get? "config" values <|> Table.get? "config" r.values⟩

/-! ## From requests to commands -/

inductive LineError where
  /-- A line is numbered zero. -/
  | zero
  /-- The lines of a scan are in the wrong order. -/
  | reversed (first last : Nat)
  deriving DecidableEq, Repr

def LineError.message : LineError → String
  | .zero => "Line numbers start at 1"
  | .reversed first last => "--from " ++ toString first ++ " is after --to " ++ toString last

/-- A line counted from zero. -/
def line : Nat → Except LineError Nat
  | 0 => .error .zero
  | n + 1 => .ok n

/-- The lines of a scan; without a last line it has no end. -/
def lines : (first last : Option Nat) → Except LineError (Option LineRange)
  | none, none => .ok none
  | first, last => do
    let start ← line (first.getD 1)
    let stop ← match last with
      | some n => line n
      | none => pure maxWord
    if stop < start then throw (.reversed (start + 1) (stop + 1))
    return some ⟨start, stop⟩

def Request.command : Request → Except LineError Command
  | .scan file first last => return .scan file (← lines first last)
  | .convert literal => return .convert literal
  | .ignore file n => return .ignore file (← line n)
  | .unignore file n => return .unignore file (← line n)
  | .listIgnored => return .listIgnored
  | .watch file => return .watch file

end Swatch.CommandLine

-- SUMMARY: Reading the arguments of a command from left to right.
import Swatch.Table
import Swatch.Text.Digit

/-!
# Arguments

A command has options, whose values come behind `=` or as the next argument, and
operands, which are told apart by their order. Two dashes make operands of all
arguments behind them.

An argument that has been given is held back until the next one shows up, and only
then is its value looked at. So of several faults the one in front is reported,
except that an argument nobody knows is reported at once.
-/

namespace Swatch.CommandLine

/-! ## Grammar -/

inductive ValueKind where
  /-- A path that is not empty. -/
  | path
  /-- A 64-bit word; a plus sign may stand in front. -/
  | word
  | text
  deriving DecidableEq, Repr

/-- An option or an operand. -/
structure Parameter where
  name : String
  kind : ValueKind
  deriving DecidableEq, Repr

structure Grammar where
  options : List Parameter
  operands : List Parameter := []
  /-- The names that hand the rest of the arguments over to another command. -/
  commands : List String := []
  /-- The version can be asked for. -/
  hasVersion : Bool := false

inductive UsageError where
  | unknownArgument
  /-- An option without value, or an empty path. -/
  | emptyValue
  | badValue
  /-- A flag with a value. -/
  | needlessValue
  | repeatedOption
  | missingOperand
  | unknownCommand
  | missingCommand
  /-- There are no arguments at all. -/
  | noArguments
  /-- Help is asked for. -/
  | helpWanted
  /-- The version is asked for. -/
  | versionWanted
  deriving DecidableEq, Repr

inductive Shape where
  /-- `--` -/
  | separator
  /-- `--name` or `--name=value` -/
  | option (name : Text) (value : Option Text)
  /-- `-xyz` -/
  | letters (first : Char)
  | plain
  deriving DecidableEq, Repr

/-- The name of an option and what comes behind the first equals sign. -/
def splitValue : Text → Text × Option Text
  | [] => ([], none)
  | '=' :: value => ([], some value)
  | c :: t => ((c :: (splitValue t).1), (splitValue t).2)

/-- What an argument looks like; a single dash is plain. -/
def Shape.ofText : Text → Shape
  | ['-', '-'] => .separator
  | '-' :: '-' :: t => .option (splitValue t).1 (splitValue t).2
  | '-' :: c :: _ => .letters c
  | _ => .plain

/-! ## Values -/

/-- A word with an optional plus sign. -/
def word? : Text → Option Nat
  | '+' :: t => Text.decimalBelow? UInt64.size t
  | t => Text.decimalBelow? UInt64.size t

def ValueKind.check (value : Text) : ValueKind → Except UsageError Unit
  | .path => if value.isEmpty then .error .emptyValue else .ok ()
  | .word => if (word? value).isSome then .ok () else .error .badValue
  | .text => .ok ()

/-- The values that have been accepted, by the names of their parameters. -/
abbrev Values := Table String Text

def Values.word? (values : Values) (name : String) : Option Nat :=
  (Table.get? name values).bind CommandLine.word?

/-! ## Reading -/

/-- How far the arguments have been read. -/
structure Reading where
  values : Values := []
  /-- The last parameter that was given, with its value if that is known. -/
  held : Option (Parameter × Option Text) := none
  /-- The operands that have not been given. -/
  operands : List Parameter
  /-- Two dashes have been passed. -/
  literal : Bool := false

namespace Reading

def accept (r : Reading) (p : Parameter) (value : Text) : Except UsageError Reading := do
  if (Table.get? p.name r.values).isSome then throw .repeatedOption
  p.kind.check value
  return { r with values := Table.put p.name value r.values }

/-- Accept what is held. -/
def settle (r : Reading) : Except UsageError Reading :=
  match r.held with
  | none => .ok r
  | some (p, some value) => { r with held := none }.accept p value
  | some (_, none) => .error .emptyValue

def isWaiting (r : Reading) : Bool :=
  match r.held with
  | some (_, none) => !r.literal
  | _ => false

def operand (g : Grammar) (r : Reading) (t : Text) : Except UsageError Reading := do
  match r.operands with
  | p :: operands =>
    let r ← r.settle
    return { r with held := some (p, some t), operands }
  | [] =>
    if g.commands.isEmpty || (r.literal && g.commands.any (·.toList == t)) then
      throw .unknownArgument
    else throw .unknownCommand

/-- Read an argument that starts with two dashes. -/
def option (g : Grammar) (r : Reading) (name : Text) (value : Option Text) :
    Except UsageError Reading := do
  match g.options.find? (·.name.toList == name) with
  | some p =>
    let r ← r.settle
    match value with
    | some v => r.accept p v
    | none => return { r with held := some (p, none) }
  | none =>
    let answer ←
      if name = "help".toList then pure UsageError.helpWanted
      else if g.hasVersion && name = "version".toList then pure .versionWanted
      else throw .unknownArgument
    if value.isSome then throw .needlessValue
    discard r.settle
    throw answer

/-- Read an argument that starts with one dash. -/
def letters (g : Grammar) (r : Reading) (first : Char) : Except UsageError Reading := do
  let answer ←
    if first = 'h' then pure UsageError.helpWanted
    else if g.hasVersion && first = 'V' then pure .versionWanted
    else throw .unknownArgument
  discard r.settle
  throw answer

/-- Read an argument that does not start with a dash. -/
def plain (g : Grammar) (r : Reading) (t : Text) : Except UsageError Reading :=
  match r.held with
  | some (p, none) => .ok { r with held := some (p, some t) }
  | _ => r.operand g t

def step (g : Grammar) (r : Reading) (t : Text) : Except UsageError Reading :=
  if r.literal then r.operand g t
  else
    match Shape.ofText t with
    | .separator => .ok { r with literal := true }
    | .option name value => r.option g name value
    | .letters first => r.letters g first
    | .plain => r.plain g t

/-- Read arguments up to the name of a command. The name comes with the arguments behind it. -/
def steps (g : Grammar) (r : Reading) :
    List Text → Except UsageError (Reading × Option (Text × List Text))
  | [] => .ok (r, none)
  | t :: more =>
    if !r.literal && !r.isWaiting && g.commands.any (·.toList == t) then .ok (r, some (t, more))
    else
      match r.step g t with
      | .ok r => r.steps g more
      | .error e => .error e

end Reading

/-- Read the arguments of a command that hands none over. -/
def Grammar.read (g : Grammar) (args : List Text) : Except UsageError Values := do
  let (r, _) ← Reading.steps g { operands := g.operands } args
  let r ← r.settle
  if r.operands.isEmpty then return r.values else throw .missingOperand

end Swatch.CommandLine

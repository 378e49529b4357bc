-- SUMMARY: Writing JSON values, on one line or with two spaces for each level.
import Swatch.Json.Value

/-!
# Writing JSON

Strings are written with the short escapes where there are any, other control
characters as `\u00xx`, and everything else as it is. The indented form puts each
element on a line of its own, two spaces deeper than what holds it; empty lists
and objects stay closed.
-/

namespace Swatch.Json

/-! ## Strings -/

def lowerHexDigit (n : Nat) : Char :=
  (hexDigit n).toLower

/-- A character between quotes. -/
def escape (c : Char) : Text :=
  if c = '"' then ['\\', '"']
  else if c = '\\' then ['\\', '\\']
  else if c = '\x08' then ['\\', 'b']
  else if c = '\x0c' then ['\\', 'f']
  else if c = '\n' then ['\\', 'n']
  else if c = '\r' then ['\\', 'r']
  else if c = '\t' then ['\\', 't']
  else if c.toNat < 0x20 then
    ['\\', 'u', '0', '0', lowerHexDigit (c.toNat / 16), lowerHexDigit (c.toNat % 16)]
  else [c]

def quote (t : Text) : Text :=
  '"' :: t.flatMap escape ++ ['"']

/-! ## Values -/

def joinWith (separator : Text) : List Text → Text
  | [] => []
  | [t] => t
  | t :: ts => t ++ separator ++ joinWith separator ts

namespace Value

/-- The text of a value that holds no other values. -/
def leafText : Value → Text
  | .bool true => "true".toList
  | .bool false => "false".toList
  | .number written => written
  | .text t => quote t
  | _ => "null".toList

mutual
def render : Value → Text
  | .list values => '[' :: joinWith [','] (renderAll values) ++ [']']
  | .object fields => '{' :: joinWith [','] (renderFields fields) ++ ['}']
  | v => v.leafText

def renderAll : List Value → List Text
  | [] => []
  | v :: vs => v.render :: renderAll vs

def renderFields : List (Text × Value) → List Text
  | [] => []
  | (name, v) :: fields => (quote name ++ ':' :: v.render) :: renderFields fields
end

/-- A line break and the indentation of a level. -/
def newline (level : Nat) : Text :=
  '\n' :: List.replicate (2 * level) ' '

/-- Elements between brackets, each on a line of its own below the level of the brackets. -/
def block (level : Nat) (opening closing : Char) (elements : List Text) : Text :=
  if elements.isEmpty then [opening, closing]
  else
    opening :: newline (level + 1) ++ joinWith (',' :: newline (level + 1)) elements
      ++ newline level ++ [closing]

mutual
/-- A value over several lines; `level` is how deep its first line stands. -/
def indent (level : Nat) : Value → Text
  | .list values => block level '[' ']' (indentAll (level + 1) values)
  | .object fields => block level '{' '}' (indentFields (level + 1) fields)
  | v => v.leafText

/-- Each of some values over several lines. -/
def indentAll (level : Nat) : List Value → List Text
  | [] => []
  | v :: vs => v.indent level :: indentAll level vs

/-- Each of some fields over several lines. -/
def indentFields (level : Nat) : List (Text × Value) → List Text
  | [] => []
  | (name, v) :: fields =>
    (quote name ++ [':', ' '] ++ v.indent level) :: indentFields level fields
end

end Value

end Swatch.Json

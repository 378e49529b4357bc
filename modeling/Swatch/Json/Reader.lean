-- SUMMARY: Reading JSON values.
import Swatch.Json.Value

/-!
# Reading JSON

The reader takes one value with white space around it and nothing else. White
space is the space, the tab and the two line breaks. Control characters inside
strings have to be escaped, and numbers follow the grammar of the format: no
leading zeros, and a digit on both sides of a point. Every reading function takes
its part from the start of a text and gives back what follows.
-/

namespace Swatch.Json

/-! ## White space and words -/

/-- The white space of the format. -/
def isSpace (c : Char) : Bool :=
  c == ' ' || c == '\n' || c == '\t' || c == '\r'

/-- A text without the white space it starts with. -/
def skip (t : Text) : Text :=
  t.dropWhile isSpace

/-- What follows a fixed word. -/
def after? : (word : Text) → Text → Option Text
  | [], t => some t
  | w :: ws, c :: t => if w = c then after? ws t else none
  | _ :: _, [] => none

/-! ## Numbers -/

/-- Digits, at least one. -/
def digits? (t : Text) : Option (Text × Text) :=
  let digits := t.takeWhile Char.isDigit
  if digits.isEmpty then none else some (digits, t.drop digits.length)

/-- A whole number without leading zeros. -/
def whole? : Text → Option (Text × Text)
  | '0' :: rest => if rest.head?.any Char.isDigit then none else some (['0'], rest)
  | t => digits? t

/-- A point and digits, if there is a point. -/
def fraction? : Text → Option (Text × Text)
  | '.' :: rest => (digits? rest).map fun (digits, rest) => ('.' :: digits, rest)
  | t => some ([], t)

/-- The mark of an exponent, a sign that may be left out, and digits, if there is a mark. -/
def exponent? : Text → Option (Text × Text)
  | c :: rest =>
    if c == 'e' || c == 'E' then
      match rest with
      | '+' :: rest => (digits? rest).map fun (digits, rest) => (c :: '+' :: digits, rest)
      | '-' :: rest => (digits? rest).map fun (digits, rest) => (c :: '-' :: digits, rest)
      | _ => (digits? rest).map fun (digits, rest) => (c :: digits, rest)
    else some ([], c :: rest)
  | [] => some ([], [])

def number? (t : Text) : Option (Text × Text) := do
  let (sign, rest) := match t with
    | '-' :: rest => (['-'], rest)
    | _ => ([], t)
  let (whole, rest) ← whole? rest
  let (fraction, rest) ← fraction? rest
  let (exponent, rest) ← exponent? rest
  return (sign ++ whole ++ fraction ++ exponent, rest)

/-! ## Strings -/

/-- The character that a one-letter escape stands for. -/
def unescape? : Char → Option Char
  | '"' => some '"'
  | '\\' => some '\\'
  | '/' => some '/'
  | 'b' => some '\x08'
  | 'f' => some '\x0c'
  | 'n' => some '\n'
  | 'r' => some '\r'
  | 't' => some '\t'
  | _ => none

/-- The number that four hexadecimal digits write. -/
def hexUnit? (a b c d : Char) : Option Nat := do
  return ((16 * (← hexValue? a) + (← hexValue? b)) * 16 + (← hexValue? c)) * 16 + (← hexValue? d)

/-- What four hexadecimal digits write, if it is a character by itself. -/
def scalar? (unit : Nat) : Option Char :=
  if 0xD800 ≤ unit ∧ unit ≤ 0xDFFF then none else some (Char.ofNat unit)

/-- The character that the two halves of a surrogate pair make. -/
def pair? (high low : Nat) : Option Char :=
  if 0xD800 ≤ high ∧ high ≤ 0xDBFF ∧ 0xDC00 ≤ low ∧ low ≤ 0xDFFF then
    some (Char.ofNat (0x10000 + (high - 0xD800) * 0x400 + (low - 0xDC00)))
  else none

/-- Put a character in front of a string that has been read; half a pair breaks the string. -/
def consChar (c : Option Char) : Option (Option Text × Text) → Option (Option Text × Text)
  | some (content, rest) => some (do return (← c) :: (← content), rest)
  | none => none

/-- A string behind its opening quote. The string is missing if it is broken. -/
def stringBody? : Text → Option (Option Text × Text)
  | [] => none
  | '"' :: rest => some (some [], rest)
  | '\\' :: 'u' :: a :: b :: c :: d :: rest =>
    match hexUnit? a b c d with
    | none => none
    | some unit =>
      match rest with
      | '\\' :: 'u' :: a' :: b' :: c' :: d' :: rest' =>
        match (hexUnit? a' b' c' d').bind (pair? unit) with
        | some paired => consChar (some paired) (stringBody? rest')
        | none =>
          consChar (scalar? unit) (stringBody? ('\\' :: 'u' :: a' :: b' :: c' :: d' :: rest'))
      | rest' => consChar (scalar? unit) (stringBody? rest')
  | '\\' :: e :: rest =>
    match unescape? e with
    | some c => consChar (some c) (stringBody? rest)
    | none => none
  | c :: rest => if c.toNat < 0x20 ∨ c = '\\' then none else consChar (some c) (stringBody? rest)
  termination_by t => t.length

/-! ## Values -/

mutual
/-- A value at the start of a text without white space before it. -/
def value? : (fuel : Nat) → Text → Option (Value × Text)
  | 0, _ => none
  | _ + 1, [] => none
  | fuel + 1, c :: rest =>
    match c with
    | 'n' => (after? "null".toList (c :: rest)).map (.null, ·)
    | 't' => (after? "true".toList (c :: rest)).map (.bool true, ·)
    | 'f' => (after? "false".toList (c :: rest)).map (.bool false, ·)
    | '"' => (stringBody? rest).map fun (content, rest) =>
        (content.elim .broken .text, rest)
    | '[' =>
      match skip rest with
      | ']' :: rest => some (.list [], rest)
      | rest => (elements? fuel rest).map fun (values, rest) => (.list values, rest)
    | '{' =>
      match skip rest with
      | '}' :: rest => some (.object [], rest)
      | rest => (fields? fuel rest).map fun (fields, rest) => (fields.elim .broken .object, rest)
    | _ => (number? (c :: rest)).map fun (written, rest) => (.number written, rest)

/-- The elements of a list, up to its closing bracket. -/
def elements? : (fuel : Nat) → Text → Option (List Value × Text)
  | 0, _ => none
  | fuel + 1, t => do
    let (v, rest) ← value? fuel t
    match skip rest with
    | ']' :: rest => some ([v], rest)
    | ',' :: rest => do
      let (vs, rest) ← elements? fuel (skip rest)
      return (v :: vs, rest)
    | _ => none

/-- The fields of an object, up to its closing brace. They are missing if a name is broken. -/
def fields? : (fuel : Nat) → Text → Option (Option (List (Text × Value)) × Text)
  | 0, _ => none
  | fuel + 1, t => do
    let (name, rest) ← match t with
      | '"' :: rest => stringBody? rest
      | _ => none
    let rest ← after? [':'] (skip rest)
    let (v, rest) ← value? fuel (skip rest)
    let field := name.map (·, v)
    match skip rest with
    | '}' :: rest => some (field.map ([·]), rest)
    | ',' :: rest => do
      let (fields, rest) ← fields? fuel (skip rest)
      return (do return (← field) :: (← fields), rest)
    | _ => none
end

/-- Read a text that is one value with white space around it. Of any two steps one takes a
character, which bounds their number. -/
def Value.read? (t : Text) : Option Value :=
  match value? (2 * t.length + 2) (skip t) with
  | some (v, rest) => if (skip rest).isEmpty then some v else none
  | none => none

end Swatch.Json

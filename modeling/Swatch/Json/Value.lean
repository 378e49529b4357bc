-- SUMMARY: JSON values.
import Swatch.Text.Digit

/-!
# JSON values

An object keeps its fields in the order in which they are written, repeated names
included. A number is kept as it is written; the numbers that matter here are
64-bit words.
-/

namespace Swatch.Json

inductive Value where
  | null
  | bool (b : Bool)
  | number (written : Text)
  | text (t : Text)
  /-- A string whose escapes name half of a surrogate pair, so that it is no text, or an object with
  such a name. -/
  | broken
  | list (values : List Value)
  | object (fields : List (Text × Value))
  deriving Inhabited

namespace Value

/-- The number zero or a number without leading zeros, below `2 ^ 64`. -/
def word? : Value → Option Nat
  | .number written => written.decimalBelow? UInt64.size
  | _ => none

def text? : Value → Option Text
  | .text t => some t
  | _ => none

def bool? : Value → Option Bool
  | .bool b => some b
  | _ => none

def list? : Value → Option (List Value)
  | .list values => some values
  | _ => none

def ofNat (n : Nat) : Value :=
  .number (Text.ofNat n)

/-- The number `n`, with a sign if it is negative. -/
def ofInt : Int → Value
  | .ofNat n => .ofNat n
  | .negSucc n => .number ('-' :: Text.ofNat (n + 1))

end Value

end Swatch.Json

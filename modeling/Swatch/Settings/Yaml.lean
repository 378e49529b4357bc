-- SUMMARY: Settings as a YAML document, read and written.
import Swatch.Settings.Basic
import Swatch.Yaml.Node

/-!
# Settings in YAML

Settings are a map, and a map that is left out is empty. A flag and a number are
scalars without quotes, whatever their tag. A style is a scalar however it is
written; it may also be a tag with nothing behind it.

Written settings name every field, in a fixed order, one on each line.
-/

namespace Swatch

/-! ## Reading -/

namespace Yaml

/-- The text of a scalar that may be read as a value: without quotes, or in a block with the tag of
its kind. -/
def valueText? (tag : String) : Node → Option Text
  | .scalar text .plain _ => some text
  | .scalar text .literal t => if t = some tag.toList then some text else none
  | _ => none

/-- The words for true and false. -/
def boolOf? (t : Text) : Option Bool :=
  if ["true", "True", "TRUE"].any (·.toList == t) then some true
  else if ["false", "False", "FALSE"].any (·.toList == t) then some false
  else none

/-- The words for nothing, and no word at all. -/
def isNull (t : Text) : Bool :=
  t.isEmpty || ["~", "null", "Null", "NULL"].any (·.toList == t)

/-- The number that digits of a base write. -/
def digitsIn? (base : Nat) (t : Text) : Option Nat :=
  if t.isEmpty then none
  else t.foldl (fun n c => do
    let digit ← hexValue? c
    if digit < base then return base * (← n) + digit else none) (some 0)

def wordIn? (base : Nat) (t : Text) : Option Nat :=
  (digitsIn? base t).filter (· < UInt64.size)

/-- A number in base 16, 8 or 2, behind the mark of the base. -/
def markedWord? : Text → Option Nat
  | '0' :: 'x' :: digits => wordIn? 16 digits
  | '0' :: 'o' :: digits => wordIn? 8 digits
  | '0' :: 'b' :: digits => wordIn? 2 digits
  | _ => none

/-- A number without sign or behind a plus sign. A decimal number has no leading zero, unless it is
zero. -/
def wordOf? (t : Text) : Option Nat :=
  let unsigned := match t with
    | '+' :: rest => rest
    | _ => t
  markedWord? unsigned <|>
    (match unsigned with
      | '0' :: _ :: _ => none
      | _ => wordIn? 10 unsigned)

namespace Node

def bool? (n : Node) : Option Bool :=
  (valueText? "tag:yaml.org,2002:bool" n).bind boolOf?

def word? (n : Node) : Option Nat :=
  (valueText? "tag:yaml.org,2002:int" n).bind wordOf?

/-- A style by its name, or by a tag that is its name. -/
def style? : Node → Option Style
  | .scalar text quoting (some ('!' :: name)) =>
    if quoting == .plain && isNull text then Style.ofName? name else none
  | .scalar text _ _ => Style.ofName? text
  | _ => none

/-- The fields of a map, whose keys have to be scalars. A node that is left out has no fields. -/
def fields? : Node → Option (List (Text × Node))
  | .map pairs => pairs.mapM fun (key, value) =>
      match key with
      | .scalar name _ _ => some (name, value)
      | _ => none
  | .scalar [] .plain _ => some []
  | _ => none

def family? (n : Node) : Option Family :=
  n.fields?.bind (Family.ofFields? bool? style?)

def settings? (n : Node) : Option Settings :=
  n.fields?.bind (Settings.ofFields? family? word?)

end Node

end Yaml

namespace Settings

def read? (t : Text) : Option Settings :=
  (Yaml.Node.read? t).bind Yaml.Node.settings?

/-! ## Writing -/

def fieldLine (name : String) (value : Text) : Text :=
  name.toList ++ [':', ' '] ++ value ++ ['\n']

/-- A family: its name, and its fields below it. -/
def familyLines (name : String) (f : Family) : Text :=
  name.toList ++ [':', '\n']
    ++ [' ', ' '] ++ fieldLine "enabled" (if f.enabled then "true" else "false").toList
    ++ [' ', ' '] ++ fieldLine "style" f.style.settingName.toList

def render (s : Settings) : Text :=
  familyLines "hex" s.hex
    ++ familyLines "game_text" s.gameText
    ++ familyLines "inline_text" s.inlineText
    ++ fieldLine "max_decorations" (Text.ofNat s.maxDecorations)
    ++ fieldLine "viewport_buffer" (Text.ofNat s.viewportBuffer)
    ++ fieldLine "debounce_ms" (Text.ofNat s.debounceMs)

end Settings

end Swatch

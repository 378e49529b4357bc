-- SUMMARY: The settings of highlighting, and how they are read from named fields.
import Swatch.Decoration.Paint
import Swatch.Text.Basic

/-!
# Settings

Each family of colors can be switched off and has a style. Three numbers bound
the work of a pass.

Settings are read from fields that have names, whatever notation the fields come from.
A field that is left out keeps its default, a name that means nothing is ignored, and a
name that means something may not be repeated. A family that is given replaces the
default family as a whole: inside of it, a style that is left out is plain text.
-/

namespace Swatch

/-- Whether a family of colors is shown, and how. -/
structure Family where
  enabled : Bool := true
  style : Style := .text
  deriving DecidableEq, Repr

/-- The settings that every pass reads. -/
structure Settings where
  /-- Color literals. -/
  hex : Family := { style := .background }
  /-- Text colored by tilde codes. -/
  gameText : Family := {}
  /-- Text colored by braced colors and by arguments. -/
  inlineText : Family := {}
  /-- How many places a pass may paint. -/
  maxDecorations : Nat := 500
  /-- How many lines around the visible ones are looked at. -/
  viewportBuffer : Nat := 50
  /-- How long, in milliseconds, it has to be quiet before a pass runs. -/
  debounceMs : Nat := 100
  deriving DecidableEq, Repr

instance : Inhabited Settings := ⟨{}⟩

/-! ## Named fields -/

/-- The value of the field with a name, if there is one; a repeated name is refused. -/
def fieldValue? (name : String) (fields : List (Text × α)) : Option (Option α) :=
  match fields.filter (·.1 == name.toList) with
  | [] => some none
  | [(_, value)] => some (some value)
  | _ => none

/-- Read the field with a name; without it the default counts. -/
def readField? (name : String) (default : β) (read : α → Option β) (fields : List (Text × α)) :
    Option β := do
  match ← fieldValue? name fields with
  | some value => read value
  | none => return default

def Style.ofName? (name : Text) : Option Style :=
  if name = "text".toList then some .text
  else if name = "underline".toList then some .underline
  else if name = "background".toList then some .background
  else none

def Style.settingName : Style → String
  | .text => "text"
  | .underline => "underline"
  | .background => "background"

def Family.fieldNames : List String :=
  ["enabled", "style"]

def Settings.fieldNames : List String :=
  ["hex", "game_text", "inline_text", "max_decorations", "viewport_buffer", "debounce_ms"]

def Family.ofFields? (readBool : α → Option Bool) (readStyle : α → Option Style)
    (fields : List (Text × α)) : Option Family := do
  let enabled ← readField? "enabled" true readBool fields
  let style ← readField? "style" .text readStyle fields
  return { enabled, style }

def Settings.ofFields? (readFamily : α → Option Family) (readNumber : α → Option Nat)
    (fields : List (Text × α)) : Option Settings := do
  let defaults : Settings := {}
  let hex ← readField? "hex" defaults.hex readFamily fields
  let gameText ← readField? "game_text" defaults.gameText readFamily fields
  let inlineText ← readField? "inline_text" defaults.inlineText readFamily fields
  let maxDecorations ← readField? "max_decorations" defaults.maxDecorations readNumber fields
  let viewportBuffer ← readField? "viewport_buffer" defaults.viewportBuffer readNumber fields
  let debounceMs ← readField? "debounce_ms" defaults.debounceMs readNumber fields
  return { hex, gameText, inlineText, maxDecorations, viewportBuffer, debounceMs }

end Swatch

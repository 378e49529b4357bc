-- SUMMARY: Settings as a JSON value.
import Swatch.Json.Value
import Swatch.Settings.Basic

/-!
# Settings in JSON

In JSON, settings and families are objects, or lists of the values of their fields
in order; fields at the end of a list may be left out.
-/

namespace Swatch

namespace Json.Value

/-- The fields of an object, or of a list that gives values to names in order. -/
def fields? (names : List String) : Value → Option (List (Text × Value))
  | .object fields => some fields
  | .list values =>
    if values.length ≤ names.length then some ((names.map String.toList).zip values) else none
  | _ => none

/-- A style by its name, or as an object that gives its name no value. -/
def style? : Value → Option Style
  | .text name => Style.ofName? name
  | .object [(name, .null)] => Style.ofName? name
  | _ => none

def family? (v : Value) : Option Family :=
  (v.fields? Family.fieldNames).bind (Family.ofFields? bool? style?)

def settings? (v : Value) : Option Settings :=
  (v.fields? Settings.fieldNames).bind (Settings.ofFields? family? word?)

end Json.Value

def Family.toJson (f : Family) : Json.Value :=
  .object [("enabled".toList, .bool f.enabled), ("style".toList, .text f.style.settingName.toList)]

def Settings.toJson (s : Settings) : Json.Value :=
  .object
    [("hex".toList, s.hex.toJson),
     ("game_text".toList, s.gameText.toJson),
     ("inline_text".toList, s.inlineText.toJson),
     ("max_decorations".toList, .ofNat s.maxDecorations),
     ("viewport_buffer".toList, .ofNat s.viewportBuffer),
     ("debounce_ms".toList, .ofNat s.debounceMs)]

end Swatch

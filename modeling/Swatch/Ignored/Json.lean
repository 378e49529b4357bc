-- SUMMARY: Ignored lines as JSON, read and written.
import Swatch.Ignored.Registry
import Swatch.Json.Printer
import Swatch.Json.Reader
import Swatch.Settings.Json

/-!
# Ignored lines in JSON

Entries are written as a list of objects. An entry that is read needs a path and a
line; content and time may be left out. It may also be a list of the four values,
cut off behind the line or later.
-/

namespace Swatch.Ignored

namespace Entry

def fieldNames : List String :=
  ["path", "line", "content", "timestamp"]

def toJson (e : Entry) : Json.Value :=
  .object
    [("path".toList, .text e.path),
     ("line".toList, .ofNat e.line),
     ("content".toList, .text e.content),
     ("timestamp".toList, .ofNat e.timestamp)]

def ofJson? (v : Json.Value) : Option Entry := do
  let fields ← v.fields? fieldNames
  let path ← (← fieldValue? "path" fields).bind Json.Value.text?
  let line ← (← fieldValue? "line" fields).bind Json.Value.word?
  let content ← readField? "content" [] Json.Value.text? fields
  let timestamp ← readField? "timestamp" 0 Json.Value.word? fields
  return { path, line, content, timestamp }

end Entry

def render (entries : List Entry) : Text :=
  Json.Value.indent 0 (.list (entries.map Entry.toJson))

def read? (t : Text) : Option (List Entry) := do
  let values ← (← Json.Value.read? t).list?
  values.mapM Entry.ofJson?

end Swatch.Ignored

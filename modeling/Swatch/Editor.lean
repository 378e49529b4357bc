-- SUMMARY: An editor that shows a part of a document.
import Swatch.Decoration.Host
import Swatch.Document.Basic
import Swatch.Viewport

/-!
# Editors

An editor shows a number of lines of a document, from its top line on. A pass does
not see the editor itself but a view: what it needs to know of the document, and
the visible lines. The text of a view may be missing, if the host fails to give it.
-/

namespace Swatch

/-- What a pass sees of an editor. -/
structure EditorView where
  editor : EditorId
  key : DocumentKey
  revision : Nat
  lineCount : Nat
  /-- The text, if it can be read. -/
  text : Option Text
  /-- The visible ranges, none of which should end above its first line (see `Session.run`). -/
  visible : List LineRange

structure Editor where
  id : EditorId
  document : Document
  top : Nat := 0
  /-- How many lines are visible. -/
  height : Nat

namespace Editor

/-- The visible lines; at least the top line counts. Line numbers are 64-bit words. -/
def visible (e : Editor) : LineRange :=
  ⟨e.top, (e.top + (e.height - 1)) % UInt64.size⟩

def view (e : Editor) : EditorView where
  editor := e.id
  key := e.document.key
  revision := e.document.revision
  lineCount := e.document.lineCount
  text := some e.document.text
  visible := [e.visible]

end Editor

end Swatch

-- SUMMARY: The host that shows decorations, as the record of what it was told.
import Swatch.Decoration.Paint
import Swatch.Text.Basic

/-!
# The host

The host hands out a handle for each kind of decoration, shows a handle at ranges
of an editor, and disposes of handles. Telling it ranges replaces those that the
handle had in the editor. Here the host is the record of all calls.
-/

namespace Swatch

/-- A view onto a document. -/
abbrev EditorId := Nat

/-- What the host calls a kind of decoration. -/
structure Handle where
  id : Nat
  deriving DecidableEq, Repr

inductive HostCall where
  | create (h : Handle) (looks : Appearance)
  /-- Show the handle at these ranges of an editor, and nowhere else in it. -/
  | place (editor : EditorId) (h : Handle) (ranges : List Interval)
  | dispose (h : Handle)
  deriving DecidableEq, Repr

/-- The calls to a host, the latest one first. -/
structure Host where
  calls : List HostCall := []
  /-- How many handles have been handed out. -/
  handles : Nat := 0
  deriving Repr

namespace Host

def create (host : Host) (looks : Appearance) : Handle × Host :=
  let h : Handle := ⟨host.handles + 1⟩
  (h, { calls := .create h looks :: host.calls, handles := host.handles + 1 })

/-- Show a handle at these ranges of an editor, and nowhere else in it. -/
def place (host : Host) (editor : EditorId) (h : Handle) (ranges : List Interval) : Host :=
  { host with calls := .place editor h ranges :: host.calls }

def dispose (host : Host) (h : Handle) : Host :=
  { host with calls := .dispose h :: host.calls }

/-- Where a handle is shown in an editor after some calls, the latest one first. -/
def shownAfter (editor : EditorId) (h : Handle) : List HostCall → List Interval
  | [] => []
  | .place editor' h' ranges :: calls =>
    if editor' = editor ∧ h' = h then ranges else shownAfter editor h calls
  | .dispose h' :: calls => if h' = h then [] else shownAfter editor h calls
  | .create _ _ :: calls => shownAfter editor h calls

def shown (host : Host) (editor : EditorId) (h : Handle) : List Interval :=
  shownAfter editor h host.calls

end Host

end Swatch

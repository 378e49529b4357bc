-- SUMMARY: A session: everything that outlives a single pass over an editor.
import Swatch.Decoration.Pool
import Swatch.Editor
import Swatch.Ignored.Registry
import Swatch.Scan
import Swatch.Schedule

/-!
# Sessions

A session owns the ignored lines, the pool of handles, the schedule of passes and
the last scan of each document. A pass looks at the window around the visible
lines, scans it unless nothing has changed since the last scan of the document,
drops what stands on ignored lines, keeps as many places as the settings allow and
commits them.

That there are too many places is reported once for each limit. A document that
cannot be read is shown without decorations; nothing else changes.
-/

namespace Swatch

/-- The last scan of a document, and what it depended on. -/
structure CachedScan where
  revision : Nat
  lines : LineRange
  settings : Settings
  scan : Scan
  deriving DecidableEq, Repr

structure Report where
  editor : EditorId
  window : Viewport
  /-- The places that were committed. -/
  marks : List Mark := []
  /-- How many handles have ranges. -/
  handles : Nat
  advisories : List Advisory := []
  /-- The last scan was used again. -/
  cached : Bool := false
  /-- The document could not be read. -/
  degraded : Bool := false
  deriving DecidableEq, Repr

/-- Everything that outlives a pass. -/
structure Session where
  registry : Ignored.Registry := {}
  pool : Pool := {}
  schedule : Schedule := {}
  /-- The last scan of each document. -/
  cache : Table DocumentKey CachedScan := []
  /-- The limit for which too many places were reported last. -/
  reportedLimit : Option Nat := none

namespace Session

/-! ## Passes -/

/-- The last scan of a document, if it is still good. -/
def cachedScan? (s : Session) (v : EditorView) (lines : LineRange) (settings : Settings) :
    Option Scan :=
  (s.cache.get? v.key).bind fun c =>
    if c.revision = v.revision ∧ c.lines = lines ∧ c.settings = settings then some c.scan else none

/-- The places of a scan that do not start on an ignored line. -/
def unignored (s : Session) (key : DocumentKey) (scan : Scan) : List Mark :=
  let ignored := s.registry.linesOf key
  scan.marks.filter fun m => !ignored.contains m.line

def commit (s : Session) (editor : EditorId) (host : Host) : Nat × Session × Host :=
  let (handles, pool, host) := s.pool.commit editor host
  (handles, { s with pool }, host)

/-- Finish a pass with the scan of its window. -/
def finish (s : Session) (v : EditorView) (window : Viewport) (settings : Settings) (scan : Scan)
    (cached : Bool) (host : Host) : Report × Session × Host :=
  let found := s.unignored v.key scan
  let limit := settings.maxDecorations
  let marks := found.take limit
  let exceeded := limit < found.length && s.reportedLimit != some limit
  let advisories :=
    if exceeded then .capacityExceeded limit found.length :: scan.advisories else scan.advisories
  let s :=
    { s with
      reportedLimit := if exceeded then some limit else s.reportedLimit
      pool := marks.foldl (fun (pool : Pool) (m : Mark) => pool.record m.paint m.extent) s.pool }
  let (handles, s, host) := s.commit v.editor host
  ({ editor := v.editor, window, marks, handles, advisories, cached }, s, host)

/-- Run a pass over an editor. A visible range whose last line is above its first one may lead to a
window with no line in it. Such a range breaks the rules of the host, and a program may stop on it;
here the pass finds nothing. -/
def run (s : Session) (v : EditorView) (settings : Settings) (host : Host) :
    Report × Session × Host :=
  let s := { s with schedule := { s.schedule with delay := settings.debounceMs } }
  let window := Viewport.ofVisible v.visible settings.viewportBuffer
  match window.clamp? v.lineCount with
  | none =>
    let (handles, s, host) := s.commit v.editor host
    ({ editor := v.editor, window, handles }, s, host)
  | some lines =>
    match s.cachedScan? v lines settings with
    | some scan => s.finish v window settings scan true host
    | none =>
      match v.text with
      | none =>
        let (handles, s, host) := s.commit v.editor host
        ({ editor := v.editor, window, handles, degraded := true }, s, host)
      | some text =>
        let scan := Scan.ofText text lines settings
        let s := { s with cache := s.cache.put v.key ⟨v.revision, lines, settings, scan⟩ }
        s.finish v window settings scan false host

/-! ## Other events -/

def perform (s : Session) (now : Nat) (request : Ignored.Registry.Request) :
    Ignored.Registry.Reply × Session :=
  let outcome := s.registry.perform now request
  (outcome.reply, { s with registry := outcome.registry })

/-- Take over a new text of a document and follow the edit that leads to it; without a difference
nothing happens. Also, the edit, and whether it touched an ignored line. -/
def reload (s : Session) (now : Nat) (d : Document) (text : Text) :
    Option (Edit × Bool) × Session × Document :=
  match Edit.between? d.text text with
  | none => (none, s, d)
  | some e =>
    let (reply, s) := s.perform now (.follow d.key [e])
    (some (e, reply == .flag true), s, d.replaceText text)

def submit (s : Session) (editor : EditorId) (now : Nat) : Ticket × Session :=
  let (ticket, schedule) := s.schedule.submit editor now
  (ticket, { s with schedule })

def takeDue (s : Session) (now : Nat) : List Ticket × Session :=
  let (due, schedule) := s.schedule.takeDue now
  (due, { s with schedule })

/-- Set how long it has to be quiet before a pass. -/
def setDelay (s : Session) (delay : Nat) : Session :=
  { s with schedule := { s.schedule with delay } }

/-- Hide the decorations of an editor and drop its request. -/
def closeEditor (s : Session) (editor : EditorId) (host : Host) : Session × Host :=
  let (_, schedule) := s.schedule.cancel editor
  let (pool, host) := s.pool.clearEditor editor host
  ({ s with schedule, pool }, host)

/-- Forget the last scan of a document. -/
def closeDocument (s : Session) (key : DocumentKey) : Session :=
  { s with cache := s.cache.erase key }

/-- Dispose of all handles and forget everything but the ignored lines and the delay. -/
def dispose (s : Session) (host : Host) : Session × Host :=
  let (pool, host) := s.pool.dispose host
  ({ registry := s.registry, pool, schedule := { delay := s.schedule.delay } }, host)

end Session

end Swatch

-- SUMMARY: Handles shared by all places with one paint, and the ranges of a pass.
import Swatch.Decoration.Host
import Swatch.Table

/-!
# The pool of handles

Places with the same paint share a handle, which lives until the pool is
disposed of. A pass records ranges and then commits them for one editor: the host
is told the ranges of every paint of the pass, and that the paints of the editor's
last pass which do not occur any more have no ranges.

Tables list paints in the order of insertion. This is one of the orders in which the calls
of a commit or of `dispose` may reach the host, and it decides which new handle gets which
number. Nothing else depends on it: the set of paints and the sorted ranges that an editor
shows for each of them, one handle a paint for as long as the pool lives, and the number of
handles with ranges are the same in every order.
-/

namespace Swatch

/-- The handles, and the ranges of the pass in progress. -/
structure Pool where
  handles : Table Paint Handle := []
  /-- What the pass in progress has recorded. -/
  pending : Table Paint (List Interval) := []
  /-- The paints that each editor shows after its last commit. -/
  applied : Table EditorId (List Paint) := []
  deriving Repr

namespace Pool

/-- The handle of a paint; a new one if it has none. -/
def handle (pool : Pool) (p : Paint) (host : Host) : Handle × Pool × Host :=
  match pool.handles.get? p with
  | some h => (h, pool, host)
  | none =>
    let (h, host) := host.create p.appearance
    (h, { pool with handles := pool.handles.put p h }, host)

/-- Add a range to the pass in progress. -/
def record (pool : Pool) (p : Paint) (range : Interval) : Pool :=
  { pool with pending := pool.pending.put p ((pool.pending.get? p).getD [] ++ [range]) }

/-- Show the ranges of a paint in an editor, in order. -/
def placePaint (editor : EditorId) (pool : Pool) (host : Host) (p : Paint)
    (ranges : List Interval) : Pool × Host :=
  let (h, pool, host) := pool.handle p host
  (pool, host.place editor h (ranges.mergeSort Interval.le))

def placeAll (editor : EditorId) (pool : Pool) (host : Host) (pass : Table Paint (List Interval)) :
    Pool × Host :=
  pass.foldl (fun (pool, host) (p, ranges) => placePaint editor pool host p ranges) (pool, host)

/-- Tell the host that paints have no ranges in an editor. -/
def hide (editor : EditorId) (pool : Pool) (host : Host) (paints : List Paint) : Host :=
  paints.foldl
    (fun host p =>
      match pool.handles.get? p with
      | some h => host.place editor h []
      | none => host)
    host

/-- Commit the pass in progress for an editor and start a new one. Also, how many handles have
ranges. -/
def commit (pool : Pool) (editor : EditorId) (host : Host) : Nat × Pool × Host :=
  let pass := pool.pending
  let current := pass.map Prod.fst
  let last := (pool.applied.get? editor).getD []
  let (pool, host) := placeAll editor { pool with pending := [] } host pass
  let host := hide editor pool host (last.filter fun p => !current.contains p)
  (current.length, { pool with applied := pool.applied.put editor current }, host)

/-- Hide all decorations of an editor and forget it. -/
def clearEditor (pool : Pool) (editor : EditorId) (host : Host) : Pool × Host :=
  let last := (pool.applied.get? editor).getD []
  ({ pool with applied := pool.applied.erase editor }, hide editor pool host last)

/-- Forget an editor without telling the host. -/
def forgetEditor (pool : Pool) (editor : EditorId) : Pool :=
  { pool with applied := pool.applied.erase editor }

def dispose (pool : Pool) (host : Host) : Pool × Host :=
  ({}, pool.handles.foldl (fun host (_, h) => host.dispose h) host)

end Pool

end Swatch

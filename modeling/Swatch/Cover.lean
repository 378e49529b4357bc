-- SUMMARY: The set of places that have been colored, as sorted disjoint intervals.
import Swatch.Text.Basic

/-!
# Covered places

Text that is colored by a more specific rule is covered, so that a less specific
one leaves it alone. A cover is a list of intervals in increasing order that
neither overlap nor touch.
-/

namespace Swatch

/-- Sorted intervals with a gap between any two of them. -/
structure Cover where
  intervals : List Interval := []
  deriving DecidableEq, Repr

namespace Cover

/-- Add an interval to sorted ones, united with all that it overlaps or touches. -/
def unite (i : Interval) : List Interval → List Interval
  | [] => [i]
  | j :: js =>
    if j.stop < i.start then j :: unite i js
    else if i.stop < j.start then i :: j :: js
    else unite ⟨min i.start j.start, max i.stop j.stop⟩ js

/-- Cover an interval; an empty one covers nothing. -/
def add (c : Cover) (i : Interval) : Cover :=
  if i.isEmpty then c else ⟨unite i c.intervals⟩

def contains (c : Cover) (offset : Nat) : Bool :=
  (c.intervals.find? (offset < ·.stop)).any (·.start ≤ offset)

/-- Some place of an interval is covered; of an empty interval the place where it starts. -/
def meets (c : Cover) (i : Interval) : Bool :=
  if i.isEmpty then c.contains i.start
  else (c.intervals.find? (i.start < ·.stop)).any (·.start < i.stop)

end Cover

end Swatch

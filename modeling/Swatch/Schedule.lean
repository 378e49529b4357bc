-- SUMMARY: Passes that wait until it has been quiet for a while.
import Swatch.Decoration.Host
import Swatch.Table

/-!
# The schedule of passes

Each editor waits for at most one pass. A new request replaces the one that waits,
with a later deadline and a new ticket, so that many edits in a row cost one pass.
Times count milliseconds from some moment on. Times, deadlines and the numbers of requests are
natural numbers without a bound: a clock may fail to represent a deadline that is very far
away, and this is not modelled.
-/

namespace Swatch

/-- One request for a pass. -/
structure Ticket where
  editor : EditorId
  /-- Requests are numbered from one. -/
  generation : Nat
  deriving DecidableEq, Repr

structure Waiting where
  generation : Nat
  deadline : Nat
  deriving DecidableEq, Repr

/-- The requests that wait, at most one for each editor. -/
structure Schedule where
  /-- How long it has to be quiet. -/
  delay : Nat := 100
  waiting : Table EditorId Waiting := []
  /-- The number of the last request. -/
  lastGeneration : Nat := 0
  deriving Repr

namespace Schedule

/-- Ask for a pass of an editor instead of the one it waits for. -/
def submit (s : Schedule) (editor : EditorId) (now : Nat) : Ticket × Schedule :=
  let generation := s.lastGeneration + 1
  (⟨editor, generation⟩,
    { s with
      lastGeneration := generation
      waiting := s.waiting.put editor ⟨generation, now + s.delay⟩ })

/-- Drop the request of an editor. Also, whether there was one. -/
def cancel (s : Schedule) (editor : EditorId) : Bool × Schedule :=
  ((s.waiting.get? editor).isSome, { s with waiting := s.waiting.erase editor })

def hasWaiting (s : Schedule) : Bool :=
  !s.waiting.isEmpty

def nextDeadline? (s : Schedule) : Option Nat :=
  (s.waiting.map (·.2.deadline)).min?

/-- Requests are due in the order of their deadlines, those of one deadline by editor. -/
def dueBefore (a b : EditorId × Waiting) : Bool :=
  decide (a.2.deadline < b.2.deadline) ||
    (decide (a.2.deadline = b.2.deadline) && decide (a.1 ≤ b.1))

/-- Take the requests whose deadline has come, in the order in which they are due. -/
def takeDue (s : Schedule) (now : Nat) : List Ticket × Schedule :=
  let (due, waiting) := s.waiting.partition (·.2.deadline ≤ now)
  ((due.mergeSort dueBefore).map fun (editor, w) => ⟨editor, w.generation⟩, { s with waiting })

end Schedule

end Swatch

-- SUMMARY: The ignored lines of all documents, the most recent one first.
import Swatch.Ignored.Entry

/-!
# The registry of ignored lines

The registry lists ignored lines with the most recent one first and ignores no
line twice. Requests to the registry are values, so that a history of requests is
a list. The answer to a request says whether the change has to be made durable;
a request that changes nothing does not ask for that.
-/

namespace Swatch.Ignored

/-- Ignored lines, the most recent one first. -/
structure Registry where
  entries : List Entry := []
  deriving DecidableEq, Repr, Inhabited

namespace Registry

/-! ## Questions -/

def isIgnored (r : Registry) (key : DocumentKey) (line : Nat) : Bool :=
  r.entries.any (·.isAt key line)

/-- The ignored lines of a document, the most recent one first. -/
def linesOf (r : Registry) (key : DocumentKey) : List Nat :=
  (r.entries.filter (·.belongsTo key)).map Entry.line

def isEmpty (r : Registry) : Bool :=
  r.entries.isEmpty

/-! ## Changes -/

/-- Restore the most recent entry of a line. -/
def restore (r : Registry) (key : DocumentKey) (line : Nat) : Registry :=
  ⟨r.entries.eraseP (·.isAt key line)⟩

def restoreAll (r : Registry) (key : DocumentKey) : Registry :=
  ⟨r.entries.filter (!·.belongsTo key)⟩

/-- Ignore a line, at the front even if it was ignored before. -/
def ignore (r : Registry) (key : DocumentKey) (line : Nat) (content : Text) (now : Nat) :
    Registry :=
  ⟨⟨key.path, line, content, now⟩ :: (r.restore key line).entries⟩

/-- The entries of a document all of whose lines are ignored. A line that cannot be read has no
content. -/
def allLines (key : DocumentKey) (lineCount : Nat) (lineAt? : Nat → Option Text) (now : Nat) :
    List Entry :=
  (List.range lineCount).map fun line => ⟨key.path, line, (lineAt? line).getD [], now⟩

/-- Ignore every line of a document, the last one first. -/
def ignoreLines (r : Registry) (key : DocumentKey) (lineCount : Nat) (lineAt? : Nat → Option Text)
    (now : Nat) : Registry :=
  ⟨(allLines key lineCount lineAt? now).reverse ++ (r.restoreAll key).entries⟩

/-- Move the entries of a document as one edit says. -/
def move (r : Registry) (key : DocumentKey) (e : Edit) : Registry :=
  ⟨r.entries.filterMap (·.move key e)⟩

/-- Move the entries of a document as edits say, which are all given in terms of the document before
any of them: the last one in the document comes first. Also, whether any entry was touched. -/
def moveAll (r : Registry) (key : DocumentKey) (edits : List Edit) : Registry × Bool :=
  (edits.mergeSort fun e f => f.start.le e.start).foldl
    (fun (r, touched) e => (r.move key e, touched || r.entries.any (·.isTouched key e))) (r, false)

/-! ## Requests -/

inductive Request where
  | ignore (key : DocumentKey) (line : Nat) (content : Text)
  | restore (key : DocumentKey) (line : Nat)
  /-- Ignore all lines of any document, which may have none, and some that cannot be read. -/
  | ignoreLines (key : DocumentKey) (lineCount : Nat) (lineAt? : Nat → Option Text)
  | restoreAll (key : DocumentKey)
  | clear
  /-- Follow the edits of one event. -/
  | follow (key : DocumentKey) (edits : List Edit)

/-- Ignore all lines of a document whose text is at hand. -/
def Request.ignoreAll (d : Document) : Request :=
  .ignoreLines d.key d.lineCount d.lineAt?

inductive Reply where
  | done
  /-- The line was ignored, or some entry was touched. -/
  | flag (b : Bool)
  /-- How many lines were restored. -/
  | count (n : Nat)
  deriving DecidableEq, Repr

/-- The registry after a request, with the reply. -/
structure Outcome where
  registry : Registry
  reply : Reply
  /-- The change has to be made durable. -/
  durable : Bool

def perform (r : Registry) (now : Nat) : Request → Outcome
  | .ignore key line content => ⟨r.ignore key line content now, .done, true⟩
  | .restore key line =>
    let found := r.isIgnored key line
    ⟨r.restore key line, .flag found, found⟩
  | .ignoreLines key lineCount lineAt? =>
    ⟨r.ignoreLines key lineCount lineAt? now, .done, true⟩
  | .restoreAll key =>
    let count := (r.linesOf key).length
    ⟨r.restoreAll key, .count count, 0 < count⟩
  | .clear => ⟨{}, .done, true⟩
  | .follow key edits =>
    let (moved, touched) := r.moveAll key edits
    ⟨moved, .flag touched, touched⟩

end Registry

end Swatch.Ignored

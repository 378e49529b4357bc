-- SUMMARY: Documents that are edited in place.
import Swatch.Document.Edit
import Swatch.Files.Path

/-!
# Documents

A document has an identity, a text and a revision that counts its edits. Its
identity is the absolute path without detours, so that every way to write a path
names one document.
-/

namespace Swatch

structure DocumentKey where
  path : Path
  deriving DecidableEq, Repr, Inhabited

/-- The document that a path names in a working directory. -/
def DocumentKey.ofPath (workingDirectory p : Path) : DocumentKey :=
  ⟨Path.absolute workingDirectory p⟩

structure Document where
  key : DocumentKey
  text : Text
  /-- How often the document has been edited. -/
  revision : Nat := 0
  deriving DecidableEq, Repr, Inhabited

namespace Document

/-- The lines, each with what ends it. -/
def lines (d : Document) : List Text :=
  documentLines d.text

def lineCount (d : Document) : Nat :=
  d.lines.length

/-- A line without the line feeds and carriage returns that it ends with. -/
def lineAt? (d : Document) (line : Nat) : Option Text :=
  d.lines[line]?.map fun l => (l.reverse.dropWhile fun c => c == '\n' || c == '\r').reverse

/-- The position of a byte offset. An offset inside a character means the character, and one beyond
the end means the end. -/
def positionAt (d : Document) (offset : Nat) : Position :=
  .locate 0 d.lines (d.text.charsBefore offset)

/-- How many characters stand before a position. -/
def indexAt (d : Document) (p : Position) : Nat :=
  Position.index d.lines p

def offsetAt (d : Document) (p : Position) : Nat :=
  d.text.sizeOfFirst (d.indexAt p)

/-- The document after an edit. An edit that stops before it starts removes nothing. -/
def edit (d : Document) (e : Edit) : Document :=
  let start := d.indexAt e.start
  let stop := max start (d.indexAt e.stop)
  { d with text := d.text.take start ++ e.text ++ d.text.drop stop, revision := d.revision + 1 }

/-- The document after edits that are made one after the other. -/
def editAll (d : Document) (edits : List Edit) : Document :=
  edits.foldl edit d

def replaceText (d : Document) (text : Text) : Document :=
  { d with text, revision := d.revision + 1 }

end Document

end Swatch

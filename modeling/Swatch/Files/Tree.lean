-- SUMMARY: A tree of files in memory, and scripts carried out on it.
import Swatch.Files.Script

/-!
# Trees of files

A tree maps places, which are lists of names below the root, to directories and
files. A file holds a text, or bytes that are no text. Paths are followed name by
name: every name but the last has to be a directory, also where the path leads up
again behind it.
-/

namespace Swatch

inductive FileNode where
  | directory
  | text (t : Text)
  /-- A file whose bytes are no text. -/
  | bytes
  deriving DecidableEq, Repr

/-- A tree of files. The root is always there. -/
structure FileTree where
  nodes : List (List Text × FileNode) := []
  workingDirectory : Path := ['/']

namespace FileTree

def node? (tree : FileTree) (place : List Text) : Option FileNode :=
  if place.isEmpty then some .directory else tree.nodes.lookup place

def put (tree : FileTree) (place : List Text) (node : FileNode) : FileTree :=
  { tree with nodes := (place, node) :: tree.nodes.filter (·.1 != place) }

def isDirectory (tree : FileTree) (place : List Text) : Bool :=
  tree.node? place == some .directory

/-- Why a place cannot be gone through, if it cannot. -/
def barrier? (tree : FileTree) (place : List Text) : Option FileError :=
  match tree.node? place with
  | none => some .notFound
  | some .directory => none
  | some _ => some .notDirectory

/-! ## Following paths -/

/-- Follow names from a place. -/
def follow (tree : FileTree) (place : List Text) : List Text → Except FileError (List Text)
  | [] => .ok place
  | name :: names =>
    match tree.barrier? place with
    | some e => .error e
    | none => tree.follow (if name = ['.', '.'] then place.dropLast else place ++ [name]) names

/-- The place that a path leads to. -/
def place? (tree : FileTree) (p : Path) : Except FileError (List Text) :=
  if p.isEmpty then .error .notFound
  else if p.isAbsolute then tree.follow [] p.names
  else tree.follow tree.workingDirectory.names p.names

/-- The node that a path leads to. A slash at the end asks for a directory. -/
def at? (tree : FileTree) (p : Path) : Except FileError FileNode := do
  let place ← tree.place? p
  match tree.node? place with
  | none => .error .notFound
  | some .directory => .ok .directory
  | some node => if p.getLast? = some '/' then .error .notDirectory else .ok node

/-! ## Operations -/

def contains (tree : FileTree) (p : Path) : Bool :=
  (tree.at? p).isOk

def readText (tree : FileTree) (p : Path) : Except FileError Text := do
  match ← tree.at? p with
  | .text t => .ok t
  | .directory => .error .isDirectory
  | .bytes => .error .notText

def writeText (tree : FileTree) (p : Path) (t : Text) : Except FileError FileTree := do
  let place ← tree.place? p
  if tree.isDirectory place || p.getLast? = some '/' then .error .isDirectory
  else
    match tree.barrier? place.dropLast with
    | some e => .error e
    | none => .ok (tree.put place (.text t))

/-- Make directories for names, from a place on. -/
def makeFrom (tree : FileTree) (place : List Text) : List Text → Except FileError FileTree
  | [] => .ok tree
  | name :: names =>
    if name = ['.', '.'] then tree.makeFrom place.dropLast names
    else
      let place := place ++ [name]
      match tree.node? place with
      | none => (tree.put place .directory).makeFrom place names
      | some .directory => tree.makeFrom place names
      | some _ => .error (if names.isEmpty then .alreadyExists else .notDirectory)

def makeDirectories (tree : FileTree) (p : Path) : Except FileError FileTree :=
  if p.isAbsolute then tree.makeFrom [] p.names
  else tree.makeFrom tree.workingDirectory.names p.names

end FileTree

/-- The tree after an operation that may fail and then changes nothing, and how it went. -/
def FileTree.attempt (tree : FileTree) (r : Except FileError FileTree) :
    Except FileError Unit × FileTree :=
  match r with
  | .ok tree' => (.ok (), tree')
  | .error e => (.error e, tree)

/-- Carry out a script on a tree while the clock stands still. -/
def Script.runOn (time : Nat) (tree : FileTree) : Script α → α × FileTree
  | done value => (value, tree)
  | fileExists p next => (next (tree.contains p)).runOn time tree
  | readText p next => (next (tree.readText p)).runOn time tree
  | makeDirectories p next =>
    let (r, tree) := tree.attempt (tree.makeDirectories p)
    (next r).runOn time tree
  | writeText p text next =>
    let (r, tree) := tree.attempt (tree.writeText p text)
    (next r).runOn time tree
  | clock next => (next time).runOn time tree

end Swatch

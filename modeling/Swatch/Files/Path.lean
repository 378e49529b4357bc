-- SUMMARY: Paths, their components, and paths without detours.
import Swatch.Text.Basic

/-!
# Paths

A path is a text whose components are separated by slashes. Empty components and
components that are a single dot say nothing, except for a dot at the very start.
Two paths are the same if their components are.

`Path.absolute` puts a path below a working directory and resolves the components
that lead up, without looking at any file: leading up from the root stays there.

The characters of a path also stand for the bytes of a path that is no text. Paths are cut
at slashes, and their parts are compared with dots and with one another; nothing else is
asked of a character, so it does not matter what the others mean.
-/

namespace Swatch

/-- A path as it is written. -/
abbrev Path := Text

namespace Path

/-- The parts of a path between its slashes. -/
def parts : Path → List Text
  | [] => [[]]
  | c :: p =>
    if c = '/' then [] :: parts p
    else
      match parts p with
      | part :: more => (c :: part) :: more
      | [] => [[c]]

def isAbsolute (p : Path) : Bool :=
  p.head? == some '/'

/-- The names of a path: its parts without empty ones and without single dots. -/
def names (p : Path) : List Text :=
  (parts p).filter fun part => !part.isEmpty && part != ['.']

/-- The components of a path: whether it starts at the root, whether it starts with a dot, and its
names. -/
def components (p : Path) : Bool × Bool × List Text :=
  (p.isAbsolute, (parts p).head? == some ['.'], p.names)

def same (p q : Path) : Bool :=
  p.components == q.components

/-! ## Building paths -/

/-- A path below a directory; an absolute path stands for itself. -/
def join (directory p : Path) : Path :=
  if p.isAbsolute || directory.isEmpty then p
  else if directory.getLast? = some '/' then directory ++ p
  else directory ++ '/' :: p

/-- The absolute path with these names. -/
def ofNames (names : List Text) : Path :=
  if names.isEmpty then ['/'] else names.flatMap ('/' :: ·)

/-- The directory that holds the last name of a path, if there is a name. -/
def parent? (p : Path) : Option Path :=
  match p.names.reverse with
  | [] => none
  | _ :: above =>
    let above := above.reverse
    if p.isAbsolute then some (ofNames above)
    else
      let dots := if (parts p).head? == some ['.'] then [['.']] else []
      some ((ofNames (dots ++ above)).drop 1)

/-! ## Paths without detours -/

/-- Follow a name from the names already passed, the nearest one first. -/
def step (passed : List Text) (name : Text) : List Text :=
  if name = ['.', '.'] then passed.tail else name :: passed

/-- Names with those that lead up resolved. -/
def resolve (names : List Text) : List Text :=
  (names.foldl step []).reverse

/-- The absolute path without detours that a path means in a working directory. The empty path
means nothing and stays empty. -/
def absolute (workingDirectory p : Path) : Path :=
  if p.isEmpty then []
  else ofNames (resolve (if p.isAbsolute then p.names else workingDirectory.names ++ p.names))

end Path

end Swatch

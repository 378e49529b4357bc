-- SUMMARY: Programs that work with files, as data.
import Swatch.Files.Path

/-!
# Scripts

A script is a program that asks about files and the clock. It is a tree: each node
is one question, with the script that goes on from the answer. What carries a
script out is not part of it, so the same script runs on a tree of files in memory
and on the files of a machine.
-/

namespace Swatch

inductive FileError where
  | notFound
  | alreadyExists
  | notDirectory
  | isDirectory
  /-- The file holds bytes that are no text. -/
  | notText
  | other (message : String)
  deriving DecidableEq, Repr

def FileError.message : FileError → String
  | .notFound => "No such file or directory (os error 2)"
  | .alreadyExists => "File exists (os error 17)"
  | .notDirectory => "Not a directory (os error 20)"
  | .isDirectory => "Is a directory (os error 21)"
  | .notText => "stream did not contain valid UTF-8"
  | .other message => message

/-- A program that works with files and yields a value. -/
inductive Script (α : Type) where
  | done (value : α)
  /-- Is there a file or a directory? -/
  | fileExists (p : Path) (next : Bool → Script α)
  | readText (p : Path) (next : Except FileError Text → Script α)
  /-- Make a directory and those above it. -/
  | makeDirectories (p : Path) (next : Except FileError Unit → Script α)
  | writeText (p : Path) (text : Text) (next : Except FileError Unit → Script α)
  /-- The time in seconds. -/
  | clock (next : Nat → Script α)

namespace Script

/-- Go on with the value of a script. -/
def bind : Script α → (α → Script β) → Script β
  | done value, k => k value
  | fileExists p next, k => fileExists p fun b => (next b).bind k
  | readText p next, k => readText p fun r => (next r).bind k
  | makeDirectories p next, k => makeDirectories p fun r => (next r).bind k
  | writeText p text next, k => writeText p text fun r => (next r).bind k
  | clock next, k => clock fun now => (next now).bind k

instance : Monad Script where
  pure := done
  bind := bind

def exists? (p : Path) : Script Bool :=
  fileExists p done

def read (p : Path) : Script (Except FileError Text) :=
  readText p done

def makeDirs (p : Path) : Script (Except FileError Unit) :=
  makeDirectories p done

def write (p : Path) (text : Text) : Script (Except FileError Unit) :=
  writeText p text done

def now : Script Nat :=
  clock done

end Script

end Swatch

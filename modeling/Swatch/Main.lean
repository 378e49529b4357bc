-- SUMMARY: The program: scripts carried out on the files of the machine.
import Swatch.CommandLine.Run

/-!
# The program

Scripts are carried out on the machine's files here, and output is printed. A
watched file is looked at five times in a second.
-/

namespace Swatch

def fileErrorOf : IO.Error → FileError
  | .noFileOrDirectory .. => .notFound
  | .alreadyExists .. => .alreadyExists
  | .inappropriateType _ 20 _ => .notDirectory
  | .inappropriateType .. => .isDirectory
  | .permissionDenied .. => .other "Permission denied (os error 13)"
  | .userError _ => .notText
  | e => .other (toString e)

def attemptFile (act : IO α) : IO (Except FileError α) := do
  match ← act.toBaseIO with
  | .ok value => return .ok value
  | .error e => return .error (fileErrorOf e)

/-- The time in seconds, as the clock of the files says. -/
def currentSeconds : IO Nat := do
  let (_, p) ← IO.FS.createTempFile
  let data ← p.metadata
  IO.FS.removeFile p
  return data.modified.sec.toNat

def Script.perform : Script α → IO α
  | done value => return value
  | fileExists p next => do
    let found ← attemptFile (IO.FS.realPath (String.ofList p))
    (next found.isOk).perform
  | readText p next => do
    let read ← attemptFile (IO.FS.readFile (String.ofList p))
    (next (read.map String.toList)).perform
  | makeDirectories p next => do
    let made ← attemptFile (IO.FS.createDirAll (String.ofList p))
    (next made).perform
  | writeText p text next => do
    let written ← attemptFile (IO.FS.writeFile (String.ofList p) (String.ofList text))
    (next written).perform
  | clock next => do
    (next (← currentSeconds)).perform

def currentEnvironment : IO Environment := do
  let configHome ← IO.getEnv "XDG_CONFIG_HOME"
  let home ← IO.getEnv "HOME"
  let directory ← IO.currentDir
  return {
    configHome := configHome.map String.toList
    home := home.map String.toList
    workingDirectory := directory.toString.toList }

def printNow (t : Text) : IO Unit := do
  IO.print (String.ofList t)
  (← IO.getStdout).flush

/-- Watch a file for as long as the program runs. -/
partial def watchForever (w : CommandLine.Watch) : IO Unit := do
  IO.sleep 200
  let (out, w) ← (w.tick (← IO.monoMsNow)).perform
  printNow out
  watchForever w

end Swatch

open Swatch in
def main (args : List String) : IO UInt32 := do
  let e ← currentEnvironment
  match ← (CommandLine.run e (args.map String.toList)).perform with
  | .over outcome =>
    printNow outcome.out
    IO.eprint (String.ofList outcome.err)
    return UInt32.ofNat outcome.code
  | .watching out w =>
    printNow out
    watchForever w
    return 0

-- SUMMARY: Where the program keeps its files.
import Swatch.Files.Script

/-!
# Locations

The program keeps its files in a directory of its own below the user's
configuration directory. Without a configuration directory in the environment it
is `.config` in the home directory, and the home directory of the account stands
in for one that is not named.
-/

namespace Swatch

/-- What the surroundings of the program say about directories. -/
structure Environment where
  /-- The configuration directory, even an empty one. -/
  configHome : Option Path := none
  home : Option Path := none
  /-- The home directory of the user's account. -/
  accountHome : Option Path := none
  workingDirectory : Path := ['/']

namespace Environment

def directory? (e : Environment) : Option Path :=
  let home := e.home.filter (!·.isEmpty) <|> e.accountHome
  (e.configHome <|> home.map (·.join ".config".toList)).map (·.join "pawn-colors".toList)

def settingsFile? (e : Environment) : Option Path :=
  e.directory?.map (·.join "config.yaml".toList)

def ignoredFile? (e : Environment) : Option Path :=
  e.directory?.map (·.join "ignored_lines.json".toList)

def logsDirectory? (e : Environment) : Option Path :=
  e.directory?.map (·.join "logs".toList)

end Environment

/-! ## Making directories -/

inductive LocationError where
  | noDirectory
  | makeDirectory (p : Path) (e : FileError)
  | makeSettingsDirectory (e : FileError)
  | writeSettings (p : Path) (e : FileError)
  deriving DecidableEq, Repr

def LocationError.message : LocationError → String
  | .noDirectory => "No config directory available"
  | .makeDirectory p e => "Failed to create directory " ++ String.ofList p ++ ": " ++ e.message
  | .makeSettingsDirectory e => "Failed to create config directory: " ++ e.message
  | .writeSettings p e => "Failed to write config to " ++ String.ofList p ++ ": " ++ e.message

namespace Environment

def ensure (p : Path) : Script (Except LocationError Path) := do
  match ← Script.makeDirs p with
  | .ok _ => return .ok p
  | .error e => return .error (.makeDirectory p e)

def ensureDirectory (e : Environment) : Script (Except LocationError Path) :=
  match e.directory? with
  | some p => ensure p
  | none => return .error .noDirectory

def ensureLogs (e : Environment) : Script (Except LocationError Path) := do
  match ← e.ensureDirectory with
  | .ok p => ensure (p.join "logs".toList)
  | .error failure => return .error failure

end Environment

end Swatch

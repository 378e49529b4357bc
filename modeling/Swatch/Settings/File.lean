-- SUMMARY: Settings kept in a file.
import Swatch.Files.Locations
import Swatch.Settings.Yaml

/-!
# The settings file

Loading never fails: where there is no readable file with readable settings, the
defaults count. Saving makes the directory of the file first.
-/

namespace Swatch.Settings

/-- The settings that a text says; the defaults if it says none. -/
def ofText (t : Text) : Settings :=
  (read? t).getD {}

def loadFrom (p : Path) : Script Settings := do
  if ← Script.exists? p then
    match ← Script.read p with
    | .ok t => return ofText t
    | .error _ => return {}
  else return {}

def load (e : Environment) : Script Settings :=
  match e.settingsFile? with
  | some p => loadFrom p
  | none => return {}

def saveTo (s : Settings) (p : Path) : Script (Except LocationError Unit) := do
  let made ← match p.parent? with
    | some directory => Script.makeDirs directory
    | none => pure (.ok ())
  match made with
  | .error e => return .error (.makeSettingsDirectory e)
  | .ok _ =>
    match ← Script.write p s.render with
    | .error e => return .error (.writeSettings p e)
    | .ok _ => return .ok ()

def save (s : Settings) (e : Environment) : Script (Except LocationError Unit) :=
  match e.settingsFile? with
  | some p => s.saveTo p
  | none => return .error .noDirectory

end Swatch.Settings

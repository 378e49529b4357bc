-- SUMMARY: Carrying out commands on files.
import Swatch.CommandLine.Output
import Swatch.Ignored.Store
import Swatch.Literal.Tuple
import Swatch.Settings.File

/-!
# Carrying out commands

A command is a script. All commands but one are over when their script is; watching
a file goes on with `Watch.tick` for as long as the program is left running.

Ignored lines are kept in a file, and what cannot be loaded or saved is passed over
in silence. Without a directory for that file they last as long as the program.
-/

namespace Swatch.CommandLine

/-! ## Files -/

def loadDocument (e : Environment) (p : Path) : Script (Except Failure Document) := do
  match ← Script.read p with
  | .ok text => return .ok { key := .ofPath e.workingDirectory p, text }
  | .error failure => return .error (.unreadable p failure)

def loadRegistry (e : Environment) : Script Ignored.Registry := do
  match e.ignoredFile? with
  | some p => return ⟨(← Ignored.JsonFile.load p).getD []⟩
  | none => return {}

def changeRegistry (e : Environment) (request : Ignored.Registry.Request) :
    Script Ignored.Registry.Reply := do
  let registry ← loadRegistry e
  let now ← Script.now
  let outcome := registry.perform now request
  if outcome.durable then
    match e.ignoredFile? with
    | some p => discard (Ignored.JsonFile.save p outcome.registry.entries)
    | none => pure ()
  return outcome.reply

/-! ## Commands -/

/-- Show the places on some lines of a file. -/
def scan (e : Environment) (settings : Settings) (p : Path) (lines : Option LineRange) :
    Script Outcome := do
  match ← loadDocument e p with
  | .error failure => return failure.outcome
  | .ok document =>
    let wanted := lines.getD ⟨0, maxWord⟩
    let last := min wanted.last (document.lineCount - 1)
    if last < wanted.first then return (Failure.tooFewLines p document.lineCount).outcome
    else
      let registry ← loadRegistry e
      let editor : Editor :=
        { id := 1, document, top := wanted.first, height := last - wanted.first + 1 }
      let session : Session := { registry }
      let (report, _, _) := session.run editor.view { settings with viewportBuffer := 0 } {}
      return { out := reportLines document report }

/-- Show every spelling of a color. -/
def convert (literal : Text) : Outcome :=
  match Color.read? literal with
  | some (spelling, color) => { out := conversionLines spelling color }
  | none => (Failure.notAColor literal).outcome

def ignore (e : Environment) (p : Path) (line : Nat) : Script Outcome := do
  match ← loadDocument e p with
  | .error failure => return failure.outcome
  | .ok document =>
    match document.lineAt? line with
    | none => return (Failure.noLine p line).outcome
    | some content =>
      discard (changeRegistry e (.ignore document.key line content))
      return { out := lineOf ("Ignoring ".toList ++ place document.key.path line) }

def unignore (e : Environment) (p : Path) (line : Nat) : Script Outcome := do
  match ← loadDocument e p with
  | .error failure => return failure.outcome
  | .ok document =>
    let place := place document.key.path line
    match ← changeRegistry e (.restore document.key line) with
    | .flag true => return { out := lineOf ("Restored ".toList ++ place) }
    | _ => return { out := lineOf (place ++ " was not ignored".toList) }

def listIgnored (e : Environment) : Script Outcome :=
  return { out := ignoredLines (← loadRegistry e) }

/-! ## Watching a file -/

structure Watch where
  path : Path
  settings : Settings
  editor : Editor
  session : Session
  host : Host := {}

namespace Watch

def pass (w : Watch) : Text × Watch :=
  let (report, session, host) := w.session.run w.editor.view w.settings w.host
  (reportLines w.editor.document report, { w with session, host })

/-- What is said before a pass that an edit has caused. -/
def banner (w : Watch) : Text :=
  lineOf ("--- ".toList ++ w.path ++ " (revision ".toList
    ++ Text.ofNat w.editor.document.revision ++ [')'])

/-- Take over a new text of the file and ask for a pass if it differs. -/
def follow (w : Watch) (now : Nat) (text : Text) : Watch :=
  match w.session.reload now w.editor.document text with
  | (none, _, _) => w
  | (some _, session, document) =>
    let (_, session) := session.submit w.editor.id now
    { w with session, editor := { w.editor with document, height := document.lineCount } }

def runDue (w : Watch) (now : Nat) : Text × Watch :=
  let (due, session) := w.session.takeDue now
  due.foldl
    (fun (out, w) ticket =>
      if ticket.editor = w.editor.id then
        let (found, w') := w.pass
        (out ++ w.banner ++ found, w')
      else (out, w))
    ([], { w with session })

/-- Look at the file at a time in milliseconds and run the passes that are due. -/
def tick (w : Watch) (now : Nat) : Script (Text × Watch) := do
  match ← Script.read w.path with
  | .ok text => return (w.follow now text).runDue now
  | .error _ => return w.runDue now

end Watch

def watch (e : Environment) (settings : Settings) (path : Path) :
    Script (Except Failure Watch) := do
  match ← loadDocument e path with
  | .error failure => return .error failure
  | .ok document =>
    let registry ← loadRegistry e
    let editor : Editor := { id := 1, document, height := document.lineCount }
    let session : Session := Session.setDelay { registry } settings.debounceMs
    return .ok { path, settings, editor, session }

/-! ## The program -/

inductive Progress where
  | over (outcome : Outcome)
  /-- The command has said something and goes on. -/
  | watching (out : Text) (w : Watch)

def Command.run (e : Environment) (settings : Settings) : Command → Script Progress
  | .scan file lines => return .over (← CommandLine.scan e settings file lines)
  | .convert literal => return .over (CommandLine.convert literal)
  | .ignore file line => return .over (← CommandLine.ignore e file line)
  | .unignore file line => return .over (← CommandLine.unignore e file line)
  | .listIgnored => return .over (← CommandLine.listIgnored e)
  | .watch file => do
    match ← CommandLine.watch e settings file with
    | .error failure => return .over failure.outcome
    | .ok w =>
      let (out, w) := w.pass
      return .watching out w

/-- Make the directory of the logs. If that fails, there is something to say about it. -/
def prepareLogs (e : Environment) : Script Text := do
  match ← e.ensureLogs with
  | .ok _ => return []
  | .error failure =>
    return lineOf ("Warning: Could not initialize file logging: ".toList ++ failure.message.toList)

/-- Carry out what the arguments say. -/
def runInvocation (e : Environment) (args : List Text) : Script Progress := do
  match Invocation.ofArguments args with
  | .error failure => return .over failure.outcome
  | .ok invocation =>
    let settings ← match invocation.settingsFile with
      | some p => Settings.loadFrom p
      | none => Settings.load e
    match invocation.request.command with
    | .error failure => return .over (Failure.badLines failure).outcome
    | .ok command => command.run e settings

def run (e : Environment) (args : List Text) : Script Progress := do
  let warning ← prepareLogs e
  match ← runInvocation e args with
  | .over outcome => return .over { outcome with err := warning ++ outcome.err }
  | progress => return progress

end Swatch.CommandLine

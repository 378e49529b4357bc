-- SUMMARY: Histories: what happens to a session and its host, event by event.
import Swatch.Session

/-!
# Histories of sessions

A session and its host change together, event by event. Events come in any order, for
any editors, documents and settings; a history is a list of them.
-/

namespace Swatch

inductive Event where
  /-- A pass over an editor. -/
  | pass (v : EditorView) (settings : Settings)
  | closeEditor (editor : EditorId)
  | closeDocument (key : DocumentKey)
  | dispose
  /-- A request to the ignored lines; edits of a document are among them. -/
  | request (now : Nat) (request : Ignored.Registry.Request)
  | submit (editor : EditorId) (now : Nat)
  | takeDue (now : Nat)
  | setDelay (delay : Nat)

structure Scene where
  session : Session
  host : Host

namespace Scene

/-- Nothing has happened yet. -/
def start (r : Ignored.Registry) : Scene where
  session := { registry := r }
  host := {}

def report (scene : Scene) (v : EditorView) (settings : Settings) : Report :=
  (scene.session.run v settings scene.host).1

/-- The scene after an event. -/
def step (scene : Scene) : Event → Scene
  | .pass v settings =>
    let (_, session, host) := scene.session.run v settings scene.host
    ⟨session, host⟩
  | .closeEditor editor =>
    let (session, host) := scene.session.closeEditor editor scene.host
    ⟨session, host⟩
  | .closeDocument key => { scene with session := scene.session.closeDocument key }
  | .dispose =>
    let (session, host) := scene.session.dispose scene.host
    ⟨session, host⟩
  | .request now request => { scene with session := (scene.session.perform now request).2 }
  | .submit editor now => { scene with session := (scene.session.submit editor now).2 }
  | .takeDue now => { scene with session := (scene.session.takeDue now).2 }
  | .setDelay delay => { scene with session := scene.session.setDelay delay }

def after (scene : Scene) (events : List Event) : Scene :=
  events.foldl step scene

end Scene

end Swatch

-- SUMMARY: In every history, the host shows the marks of the last pass of each editor.
import Swatch.Proofs.Decoration.Pool
import Swatch.Proofs.Session.History
import Swatch.Proofs.Text.Cut

/-!
# What the host shows

Whatever happens to a session, the host shows in each editor the marks that the
editor's last pass reported, unless the editor has been closed or everything has been
disposed of since. A pass that finds nothing to look at, or cannot read its document,
reports no marks and therefore shows nothing.
-/

namespace Swatch

namespace Scene

/-! ## The marks of the last pass -/

/-- What each editor should show after an event, given what it should show before. -/
def latestAfter (scene : Scene) (latest : EditorId → List Mark) : Event → EditorId → List Mark
  | .pass v settings => fun editor =>
    if v.editor = editor then (scene.report v settings).marks else latest editor
  | .closeEditor closed => fun editor => if closed = editor then [] else latest editor
  | .dispose => fun _ => []
  | _ => latest

/-- The marks that the last pass of each editor reported, if the editor has not been closed and
nothing has been disposed of since. -/
def latestMarks (scene : Scene) (latest : EditorId → List Mark) : List Event → EditorId → List Mark
  | [] => latest
  | e :: events => (scene.step e).latestMarks (scene.latestAfter latest e) events

end Scene

/-- Every pass commits the marks that it reports, and counts their paints. -/
theorem Session.run_commit (s : Session) (v : EditorView) (settings : Settings) (host : Host) :
    (s.pool.recordAll (s.run v settings host).1.marks).commit v.editor host
      = ((s.run v settings host).1.handles, (s.run v settings host).2.1.pool,
          (s.run v settings host).2.2) := by
  unfold run
  dsimp only
  split
  · rfl
  · split
    · rfl
    · split <;> rfl

namespace Scene

open Pool (Tracks)

variable {latest : EditorId → List Mark}

theorem tracks_step (scene : Scene) (ht : Tracks scene.session.pool scene.host latest) (e : Event) :
    Tracks (scene.step e).session.pool (scene.step e).host (scene.latestAfter latest e) := by
  cases e with
  | pass v settings => exact (ht.commit _ (scene.session.run_commit v settings scene.host)).2
  | closeEditor editor => exact ht.clearEditor rfl
  | dispose => exact ht.dispose rfl
  | closeDocument key => exact ht
  | request now request => exact ht
  | submit editor now => exact ht
  | takeDue now => exact ht
  | setDelay delay => exact ht

theorem tracks_after (scene : Scene) (ht : Tracks scene.session.pool scene.host latest)
    (events : List Event) :
    Tracks (scene.after events).session.pool (scene.after events).host
      (scene.latestMarks latest events) := by
  induction events generalizing scene latest with
  | nil => exact ht
  | cons e events ih => exact ih (scene.step e) (tracks_step scene ht e)

end Scene

/-! ## The host -/

/-- An editor shows some marks and nothing else: each paint that occurs in them has a handle, which
is shown at the places of the paint, in order. -/
structure Shows (handles : Table Paint Handle) (host : Host) (editor : EditorId)
    (marks : List Mark) : Prop where
  complete : ∀ p ∈ paintsOf marks, ∃ h, handles.get? p = some h ∧
    (host.shown editor h).Perm (extentsOf marks p) ∧
    (host.shown editor h).Pairwise fun i j => i.le j
  sound : ∀ h, host.shown editor h ≠ [] → ∃ p ∈ paintsOf marks, handles.get? p = some h

theorem Interval.pairwise_mergeSort (l : List Interval) :
    (l.mergeSort Interval.le).Pairwise fun i j => i.le j := by
  refine List.pairwise_mergeSort ?_ le_total l
  exact fun _ _ _ => le_trans

theorem Pool.Tracks.shows {pool : Pool} {host : Host} {latest : EditorId → List Mark}
    (ht : pool.Tracks host latest) (editor : EditorId) :
    Shows pool.handles host editor (latest editor) where
  complete p hp := by
    have hshown := ht.shownIn_eq editor p
    have hsome : extentsOf (latest editor) p ≠ [] := mt extentsOf_eq_nil_iff.1 (not_not.2 hp)
    cases hget : pool.handles.get? p with
    | none =>
      rw [Pool.shownIn, hget] at hshown
      have hperm := List.mergeSort_perm (extentsOf (latest editor) p) Interval.le
      rw [← hshown] at hperm
      exact absurd hperm.symm.eq_nil hsome
    | some h =>
      have hsame : host.shown editor h = (extentsOf (latest editor) p).mergeSort Interval.le := by
        rw [← hshown, Pool.shownIn, hget]
        rfl
      exact ⟨h, rfl, hsame ▸ List.mergeSort_perm _ _, hsame ▸ Interval.pairwise_mergeSort _⟩
  sound h hshown := by
    obtain ⟨p, hget, hpaint⟩ := ht.backed.exists_paint hshown
    refine ⟨p, ?_, hget⟩
    by_contra hp
    rw [ht.shownIn_eq, extentsOf_eq_nil_iff.2 hp] at hpaint
    exact hshown (hpaint.symm.trans (List.mergeSort_nil))

/-- In every history the host shows exactly the marks of each editor's last pass, and the next
report, whatever it is about, counts the paints of its marks. Since the last disposal one handle has
been created for each paint of the pool, and no call has ever named a handle that was not alive. -/
theorem host_shows_latest_pass (r : Ignored.Registry) (events : List Event) :
    let scene := (Scene.start r).after events
    (∀ editor, Shows scene.session.pool.handles scene.host editor
      ((Scene.start r).latestMarks (fun _ => []) events editor)) ∧
    (∀ v settings, (scene.report v settings).handles
      = (paintsOf (scene.report v settings).marks).length) ∧
    (scene.session.pool.handles.map Prod.fst).Nodup ∧
    (scene.session.pool.handles.map Prod.snd).Nodup ∧
    (Host.createdLately scene.host.calls).reverse
      = (scene.session.pool.handles.map fun (p, h) => (h, p.appearance)) ∧
    Host.WellUsed scene.host.calls := by
  intro scene
  have ht := Scene.tracks_after (Scene.start r) Pool.tracks_nil events
  refine ⟨ht.shows, ?_, ht.backed.nodup, ht.backed.holds.nodup, ht.backed.createdLately_eq,
    ht.backed.holds.wellUsed⟩
  intro v settings
  exact (ht.commit _ (scene.session.run_commit v settings scene.host)).1

end Swatch

-- SUMMARY: In every history, a pass does the same as if no scan had been kept.
import Swatch.Proofs.Scan.Families
import Swatch.Proofs.Session.History
import Swatch.Proofs.Table

/-!
# Scans that are kept

A session keeps the last scan of each document, for the lines and the settings that it
was made with. As long as the key and the revision of a document tell its text, a kept
scan is what a new scan of the same lines would give. What is ignored and how many
marks are shown is decided afterwards, in every pass, so a pass shows the same with the
kept scans and without.
-/

namespace Swatch

/-- What a document reads at each revision, and how many lines it has. -/
abbrev Contents := DocumentKey → Nat → Text × Nat

/-- The document of a view can be read, and reads as it should at its revision. -/
def EditorView.Reads (v : EditorView) (contents : Contents) : Prop :=
  v.text = some (contents v.key v.revision).1 ∧ v.lineCount = (contents v.key v.revision).2

/-- Passes only see documents that read as they should. -/
def Event.Reads (contents : Contents) : Event → Prop
  | .pass v _ => v.Reads contents
  | _ => True

/-! ## Warnings -/

/-- The warning is about a string, not about the number of places. -/
def Advisory.isCrashRisk : Advisory → Bool
  | .crashRisk _ _ => true
  | .capacityExceeded _ _ => false

theorem Source.isCrashRisk_of_mem_warnings {s : Source} {last : Option Nat} {strings : List Quoted}
    {a : Advisory} (h : a ∈ s.warnings last strings) : a.isCrashRisk := by
  induction strings generalizing last with
  | nil => cases h
  | cons q strings ih =>
    simp only [warnings] at h
    split at h
    · rcases List.mem_cons.1 h with rfl | h
      · rfl
      · exact ih h
    · exact ih h

/-- A scan warns about strings only. -/
theorem Scan.isCrashRisk_of_mem {text : Text} {lines : LineRange} {settings : Settings}
    {a : Advisory} (h : a ∈ (ofText text lines settings).advisories) : a.isCrashRisk := by
  rw [ofText, ofLines] at h
  split at h
  · cases h
  · exact Source.isCrashRisk_of_mem_warnings h

theorem Ignored.Registry.contains_linesOf (r : Registry) (key : DocumentKey) (line : Nat) :
    (r.linesOf key).contains line = r.isIgnored key line := by
  rw [Bool.eq_iff_iff, List.contains_iff_mem, linesOf, isIgnored, List.any_eq_true]
  simp only [List.mem_map, List.mem_filter, Entry.isAt, Bool.and_eq_true, beq_iff_eq]
  constructor
  · rintro ⟨entry, ⟨hmem, hkey⟩, hline⟩
    exact ⟨entry, hmem, hline, hkey⟩
  · rintro ⟨entry, hmem, hline, hkey⟩
    exact ⟨entry, ⟨hmem, hkey⟩, hline⟩

namespace Session

/-! ## A pass with a scan -/

/-- The session without the scans that it has kept. -/
def forgetScans (s : Session) : Session :=
  { s with cache := [] }

/-- Each scan that is kept is what a new scan would give. -/
def Faithful (contents : Contents) (s : Session) : Prop :=
  ∀ key c, s.cache.get? key = some c →
    c.scan = Scan.ofText (contents key c.revision).1 c.lines c.settings

/-- The scan that a pass over a view looks at. A window outside of the document has nothing on
it. -/
def scanOf (contents : Contents) (v : EditorView) (settings : Settings) : Scan :=
  ((Viewport.ofVisible v.visible settings.viewportBuffer).clamp? v.lineCount).elim {} fun lines =>
    Scan.ofText (contents v.key v.revision).1 lines settings

section Run

variable {s : Session} {contents : Contents} {v : EditorView} {settings : Settings} {host : Host}

theorem Faithful.cachedScan?_eq (hf : Faithful contents s) {lines : LineRange} {scan : Scan}
    (h : s.cachedScan? v lines settings = some scan) :
    scan = Scan.ofText (contents v.key v.revision).1 lines settings := by
  obtain ⟨c, hget, hc⟩ := Option.bind_eq_some_iff.1 h
  split at hc
  · next hsame =>
    obtain ⟨hrevision, hlines, hsettings⟩ := hsame
    rw [← Option.some.inj hc, hf v.key c hget, hrevision, hlines, hsettings]
  · cases hc

theorem Faithful.put (hf : Faithful contents s) {s' : Session} {key : DocumentKey} {revision : Nat}
    {lines : LineRange} (hs' : s'.cache = s.cache.put key
      ⟨revision, lines, settings, Scan.ofText (contents key revision).1 lines settings⟩) :
    Faithful contents s' := by
  rw [Faithful, hs']
  exact Table.forall_get?_put hf rfl

theorem Faithful.erase (hf : Faithful contents s) (key : DocumentKey) :
    Faithful contents (s.closeDocument key) :=
  Table.forall_get?_erase hf

theorem faithful_forgetScans : Faithful contents s.forgetScans := by
  intro key c hget
  cases hget

/-- Kept scans aside, a pass with a scan only depends on the rest of the session. -/
theorem finish_congr {s' : Session} (h : s.forgetScans = s'.forgetScans) (window : Viewport)
    (scan : Scan) (cached cached' : Bool) :
    (s.finish v window settings scan cached host).1
        = { (s'.finish v window settings scan cached' host).1 with cached } ∧
      (s.finish v window settings scan cached host).2.1.forgetScans
        = (s'.finish v window settings scan cached' host).2.1.forgetScans ∧
      (s.finish v window settings scan cached host).2.2
        = (s'.finish v window settings scan cached' host).2.2 := by
  cases s
  cases s'
  simp only [forgetScans, mk.injEq] at h
  obtain ⟨rfl, rfl, rfl, -, rfl⟩ := h
  exact ⟨rfl, rfl, rfl⟩

theorem unignored_eq (s : Session) (key : DocumentKey) (scan : Scan) :
    s.unignored key scan = scan.marks.filter fun m => !s.registry.isIgnored key m.line := by
  rw [← funext fun m : Mark => congrArg not (s.registry.contains_linesOf key m.line)]
  rfl

theorem finish_marks (window : Viewport) (scan : Scan) (cached : Bool) :
    (s.finish v window settings scan cached host).1.marks
      = (scan.marks.filter fun m => !s.registry.isIgnored v.key m.line).take
          settings.maxDecorations := by
  rw [← unignored_eq]
  rfl

theorem finish_advisories (window : Viewport) {scan : Scan}
    (hscan : ∀ a ∈ scan.advisories, a.isCrashRisk) (cached : Bool) :
    (s.finish v window settings scan cached host).1.advisories.filter Advisory.isCrashRisk
      = scan.advisories := by
  have hall : scan.advisories.filter Advisory.isCrashRisk = scan.advisories :=
    List.filter_eq_self.2 hscan
  simp only [finish]
  split <;> simp [hall, Advisory.isCrashRisk]

/-- With a text that can be read, a pass over some lines goes on with a new scan of them, whether it
has been kept or not. -/
theorem run_eq_finish (host : Host) (hf : Faithful contents s) (hv : v.Reads contents)
    {lines : LineRange}
    (hlines : (Viewport.ofVisible v.visible settings.viewportBuffer).clamp? v.lineCount
      = some lines) :
    ∃ s' cached, s'.forgetScans
          = ({ s with schedule := { s.schedule with delay := settings.debounceMs } }).forgetScans ∧
      Faithful contents s' ∧
      s.run v settings host = s'.finish v (Viewport.ofVisible v.visible settings.viewportBuffer)
        settings (Scan.ofText (contents v.key v.revision).1 lines settings) cached host := by
  unfold run
  simp only [hlines, hv.1]
  split
  · next scan hcached =>
    rw [hf.cachedScan?_eq hcached]
    exact ⟨_, true, rfl, hf, rfl⟩
  · exact ⟨{ s with
      schedule := { s.schedule with delay := settings.debounceMs }
      cache := s.cache.put v.key ⟨v.revision, lines, settings,
        Scan.ofText (contents v.key v.revision).1 lines settings⟩ }, false, rfl, hf.put rfl, rfl⟩

/-- In a session that keeps what new scans would give, a pass shows the marks of a new scan that are
not ignored, up to the limit. -/
theorem run_marks (hf : Faithful contents s) (hv : v.Reads contents) :
    (s.run v settings host).1.marks
      = ((scanOf contents v settings).marks.filter fun m =>
          !s.registry.isIgnored v.key m.line).take settings.maxDecorations := by
  cases hlines : (Viewport.ofVisible v.visible settings.viewportBuffer).clamp? v.lineCount with
  | none => simp [run, scanOf, hlines]
  | some lines =>
    obtain ⟨s', cached, hs', -, hrun⟩ := run_eq_finish host hf hv hlines
    have hregistry : s'.registry = s.registry := (congrArg Session.registry hs' :)
    rw [hrun, finish_marks, hregistry, scanOf, hlines]
    rfl

theorem run_advisories (hf : Faithful contents s) (hv : v.Reads contents) :
    (s.run v settings host).1.advisories.filter Advisory.isCrashRisk
      = (scanOf contents v settings).advisories := by
  cases hlines : (Viewport.ofVisible v.visible settings.viewportBuffer).clamp? v.lineCount with
  | none => simp [run, scanOf, hlines]
  | some lines =>
    obtain ⟨s', cached, -, -, hrun⟩ := run_eq_finish host hf hv hlines
    rw [hrun, finish_advisories _ (fun _ => Scan.isCrashRisk_of_mem), scanOf, hlines]
    rfl

/-- In a session that keeps what new scans would give, a pass does the same as if no scan had been
kept. -/
theorem run_forgetScans (settings : Settings) (host : Host) (hf : Faithful contents s)
    (hv : v.Reads contents) :
    (s.run v settings host).1
        = { (s.forgetScans.run v settings host).1 with
            cached := (s.run v settings host).1.cached } ∧
      (s.run v settings host).2.1.forgetScans
        = (s.forgetScans.run v settings host).2.1.forgetScans ∧
      (s.run v settings host).2.2 = (s.forgetScans.run v settings host).2.2 := by
  cases hlines : (Viewport.ofVisible v.visible settings.viewportBuffer).clamp? v.lineCount with
  | none =>
    simp only [run, hlines]
    exact ⟨rfl, rfl, rfl⟩
  | some lines =>
    obtain ⟨s', cached, hs', -, hrun⟩ := run_eq_finish host hf hv hlines
    obtain ⟨s'', cached', hs'', -, hrun'⟩ :=
      run_eq_finish host faithful_forgetScans hv hlines
    rw [hrun, hrun']
    exact finish_congr (hs'.trans hs''.symm) _ _ cached cached'

theorem Faithful.run (hf : Faithful contents s) (hv : v.Reads contents) :
    Faithful contents (s.run v settings host).2.1 := by
  cases hlines : (Viewport.ofVisible v.visible settings.viewportBuffer).clamp? v.lineCount with
  | none =>
    simp only [Session.run, hlines]
    exact hf
  | some lines =>
    obtain ⟨s', cached, -, hf', hrun⟩ := run_eq_finish host hf hv hlines
    rw [hrun]
    exact hf'

end Run

end Session

namespace Scene

def forgetScans (scene : Scene) : Scene :=
  { scene with session := scene.session.forgetScans }

section History

variable {scene : Scene} {contents : Contents}

theorem faithful_step (hf : scene.session.Faithful contents) {e : Event} (he : e.Reads contents) :
    (scene.step e).session.Faithful contents := by
  cases e with
  | pass v settings => exact hf.run he
  | closeDocument key => exact hf.erase key
  | dispose =>
    intro key c hget
    cases hget
  | closeEditor editor => exact hf
  | request now request => exact hf
  | submit editor now => exact hf
  | takeDue now => exact hf
  | setDelay delay => exact hf

theorem faithful_after (hf : scene.session.Faithful contents) {events : List Event}
    (hevents : ∀ e ∈ events, e.Reads contents) :
    (scene.after events).session.Faithful contents := by
  induction events generalizing scene with
  | nil => exact hf
  | cons e events ih =>
    obtain ⟨he, hevents⟩ := List.forall_mem_cons.1 hevents
    exact ih (faithful_step hf he) hevents

/-- In every history of passes over documents whose keys and revisions tell what they read, a pass
shows the first marks of a new scan of its window that are not ignored, and warns of what that scan
warns of. But for the note that a scan was kept, it does the same as if none had been. -/
theorem pass_ignores_kept_scans (r : Ignored.Registry) (contents : Contents) (events : List Event)
    (hevents : ∀ e ∈ events, e.Reads contents) (v : EditorView) (hv : v.Reads contents)
    (settings : Settings) :
    let scene := (start r).after events
    let scan := Session.scanOf contents v settings
    (scene.report v settings).marks
        = (scan.marks.filter fun m => !scene.session.registry.isIgnored v.key m.line).take
            settings.maxDecorations ∧
      (scene.report v settings).advisories.filter Advisory.isCrashRisk = scan.advisories ∧
      scene.report v settings
        = { scene.forgetScans.report v settings with
            cached := (scene.report v settings).cached } ∧
      (scene.step (.pass v settings)).host = (scene.forgetScans.step (.pass v settings)).host ∧
      (scene.step (.pass v settings)).session.forgetScans
        = (scene.forgetScans.step (.pass v settings)).session.forgetScans := by
  intro scene scan
  have hf : scene.session.Faithful contents := by
    refine faithful_after ?_ hevents
    intro key c hget
    cases hget
  obtain ⟨hreport, hsession, hhost⟩ :=
    Session.run_forgetScans settings scene.host hf hv
  exact ⟨Session.run_marks hf hv, Session.run_advisories hf hv, hreport, hhost, hsession⟩

/-- Three colors, the first one on a line that is ignored, and a tilde alone in a string that is
shown. The limit leaves room for one color. The second editor of the document uses the scan that was
kept from the pass over the first one, and shows and warns of what it would without it. -/
theorem pass_ignores_kept_scans_repeated :
    let text : Text := "0xFF0000\nGameTextForAll(\"~\", 0x00FF00)\n0x0000FF".toList
    let key : DocumentKey := ⟨['/', 'p']⟩
    let r : Ignored.Registry := Ignored.Registry.ignore {} key 0 [] 0
    let settings : Settings := { maxDecorations := 1 }
    let v : EditorView :=
      { editor := 1, key, revision := 3, lineCount := 3, text := some text, visible := [⟨0, 2⟩] }
    let other : EditorView := { v with editor := 2 }
    let scene := (start r).after [.pass v settings]
    (Session.scanOf (fun _ _ => (text, 3)) other settings).marks.map (·.line) = [0, 1, 2] ∧
      (scene.report other settings).marks.map (·.extent) = [⟨29, 37⟩] ∧
      (scene.report other settings).advisories.filter Advisory.isCrashRisk
        = [.crashRisk 1 ⟨25, 26⟩] ∧
      (scene.report other settings).cached = true ∧
      (scene.forgetScans.report other settings).cached = false ∧
      scene.report other settings
        = { scene.forgetScans.report other settings with cached := true } ∧
      (scene.step (.pass other settings)).host
        = (scene.forgetScans.step (.pass other settings)).host := by
  intro text key r settings v other scene
  have hv : ∀ editor, { v with editor }.Reads fun _ _ => (text, 3) := fun _ => ⟨rfl, rfl⟩
  have hevents : ∀ e ∈ [Event.pass v settings], e.Reads fun _ _ => (text, 3) :=
    List.forall_mem_singleton.2 (hv 1)
  obtain ⟨hmarks, hadvisories, hreport, hhost, -⟩ :=
    pass_ignores_kept_scans r _ _ hevents other (hv 2) settings
  have hcached : (scene.report other settings).cached = true := by decide +kernel
  have hnew : (scene.forgetScans.report other settings).cached = false := by decide +kernel
  -- The colors are found in order, so sorting them changes nothing.
  have hscan : (Session.scanOf (fun _ _ => (text, 3)) other settings).marks
      = Source.literalMarks { text } .background ⟨0, 47⟩ := by
    have hlines : (Viewport.ofVisible other.visible settings.viewportBuffer).clamp?
        other.lineCount = some ⟨0, 2⟩ := by decide +kernel
    have hwindow : Source.window? { text } ⟨0, 2⟩ = some ⟨0, 47⟩ := by decide +kernel
    have hcodes : Scan.shownBy { text } ⟨0, 2⟩ ⟨0, 47⟩ settings .gameText = [] := by
      decide +kernel
    have htexts : Scan.shownBy { text } ⟨0, 2⟩ ⟨0, 47⟩ settings .inlineText = [] := by
      decide +kernel
    rw [Session.scanOf, hlines, Option.elim_some, Scan.ofText, Scan.marks_eq settings hwindow,
      hcodes, htexts]
    exact List.mergeSort_of_pairwise (by decide +kernel)
  rw [hscan] at hmarks
  rw [hcached] at hreport
  refine ⟨?_, ?_, ?_, hcached, hnew, hreport, hhost⟩
  · rw [hscan]
    decide +kernel
  · rw [hmarks]
    decide +kernel
  · rw [hadvisories]
    decide +kernel

end History

end Scene

end Swatch

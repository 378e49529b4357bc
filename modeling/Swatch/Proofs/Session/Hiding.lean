-- SUMMARY: An ignored line is hidden by its number in the source, which may differ from the document's.
import Swatch.Proofs.Session.Whole

/-!
# Hiding a line

A line is ignored by the number that the document gives it, and a pass hides the marks
that the source puts on a line of that number. The two numbers of a place differ by the
breaks before it that are not ordinary. So to ignore a line hides what stands on it, and
nothing else, just if none of the marks stands behind such a break.
-/

namespace Swatch

/-- Two conditions keep the same elements just if they agree on all of them. -/
theorem filter_eq_filter_iff {α : Type} {l : List α} {p q : α → Bool} :
    l.filter p = l.filter q ↔ ∀ x ∈ l, p x = q x := by
  refine ⟨fun h x hx => ?_, List.filter_congr⟩
  have hmem : x ∈ l.filter p ↔ x ∈ l.filter q := by rw [h]
  rw [List.mem_filter, List.mem_filter] at hmem
  rw [Bool.eq_iff_iff]
  exact ⟨fun hp => (hmem.1 ⟨hx, hp⟩).2, fun hq => (hmem.2 ⟨hx, hq⟩).2⟩

namespace Session

section Run

variable {s : Session} {contents : Contents} {v : EditorView} {settings : Settings} {host : Host}

/-- Unless the limit has been reported before, a pass that finds too many places notes it. -/
theorem finish_length_le {window : Viewport} {scan : Scan} {cached : Bool}
    (hreported : s.reportedLimit = none)
    (hnote : ∀ a ∈ (s.finish v window settings scan cached host).1.advisories, a.isCrashRisk) :
    (s.unignored v.key scan).length ≤ settings.maxDecorations := by
  refine Nat.le_of_not_lt fun hgt => ?_
  have hmem : Advisory.capacityExceeded settings.maxDecorations (s.unignored v.key scan).length
      ∈ (s.finish v window settings scan cached host).1.advisories := by
    simp [finish, hreported, hgt]
  exact absurd (hnote _ hmem) (by simp [Advisory.isCrashRisk])

/-- A pass without such a note shows all marks that are not ignored. -/
theorem run_marks_of_isCrashRisk (hf : Faithful contents s) (hv : v.Reads contents)
    (hreported : s.reportedLimit = none)
    (hnote : ∀ a ∈ (s.run v settings host).1.advisories, a.isCrashRisk) :
    (s.run v settings host).1.marks
      = (scanOf contents v settings).marks.filter fun m => !s.registry.isIgnored v.key m.line := by
  rw [run_marks hf hv]
  apply List.take_of_length_le
  cases hlines : (Viewport.ofVisible v.visible settings.viewportBuffer).clamp? v.lineCount with
  | none => simp [scanOf, hlines]
  | some lines =>
    obtain ⟨s', cached, hs', -, hrun⟩ := run_eq_finish host hf hv hlines
    have hregistry : s'.registry = s.registry := (congrArg Session.registry hs' :)
    have hlimit : s'.reportedLimit = s.reportedLimit := (congrArg Session.reportedLimit hs' :)
    rw [hrun] at hnote
    have hle := finish_length_le (hlimit.trans hreported) hnote
    rw [unignored_eq, hregistry] at hle
    rw [scanOf, hlines]
    exact hle

end Run

/-! ## One ignored line -/

theorem isIgnored_perform_ignore (now : Nat) (key : DocumentKey) (n : Nat) (content : Text)
    (line : Nat) :
    (perform {} now (.ignore key n content)).2.registry.isIgnored key line = (n == line) := by
  simp [perform, Ignored.Registry.perform, Ignored.Registry.ignore, Ignored.Registry.restore,
    Ignored.Registry.isIgnored, Ignored.Entry.isAt, Ignored.Entry.belongsTo, Path.same]

/-- The number of the mark's line in the source is its number in the document, too: no break before
it is out of the ordinary. -/
def Aligned (d : Document) (m : Mark) : Prop :=
  d.text.extraBreaks (d.text.charsBefore m.extent.start) = 0

instance (d : Document) (m : Mark) : Decidable (Aligned d m) :=
  inferInstanceAs (Decidable (_ = 0))

section Hiding

variable {d : Document} {v : EditorView} {settings : Settings} {host : Host}

/-- In the document, the line of a mark is further down by as many lines as there are breaks before
the mark that are not ordinary. The document has a line of the mark's own number, too. -/
theorem line_of_mem_scanOf {m : Mark}
    (h : m ∈ (scanOf (fun _ _ => (d.text, d.lineCount)) v settings).marks) :
    (d.positionAt m.extent.start).line
        = m.line + d.text.extraBreaks (d.text.charsBefore m.extent.start) ∧
      m.line < d.lineCount := by
  unfold scanOf at h
  cases hlines : (Viewport.ofVisible v.visible settings.viewportBuffer).clamp? v.lineCount with
  | none => simp [hlines] at h
  | some lines =>
    rw [hlines] at h
    obtain ⟨-, hline⟩ := Scan.isEmpty_of_mem h
    have hcount := Source.lineOf_lt_lineCount { text := d.text } m.extent.start
    rw [d.positionAt_line, hline]
    exact ⟨rfl, Nat.lt_of_lt_of_le hcount d.lineCount_le⟩

/-- With one line ignored, a pass in a new session shows what it shows otherwise but for the marks
on the source's line of that number, as long as the limit allows for all marks. -/
theorem run_ignored_marks (now : Nat) (content : Text) (hkey : v.key = d.key)
    (hv : v.Reads fun _ _ => (d.text, d.lineCount))
    (hnote : ∀ a ∈ (run {} v settings host).1.advisories, a.isCrashRisk) (n : Nat) :
    (run (perform {} now (.ignore d.key n content)).2 v settings host).1.marks
      = (run {} v settings host).1.marks.filter fun m => m.line ≠ n := by
  let contents : Contents := fun _ _ => (d.text, d.lineCount)
  have hnew : Faithful contents {} := faithful_forgetScans (s := {})
  have hnew' : Faithful contents (perform {} now (.ignore d.key n content)).2 :=
    faithful_forgetScans (s := (perform {} now (.ignore d.key n content)).2)
  have hall : (run {} v settings host).1.marks = (scanOf contents v settings).marks := by
    rw [run_marks_of_isCrashRisk hnew hv rfl hnote]
    exact List.filter_true _
  have hlength : (run {} v settings host).1.marks.length ≤ settings.maxDecorations := by
    rw [run_marks hnew hv]
    exact List.length_take_le _ _
  rw [run_marks hnew' hv, ← hall, hkey]
  simp only [isIgnored_perform_ignore]
  rw [List.take_of_length_le (Nat.le_trans (List.length_filter_le _ _) hlength)]
  refine List.filter_congr fun m _ => ?_
  rw [Bool.eq_iff_iff, Bool.not_eq_true', beq_eq_false_iff_ne, decide_eq_true_iff]
  exact ne_comm

end Hiding

/-- To ignore a line in a new session hides the marks on the source's line of that number. These are
the marks on the document's line of that number, just if each mark is aligned or stands on neither
of the two. So this holds for all lines of the document just if all marks are aligned, as they are
if all breaks are ordinary. -/
theorem run_hides_line (d : Document) (v : EditorView) (settings : Settings) (host : Host) (now : Nat)
    (content : Text) (hkey : v.key = d.key) (hv : v.Reads fun _ _ => (d.text, d.lineCount))
    (hnote : ∀ a ∈ (run {} v settings host).1.advisories, a.isCrashRisk) :
    let shown := (run {} v settings host).1.marks
    let left (n : Nat) :=
      (run (perform {} now (.ignore d.key n content)).2 v settings host).1.marks
    let elsewhere (n : Nat) := shown.filter fun m => (d.positionAt m.extent.start).line ≠ n
    (∀ n, left n = shown.filter fun m => m.line ≠ n) ∧
      (∀ n, left n = elsewhere n ↔
        ∀ m ∈ shown, Aligned d m ∨ m.line ≠ n ∧ (d.positionAt m.extent.start).line ≠ n) ∧
      ((∀ n < d.lineCount, left n = elsewhere n) ↔ ∀ m ∈ shown, Aligned d m) ∧
      (d.text.OrdinaryBreaks → ∀ n, left n = elsewhere n) := by
  intro shown left elsewhere
  have hleft (n : Nat) : left n = shown.filter fun m => m.line ≠ n :=
    run_ignored_marks now content hkey hv hnote n
  have hline (m : Mark) (hm : m ∈ shown) :
      (d.positionAt m.extent.start).line
          = m.line + d.text.extraBreaks (d.text.charsBefore m.extent.start) ∧
        m.line < d.lineCount := by
    have hmarks : shown = _ := run_marks (faithful_forgetScans (s := {})) hv
    rw [hmarks] at hm
    exact line_of_mem_scanOf (List.mem_filter.1 (List.mem_of_mem_take hm)).1
  have hiff (n : Nat) : left n = elsewhere n ↔
      ∀ m ∈ shown, Aligned d m ∨ m.line ≠ n ∧ (d.positionAt m.extent.start).line ≠ n := by
    rw [hleft, filter_eq_filter_iff]
    refine forall₂_congr fun m hm => ?_
    have hnumber := (hline m hm).1
    rw [decide_eq_decide, Aligned]
    omega
  refine ⟨hleft, hiff, ?_, fun hbreaks n => ?_⟩
  · constructor
    · intro hall m hm
      obtain ⟨-, hlt⟩ := hline m hm
      exact ((hiff m.line).1 (hall m.line hlt) m hm).resolve_right fun hne => hne.1 rfl
    · exact fun hall n _ => (hiff n).2 fun m hm => .inl (hall m hm)
  · exact (hiff n).2 fun m _ => .inl (Text.extraBreaks_eq_zero hbreaks _)

/-- A carriage return in front of the line feed keeps the two numbers the same. -/
theorem run_hides_line_returns :
    let d : Document := { key := ⟨"/p".toList⟩, text := "a\r\n0xFF0000".toList }
    let v := Editor.view { id := 1, document := d, height := 2 }
    let shown := (run {} v {} {}).1.marks
    let left := (run (perform {} 0 (.ignore d.key 1 [])).2 v {} {}).1.marks
    v.key = d.key ∧ v.Reads (fun _ _ => (d.text, d.lineCount)) ∧
      (∀ a ∈ (run {} v {} {}).1.advisories, a.isCrashRisk) ∧
      shown.map (·.extent) = [⟨3, 11⟩] ∧ left = [] ∧
      left = shown.filter fun m => (d.positionAt m.extent.start).line ≠ 1 := by
  intro d v shown left
  have hv : v.Reads fun _ _ => (d.text, d.lineCount) := ⟨rfl, rfl⟩
  have hnote : ∀ a ∈ (run {} v {} {}).1.advisories, a.isCrashRisk := by decide +kernel
  have hshown : shown.map (·.extent) = [⟨3, 11⟩] := by decide +kernel
  have hleft : left = [] := by decide +kernel
  have hbreaks : d.text.OrdinaryBreaks := by decide +kernel
  obtain ⟨-, -, -, hordinary⟩ := run_hides_line d v {} {} 0 [] rfl hv hnote
  exact ⟨rfl, hv, hnote, hshown, hleft, hordinary hbreaks 1⟩

/-- Behind a form feed, what the document shows on its second line stays although that line is
ignored. -/
theorem run_shows_line_behind_form_feed :
    let d : Document := { key := ⟨"/p".toList⟩, text := "\x0c0xFF0000".toList }
    let v := Editor.view { id := 1, document := d, height := 1 }
    let settings : Settings := { viewportBuffer := 0 }
    let shown := (run {} v settings {}).1.marks
    let left := (run (perform {} 0 (.ignore d.key 1 [])).2 v settings {}).1.marks
    v.key = d.key ∧ v.Reads (fun _ _ => (d.text, d.lineCount)) ∧ 1 < d.lineCount ∧
      (∀ a ∈ (run {} v settings {}).1.advisories, a.isCrashRisk) ∧
      ¬ left = shown.filter fun m => (d.positionAt m.extent.start).line ≠ 1 := by
  intro d v settings shown left
  have hv : v.Reads fun _ _ => (d.text, d.lineCount) := ⟨rfl, rfl⟩
  have hline : 1 < d.lineCount := by decide +kernel
  have hnote : ∀ a ∈ (run {} v settings {}).1.advisories, a.isCrashRisk := by decide +kernel
  have hdiffer : ¬ left = shown.filter fun m => (d.positionAt m.extent.start).line ≠ 1 := by
    decide +kernel
  exact ⟨rfl, hv, hline, hnote, hdiffer⟩

end Session

end Swatch

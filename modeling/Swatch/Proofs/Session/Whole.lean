-- SUMMARY: A pass over all lines of a document shows what a scan of the whole text finds.
import Swatch.Proofs.Scan.Window
import Swatch.Proofs.Session.Cache
import Swatch.Proofs.Source.Documents

/-!
# Passes over whole documents

A document and a source count lines differently: a document breaks its text at every line
break, a source at line feeds only. A carriage return in front of a line feed ends one
line for both. Any other break gives the document a line that the source lacks.

A pass takes the numbers of its window from the document and looks them up in the
source. So a pass over all lines sees the whole text if every break is a line feed, alone
or behind a carriage return, and sees nothing if there is any other break.
-/

namespace Swatch

/-! ## Views of everything -/

/-- A view of a document that shows all lines of it. Line numbers are 64-bit words. -/
structure EditorView.ShowsAll (v : EditorView) (d : Document) : Prop where
  key_eq : v.key = d.key
  text_eq : v.text = some d.text
  lineCount_eq : v.lineCount = d.lineCount
  shown : ∀ line < d.lineCount, ∃ lines ∈ v.visible, line ∈ lines
  words : ∀ lines ∈ v.visible, lines.last ≤ maxWord

/-- Whatever the margin is, the window around all lines is all lines. -/
theorem EditorView.ShowsAll.clamp?_eq {v : EditorView} {d : Document} (h : v.ShowsAll d)
    (margin : Nat) :
    (Viewport.ofVisible v.visible margin).clamp? v.lineCount = some ⟨0, d.lineCount - 1⟩ := by
  have hpos := d.lineCount_pos
  have hfirst : (v.visible.map LineRange.first).min?.getD 0 = 0 := by
    obtain ⟨lines, hmem, hline⟩ := h.shown 0 hpos
    have hle := List.min?_getD_le_of_mem (k := 0) (List.mem_map_of_mem (f := LineRange.first) hmem)
    exact Nat.le_zero.1 (Nat.le_trans hle hline.1)
  obtain ⟨lines, hmem, hline⟩ := h.shown (d.lineCount - 1) (Nat.sub_one_lt_of_lt hpos)
  have hlast : lines.last ≤ (v.visible.map LineRange.last).max?.getD 0 :=
    List.le_max?_getD_of_mem (List.mem_map_of_mem hmem)
  have hword := h.words lines hmem
  have hle := hline.2
  simp only [Viewport.clamp?, Viewport.ofVisible, hfirst, h.lineCount_eq, Nat.zero_sub, hpos,
    if_true, Option.some.injEq, LineRange.mk.injEq, true_and]
  omega

/-- An editor that starts at the first line and is high enough shows all lines. -/
theorem Editor.showsAll_view {e : Editor} (htop : e.top = 0) (hheight : e.document.lineCount ≤ e.height)
    (hword : e.height ≤ UInt64.size) : e.view.ShowsAll e.document where
  key_eq := rfl
  text_eq := rfl
  lineCount_eq := rfl
  shown line hline := by
    have hvisible : e.visible = ⟨0, e.height - 1⟩ := by
      rw [visible, htop, Nat.zero_add, Nat.mod_eq_of_lt (by omega)]
    have hlast : line ≤ e.height - 1 := by omega
    exact ⟨_, List.mem_singleton.2 hvisible.symm, Nat.zero_le line, hlast⟩
  words lines hlines := by
    obtain rfl := List.mem_singleton.1 hlines
    exact Nat.le_sub_one_of_lt (Nat.mod_lt _ (by decide))

/-! ## Scans of all lines of a document -/

namespace Scan

/-- Lines behind the last line of a source have nothing on them. -/
theorem ofLines_of_lineCount_le {s : Source} {lines : LineRange} (h : s.lineCount ≤ lines.last)
    (settings : Settings) : ofLines s lines settings = {} := by
  have hwindow : s.window? lines = none := by
    simp [Source.window?, List.getElem?_eq_none (l := s.lines) h]
  rw [ofLines, hwindow]

theorem ofText_documentLines {d : Document} (h : d.text.OrdinaryBreaks) (settings : Settings) :
    ofText d.text ⟨0, d.lineCount - 1⟩ settings
      = ofText d.text (Source.allLines { text := d.text }) settings := by
  rw [Source.allLines, ← Document.lineCount_eq_iff.2 h]

theorem ofText_documentLines_of_not {d : Document} (h : ¬ d.text.OrdinaryBreaks)
    (settings : Settings) : ofText d.text ⟨0, d.lineCount - 1⟩ settings = {} := by
  have hne := mt Document.lineCount_eq_iff.1 h
  have hle := d.lineCount_le
  exact ofLines_of_lineCount_le (by dsimp only; omega) settings

end Scan

/-! ## Passes -/

namespace Session

/-- In a new session without ignored lines, a pass over all lines of a document shows the first
marks of a scan of the whole text if all breaks are ordinary, and none otherwise. If the limit
allows for all marks, it thus shows them all just if the breaks are ordinary or there are no
marks. -/
theorem run_all_lines (r : Ignored.Registry) (d : Document) (v : EditorView) (settings : Settings)
    (host : Host) (hignored : ∀ line, r.isIgnored d.key line = false) (hview : v.ShowsAll d) :
    let report := (run { registry := r } v settings host).1
    let whole := Scan.ofText d.text (Source.allLines { text := d.text }) settings
    (d.text.OrdinaryBreaks → report.marks = whole.marks.take settings.maxDecorations) ∧
    (¬ d.text.OrdinaryBreaks → report.marks = []) ∧
    (whole.marks.length ≤ settings.maxDecorations →
      (report.marks = whole.marks ↔ d.text.OrdinaryBreaks ∨ whole.marks = [])) := by
  intro report whole
  have hnew : Faithful (fun _ _ => (d.text, d.lineCount)) { registry := r } := by
    intro key c hget
    cases hget
  have hmarks : report.marks
      = (Scan.ofText d.text ⟨0, d.lineCount - 1⟩ settings).marks.take settings.maxDecorations := by
    have hrun : report.marks
        = ((scanOf (fun _ _ => (d.text, d.lineCount)) v settings).marks.filter
            fun m => !r.isIgnored v.key m.line).take settings.maxDecorations :=
      run_marks hnew ⟨hview.text_eq, hview.lineCount_eq⟩
    simpa [scanOf, hview.clamp?_eq, hview.key_eq, hignored] using hrun
  have hsome (h : d.text.OrdinaryBreaks) :
      report.marks = whole.marks.take settings.maxDecorations := by
    rw [hmarks, Scan.ofText_documentLines h]
  have hnone (h : ¬ d.text.OrdinaryBreaks) : report.marks = [] := by
    rw [hmarks, Scan.ofText_documentLines_of_not h, List.take_nil]
  refine ⟨hsome, hnone, fun hlimit => ?_⟩
  constructor
  · intro heq
    by_contra hboth
    obtain ⟨hbreaks, hfound⟩ := not_or.1 hboth
    exact hfound (heq.symm.trans (hnone hbreaks))
  · intro h
    by_cases hbreaks : d.text.OrdinaryBreaks
    · rw [hsome hbreaks, List.take_of_length_le hlimit]
    · rw [hnone hbreaks, h.resolve_left hbreaks]

/-- A carriage return in front of the line feed does no harm. -/
theorem run_all_lines_returns :
    let d : Document := { key := ⟨"/p".toList⟩, text := "0xFF0000\r\n".toList }
    let v := Editor.view { id := 1, document := d, height := 2 }
    let report := (run {} v {} {}).1
    let whole := Scan.ofText d.text (Source.allLines { text := d.text }) {}
    v.ShowsAll d ∧ d.text.OrdinaryBreaks ∧ report.marks.map (·.extent) = [⟨0, 8⟩] ∧
      report.marks = whole.marks := by
  intro d v report whole
  have hview : v.ShowsAll d := Editor.showsAll_view rfl (by decide +kernel) (by decide)
  have hbreaks : d.text.OrdinaryBreaks := by decide +kernel
  have hfound : whole.marks.map (·.extent) = [⟨0, 8⟩] := by decide +kernel
  obtain ⟨-, -, hall⟩ := run_all_lines {} d v {} {} (fun _ => rfl) hview
  have hlimit : whole.marks.length ≤ ({} : Settings).maxDecorations := by decide +kernel
  have hsame := (hall hlimit).2 (.inl hbreaks)
  exact ⟨hview, hbreaks, hsame ▸ hfound, hsame⟩

/-- A line separator gives the document a line that the source lacks, and the pass shows nothing. -/
theorem run_all_lines_separator :
    let d : Document := { key := ⟨"/p".toList⟩, text := "0xFF0000\u2028".toList }
    let v := Editor.view { id := 1, document := d, height := 2 }
    let report := (run {} v {} {}).1
    let whole := Scan.ofText d.text (Source.allLines { text := d.text }) {}
    v.ShowsAll d ∧ whole.marks.length ≤ ({} : Settings).maxDecorations ∧
      ¬ report.marks = whole.marks := by
  intro d v report whole
  have hview : v.ShowsAll d := Editor.showsAll_view rfl (by decide +kernel) (by decide)
  have hlimit : whole.marks.length ≤ ({} : Settings).maxDecorations := by decide +kernel
  have hdiffer : ¬ report.marks = whole.marks := by decide +kernel
  exact ⟨hview, hlimit, hdiffer⟩

end Session

end Swatch

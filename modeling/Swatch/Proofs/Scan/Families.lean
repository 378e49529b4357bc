-- SUMMARY: A scan finds what each family would find alone, whatever the settings of the others are.
import Swatch.Proofs.Scan.Apart

/-!
# Families that leave each other alone

Strings that codes or braced colors cover are not colored as arguments, so one family
bears on another. But what is covered is a matter of the text: a family covers the same
places whether it is shown or not, and in whatever style. So a scan finds the marks that
each family gives by its own settings, and its warnings do not depend on settings at all.
-/

namespace Swatch

inductive FamilyName where
  | hex
  | gameText
  | inlineText
  deriving DecidableEq, Repr

namespace Settings

def family (settings : Settings) : FamilyName → Family
  | .hex => settings.hex
  | .gameText => settings.gameText
  | .inlineText => settings.inlineText

/-- The settings with another family for a name. -/
def withFamily (settings : Settings) (name : FamilyName) (family : Family) : Settings :=
  match name with
  | .hex => { settings with hex := family }
  | .gameText => { settings with gameText := family }
  | .inlineText => { settings with inlineText := family }

/-- The settings with a family switched off. -/
def without (settings : Settings) (name : FamilyName) : Settings :=
  settings.withFamily name { settings.family name with enabled := false }

/-- The settings with all families but one switched off. -/
def only (settings : Settings) : FamilyName → Settings
  | .hex => (settings.without .gameText).without .inlineText
  | .gameText => (settings.without .hex).without .inlineText
  | .inlineText => (settings.without .hex).without .gameText

theorem family_withFamily_of_ne {name other : FamilyName} (hne : name ≠ other)
    (settings : Settings) (family : Family) :
    (settings.withFamily other family).family name = settings.family name := by
  cases name <;> cases other <;> first | rfl | exact absurd rfl hne

end Settings

/-- The marks of a family in a window, if they have a style. -/
def Source.familyMarks (s : Source) (lines : LineRange) (window : Interval) (style : Style) :
    FamilyName → List Mark
  | .hex => s.literalMarks style window
  | .gameText => (s.stringsIn lines).flatMap (s.codeMarks style)
  | .inlineText =>
    (s.stringsIn lines).flatMap (s.inlineMarks style)
      ++ s.argumentMarks style (s.cover (s.stringsIn lines)) window

namespace Scan

theorem ofFamily_append (f : Family) (marks marks' : Style → List Mark) :
    ofFamily f marks ++ ofFamily f marks' = ofFamily f fun style => marks style ++ marks' style := by
  unfold ofFamily
  split
  · rfl
  · rfl

variable {s : Source} {lines : LineRange} {window : Interval}

/-- The marks that a family gives by its own settings. -/
def shownBy (s : Source) (lines : LineRange) (window : Interval) (settings : Settings)
    (name : FamilyName) : List Mark :=
  ofFamily (settings.family name) fun style => s.familyMarks lines window style name

/-- A family that is switched off gives nothing, and the last one is as it was. -/
theorem shownBy_only (settings : Settings) (name other : FamilyName) :
    shownBy s lines window (settings.only name) other
      = if other = name then shownBy s lines window settings other else [] := by
  cases name <;> cases other <;> rfl

theorem shownBy_withFamily_of_ne {name other : FamilyName} (hne : name ≠ other)
    (settings : Settings) (family : Family) :
    shownBy s lines window (settings.withFamily other family) name
      = shownBy s lines window settings name := by
  rw [shownBy, shownBy, Settings.family_withFamily_of_ne hne]

/-- A scan finds what the families give. -/
theorem marks_eq (settings : Settings) (hwindow : s.window? lines = some window) :
    (ofLines s lines settings).marks
      = (shownBy s lines window settings .gameText ++ shownBy s lines window settings .inlineText
          ++ shownBy s lines window settings .hex).mergeSort fun m n => m.extent.le n.extent := by
  simp only [ofLines, hwindow, List.append_assoc, shownBy, Settings.family, Source.familyMarks]
  rw [← List.append_assoc (ofFamily settings.inlineText _), ofFamily_append]

/-- With the other families switched off, a scan finds what one family gives. -/
theorem marks_only (settings : Settings) (name : FamilyName)
    (hwindow : s.window? lines = some window) :
    (ofLines s lines (settings.only name)).marks
      = (shownBy s lines window settings name).mergeSort fun m n => m.extent.le n.extent := by
  rw [marks_eq _ hwindow, shownBy_only, shownBy_only, shownBy_only]
  cases name <;> simp

theorem perm_marks_only (s : Source) (lines : LineRange) (settings : Settings) :
    (ofLines s lines settings).marks.Perm
      ((ofLines s lines (settings.only .hex)).marks
        ++ (ofLines s lines (settings.only .gameText)).marks
        ++ (ofLines s lines (settings.only .inlineText)).marks) := by
  cases hwindow : s.window? lines with
  | none => simp [ofLines, hwindow]
  | some window =>
    rw [marks_eq _ hwindow, marks_only _ .hex hwindow, marks_only _ .gameText hwindow,
      marks_only _ .inlineText hwindow]
    refine (List.mergeSort_perm _ _).trans ?_
    refine List.perm_append_comm.trans ?_
    rw [← List.append_assoc]
    exact (((List.mergeSort_perm _ _).append (List.mergeSort_perm _ _)).append
      (List.mergeSort_perm _ _)).symm

theorem marks_only_withFamily (s : Source) (lines : LineRange) (settings : Settings)
    {name other : FamilyName} (hne : name ≠ other) (family : Family) :
    (ofLines s lines ((settings.withFamily other family).only name)).marks
      = (ofLines s lines (settings.only name)).marks := by
  cases hwindow : s.window? lines with
  | none => simp [ofLines, hwindow]
  | some window =>
    rw [marks_only _ name hwindow, marks_only _ name hwindow, shownBy_withFamily_of_ne hne]

theorem advisories_eq (s : Source) (lines : LineRange) (settings settings' : Settings) :
    (ofLines s lines settings).advisories = (ofLines s lines settings').advisories := by
  unfold ofLines
  split
  · rfl
  · rfl

/-- A scan finds the marks of three scans in each of which one family is as it was and the other two
are switched off. Its warnings are the same for all settings. What a family gives alone does not
change if another family is switched on or off or gets another style. -/
theorem marks_by_family (text : Text) (lines : LineRange) (settings : Settings) :
    let scan := ofText text lines
    (scan settings).marks.Perm
        ((scan (settings.only .hex)).marks ++ (scan (settings.only .gameText)).marks
          ++ (scan (settings.only .inlineText)).marks) ∧
      (∀ settings', (scan settings').advisories = (scan settings).advisories) ∧
      ∀ name other family, name ≠ other →
        (scan ((settings.withFamily other family).only name)).marks
          = (scan (settings.only name)).marks := by
  intro scan
  refine ⟨perm_marks_only _ lines settings, fun settings' => ?_, fun name other family hne => ?_⟩
  · exact advisories_eq _ lines settings' settings
  · exact marks_only_withFamily _ lines settings hne family

/-- Codes that are not shown cover their string all the same, so the string in front of which a
literal stands is not colored as an argument; one without codes is. -/
theorem marks_by_family_hidden_codes :
    let text : Text := "Foo(0xFF0000FF, \"~r~Red\"); Foo(0xFF0000FF, \"Plain\");".toList
    let hidden : Settings := Settings.withFamily {} .gameText { enabled := false }
    FamilyName.inlineText ≠ .gameText ∧
      (ofText text ⟨0, 0⟩ (Settings.only {} .inlineText)).marks.map (·.extent) = [⟨44, 49⟩] ∧
      (ofText text ⟨0, 0⟩ (hidden.only .inlineText)).marks
        = (ofText text ⟨0, 0⟩ (Settings.only {} .inlineText)).marks := by
  intro text hidden
  have hne : FamilyName.inlineText ≠ .gameText := by decide
  obtain ⟨-, -, halone⟩ := marks_by_family text ⟨0, 0⟩ {}
  exact ⟨hne, by decide +kernel, halone .inlineText .gameText { enabled := false } hne⟩

end Scan

end Swatch

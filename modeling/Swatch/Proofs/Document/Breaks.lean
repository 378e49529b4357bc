-- SUMMARY: Line breaks other than line feeds, and how far they move the lines of a document.
import Swatch.Proofs.Document.Lines

/-!
# Ordinary line breaks

A document breaks its text at every line break. A break is ordinary if it is a line feed,
or a carriage return in front of one; the two end one line together. Where all breaks are
ordinary there are as many lines as line feeds tell, and from any other break on the
document counts one line more.
-/

namespace Swatch

namespace Text

/-- Every line break is a line feed, or a carriage return in front of one. -/
def OrdinaryBreaks : Text → Prop
  | [] => True
  | c :: t => (isLineBreak c → c = '\n' ∨ c = '\r' ∧ t.head? = some '\n') ∧ OrdinaryBreaks t

instance decidableOrdinaryBreaks : (t : Text) → Decidable t.OrdinaryBreaks
  | [] => inferInstanceAs (Decidable True)
  | c :: t =>
    have := decidableOrdinaryBreaks t
    inferInstanceAs (Decidable ((isLineBreak c → c = '\n' ∨ c = '\r' ∧ t.head? = some '\n') ∧ _))

theorem OnlyFeeds.ordinaryBreaks {t : Text} (h : t.OnlyFeeds) : t.OrdinaryBreaks := by
  induction t with
  | nil => trivial
  | cons c t ih =>
    have hc : isLineBreak c → c = '\n' := h c List.mem_cons_self
    exact ⟨fun hbreak => .inl (hc hbreak), ih (OnlyFeeds.right (s := [c]) h)⟩

/-- How many of the first characters are line breaks that are not ordinary. -/
def extraBreaks : Text → Nat → Nat
  | [], _ => 0
  | _ :: _, 0 => 0
  | c :: t, n + 1 =>
    (if isLineBreak c → c = '\n' ∨ c = '\r' ∧ t.head? = some '\n' then 0 else 1) + extraBreaks t n

@[simp] theorem extraBreaks_zero (t : Text) : t.extraBreaks 0 = 0 := by
  cases t <;> rfl

theorem extraBreaks_eq_zero {t : Text} (h : t.OrdinaryBreaks) (n : Nat) : t.extraBreaks n = 0 := by
  induction t generalizing n with
  | nil => rfl
  | cons c t ih =>
    cases n with
    | zero => rfl
    | succ n => rw [extraBreaks, if_pos h.1, ih h.2]

/-- The breaks among the first characters of two joined texts. -/
theorem extraBreaks_append (s t : Text) (n : Nat) :
    extraBreaks (s ++ t) (s.length + n) = extraBreaks (s ++ t) s.length + t.extraBreaks n := by
  induction s with
  | nil => cases t <;> simp [extraBreaks]
  | cons c s ih =>
    rw [List.length_cons, Nat.add_right_comm, List.cons_append, extraBreaks, extraBreaks, ih,
      Nat.add_assoc]

end Text

/-! ## Lines -/

/-- A document has a line for each line feed and one more, and further lines if some breaks are not
ordinary. -/
theorem length_documentLines (t : Text) :
    t.count '\n' + 1 ≤ (documentLines t).length ∧
      ((documentLines t).length = t.count '\n' + 1 ↔ t.OrdinaryBreaks) := by
  fun_induction documentLines t with
  | case1 => simp [Text.OrdinaryBreaks]
  | case2 t ih => simpa [Text.OrdinaryBreaks, isLineBreak] using ih
  | case3 c t hreturn hbreak ih =>
    have hhead : c = '\r' → t.head? ≠ some '\n' := by
      rintro rfl hhead
      obtain ⟨rest, rfl⟩ := List.head?_eq_some_iff.1 hhead
      exact hreturn rest rfl rfl
    by_cases hc : c = '\n'
    · subst hc
      simpa [Text.OrdinaryBreaks] using ih
    · -- The break is not ordinary: the document has a line more than there are line feeds.
      have hnot : ¬ Text.OrdinaryBreaks (c :: t) := fun h =>
        (h.1 hbreak).elim hc fun hboth => hhead hboth.1 hboth.2
      simp only [List.length_cons, List.count_cons_of_ne hc, hnot, iff_false]
      omega
  | case4 c t hreturn hbreak line lines hlines ih =>
    have hc : c ≠ '\n' := by
      rintro rfl
      exact hbreak (by decide)
    simpa [Text.OrdinaryBreaks, hbreak, List.count_cons_of_ne hc, hlines] using ih
  | case5 c t _ _ heq => exact absurd heq (documentLines_ne_nil t)

/-- Only line feeds start lines, if all breaks are ordinary: a carriage return is put on the line of
its line feed. -/
theorem documentLines_cons_of_ne {c : Char} (hc : c ≠ '\n') {t line : Text} {lines : List Text}
    (hbreaks : Text.OrdinaryBreaks (c :: t)) (h : documentLines t = line :: lines) :
    documentLines (c :: t) = (c :: line) :: lines := by
  by_cases hbreak : isLineBreak c
  · obtain ⟨rfl, hhead⟩ := (hbreaks.1 hbreak).resolve_left hc
    obtain ⟨rest, rfl⟩ := List.head?_eq_some_iff.1 hhead
    rw [documentLines_feed] at h
    obtain ⟨rfl, rfl⟩ := List.cons.inj h
    rw [documentLines]
  · exact documentLines_cons_of_not hbreak h

namespace Position

/-! ## The line of a place -/

/-- A place behind the first line is a place of the other lines. -/
theorem locate_length_add (start : Nat) (line : Text) {lines : List Text} (h : lines ≠ [])
    (index : Nat) :
    locate start (line :: lines) (index + line.length) = locate (start + 1) lines index := by
  obtain ⟨line', lines, rfl⟩ := List.exists_cons_of_ne_nil h
  rw [locate, if_neg (by omega), Nat.add_sub_cancel]

/-- A place inside the first line is on it. -/
theorem locate_line_of_lt (start : Nat) {line : Text} (lines : List Text) {index : Nat}
    (h : index < line.length) : (locate start (line :: lines) index).line = start := by
  cases lines with
  | nil => rfl
  | cons line' lines => rw [locate, if_pos h]

/-- A character put in front of the first line moves places along but leaves them on their lines. -/
theorem locate_line_cons (start : Nat) (c : Char) (line : Text) (lines : List Text) (index : Nat) :
    (locate start ((c :: line) :: lines) (index + 1)).line
      = (locate start (line :: lines) index).line := by
  cases lines with
  | nil => rfl
  | cons line' lines =>
    by_cases hlt : index < line.length
    · rw [locate_line_of_lt _ _ hlt, locate_line_of_lt _ _ (Nat.succ_lt_succ hlt)]
    · rw [locate, locate, if_neg hlt, if_neg (by simpa using hlt), List.length_cons,
        Nat.add_sub_add_right]

/-- The line of a place in a document: one for each line feed before it, and one for each break
before it that is not ordinary. -/
theorem locate_line (t : Text) (start index : Nat) :
    (locate start (documentLines t) index).line
      = start + (t.take index).count '\n' + t.extraBreaks index := by
  fun_induction documentLines t generalizing start index with
  | case1 => simp [locate, Text.extraBreaks]
  | case2 t ih =>
    rcases index with _ | _ | index
    · simp [locate_line_of_lt, Text.extraBreaks]
    · simp [locate_line_of_lt, Text.extraBreaks]
    · have hrest := locate_length_add start ['\r', '\n'] (documentLines_ne_nil t) index
      rw [List.length_cons, List.length_singleton] at hrest
      rw [hrest, ih]
      simp [Text.extraBreaks]
      omega
  | case3 c t hreturn hbreak ih =>
    cases index with
    | zero => simp [locate_line_of_lt, Text.extraBreaks]
    | succ index =>
      have hrest := locate_length_add start [c] (documentLines_ne_nil t) index
      rw [List.length_singleton] at hrest
      rw [hrest, ih, Text.extraBreaks, List.take_succ_cons]
      by_cases hc : c = '\n'
      · simp [hc]
        omega
      · have hnot : ¬ (c = '\r' ∧ t.head? = some '\n') := by
          rintro ⟨hr, hhead⟩
          obtain ⟨rest, rfl⟩ := List.head?_eq_some_iff.1 hhead
          exact hreturn rest hr rfl
        simp [hc, hbreak, hnot, List.count_cons_of_ne hc]
        omega
  | case4 c t hreturn hbreak line lines hlines ih =>
    cases index with
    | zero => simp [locate_line_of_lt, Text.extraBreaks]
    | succ index =>
      have hc : c ≠ '\n' := by
        rintro rfl
        exact hbreak (by decide)
      rw [locate_line_cons, ← hlines, ih]
      simp [Text.extraBreaks, hbreak, List.count_cons_of_ne hc]
  | case5 c t _ _ heq => exact absurd heq (documentLines_ne_nil t)

end Position

end Swatch

-- SUMMARY: Taking an insertion back restores the ignored lines, but for a line that was pushed down and indented.
import Swatch.Proofs.Ignored.Follow
import Mathlib.Data.List.Basic

/-!
# Taking an insertion back

An insertion is taken back by deleting what it has put in: from its place to the place
behind its text. If the text has no line feed, neither edit moves a line. If it has, the
insertion pushes all lines down that it stands in front of, and the deletion moves them up
again.

The line that the insertion stands right in front of is pushed down as a whole, even if the
text ends inside a line, so that the line then starts with the end of the text. To delete
this end is to remove a part of the line, and an edit that stops inside a line swallows it.
So this line does not come back.
-/

namespace Swatch

/-- The place behind a text that is put in at a place, counting only line feeds as breaks. -/
def Position.behind (p : Position) (t : Text) : Position :=
  if '\n' ∈ t then ⟨p.line + (after t).line, (after t).column⟩ else ⟨p.line, p.column + t.length⟩

theorem Position.after_column_eq_zero_iff {t : Text} (hfeed : '\n' ∈ t) :
    (after t).column = 0 ↔ t.getLast? = some '\n' := by
  rw [after_column, List.length_eq_zero_iff, Text.lastPart, List.reverse_eq_nil_iff,
    Text.firstPart_eq_nil_iff, List.reverse_eq_nil_iff, List.head?_reverse]
  exact or_iff_right (List.ne_nil_of_mem hfeed)

namespace Ignored

/-! ## One line -/

section OneLine

variable {line : Nat} {p : Position} {t : Text}

/-- A text that is put in at a place pushes a line down and stands in front of what the line
reads. -/
structure Indents (p : Position) (t : Text) : Prop where
  starts_in_front : p.column = 0
  breaks : '\n' ∈ t
  ends_inside : t.getLast? ≠ some '\n'

theorem indents_iff : Indents p t ↔ p.column = 0 ∧ '\n' ∈ t ∧ t.getLast? ≠ some '\n' :=
  ⟨fun h => ⟨h.1, h.2, h.3⟩, fun h => ⟨h.1, h.2.1, h.2.2⟩⟩

instance (p : Position) (t : Text) : Decidable (Indents p t) :=
  decidable_of_iff' _ indents_iff

/-- A deletion of line feeds moves a line up that stands behind it, and the line that it stops on if
it stops in front of it. -/
theorem moveLine_deletion {p q : Position} (hlines : p.line < q.line) {n : Nat}
    (hword : q.line + n < signedLimit) :
    moveLine (q.line + n) ⟨p, q, []⟩
      = if n = 0 ∧ q.column ≠ 0 then none else some (p.line + n) := by
  have hdelta : Edit.lineDelta ⟨p, q, []⟩ = (p.line : Int) - q.line := by
    have hadded : Edit.linesAdded ⟨p, q, []⟩ = 0 := rfl
    have hremoved : Edit.linesRemoved ⟨p, q, []⟩ = q.line - p.line := rfl
    rw [Edit.lineDelta, hadded, hremoved, bmod_size_eq (by omega) (by omega)]
    omega
  have hshift : shiftLine (q.line + n) (p.line - q.line) = p.line + n := by
    have hmoved := shiftLine_eq (q.line + n) (p.line - q.line) (by omega) (by omega)
    omega
  have hnonzero : (p.line : Int) - q.line ≠ 0 := by omega
  cases n with
  | zero =>
    by_cases hcolumn : q.column = 0
    · simpa [moveLine, fate, hcolumn, hdelta, hnonzero, show ¬ q.line < p.line by omega,
        show q.line ≠ p.line by omega] using hshift
    · simp [moveLine, fate, hcolumn, show ¬ q.line < p.line by omega,
        show q.line ≠ p.line by omega]
  | succ n =>
    simpa [moveLine, fate, hdelta, hnonzero, show ¬ q.line + (n + 1) < p.line by omega,
      show q.line + (n + 1) ≠ p.line by omega] using hshift

/-- A line that an insertion has pushed down moves up again when the insertion is deleted, unless
the deletion has to stop inside of it. -/
theorem moveLine_back (hfeed : '\n' ∈ t) {n : Nat}
    (hword : p.line + n + t.count '\n' < signedLimit) :
    moveLine (p.line + n + t.count '\n') ⟨p, p.behind t, []⟩
      = if n = 0 ∧ t.getLast? ≠ some '\n' then none else some (p.line + n) := by
  have hpos : 0 < t.count '\n' := List.count_pos_iff.2 hfeed
  have hbehind : p.behind t = ⟨p.line + t.count '\n', (Position.after t).column⟩ := if_pos hfeed
  have hmoved : p.line + n + t.count '\n' = p.line + t.count '\n' + n := Nat.add_right_comm _ _ _
  have hdeletion := moveLine_deletion
    (p := p) (q := ⟨p.line + t.count '\n', (Position.after t).column⟩)
    (Nat.lt_add_of_pos_right hpos) (hmoved ▸ hword)
  rw [hbehind, hmoved, hdeletion]
  exact if_congr (and_congr_right' (Position.after_column_eq_zero_iff hfeed).not) rfl rfl

/-- A line comes back to its place when an insertion is taken back, unless it was pushed down and
indented. -/
theorem moveLines_undo (hword : p.line ≤ line → '\n' ∈ t → line + t.count '\n' < signedLimit) :
    moveLines line [⟨p, p, t⟩, ⟨p, p.behind t, []⟩]
      = if line = p.line ∧ Indents p t then none else some line := by
  rw [moveLines_pair]
  by_cases hfeed : '\n' ∈ t
  · rcases Nat.lt_or_ge line p.line with habove | hbelow
    · rw [moveLine_of_lt habove, Option.bind_some, moveLine_of_lt habove, if_neg (by omega)]
    obtain ⟨n, rfl⟩ := Nat.exists_eq_add_of_le hbelow
    have hword := hword hbelow hfeed
    rw [moveLine_insertion hfeed hword, Option.bind_some]
    by_cases hinside : n = 0 ∧ p.column ≠ 0
    · -- The insertion starts inside the line, so it stays where it is.
      obtain ⟨rfl, hcolumn⟩ := hinside
      have hindents : ¬ Indents p t := fun h => hcolumn h.starts_in_front
      rw [if_pos (.inr ⟨rfl, hcolumn⟩), if_neg (fun h => hindents h.2)]
      exact moveLine_of_start (e := ⟨p, p.behind t, []⟩) hcolumn
    · -- The insertion pushes the line down, and the deletion stops above it or on it.
      rw [if_neg (by omega), moveLine_back hfeed hword]
      refine if_congr ?_ rfl rfl
      rw [indents_iff, Nat.add_eq_left]
      constructor
      · rintro ⟨rfl, hend⟩
        exact ⟨rfl, by simpa using hinside, hfeed, hend⟩
      · rintro ⟨hn, -, -, hend⟩
        exact ⟨hn, hend⟩
  · have hinsertion : moveLine line ⟨p, p, t⟩ = some line :=
      moveLine_of_one_line rfl (List.count_eq_zero.2 hfeed)
    have hdeletion : moveLine line ⟨p, p.behind t, []⟩ = some line :=
      moveLine_of_one_line (by rw [Position.behind, if_neg hfeed]) rfl
    rw [hinsertion, Option.bind_some, hdeletion, if_neg fun h => hfeed h.2.breaks]

end OneLine

/-! ## All ignored lines -/

/-- Two events with one edit each. -/
theorem Registry.moveAll_single_single (r : Registry) (key : DocumentKey) (e f : Edit) :
    ((r.moveAll key [e]).1.moveAll key [f]).1.entries
      = r.entries.filterMap fun entry => entry.follow key [e, f] := by
  rw [moveAll_entries, moveAll_entries, lastFirst_single, lastFirst_single, List.filterMap_filterMap]
  simp only [← Entry.follow_append, List.singleton_append]

/-- An insertion that is taken back by deleting what it has put in leaves all entries as they were,
if their numbers stay signed words on the way; but it takes away the entries of a line that it
pushes down and indents. -/
theorem Registry.moveAll_undo (r : Registry) (key : DocumentKey) (p : Position) (t : Text)
    (hword : ∀ entry ∈ r.entries, entry.belongsTo key → p.line ≤ entry.line → '\n' ∈ t →
      entry.line + t.count '\n' < signedLimit) :
    ((r.moveAll key [⟨p, p, t⟩]).1.moveAll key [⟨p, p.behind t, []⟩]).1.entries
      = if Indents p t then r.entries.filter (!·.isAt key p.line) else r.entries := by
  have hentry (entry : Entry) (hmem : entry ∈ r.entries) :
      entry.follow key [⟨p, p, t⟩, ⟨p, p.behind t, []⟩]
        = Option.guard (fun entry => !(entry.isAt key p.line && decide (Indents p t))) entry := by
    by_cases hkey : entry.belongsTo key
    · rw [Entry.follow, if_pos hkey, moveLines_undo (hword entry hmem hkey)]
      by_cases hlost : entry.line = p.line ∧ Indents p t <;>
        simp [Option.guard, Entry.isAt, hkey, hlost]
    · simp [Entry.follow, Option.guard, Entry.isAt, hkey]
  rw [moveAll_single_single, List.filterMap_congr hentry, List.filterMap_eq_filter]
  split
  · next hindents => simp [hindents]
  · next hindents => simp [hindents]

/-- Lines are put in front of the fifth line, and the last of them does not end: the entry below
comes back, and that of the fifth line does not. -/
theorem Registry.moveAll_undo_two_entries :
    let key : DocumentKey := ⟨['/', 'p']⟩
    let fifth : Entry := ⟨['/', 'p'], 4, ['k'], 7⟩
    let tenth : Entry := ⟨['/', 'p'], 9, ['m'], 7⟩
    let t : Text := ['a', '\n', 'b', 'c']
    Position.behind ⟨4, 0⟩ t = ⟨5, 2⟩ ∧
      (((Registry.mk [tenth, fifth]).moveAll key [⟨⟨4, 0⟩, ⟨4, 0⟩, t⟩]).1.moveAll key
        [⟨⟨4, 0⟩, Position.behind ⟨4, 0⟩ t, []⟩]).1.entries = [tenth] := by
  intro key fifth tenth t
  exact ⟨by decide, (moveAll_undo ⟨[tenth, fifth]⟩ key ⟨4, 0⟩ t (by decide)).trans (by decide)⟩

/-- A line break and a character are put in front of an ignored line and deleted again: the line is
no longer ignored. -/
theorem Registry.moveAll_undo_loses_indented_line :
    let key : DocumentKey := ⟨['/', 'p']⟩
    let entry : Entry := ⟨['/', 'p'], 4, ['k'], 7⟩
    let insertion : Edit := ⟨⟨4, 0⟩, ⟨4, 0⟩, ['\n', 'b']⟩
    let deletion : Edit := ⟨⟨4, 0⟩, Position.behind ⟨4, 0⟩ insertion.text, []⟩
    (((Registry.mk [entry]).moveAll key [insertion]).1.moveAll key [deletion]).1.entries = [] := by
  intro key entry insertion deletion
  rw [moveAll_single_single]
  decide

end Ignored

end Swatch

-- SUMMARY: How the edits of one event move an ignored line, one edit after the other.
import Swatch.Ignored.Registry
import Swatch.Proofs.Document.Position

/-!
# Following edits

The registry follows the edits of one event entry by entry, the last edit in the
document first. Below, `moveLines` is what this does to one line number.

Line numbers are moved in signed 64-bit words. For edits of a text in memory the
number of lines by which the text grows fits into a word; the sum with the line
number need not.
-/

namespace Swatch

/-! ## Moving by words -/

theorem size_eq_signedLimit : UInt64.size = 2 * signedLimit := rfl

/-- Numbers that signed words can hold are not changed by being put into one. -/
theorem bmod_size_eq {n : Int} (hlow : -signedLimit ≤ n) (hhigh : n < signedLimit) :
    n.bmod UInt64.size = n := by
  rw [size_eq_signedLimit]
  exact Int.bmod_eq_of_le (by omega) (by omega)

/-- A text in memory has so few lines that the growth is what it should be. -/
theorem Edit.lineDelta_eq {e : Edit} (htext : e.text.InMemory) (hstop : e.stop.line < signedLimit) :
    e.lineDelta = e.linesAdded - e.linesRemoved := by
  have hadded : e.linesAdded < signedLimit := Nat.lt_of_le_of_lt e.text.count_le_size htext
  have hremoved : e.linesRemoved ≤ e.stop.line := Nat.sub_le _ _
  exact bmod_size_eq (by omega) (by omega)

namespace Ignored

theorem shiftLine_eq (line : Nat) (delta : Int) (hpos : 0 ≤ line + delta)
    (hword : line + delta < signedLimit) : shiftLine line delta = line + delta := by
  rw [shiftLine, bmod_size_eq (by omega) hword, Int.toNat_of_nonneg hpos]

/-- A number that does not fit into a signed word ends up far too low. -/
theorem shiftLine_add_le (line : Nat) (delta : Int) (hword : signedLimit ≤ line + delta) :
    (shiftLine line delta : Int) + signedLimit ≤ line + delta := by
  have hlimit : signedLimit = 0x8000000000000000 := rfl
  rw [shiftLine, size_eq_signedLimit, hlimit, Int.bmod_def]
  omega

theorem shiftLine_le (line : Nat) (delta : Int) (hdelta : -signedLimit < delta) :
    (shiftLine line delta : Int) ≤ max 0 (line + delta) := by
  have hlimit : signedLimit = 0x8000000000000000 := rfl
  rw [shiftLine, size_eq_signedLimit, hlimit, Int.bmod_def]
  omega

/-! ## One edit -/

section OneEdit

variable {line line' : Nat} {e : Edit}

theorem moveLine_of_lt (h : line < e.start.line) : moveLine line e = some line := by
  simp [moveLine, fate, h]

theorem moveLine_of_gt (hle : e.start.le e.stop) (h : e.stop.line < line) :
    moveLine line e = some (if e.lineDelta = 0 then line else shiftLine line e.lineDelta) := by
  have hlines := Position.line_le_of_le hle
  simp [moveLine, fate, h, show ¬line < e.start.line by omega, show ¬line = e.start.line by omega]

theorem moveLine_of_inside (hstart : e.start.line < line) (hstop : line < e.stop.line) :
    moveLine line e = none := by
  simp [moveLine, fate, show ¬line < e.start.line by omega, show ¬line = e.start.line by omega,
    show ¬e.stop.line < line by omega, show ¬line = e.stop.line by omega]

/-- An edit pushes a line down by at most the lines that it adds. -/
theorem moveLine_le (hdelta : e.lineDelta = e.linesAdded - e.linesRemoved)
    (hstop : e.stop.line < signedLimit) (h : moveLine line e = some line') :
    line' ≤ line + e.linesAdded := by
  have hremoved : e.linesRemoved ≤ e.stop.line := Nat.sub_le _ _
  have hshift := shiftLine_le line e.lineDelta (by omega)
  have hcases : line' = line ∨ line' = shiftLine line e.lineDelta := by
    simp only [moveLine] at h
    unfold fate at h
    grind
  omega

/-- An edit within a line that puts no line feed in moves no line. -/
theorem moveLine_of_one_line (hspan : e.stop.line = e.start.line) (hadded : e.linesAdded = 0) :
    moveLine line e = some line := by
  have hdelta : e.lineDelta = 0 := by
    have hremoved : e.linesRemoved = 0 := by rw [Edit.linesRemoved, hspan, Nat.sub_self]
    rw [Edit.lineDelta, hadded, hremoved]
    rfl
  rcases Nat.lt_trichotomy line e.start.line with hlt | heq | hgt
  · exact moveLine_of_lt hlt
  · simp [moveLine, fate, heq, hdelta, hspan]
  · simp [moveLine, fate, hspan, hgt, hdelta, show ¬ line < e.start.line by omega,
      show line ≠ e.start.line by omega]

/-- A line that an edit starts inside of stays. -/
theorem moveLine_of_start (hcolumn : e.start.column ≠ 0) :
    moveLine e.start.line e = some e.start.line := by
  simp [moveLine, fate, hcolumn]

/-- An insertion of line feeds leaves alone what is above it and the line that it starts inside of,
and pushes down all else. -/
theorem moveLine_insertion {p : Position} {text : Text} (hfeed : '\n' ∈ text)
    (hword : line + text.count '\n' < signedLimit) :
    moveLine line ⟨p, p, text⟩
      = some (if line < p.line ∨ line = p.line ∧ p.column ≠ 0 then line
          else line + text.count '\n') := by
  have hpos : 0 < text.count '\n' := List.count_pos_iff.2 hfeed
  have hdelta : Edit.lineDelta ⟨p, p, text⟩ = text.count '\n' := by
    have hadded : Edit.linesAdded ⟨p, p, text⟩ = text.count '\n' := rfl
    have hremoved : Edit.linesRemoved ⟨p, p, text⟩ = 0 := Nat.sub_self _
    rw [Edit.lineDelta, hadded, hremoved, bmod_size_eq (by omega) (by omega)]
    omega
  have hshift : shiftLine line (text.count '\n') = line + text.count '\n' := by
    have := shiftLine_eq line (text.count '\n') (by omega) (by omega)
    omega
  rcases Nat.lt_trichotomy line p.line with hlt | heq | hgt
  · simp [moveLine, fate, hlt]
  · by_cases hcolumn : p.column = 0
    · simp [moveLine, fate, heq, hcolumn, Edit.isInsertion, hdelta, hpos, heq ▸ hshift]
    · simp [moveLine, fate, heq, hcolumn]
  · simp [moveLine, fate, hgt, show ¬line < p.line by omega, show line ≠ p.line by omega, hdelta,
      hshift]

/-- An edit leaves an entry that it does not touch. -/
theorem Entry.move_of_not_isTouched {key : DocumentKey} {entry : Entry}
    (h : entry.isTouched key e = false) : entry.move key e = some entry := by
  unfold Entry.isTouched at h
  unfold Entry.move
  split
  · next hkey =>
    rw [hkey, Bool.true_and] at h
    unfold moveLine
    split at h <;> simp_all
  · rfl

end OneEdit

/-! ## All edits of an event -/

/-- Where edits that are made one after the other leave a line. -/
def moveLines (line : Nat) : List Edit → Option Nat
  | [] => some line
  | e :: edits => (moveLine line e).bind fun line => moveLines line edits

theorem moveLines_pair (line : Nat) (e f : Edit) :
    moveLines line [e, f] = (moveLine line e).bind (moveLine · f) := by
  simp [moveLines]

/-- The entry after edits of a document that are made one after the other. -/
def Entry.follow (key : DocumentKey) (entry : Entry) (edits : List Edit) : Option Entry :=
  if entry.belongsTo key then (moveLines entry.line edits).map fun line => { entry with line }
  else some entry

theorem Entry.follow_cons (key : DocumentKey) (entry : Entry) (e : Edit) (edits : List Edit) :
    entry.follow key (e :: edits)
      = (entry.move key e).bind fun entry => entry.follow key edits := by
  by_cases hkey : entry.belongsTo key
  · cases hmove : moveLine entry.line e with
    | none => simp [follow, move, moveLines, hkey, hmove]
    | some line =>
      have hkey' : Entry.belongsTo { entry with line } key := hkey
      simp [follow, move, moveLines, hkey, hkey', hmove]
  · simp [follow, move, hkey]

theorem Entry.follow_nil (key : DocumentKey) (entry : Entry) : entry.follow key [] = some entry := by
  by_cases hkey : entry.belongsTo key <;> simp [follow, moveLines, hkey]

theorem Entry.follow_append (key : DocumentKey) (entry : Entry) (edits edits' : List Edit) :
    entry.follow key (edits ++ edits')
      = (entry.follow key edits).bind fun entry => entry.follow key edits' := by
  induction edits generalizing entry with
  | nil => rw [List.nil_append, follow_nil, Option.bind_some]
  | cons e edits ih =>
    rw [List.cons_append, follow_cons, follow_cons, Option.bind_assoc]
    simp only [ih]

/-- The edits of one event from the last one in the document to the first one. -/
def lastFirst (edits : List Edit) : List Edit :=
  edits.mergeSort fun e f => f.start.le e.start

namespace Registry

theorem foldl_move_entries (key : DocumentKey) (edits : List Edit) (r : Registry) (touched : Bool) :
    (edits.foldl (fun (r, touched) e =>
      (Registry.move r key e, touched || r.entries.any (·.isTouched key e))) (r, touched)).1.entries
      = r.entries.filterMap fun entry => entry.follow key edits := by
  induction edits generalizing r touched with
  | nil => simp [Entry.follow_nil]
  | cons e edits ih =>
    rw [List.foldl_cons, ih, Registry.move, List.filterMap_filterMap]
    simp [Entry.follow_cons]

/-- The registry follows the edits of an event entry by entry. -/
theorem moveAll_entries (r : Registry) (key : DocumentKey) (edits : List Edit) :
    (r.moveAll key edits).1.entries
      = r.entries.filterMap fun entry => entry.follow key (lastFirst edits) :=
  foldl_move_entries key (lastFirst edits) r false

/-- The ignored lines of the document move as their numbers do. -/
theorem linesOf_moveAll (r : Registry) (key : DocumentKey) (edits : List Edit) :
    (r.moveAll key edits).1.linesOf key
      = (r.linesOf key).filterMap fun line => moveLines line (lastFirst edits) := by
  rw [linesOf, moveAll_entries, linesOf]
  induction r.entries with
  | nil => rfl
  | cons entry entries ih =>
    by_cases hkey : entry.belongsTo key
    · cases hmove : moveLines entry.line (lastFirst edits) with
      | none => simpa [Entry.follow, hkey, hmove] using ih
      | some line =>
        have hkey' : Entry.belongsTo { entry with line } key := hkey
        simpa [Entry.follow, hkey, hkey', hmove] using ih
    · simpa [Entry.follow, hkey] using ih

end Registry

theorem pairwise_lastFirst (edits : List Edit) :
    (lastFirst edits).Pairwise fun e f => f.start.le e.start := by
  refine List.pairwise_mergeSort ?_ ?_ edits
  · intro e f g hef hfg
    exact Position.le_trans hfg hef
  · intro e f
    simpa using Position.le_total f.start e.start

theorem lastFirst_perm (edits : List Edit) : (lastFirst edits).Perm edits :=
  List.mergeSort_perm edits _

/-- Edits that are listed in order are made as they are listed. -/
theorem lastFirst_of_pairwise {edits : List Edit}
    (h : edits.Pairwise fun e f => f.start.le e.start) : lastFirst edits = edits :=
  List.mergeSort_of_pairwise h

theorem lastFirst_single (e : Edit) : lastFirst [e] = [e] :=
  lastFirst_of_pairwise (List.pairwise_singleton _ e)

/-- Edits whose starts differ are in one order only, however an event lists them. -/
theorem lastFirst_eq {edits ordered : List Edit} (hperm : ordered.Perm edits)
    (hordered : ordered.Pairwise fun e f => f.start.le e.start)
    (hdistinct : ∀ e ∈ edits, ∀ f ∈ edits, e.start = f.start → e = f) :
    lastFirst edits = ordered := by
  have hsort := lastFirst_perm edits
  refine List.Perm.eq_of_pairwise ?_ (pairwise_lastFirst edits) hordered (hsort.trans hperm.symm)
  intro e f he hf hef hfe
  exact hdistinct e (hsort.mem_iff.1 he) f (hperm.mem_iff.1 hf) (Position.le_antisymm hfe hef)

end Ignored

end Swatch

-- SUMMARY: When the order in which an event lists its edits has a say in what becomes of ignored lines.
import Swatch.Proofs.Ignored.Merging
import Swatch.Proofs.Ignored.Tracking

/-!
# The order in which an event lists its edits

The registry puts the edits of an event into an order by where they start, so the order of
the list only counts among edits that start at one place. Of edits that do not overlap, all
but one of these are insertions.

Insertions at one place push the same lines down, so they may change places. An edit that
replaces text may change places with an insertion if it moves lines as an insertion does.
If it does anything else to lines, such as swallowing one, and the insertion pushes lines
down, some line shows which of the two was listed first.

Whether an entry is touched at all depends on no order: the first edit that touches an
entry finds it where it was before the event.
-/

namespace Swatch

/-- Edits that may touch but do not overlap. -/
def Edit.Disjoint (e f : Edit) : Prop :=
  e.stop.le f.start ∨ f.stop.le e.start

instance (e f : Edit) : Decidable (e.Disjoint f) :=
  inferInstanceAs (Decidable (e.stop.le f.start ∨ f.stop.le e.start))

instance : Std.Symm Edit.Disjoint where
  symm _ _ h := h.symm

namespace Ignored

/-! ## Touched entries -/

/-- Some entry is touched on the way just if some edit touches an entry as it was at first. -/
theorem Registry.foldl_move_touched (key : DocumentKey) (edits : List Edit) (r : Registry)
    (touched : Bool) :
    (edits.foldl (fun (r, touched) e =>
      (Registry.move r key e, touched || r.entries.any (·.isTouched key e))) (r, touched)).2
      = (touched || r.entries.any fun entry => edits.any (entry.isTouched key ·)) := by
  induction edits generalizing r touched with
  | nil => simp
  | cons e edits ih =>
    rw [List.foldl_cons, ih, Bool.or_assoc, Registry.move, List.any_filterMap]
    congr 1
    rw [Bool.eq_iff_iff, Bool.or_eq_true, List.any_eq_true, List.any_eq_true, List.any_eq_true,
      ← exists_or]
    refine exists_congr fun entry => ?_
    rw [← and_or_left, List.any_cons, Bool.or_eq_true]
    refine and_congr_right fun _ => ?_
    cases htouched : entry.isTouched key e with
    | true => simp
    | false => simp [Entry.move_of_not_isTouched htouched]

theorem Registry.moveAll_touched (r : Registry) (key : DocumentKey) (edits : List Edit) :
    (r.moveAll key edits).2 = r.entries.any fun entry => edits.any (entry.isTouched key ·) := by
  rw [moveAll, foldl_move_touched, Bool.false_or]
  simp only [(List.mergeSort_perm edits _).any_eq]

/-! ## Edits that push lines down -/

/-- Where `n` line feeds that are put in at a place leave a line. -/
def pushLine (p : Position) (n line : Nat) : Nat :=
  if line < p.line ∨ line = p.line ∧ p.column ≠ 0 then line else line + n

section Push

variable {p : Position} {m n line line' : Nat} {e f : Edit}

@[simp] theorem pushLine_zero : pushLine p 0 line = line := by
  simp [pushLine]

theorem pushLine_le : pushLine p n line ≤ line + n := by
  unfold pushLine
  split <;> omega

theorem pushLine_pushLine : pushLine p m (pushLine p n line) = pushLine p (n + m) line := by
  unfold pushLine
  split
  · rfl
  · next hmoves => rw [if_neg (by omega), Nat.add_assoc]

/-- The edit moves lines as an insertion at its start does: it swallows no line, and keeps the lines
apart that it moves. -/
inductive Pushes (e : Edit) : Prop
  | insertion (same : e.isInsertion)
  /-- It stays within a line, and puts no line feed in that would stand in front of it. -/
  | within (stop_line : e.stop.line = e.start.line)
      (adds_none : e.start.column = 0 → e.linesAdded = 0)
  /-- It replaces the rest of a line and the line feed behind it, and puts a line feed in. -/
  | rest (inside : 0 < e.start.column) (stop_line : e.stop.line = e.start.line + 1)
      (stop_column : e.stop.column = 0) (adds : 0 < e.linesAdded)

/-- An insertion that pushes lines down, and an edit that starts where it stands and moves lines in
another way. -/
structure Clashes (i e : Edit) : Prop where
  insertion : i.isInsertion
  adds : 0 < i.linesAdded
  start_eq : i.start = e.start
  not_pushes : ¬ Pushes e

theorem not_overflows (hword : line + e.linesAdded < signedLimit) : ¬ Overflows line e := fun h => by
  have hlarge := h.too_large
  omega

theorem WellFormed.moveLine_below (he : WellFormed e) (hline : e.stop.line < line)
    (hword : line + e.linesAdded < signedLimit) :
    moveLine line e = some (line + e.linesAdded - e.linesRemoved) := by
  have hlines := Position.line_le_of_le he.start_le_stop
  refine he.moveLine_of_shift (Nat.le_of_lt hline) ?_ (not_overflows hword)
  simp [fate, hline, show ¬ line < e.start.line by omega, show line ≠ e.start.line by omega]

theorem WellFormed.moveLine_stop (he : WellFormed e) (hspans : e.start.line < e.stop.line)
    (hcolumn : e.stop.column = 0) (hword : e.stop.line + e.linesAdded < signedLimit) :
    moveLine e.stop.line e = some (e.start.line + e.linesAdded) := by
  have hremoved : e.linesRemoved = e.stop.line - e.start.line := rfl
  have hfate : fate e.stop.line e = .shift e.lineDelta := by
    simp [fate, hcolumn, show ¬ e.stop.line < e.start.line by omega,
      show ¬ e.stop.line = e.start.line by omega]
  rw [he.moveLine_of_shift (Nat.le_refl _) hfate (not_overflows hword), Option.some.injEq]
  omega

theorem WellFormed.moveLine_le (he : WellFormed e) (hword : line + e.linesAdded < signedLimit)
    (h : moveLine line e = some line') : line' ≤ line + e.linesAdded := by
  rcases he.fate_cases line with ⟨hkeep, -, -⟩ | ⟨hshift, hstop, -⟩ | hdrop
  · obtain rfl : line = line' := by simpa [moveLine, hkeep] using h
    exact Nat.le_add_right _ _
  · rw [he.moveLine_of_shift hstop hshift (not_overflows hword), Option.some.injEq] at h
    omega
  · simp [moveLine, hdrop] at h

theorem WellFormed.moveLine_of_pushes (he : WellFormed e) (h : Pushes e)
    (hword : line + e.linesAdded < signedLimit) :
    moveLine line e = some (pushLine e.start (e.linesAdded - e.linesRemoved) line) := by
  have hlines := Position.line_le_of_le he.start_le_stop
  have hremoved : e.linesRemoved = e.stop.line - e.start.line := rfl
  have hkeep (hline : line < e.start.line ∨ line = e.start.line ∧ e.start.column ≠ 0) :
      moveLine line e = some line := by
    rcases hline with hlt | ⟨rfl, hcolumn⟩
    · exact moveLine_of_lt hlt
    · exact moveLine_of_start hcolumn
  have hbelow (hline : e.stop.line < line) :=
    he.moveLine_below hline hword
  cases h with
  | insertion same =>
    obtain ⟨start, stop, text⟩ := e
    obtain rfl : start = stop := of_decide_eq_true same
    by_cases hfeed : '\n' ∈ text
    · rw [moveLine_insertion hfeed hword]
      simp [pushLine, Edit.linesAdded, Edit.linesRemoved]
    · have hadded : Edit.linesAdded ⟨start, start, text⟩ = 0 := List.count_eq_zero.2 hfeed
      rw [moveLine_of_one_line rfl hadded, hadded, Nat.zero_sub, pushLine_zero]
  | within stop_line adds_none =>
    unfold pushLine
    split
    · next hline => exact hkeep hline
    · next hline =>
      rcases Nat.lt_or_ge e.stop.line line with hgt | hle
      · rw [hbelow hgt, Option.some.injEq]
        omega
      · have hadded : e.linesAdded = 0 := adds_none (by omega)
        rw [moveLine_of_one_line stop_line hadded, hadded, Nat.zero_sub, Nat.add_zero]
  | rest inside stop_line stop_column adds =>
    unfold pushLine
    split
    · next hline => exact hkeep hline
    · next hline =>
      rcases Nat.lt_or_ge e.stop.line line with hgt | hle
      · rw [hbelow hgt, Option.some.injEq]
        omega
      · obtain rfl : line = e.stop.line := by omega
        rw [he.moveLine_stop (by omega) stop_column hword, Option.some.injEq]
        omega

/-! ## Edits that change places -/

/-- Two edits that are made one after the other leave each line on the same number in either order,
as long as it stays a signed word. -/
def Interchange (e f : Edit) : Prop :=
  ∀ line, line + e.linesAdded + f.linesAdded < signedLimit →
    moveLines line [e, f] = moveLines line [f, e]

theorem Interchange.symm (h : Interchange e f) : Interchange f e := fun line hword =>
  (h line (by omega)).symm

/-- An insertion of no line feed may change places with any edit. -/
theorem interchange_of_adds_none (hsame : e.isInsertion) (hadded : e.linesAdded = 0) :
    Interchange e f := by
  have hkeeps (line : Nat) : moveLine line e = some line :=
    moveLine_of_one_line (congrArg Position.line (of_decide_eq_true hsame)).symm hadded
  intro line _
  rw [moveLines_pair, moveLines_pair, hkeeps, Option.bind_some]
  cases moveLine line f with
  | none => rfl
  | some line' => rw [Option.bind_some, hkeeps]

theorem WellFormed.interchange_of_pushes (he : WellFormed e) (hf : WellFormed f)
    (hstart : e.start = f.start) (hpush : Pushes e) (hpush' : Pushes f) : Interchange e f := by
  intro line hword
  have hfirst : pushLine f.start (e.linesAdded - e.linesRemoved) line
      ≤ line + (e.linesAdded - e.linesRemoved) := pushLine_le
  have hfirst' : pushLine f.start (f.linesAdded - f.linesRemoved) line
      ≤ line + (f.linesAdded - f.linesRemoved) := pushLine_le
  rw [moveLines_pair, moveLines_pair, he.moveLine_of_pushes hpush (by omega),
    hf.moveLine_of_pushes hpush' (by omega), hstart, Option.bind_some, Option.bind_some,
    hf.moveLine_of_pushes hpush' (by omega), he.moveLine_of_pushes hpush (by omega), hstart,
    pushLine_pushLine, pushLine_pushLine, Nat.add_comm]

/-- Edits that start at one place and do not overlap are insertions, but for one. -/
theorem isInsertion_of_disjoint (he : WellFormed e) (hf : WellFormed f) (h : e.Disjoint f)
    (hstart : e.start = f.start) : e.isInsertion ∨ f.isInsertion := by
  rcases h with hle | hle
  · exact .inl (decide_eq_true (Position.le_antisymm he.start_le_stop (hstart ▸ hle)))
  · exact .inr (decide_eq_true (Position.le_antisymm hf.start_le_stop (hstart ▸ hle)))

/-- Edits that start at one place may change places unless they clash. -/
theorem WellFormed.interchange (he : WellFormed e) (hf : WellFormed f) (h : e.Disjoint f)
    (hstart : e.start = f.start) (hclash : ¬ Clashes e f) (hclash' : ¬ Clashes f e) :
    Interchange e f := by
  have hone {i e : Edit} (hi : WellFormed i) (he : WellFormed e) (hstart : i.start = e.start)
      (hclash : ¬ Clashes i e) (hsame : i.isInsertion) : Interchange i e := by
    rcases Nat.eq_zero_or_pos i.linesAdded with hzero | hpos
    · exact interchange_of_adds_none hsame hzero
    · have hpush : Pushes e := Classical.not_not.1 fun hnot => hclash ⟨hsame, hpos, hstart, hnot⟩
      exact hi.interchange_of_pushes he hstart (.insertion hsame) hpush
  rcases isInsertion_of_disjoint he hf h hstart with hsame | hsame
  · exact hone he hf hstart hclash hsame
  · exact (hone hf he hstart.symm hclash' hsame).symm

/-- An edit swallows a line just in front of the place where it stops, or on which it stops. -/
theorem moveLine_eq_none (hins : ¬ e.isInsertion) (hstart : e.start.line ≤ line)
    (hstop : line < e.stop.line ∨ line = e.stop.line ∧ e.start.line < line ∧ e.stop.column ≠ 0)
    (hfirst : line = e.start.line → e.start.column = 0) : moveLine line e = none := by
  rcases Nat.eq_or_lt_of_le hstart with rfl | hlt
  · have hspans : e.start.line < e.stop.line := by omega
    simp [moveLine, fate, hins, hfirst rfl, hspans]
  · rcases hstop with hin | ⟨rfl, -, hcolumn⟩
    · exact moveLine_of_inside hlt hin
    · simp [moveLine, fate, hcolumn, show ¬ e.stop.line < e.start.line by omega,
        show e.stop.line ≠ e.start.line by omega]

/-! ## Edits that clash -/

section Clash

variable {i : Edit} (h : Clashes i e) (hi : WellFormed i) (he : WellFormed e)
  (hword : e.stop.line + i.linesAdded + e.linesAdded < signedLimit)

include h

theorem Clashes.not_isInsertion : ¬ e.isInsertion := fun hsame =>
  h.not_pushes (.insertion hsame)

include hi

theorem Clashes.moveLine_insertion (hline : line + i.linesAdded < signedLimit) :
    moveLine line i = some (pushLine e.start i.linesAdded line) := by
  have hsame : i.start = i.stop := of_decide_eq_true h.insertion
  rw [hi.moveLine_of_pushes (.insertion h.insertion) hline, Edit.linesRemoved, hsame, Nat.sub_self,
    Nat.sub_zero, ← hsame, h.start_eq]

/-- A line that the edit swallows is saved if the insertion pushes it out of the way first. -/
theorem Clashes.ne_of_swallowed (hline : line + i.linesAdded < signedLimit)
    (hdrop : moveLine line e = none) (hpushed : pushLine e.start i.linesAdded line = line')
    (hkept : (moveLine line' e).isSome) : moveLines line [i, e] ≠ moveLines line [e, i] := by
  intro heq
  rw [moveLines_pair, moveLines_pair, h.moveLine_insertion hi hline, hpushed, hdrop,
    Option.bind_some, Option.bind_none] at heq
  rw [heq] at hkept
  cases hkept

include he hword

/-- An edit that puts line feeds in front of its line moves the line only if it has been pushed. -/
theorem Clashes.ne_of_within (hspan : e.stop.line = e.start.line) :
    moveLines e.start.line [i, e] ≠ moveLines e.start.line [e, i] := by
  have hadds := h.adds
  have hremoved : e.linesRemoved = e.stop.line - e.start.line := rfl
  obtain ⟨hcolumn, hadded⟩ : e.start.column = 0 ∧ e.linesAdded ≠ 0 := by
    by_contra hnot
    exact h.not_pushes (.within hspan fun hcolumn => by_contra fun hadded => hnot ⟨hcolumn, hadded⟩)
  have hstays : moveLine e.start.line e = some e.start.line := by
    simp [moveLine, fate, h.not_isInsertion, hspan]
  have hpushed : moveLine e.start.line i = some (e.start.line + i.linesAdded) := by
    rw [h.moveLine_insertion hi (by omega)]
    simp [pushLine, hcolumn]
  intro heq
  rw [moveLines_pair, moveLines_pair, hpushed, hstays, Option.bind_some, Option.bind_some, hpushed,
    he.moveLine_below (by omega) (by omega), Option.some.injEq] at heq
  omega

/-- An edit that joins the next line to its own brings it to where the insertion does not push
it. -/
theorem Clashes.ne_of_joins (hinside : e.start.column ≠ 0) (hspan : e.stop.line = e.start.line + 1)
    (hfront : e.stop.column = 0) :
    moveLines e.stop.line [i, e] ≠ moveLines e.stop.line [e, i] := by
  have hadds := h.adds
  have hremoved : e.linesRemoved = e.stop.line - e.start.line := rfl
  have hadded : e.linesAdded = 0 := by
    by_contra hadded
    exact h.not_pushes (.rest (by omega) hspan hfront (by omega))
  have hpushed : moveLine e.stop.line i = some (e.stop.line + i.linesAdded) := by
    rw [h.moveLine_insertion hi (by omega), pushLine, if_neg (by omega)]
  have hstays : moveLine e.start.line i = some e.start.line := by
    rw [h.moveLine_insertion hi (by omega), pushLine, if_pos (.inr ⟨rfl, hinside⟩)]
  intro heq
  rw [moveLines_pair, moveLines_pair, hpushed, he.moveLine_stop (by omega) hfront (by omega),
    Option.bind_some, Option.bind_some, hadded, Nat.add_zero, hstays,
    he.moveLine_below (by omega) (by omega), Option.some.injEq] at heq
  omega

/-- The last line that an edit swallows which stops in front of a line. -/
theorem Clashes.ne_of_front (hspans : e.start.line < e.stop.line) (hfront : e.stop.column = 0)
    (hswallows : e.start.column = 0 ∨ e.start.line + 1 < e.stop.line) :
    moveLines (e.stop.line - 1) [i, e] ≠ moveLines (e.stop.line - 1) [e, i] := by
  have hadds := h.adds
  have hpushed : pushLine e.start i.linesAdded (e.stop.line - 1)
      = e.stop.line - 1 + i.linesAdded := if_neg (by omega)
  refine h.ne_of_swallowed hi (by omega)
    (moveLine_eq_none h.not_isInsertion (by omega) (.inl (by omega)) (by omega)) hpushed ?_
  by_cases hone : i.linesAdded = 1
  · have hline : e.stop.line - 1 + i.linesAdded = e.stop.line := by omega
    rw [hline, he.moveLine_stop hspans hfront (by omega)]
    rfl
  · rw [he.moveLine_below (by omega) (by omega)]
    rfl

/-- The line that an edit swallows because it stops inside of it. -/
theorem Clashes.ne_of_stop (hspans : e.start.line < e.stop.line) (hinside : e.stop.column ≠ 0) :
    moveLines e.stop.line [i, e] ≠ moveLines e.stop.line [e, i] := by
  have hadds := h.adds
  have hpushed : pushLine e.start i.linesAdded e.stop.line = e.stop.line + i.linesAdded :=
    if_neg (by omega)
  refine h.ne_of_swallowed hi (by omega)
    (moveLine_eq_none h.not_isInsertion (by omega) (.inr ⟨rfl, hspans, hinside⟩) (by omega))
    hpushed ?_
  rw [he.moveLine_below (by omega) (by omega)]
  rfl

/-- If two edits clash, some line tells which one was made first. -/
theorem Clashes.exists_line :
    ∃ line ≤ e.stop.line, moveLines line [i, e] ≠ moveLines line [e, i] := by
  have hlines := Position.line_le_of_le he.start_le_stop
  by_cases hspan : e.stop.line = e.start.line
  · exact ⟨e.start.line, hlines, h.ne_of_within hi he hword hspan⟩
  have hspans : e.start.line < e.stop.line := by omega
  by_cases hfront : e.stop.column = 0
  · by_cases hswallows : e.start.column = 0 ∨ e.start.line + 1 < e.stop.line
    · exact ⟨e.stop.line - 1, Nat.sub_le _ _, h.ne_of_front hi he hword hspans hfront hswallows⟩
    · exact ⟨e.stop.line, Nat.le_refl _,
        h.ne_of_joins hi he hword (by omega) (by omega) hfront⟩
  · exact ⟨e.stop.line, Nat.le_refl _, h.ne_of_stop hi he hword hspans hfront⟩

end Clash

end Push

/-! ## Orders of one event -/

/-- An edit that may change places with all edits in front of it may be made first. -/
theorem moveLines_middle {before behind : List Edit} {e : Edit}
    (hwell : ∀ f ∈ before, WellFormed f) (hchange : ∀ f ∈ before, Interchange f e) {line : Nat}
    (hword : line + added (before ++ e :: behind) < signedLimit) :
    moveLines line (before ++ e :: behind) = moveLines line (e :: (before ++ behind)) := by
  induction before generalizing line with
  | nil => rfl
  | cons f before ih =>
    obtain ⟨hf, hwell⟩ := List.forall_mem_cons.1 hwell
    obtain ⟨hfirst, hchange⟩ := List.forall_mem_cons.1 hchange
    have hsum : added (before ++ e :: behind) = e.linesAdded + added (before ++ behind) := by
      rw [added_perm List.perm_middle, added_cons]
    rw [List.cons_append, added_cons, hsum] at hword
    have hrest : (moveLine line f).bind (fun line => moveLines line (before ++ e :: behind))
        = (moveLine line f).bind fun line => moveLines line (e :: (before ++ behind)) := by
      cases hmove : moveLine line f with
      | none => rfl
      | some line' =>
        have hle := hf.moveLine_le (by omega) hmove
        exact ih hwell hchange (by omega)
    calc moveLines line (f :: (before ++ e :: behind))
        = moveLines line ([f, e] ++ (before ++ behind)) := hrest
      _ = moveLines line ([e, f] ++ (before ++ behind)) := by
        rw [moveLines_append, moveLines_append, hfirst line (by omega)]

/-- Edits in the order of an event leave a line on the same number in any such order, if those that
start at one place may change places. -/
theorem moveLines_perm {edits edits' : List Edit} (hperm : edits.Perm edits')
    (hsorted : edits.Pairwise fun e f => f.start.le e.start)
    (hsorted' : edits'.Pairwise fun e f => f.start.le e.start)
    (hwell : ∀ e ∈ edits, WellFormed e)
    (hchange : edits.Pairwise fun e f => e.start = f.start → Interchange e f) {line : Nat}
    (hword : line + added edits < signedLimit) : moveLines line edits = moveLines line edits' := by
  induction edits generalizing edits' line with
  | nil => rw [List.nil_perm.1 hperm]
  | cons e edits ih =>
    obtain ⟨hlate, hsorted⟩ := List.pairwise_cons.1 hsorted
    obtain ⟨he, hwell⟩ := List.forall_mem_cons.1 hwell
    obtain ⟨hfirst, hchange⟩ := List.pairwise_cons.1 hchange
    obtain ⟨before, behind, rfl⟩ := List.append_of_mem (hperm.mem_iff.1 List.mem_cons_self)
    have hrest : edits.Perm (before ++ behind) := (hperm.trans List.perm_middle).cons_inv
    have hfront : ∀ f ∈ before, f ∈ edits := fun f hf => hrest.mem_iff.2 (by simp [hf])
    -- What the other order puts in front of the edit starts where the edit starts.
    have hsame : ∀ f ∈ before, e.start = f.start := fun f hf =>
      Position.le_antisymm ((List.pairwise_append.1 hsorted').2.2 f hf e List.mem_cons_self)
        (hlate f (hfront f hf))
    rw [added_perm hperm] at hword
    rw [moveLines_middle (fun f hf => hwell f (hfront f hf))
      (fun f hf => (hfirst f (hfront f hf) (hsame f hf)).symm) hword, moveLines, moveLines]
    rw [← added_perm hperm, added_cons] at hword
    cases hmove : moveLine line e with
    | none => rfl
    | some line' =>
      have hle := he.moveLine_le (by omega) hmove
      exact ih hrest hsorted
        (hsorted'.sublist ((List.sublist_cons_self e behind).append_left before)) hwell hchange
        (by omega)

/-- The order in which an event lists its edits, none of which overlap, has no say in whether an
entry is touched. It has none in what becomes of the entries if no two edits start at one place, or
if no two edits clash and all numbers stay signed words. But where two edits clash, an event with
just these two leaves some entry somewhere else, or swallows it, if it lists them the other way
round. -/
theorem Registry.moveAll_perm {edits edits' : List Edit} (hperm : edits'.Perm edits)
    (hwell : ∀ e ∈ edits, WellFormed e) (hdisjoint : edits.Pairwise Edit.Disjoint) (r : Registry)
    (key : DocumentKey) :
    (r.moveAll key edits').2 = (r.moveAll key edits).2 ∧
      ((edits.Pairwise fun e f => e.start ≠ f.start) → r.moveAll key edits' = r.moveAll key edits) ∧
      ((∀ i ∈ edits, ∀ e ∈ edits, ¬ Clashes i e) →
        (∀ entry ∈ r.entries, entry.belongsTo key → entry.line + added edits < signedLimit) →
        r.moveAll key edits' = r.moveAll key edits) ∧
      ∀ i ∈ edits, ∀ e ∈ edits, Clashes i e →
        e.stop.line + i.linesAdded + e.linesAdded < signedLimit →
        ∃ entry : Entry, entry.belongsTo key ∧ entry.line ≤ e.stop.line ∧
          ((Registry.mk [entry]).moveAll key [i, e]).1 ≠ ((Registry.mk [entry]).moveAll key [e, i]).1 := by
  have htouched : (r.moveAll key edits').2 = (r.moveAll key edits).2 := by
    rw [moveAll_touched, moveAll_touched]
    simp only [hperm.any_eq]
  have heq (hentries : (r.moveAll key edits').1.entries = (r.moveAll key edits).1.entries) :
      r.moveAll key edits' = r.moveAll key edits :=
    Prod.ext (congrArg Registry.mk hentries) htouched
  refine ⟨htouched, fun hstarts => heq ?_, fun hclash hword => heq ?_, fun i hi e he hclash hword => ?_⟩
  · have hsymm : Std.Symm fun e f : Edit => e.start ≠ f.start := ⟨fun _ _ h => Ne.symm h⟩
    have hsame : lastFirst edits' = lastFirst edits := by
      refine lastFirst_eq ((lastFirst_perm edits).trans hperm.symm) (pairwise_lastFirst edits) ?_
      intro e he f hf hstart
      by_contra hne
      exact hstarts.forall (hperm.mem_iff.1 he) (hperm.mem_iff.1 hf) hne hstart
    rw [moveAll_entries, moveAll_entries, hsame]
  · have hordered : (lastFirst edits).Perm (lastFirst edits') :=
      (lastFirst_perm edits).trans (hperm.symm.trans (lastFirst_perm edits').symm)
    have hmem {e : Edit} (he : e ∈ lastFirst edits) : e ∈ edits := (lastFirst_perm edits).mem_iff.1 he
    have hchange : (lastFirst edits).Pairwise fun e f => e.start = f.start → Interchange e f := by
      refine ((lastFirst_perm edits).symm.pairwise hdisjoint fun h => symm h).imp_of_mem ?_
      intro e f he hf hapart hstart
      exact (hwell e (hmem he)).interchange (hwell f (hmem hf)) hapart hstart
        (hclash e (hmem he) f (hmem hf)) (hclash f (hmem hf) e (hmem he))
    rw [moveAll_entries, moveAll_entries]
    refine List.filterMap_congr fun entry hentry => ?_
    by_cases hkey : entry.belongsTo key
    · have hmoved := moveLines_perm hordered (pairwise_lastFirst edits) (pairwise_lastFirst edits')
        (fun e he => hwell e (hmem he)) hchange
        (by rw [added_perm (lastFirst_perm edits)]; exact hword entry hentry hkey)
      rw [Entry.follow, Entry.follow, hmoved]
    · simp [Entry.follow, hkey]
  · obtain ⟨line, hline, hne⟩ := hclash.exists_line (hwell i hi) (hwell e he) hword
    let entry : Entry := ⟨key.path, line, [], 0⟩
    have hkey : entry.belongsTo key := beq_self_eq_true _
    have hlines : (Registry.mk [entry]).linesOf key = [line] := by simp [linesOf, hkey, entry]
    have hle (p q : Edit) (h : p.start = q.start) : [p, q].Pairwise fun e f => f.start.le e.start := by
      simp [h, Position.le_refl]
    refine ⟨entry, hkey, hline, fun hregistry => hne ?_⟩
    have hmoved := congrArg (linesOf · key) hregistry
    simp only [linesOf_moveAll, hlines, lastFirst_of_pairwise (hle i e hclash.start_eq),
      lastFirst_of_pairwise (hle e i hclash.start_eq.symm)] at hmoved
    cases hfirst : moveLines line [i, e] <;> cases hlast : moveLines line [e, i] <;> simp_all

/-- A line break is put in where a part of a line is replaced, and two lines further up change: the
line below all of this moves down by two, whichever edit is listed first. -/
theorem Registry.moveAll_perm_same_start :
    let key : DocumentKey := ⟨['/', 'p']⟩
    let r : Registry := ⟨[⟨['/', 'p'], 7, ['k'], 0⟩]⟩
    let insertion : Edit := ⟨⟨5, 2⟩, ⟨5, 2⟩, ['\n']⟩
    let within : Edit := ⟨⟨5, 2⟩, ⟨5, 4⟩, ['a', '\n', 'b']⟩
    let rest : Edit := ⟨⟨1, 4⟩, ⟨2, 0⟩, ['x', '\n']⟩
    (r.moveAll key [insertion, within, rest]).1.linesOf key = [9] ∧
      r.moveAll key [rest, within, insertion] = r.moveAll key [insertion, within, rest] := by
  intro key r insertion within rest
  have hwell : ∀ e ∈ [insertion, within, rest], WellFormed e := by
    simp only [List.forall_mem_cons]
    exact ⟨⟨by decide, by decide, by decide⟩, ⟨by decide, by decide, by decide⟩,
      ⟨by decide, by decide, by decide⟩, by simp⟩
  have hpushes : ∀ e ∈ [insertion, within, rest], Pushes e := by
    simp only [List.forall_mem_cons]
    exact ⟨.insertion (by decide), .within (by decide) (by decide),
      .rest (by decide) (by decide) (by decide) (by decide), by simp⟩
  have hperm : [rest, within, insertion].Perm [insertion, within, rest] :=
    List.reverse_perm [insertion, within, rest]
  obtain ⟨-, -, hsame, -⟩ := moveAll_perm hperm hwell (by decide) r key
  refine ⟨?_, hsame (fun i _ e he hclash => hclash.not_pushes (hpushes e he)) (by decide)⟩
  rw [linesOf_moveAll, lastFirst_of_pairwise (by decide)]
  decide

/-- A line break is put in front of an ignored line that is deleted: listed behind the deletion, it
comes too late for the entry; listed in front of it, it saves the entry. -/
theorem Registry.moveAll_heeds_listing :
    let key : DocumentKey := ⟨['/', 'p']⟩
    let entry : Entry := ⟨['/', 'p'], 5, ['k'], 7⟩
    let insertion : Edit := ⟨⟨5, 0⟩, ⟨5, 0⟩, ['\n']⟩
    let deletion : Edit := ⟨⟨5, 0⟩, ⟨6, 0⟩, []⟩
    WellFormed insertion ∧ WellFormed deletion ∧ insertion.Disjoint deletion ∧
      [insertion, deletion].Perm [deletion, insertion] ∧
      ((Registry.mk [entry]).moveAll key [deletion, insertion]).1.entries = [] ∧
      ((Registry.mk [entry]).moveAll key [insertion, deletion]).1.entries = [entry] := by
  intro key entry insertion deletion
  refine ⟨⟨by decide, by decide, by decide⟩, ⟨by decide, by decide, by decide⟩, by decide,
    List.Perm.swap _ _ _, ?_, ?_⟩
  · rw [moveAll_entries, lastFirst_of_pairwise (by decide)]
    decide
  · rw [moveAll_entries, lastFirst_of_pairwise (by decide)]
    decide +kernel

end Ignored

end Swatch

-- SUMMARY: Which two lines an edit, and the edits of one event, put on the same number.
import Swatch.Proofs.Ignored.Follow

/-!
# Lines that meet

An edit keeps the lines above it and the one that it starts on, swallows those inside it
and moves those below it. Two lines that it leaves on one number are the line that it
starts inside of and the one that it stops in front of, if no line feed comes in between:
of these two lines it makes one. But for that, lines only meet where a number leaves the
signed words and falls back.

The edits of one event are made one after the other. Two lines meet in an event where one
edit puts them together, wherever the edits before it have moved them, and no later one
swallows them.
-/

namespace Swatch.Ignored

/-! ## One edit -/

/-- An edit that an event may list: it does not stop before it starts, its lines are 64-bit words
and its text is in memory. -/
structure WellFormed (e : Edit) : Prop where
  start_le_stop : e.start.le e.stop
  word : e.stop.line < UInt64.size
  inMemory : e.text.InMemory

/-- The edit starts inside a line, stops in front of a later one and puts no line feed in between:
it makes one line of the two. -/
structure Joins (e : Edit) : Prop where
  starts_inside : 0 < e.start.column
  spans : e.start.line < e.stop.line
  stops_in_front : e.stop.column = 0
  no_feed : e.linesAdded = 0

/-- The edit moves the line to a number that no signed word holds. -/
structure Overflows (line : Nat) (e : Edit) : Prop where
  shifts : fate line e = .shift e.lineDelta
  moves : e.lineDelta ≠ 0
  too_large : signedLimit + e.linesRemoved ≤ line + e.linesAdded

/-- The edit puts the lines `upper` and `lower` on one number. -/
inductive Merges (e : Edit) (upper lower : Nat) : Prop
  /-- It makes one line of the two. -/
  | join (joins : Joins e) (upper_eq : upper = e.start.line) (lower_eq : lower = e.stop.line)
      (word : e.start.line < signedLimit)
  /-- The number of the lower line leaves the signed words and falls onto where the other one
  ends. -/
  | overflow (overflows : Overflows lower e) (meets : moveLine upper e = moveLine lower e)

section OneEdit

variable {line line' upper lower : Nat} {e : Edit}

theorem fate_of_joins_start (h : Joins e) : fate e.start.line e = .keep := by
  have hne : ¬ e.isInsertion := by
    intro hsame
    have hlines := congrArg Position.line (of_decide_eq_true hsame)
    have hspans := h.spans
    omega
  have hcolumn := h.starts_inside
  simp [fate, hne, show ¬ e.start.column = 0 by omega]

theorem fate_of_joins_stop (h : Joins e) : fate e.stop.line e = .shift e.lineDelta := by
  have hspans := h.spans
  simp [fate, h.stops_in_front, show ¬ e.stop.line < e.start.line by omega,
    show ¬ e.stop.line = e.start.line by omega]

/-- The number of a line that an edit moves, as long as it stays a word. -/
theorem shiftLine_of_lt (hstop : e.stop.line ≤ line)
    (hword : line + e.linesAdded < signedLimit + e.linesRemoved) :
    shiftLine line e.lineDelta = line + e.linesAdded - e.linesRemoved := by
  have hremoved : e.linesRemoved ≤ e.stop.line := Nat.sub_le _ _
  have hsum : (line : Int) + ((e.linesAdded : Int) - e.linesRemoved)
      = ((line + e.linesAdded - e.linesRemoved : Nat) : Int) := by omega
  rw [shiftLine, Edit.lineDelta, Int.add_bmod_bmod, hsum, bmod_size_eq (by omega) (by omega),
    Int.toNat_natCast]

/-- A well-formed edit moves nothing just if it adds as many lines as it removes. -/
theorem WellFormed.linesAdded_eq (he : WellFormed e) (hdelta : e.lineDelta = 0) :
    e.linesAdded = e.linesRemoved := by
  have hlimit : signedLimit = 0x8000000000000000 := rfl
  have hsize := size_eq_signedLimit
  have hadded : e.linesAdded < signedLimit := Nat.lt_of_le_of_lt e.text.count_le_size he.inMemory
  have hremoved : e.linesRemoved ≤ e.stop.line := Nat.sub_le _ _
  have hword := he.word
  rw [Edit.lineDelta, size_eq_signedLimit, hlimit, Int.bmod_def] at hdelta
  omega

theorem moveLine_of_shift (h : fate line e = .shift e.lineDelta) :
    moveLine line e = some (if e.lineDelta = 0 then line else shiftLine line e.lineDelta) := by
  simp [moveLine, h]

/-- A line that is shifted moves by what the edit adds and removes, unless its number overflows. -/
theorem WellFormed.moveLine_of_shift (he : WellFormed e) (hstop : e.stop.line ≤ line)
    (h : fate line e = .shift e.lineDelta) (hover : ¬ Overflows line e) :
    moveLine line e = some (line + e.linesAdded - e.linesRemoved) := by
  rw [Ignored.moveLine_of_shift h, Option.some.injEq]
  split
  · next hdelta =>
    rw [he.linesAdded_eq hdelta, Nat.add_sub_cancel]
  · next hdelta =>
    exact shiftLine_of_lt hstop (Nat.lt_of_not_le fun hlarge => hover ⟨h, hdelta, hlarge⟩)

/-- An edit keeps a line above it or the one that it starts on, shifts a line below it or the one
that it stops on, and swallows all others. -/
theorem WellFormed.fate_cases (he : WellFormed e) (line : Nat) :
    (fate line e = .keep ∧ line ≤ e.start.line ∧
        (line = e.start.line → e.start.line < e.stop.line → 0 < e.start.column)) ∨
      (fate line e = .shift e.lineDelta ∧ e.stop.line ≤ line ∧
        (line = e.stop.line → e.start.line < e.stop.line → e.stop.column = 0)) ∨
      fate line e = .drop := by
  have hlines := Position.line_le_of_le he.start_le_stop
  have hinsertion : e.isInsertion → e.start.line = e.stop.line := fun hsame =>
    congrArg Position.line (of_decide_eq_true hsame)
  fun_cases fate line e with
  | case1 habove => exact .inl ⟨rfl, by omega, by omega⟩
  | case2 hnot hstart hpush =>
    have hstop := hinsertion hpush.1
    exact .inr (.inl ⟨rfl, by omega, by omega⟩)
  | case3 hnot hstart hpush hdrop => exact .inr (.inr rfl)
  | case4 hnot hstart hpush hdrop =>
    refine .inl ⟨rfl, by omega, fun _ hspans => Nat.pos_of_ne_zero fun hzero => ?_⟩
    refine hdrop ⟨fun hsame => ?_, hzero, hspans⟩
    have hstop := hinsertion hsame
    omega
  | case5 hnot hne hbelow => exact .inr (.inl ⟨rfl, by omega, by omega⟩)
  | case6 hnot hne hbelow => exact .inr (.inr rfl)

/-- Of two lines that end on one number, the edit joins the lower one to the upper one, or the
number of one of them overflows. -/
theorem WellFormed.joins_of_moveLine_eq (he : WellFormed e) (hlt : upper < lower)
    (hupper : moveLine upper e = some line) (hlower : moveLine lower e = some line)
    (hover : ¬ Overflows upper e) (hover' : ¬ Overflows lower e) :
    Joins e ∧ upper = e.start.line ∧ lower = e.stop.line ∧ line = e.start.line := by
  have hlines := Position.line_le_of_le he.start_le_stop
  have hremoved : e.linesRemoved = e.stop.line - e.start.line := rfl
  rcases he.fate_cases upper with ⟨hkeep, habove, hcolumn⟩ | ⟨hshift, hstop, -⟩ | hdrop
  · obtain rfl : upper = line := by simpa [moveLine, hkeep] using hupper
    rcases he.fate_cases lower with ⟨hkeep', -, -⟩ | ⟨hshift', hstop', hfront⟩ | hdrop'
    · obtain rfl : lower = upper := by simpa [moveLine, hkeep'] using hlower
      exact absurd hlt (Nat.lt_irrefl _)
    · -- The lower line comes up to where the edit starts, so nothing is added and it is the last one.
      rw [he.moveLine_of_shift hstop' hshift' hover', Option.some.injEq] at hlower
      have hupper_eq : upper = e.start.line := by omega
      have hlower_eq : lower = e.stop.line := by omega
      have hspans : e.start.line < e.stop.line := by omega
      exact ⟨⟨hcolumn hupper_eq hspans, hspans, hfront hlower_eq hspans, by omega⟩, hupper_eq,
        hlower_eq, hupper_eq⟩
    · simp [moveLine, hdrop'] at hlower
  · rcases he.fate_cases lower with ⟨-, habove', -⟩ | ⟨hshift', hstop', -⟩ | hdrop'
    · omega
    · rw [he.moveLine_of_shift hstop hshift hover, Option.some.injEq] at hupper
      rw [he.moveLine_of_shift hstop' hshift' hover', Option.some.injEq] at hlower
      omega
    · simp [moveLine, hdrop'] at hlower
  · simp [moveLine, hdrop] at hupper

/-- If the number of the lower of two joined lines does not overflow, that of the upper one is a
signed word. -/
theorem WellFormed.start_lt_of_joins (he : WellFormed e) (h : Joins e)
    (hover : ¬ Overflows e.stop.line e) : e.start.line < signedLimit := by
  have hspans := h.spans
  have hfeed := h.no_feed
  have hremoved : e.linesRemoved = e.stop.line - e.start.line := rfl
  refine Nat.lt_of_not_le fun hlarge => hover ⟨fate_of_joins_stop h, fun hdelta => ?_, by omega⟩
  have hsame := he.linesAdded_eq hdelta
  omega

/-- An edit that joins two lines leaves both on the upper one. -/
theorem WellFormed.moveLine_of_joins (he : WellFormed e) (h : Joins e)
    (hword : e.start.line < signedLimit) :
    moveLine e.start.line e = some e.start.line ∧ moveLine e.stop.line e = some e.start.line := by
  have hspans := h.spans
  have hfeed := h.no_feed
  have hremoved : e.linesRemoved = e.stop.line - e.start.line := rfl
  constructor
  · simp [moveLine, fate_of_joins_start h]
  · rw [he.moveLine_of_shift (Nat.le_refl _) (fate_of_joins_stop h) fun hover => ?_,
      Option.some.injEq]
    · omega
    · have := hover.too_large
      omega

theorem WellFormed.moveLine_eq_of_merges (he : WellFormed e) (h : Merges e upper lower) :
    ∃ line, moveLine upper e = some line ∧ moveLine lower e = some line := by
  cases h with
  | join joins upper_eq lower_eq word =>
    subst upper_eq lower_eq
    exact ⟨_, he.moveLine_of_joins joins word⟩
  | overflow overflows meets =>
    have hlower := Ignored.moveLine_of_shift overflows.shifts
    exact ⟨_, meets.trans hlower, hlower⟩

/-- Two lines end on one number just if the edit merges them. -/
theorem WellFormed.merges_iff (he : WellFormed e) (hne : upper ≠ lower) :
    Merges e upper lower ∨ Merges e lower upper ↔
      ∃ line, moveLine upper e = some line ∧ moveLine lower e = some line := by
  constructor
  · rintro (h | h)
    · exact he.moveLine_eq_of_merges h
    · obtain ⟨line, hlower, hupper⟩ := he.moveLine_eq_of_merges h
      exact ⟨line, hupper, hlower⟩
  · rintro ⟨line, hupper, hlower⟩
    by_cases hover : Overflows lower e
    · exact .inl (.overflow hover (hupper.trans hlower.symm))
    by_cases hover' : Overflows upper e
    · exact .inr (.overflow hover' (hlower.trans hupper.symm))
    have hjoin {upper lower : Nat} (hlt : upper < lower) (hupper : moveLine upper e = some line)
        (hlower : moveLine lower e = some line) (hover : ¬ Overflows upper e)
        (hover' : ¬ Overflows lower e) : Merges e upper lower := by
      obtain ⟨joins, upper_eq, lower_eq, -⟩ :=
        he.joins_of_moveLine_eq hlt hupper hlower hover hover'
      exact .join joins upper_eq lower_eq (he.start_lt_of_joins joins (lower_eq ▸ hover'))
    rcases Nat.lt_or_gt_of_ne hne with hlt | hlt
    · exact .inl (hjoin hlt hupper hlower hover' hover)
    · exact .inr (hjoin hlt hlower hupper hover hover')

/-- Two numbers that leave the signed words fall onto the first line. -/
example : Merges ⟨⟨0, 0⟩, ⟨0, 0⟩, ['\n']⟩ signedLimit (signedLimit + 1) :=
  .overflow ⟨by decide, by decide, by decide⟩ (by decide)

end OneEdit

/-! ## All edits of an event -/

theorem moveLines_append (line : Nat) (before behind : List Edit) :
    moveLines line (before ++ behind)
      = (moveLines line before).bind fun line => moveLines line behind := by
  induction before generalizing line with
  | nil => rfl
  | cons e before ih =>
    cases hmove : moveLine line e with
    | none => simp [moveLines, hmove]
    | some line' => simp [moveLines, hmove, ih]

/-- Edits that are made one after the other put two lines on one number: one of the edits merges the
lines where those before it have moved them, and those behind it do not swallow them. -/
def Merged (line line' : Nat) (edits : List Edit) : Prop :=
  ∃ before e behind upper lower, edits = before ++ e :: behind ∧
    (moveLines line before = some upper ∧ moveLines line' before = some lower ∨
      moveLines line before = some lower ∧ moveLines line' before = some upper) ∧
    Merges e upper lower ∧ (moveLines line edits).isSome

theorem merged_iff {edits : List Edit} (hedits : ∀ e ∈ edits, WellFormed e) {line line' : Nat}
    (hne : line ≠ line') :
    Merged line line' edits ↔
      ∃ target, moveLines line edits = some target ∧ moveLines line' edits = some target := by
  constructor
  · rintro ⟨before, e, behind, upper, lower, rfl, hbefore, hmerges, hsome⟩
    obtain ⟨target, htarget⟩ := Option.isSome_iff_exists.1 hsome
    have he : WellFormed e := hedits e (by simp)
    obtain ⟨met, hupper, hlower⟩ := he.moveLine_eq_of_merges hmerges
    have hsame : moveLines line' (before ++ e :: behind) = moveLines line (before ++ e :: behind) := by
      rcases hbefore with ⟨hline, hline'⟩ | ⟨hline, hline'⟩ <;>
        simp [moveLines_append, moveLines, hline, hline', hupper, hlower]
    exact ⟨target, htarget, hsame.trans htarget⟩
  · induction edits generalizing line line' with
    | nil =>
      rintro ⟨target, hline, hline'⟩
      exact absurd (Option.some.inj (hline.trans hline'.symm)) hne
    | cons e edits ih =>
      rintro ⟨target, hline, hline'⟩
      obtain ⟨he, hrest⟩ := List.forall_mem_cons.1 hedits
      have hsome : (moveLines line (e :: edits)).isSome := by simp [hline]
      obtain ⟨first, hfirst, htail⟩ := Option.bind_eq_some_iff.1 hline
      obtain ⟨first', hfirst', htail'⟩ := Option.bind_eq_some_iff.1 hline'
      by_cases hmet : first = first'
      · subst hmet
        rcases (he.merges_iff hne).2 ⟨first, hfirst, hfirst'⟩ with hmerges | hmerges
        · exact ⟨[], e, edits, line, line', rfl, .inl ⟨rfl, rfl⟩, hmerges, hsome⟩
        · exact ⟨[], e, edits, line', line, rfl, .inr ⟨rfl, rfl⟩, hmerges, hsome⟩
      · obtain ⟨before, f, behind, upper, lower, rfl, hbefore, hmerges, -⟩ :=
          ih hrest hmet ⟨target, htail, htail'⟩
        refine ⟨e :: before, f, behind, upper, lower, rfl, ?_, hmerges, hsome⟩
        simpa [moveLines, hfirst, hfirst'] using hbefore

end Swatch.Ignored

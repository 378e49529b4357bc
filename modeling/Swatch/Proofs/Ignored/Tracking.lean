-- SUMMARY: Ignored lines stay with their text through any edit event.
import Swatch.Proofs.Ignored.Follow
import Mathlib.Algebra.Order.BigOperators.Group.List
import Mathlib.Algebra.Order.Ring.Nat
import Mathlib.Data.List.Pairwise

/-!
# Tracking lines through an event

An edit event lists edits in terms of the document before any of them. They do not
overlap, so an edit only sees lines that the edits behind it have left in place: a line
between the edits moves by what the edits above it add, and so does its text. A line
strictly inside an edit is gone.

The number of a line is moved in signed words. It arrives where it should if and only
if no move on the way leaves the words, which no line of a document does.
-/

namespace Swatch.Ignored

/-! ## Edits of one event -/

/-- What is known of an edit in terms of the document before it. -/
structure FitsIn (e : Edit) (d : Document) : Prop where
  start_le_stop : e.start.le e.stop
  has_start : d.Has e.start
  has_stop : d.Has e.stop
  onlyFeeds : e.text.OnlyFeeds
  inMemory : e.text.InMemory

/-- Edits that may touch but do not overlap, and that start at different places. -/
def Apart (e f : Edit) : Prop :=
  (e.stop.le f.start ∨ f.stop.le e.start) ∧ e.start ≠ f.start

/-- Edits from the last one to the first one, none of which overlap. -/
def Descending (edits : List Edit) : Prop :=
  edits.Pairwise fun e f => f.stop.le e.start ∧ f.start ≠ e.start

instance : Std.Symm Apart where
  symm _ _ h := ⟨h.1.symm, Ne.symm h.2⟩

theorem descending_of_apart {edits ordered : List Edit} (hperm : ordered.Perm edits)
    (hordered : ordered.Pairwise fun e f => f.start.le e.start)
    (hle : ∀ e ∈ edits, e.start.le e.stop) (hapart : edits.Pairwise Apart) :
    Descending ordered := by
  have hapart' : ordered.Pairwise Apart := hperm.symm.pairwise hapart fun h => symm h
  refine (hordered.and hapart').imp_of_mem ?_
  rintro e f he - ⟨hfe, hdisjoint, hne⟩
  refine ⟨hdisjoint.resolve_left fun hef => hne ?_, Ne.symm hne⟩
  have hstart := Position.le_trans (hle e (hperm.mem_iff.1 he)) hef
  exact Position.le_antisymm hstart hfe

/-- By how many lines edits let a document grow. -/
def growth : List Edit → Int
  | [] => 0
  | e :: edits => e.lineDelta + growth edits

/-- The edits that stop above a line. -/
def above (line : Nat) (edits : List Edit) : List Edit :=
  edits.filter (·.stop.line < line)

/-- The edits that do not start before an edit: itself and those behind it. -/
def fromOn (e : Edit) (edits : List Edit) : List Edit :=
  edits.filter fun f => e.start.le f.start

/-- Each edit above a line that moves it leaves its number within signed words, after the edits
behind it have moved it. -/
def StaysWord (line : Nat) (edits : List Edit) : Prop :=
  ∀ e ∈ above line edits, e.lineDelta ≠ 0 →
    line + growth (fromOn e (above line edits)) < signedLimit

instance (line : Nat) (edits : List Edit) : Decidable (StaysWord line edits) :=
  inferInstanceAs (Decidable (∀ e ∈ above line edits, e.lineDelta ≠ 0 →
    line + growth (fromOn e (above line edits)) < signedLimit))

@[simp] theorem growth_nil : growth [] = 0 := rfl

@[simp] theorem growth_cons (e : Edit) (edits : List Edit) :
    growth (e :: edits) = e.lineDelta + growth edits := rfl

theorem growth_perm {edits edits' : List Edit} (h : edits.Perm edits') :
    growth edits = growth edits' := by
  induction h with
  | nil => rfl
  | cons e _ ih => rw [growth_cons, growth_cons, ih]
  | swap e f edits =>
    simp only [growth_cons]
    omega
  | trans _ _ ih ih' => exact ih.trans ih'

theorem staysWord_perm {edits edits' : List Edit} (h : edits.Perm edits') (line : Nat) :
    StaysWord line edits ↔ StaysWord line edits' := by
  have habove : (above line edits).Perm (above line edits') := h.filter _
  refine forall_congr' fun e => imp_congr habove.mem_iff (imp_congr Iff.rfl ?_)
  rw [fromOn, fromOn, growth_perm (habove.filter _)]

theorem above_eq_self {line : Nat} {edits : List Edit} (h : ∀ e ∈ edits, e.stop.line < line) :
    above line edits = edits :=
  List.filter_eq_self.2 fun e he => by simpa using h e he

theorem fromOn_cons {e f : Edit} (h : f.start.le e.start) (edits : List Edit) :
    fromOn f (e :: edits) = e :: fromOn f edits :=
  List.filter_cons_of_pos h

/-- An edit that is behind all others starts behind them. -/
theorem fromOn_head {e : Edit} {edits : List Edit} (h : ∀ f ∈ edits, f.start.le e.start)
    (hne : ∀ f ∈ edits, f.start ≠ e.start) : fromOn e (e :: edits) = [e] := by
  have hnone : fromOn e edits = [] := by
    apply List.filter_eq_nil_iff.2
    intro f hf hef
    exact hne f hf (Position.le_antisymm (h f hf) hef)
  rw [fromOn_cons (Position.le_refl e.start), hnone]

/-! ## The number of a line -/

/-- An edit whose growth is as many lines as it adds without those that it removes. -/
structure Counted (e : Edit) : Prop where
  start_le_stop : e.start.le e.stop
  stop_lt : e.stop.line < signedLimit
  lineDelta_eq : e.lineDelta = e.linesAdded - e.linesRemoved

/-- How many lines edits add, not counting those that they remove. -/
def added (edits : List Edit) : Nat :=
  (edits.map Edit.linesAdded).sum

@[simp] theorem added_cons (e : Edit) (edits : List Edit) :
    added (e :: edits) = e.linesAdded + added edits := by
  simp [added]

theorem added_perm {edits edits' : List Edit} (h : edits.Perm edits') :
    added edits = added edits' :=
  (h.map Edit.linesAdded).sum_nat

/-- Edits that do not overlap remove at most the lines above the end of the last one. -/
theorem added_le_growth {edits : List Edit} (hcounted : ∀ e ∈ edits, Counted e)
    (hdesc : Descending edits) {bound : Nat} (hbound : ∀ e ∈ edits, e.stop.line ≤ bound) :
    (added edits : Int) ≤ growth edits + bound := by
  induction edits generalizing bound with
  | nil => simp [added]
  | cons e edits ih =>
    obtain ⟨hfirst, hdesc⟩ := List.pairwise_cons.1 hdesc
    obtain ⟨he, hcounted⟩ := List.forall_mem_cons.1 hcounted
    have hrest := ih hcounted hdesc fun f hf => Position.line_le_of_le (hfirst f hf).1
    have hlines := Position.line_le_of_le he.start_le_stop
    have hstop := hbound e List.mem_cons_self
    have hremoved : e.linesRemoved = e.stop.line - e.start.line := rfl
    rw [growth_cons, he.lineDelta_eq]
    simp only [added, List.map_cons, List.sum_cons] at hrest ⊢
    omega

theorem moveLines_le {edits : List Edit} (hcounted : ∀ e ∈ edits, Counted e) {line line' : Nat}
    (h : moveLines line edits = some line') : line' ≤ line + added edits := by
  induction edits generalizing line with
  | nil =>
    obtain rfl : line = line' := by simpa [moveLines] using h
    exact Nat.le_add_right _ _
  | cons e edits ih =>
    obtain ⟨he, hcounted⟩ := List.forall_mem_cons.1 hcounted
    obtain ⟨middle, hmiddle, hrest⟩ := Option.bind_eq_some_iff.1 h
    have hfirst := moveLine_le he.lineDelta_eq he.stop_lt hmiddle
    have hlast := ih hcounted hrest
    simp only [added, List.map_cons, List.sum_cons] at hlast ⊢
    omega

/-- A line below all edits arrives where it should if and only if its number stays a word. Once it
has left the words it is too low by more lines than the remaining edits can make up for. -/
theorem moveLines_below_iff {edits : List Edit} (hcounted : ∀ e ∈ edits, Counted e)
    (hdesc : Descending edits) {line : Nat} (hbelow : ∀ e ∈ edits, e.stop.line < line) :
    moveLines line edits = some (line + growth edits).toNat ↔
      ∀ e ∈ edits, e.lineDelta ≠ 0 →
        line + growth (fromOn e edits) < signedLimit := by
  induction edits generalizing line with
  | nil => simp [moveLines]
  | cons e edits ih =>
    obtain ⟨hfirst, hdesc⟩ := List.pairwise_cons.1 hdesc
    obtain ⟨he, hcounted⟩ := List.forall_mem_cons.1 hcounted
    obtain ⟨hstop, -⟩ := List.forall_mem_cons.1 hbelow
    have hlines := Position.line_le_of_le he.start_le_stop
    have hremoved : e.linesRemoved = e.stop.line - e.start.line := rfl
    have hdelta := he.lineDelta_eq
    have hstops : ∀ f ∈ edits, f.stop.line ≤ e.start.line :=
      fun f hf => Position.line_le_of_le (hfirst f hf).1
    have hback : ∀ f ∈ edits, f.start.le e.start :=
      fun f hf => Position.le_trans (hcounted f hf).start_le_stop (hfirst f hf).1
    rw [List.forall_mem_cons, fromOn_head hback fun f hf => (hfirst f hf).2, moveLines,
      moveLine_of_gt he.start_le_stop hstop, Option.bind_some, growth_cons, growth_cons, growth_nil,
      Int.add_zero, ← Int.add_assoc]
    by_cases hword : e.lineDelta ≠ 0 → line + e.lineDelta < signedLimit
    · -- The first move is right, so the rest is the claim for the line that it leads to.
      obtain ⟨middle, hmiddle, hsum⟩ : ∃ middle : Nat,
          (if e.lineDelta = 0 then line else shiftLine line e.lineDelta) = middle ∧
            (middle : Int) = line + e.lineDelta := by
        refine ⟨_, rfl, ?_⟩
        split
        · omega
        · next hzero => exact shiftLine_eq line e.lineDelta (by omega) (hword hzero)
      rw [hmiddle, ← hsum, ih hcounted hdesc fun f hf => by have := hstops f hf; omega]
      constructor
      · intro hrest
        constructor
        · intro hzero
          have := hword hzero
          omega
        · intro f hf hzero
          have := hrest f hf hzero
          rw [fromOn_cons (hback f hf), growth_cons]
          omega
      · rintro ⟨-, hrest⟩ f hf hzero
        have := hrest f hf hzero
        rw [fromOn_cons (hback f hf), growth_cons] at this
        omega
    · -- The first move is wrong, and nothing makes up for it.
      obtain ⟨hzero, hlarge⟩ := Classical.not_imp.1 hword
      have hlow := shiftLine_add_le line e.lineDelta (by omega)
      have hrise := added_le_growth hcounted hdesc hstops
      have hstart := he.stop_lt
      rw [if_neg hzero]
      constructor
      · intro hmove
        have hle := moveLines_le hcounted hmove
        omega
      · rintro ⟨hfalse, -⟩
        exact absurd (hfalse hzero) hlarge

/-- Edits below a line do not move it. -/
theorem moveLines_above {edits : List Edit} (hcounted : ∀ e ∈ edits, Counted e)
    (hdesc : Descending edits) {line : Nat}
    (hclear : ∀ e ∈ edits, e.stop.line < line ∨ line < e.start.line) :
    moveLines line edits = moveLines line (above line edits) := by
  induction edits with
  | nil => rfl
  | cons e edits ih =>
    obtain ⟨hfirst, hdesc⟩ := List.pairwise_cons.1 hdesc
    obtain ⟨he, hcounted⟩ := List.forall_mem_cons.1 hcounted
    obtain ⟨hline, hclear⟩ := List.forall_mem_cons.1 hclear
    have hlines := Position.line_le_of_le he.start_le_stop
    rcases hline with hstop | hstart
    · rw [above_eq_self]
      intro f hf
      rcases List.mem_cons.1 hf with rfl | hf
      · exact hstop
      · have := Position.line_le_of_le (hfirst f hf).1
        omega
    · have hskip : above line (e :: edits) = above line edits :=
        List.filter_cons_of_neg (by simp; omega)
      rw [moveLines, moveLine_of_lt hstart, Option.bind_some, hskip, ih hcounted hdesc hclear]

/-- A line between the edits of an event moves by the growth of those above it, if and only if its
number stays a word. -/
theorem moveLines_eq_iff {edits : List Edit} (hcounted : ∀ e ∈ edits, Counted e)
    (hdesc : Descending edits) {line : Nat}
    (hclear : ∀ e ∈ edits, e.stop.line < line ∨ line < e.start.line) :
    moveLines line edits = some (line + growth (above line edits)).toNat ↔
      StaysWord line edits := by
  rw [moveLines_above hcounted hdesc hclear]
  apply moveLines_below_iff (fun e he => hcounted e (List.mem_of_mem_filter he))
    (hdesc.sublist List.filter_sublist)
  intro e he
  simpa using List.of_mem_filter he

/-- A line strictly inside an edit is swallowed. -/
theorem moveLines_of_inside {edits : List Edit} (hdesc : Descending edits) {line : Nat} {e : Edit}
    (he : e ∈ edits) (hstart : e.start.line < line) (hstop : line < e.stop.line) :
    moveLines line edits = none := by
  induction edits with
  | nil => cases he
  | cons f edits ih =>
    obtain ⟨hfirst, hdesc⟩ := List.pairwise_cons.1 hdesc
    rcases List.mem_cons.1 he with rfl | he
    · rw [moveLines, moveLine_of_inside hstart hstop, Option.bind_none]
    · have hlines := Position.line_le_of_le (hfirst e he).1
      rw [moveLines, moveLine_of_lt (by omega), Option.bind_some, ih hdesc he]

/-! ## The text of a line -/

/-- The edit replaces some part of a text. -/
def Fits (e : Edit) (t : Text) : Prop :=
  ∃ before removed behind, t = before ++ removed ++ behind ∧ e.Replaces before removed

/-- An edit still fits after one that starts behind it. -/
theorem Fits.edit {d : Document} (hd : d.text.OnlyFeeds) {e f : Edit} (he : Fits e d.text)
    (hf : Fits f d.text) (hfe : f.stop.le e.start) : Fits f (d.edit e).text := by
  obtain ⟨before, removed, behind, htext, hrep⟩ := he
  obtain ⟨before', removed', behind', htext', hrep'⟩ := hf
  rw [hrep.1, hrep'.2] at hfe
  have hsame : (before' ++ removed') ++ behind' = before ++ (removed ++ behind) := by
    rw [← htext', htext, List.append_assoc]
  obtain ⟨between, hbetween⟩ := Position.exists_append_of_after_le hsame hfe
  refine ⟨before', removed', between ++ e.text ++ behind, ?_, hrep'⟩
  rw [Document.edit_text hd.ordinaryBreaks htext hrep, hbetween]
  simp only [List.append_assoc]

/-- The text of a line between the edits of an event moves by the growth of those above it. -/
theorem editAll_lineAt? {d : Document} (hd : d.text.OnlyFeeds) {edits : List Edit}
    (hfits : ∀ e ∈ edits, Fits e d.text) (hfeeds : ∀ e ∈ edits, e.text.OnlyFeeds)
    (hcounted : ∀ e ∈ edits, Counted e) (hdesc : Descending edits) {line : Nat}
    (hclear : ∀ e ∈ edits, e.stop.line < line ∨ line < e.start.line) :
    (d.editAll edits).lineAt? (line + growth (above line edits)).toNat = d.lineAt? line := by
  induction edits generalizing d line with
  | nil => simp [Document.editAll, above]
  | cons e edits ih =>
    obtain ⟨hfirst, hdesc⟩ := List.pairwise_cons.1 hdesc
    obtain ⟨hefits, hfits⟩ := List.forall_mem_cons.1 hfits
    obtain ⟨hefeeds, hfeeds⟩ := List.forall_mem_cons.1 hfeeds
    obtain ⟨he, hcounted⟩ := List.forall_mem_cons.1 hcounted
    obtain ⟨hline, hclear⟩ := List.forall_mem_cons.1 hclear
    have hlines := Position.line_le_of_le he.start_le_stop
    have hremoved : e.linesRemoved = e.stop.line - e.start.line := rfl
    have hstops : ∀ f ∈ edits, f.stop.line ≤ e.start.line :=
      fun f hf => Position.line_le_of_le (hfirst f hf).1
    have hfits' : ∀ f ∈ edits, Fits f (d.edit e).text :=
      fun f hf => hefits.edit hd (hfits f hf) (hfirst f hf).1
    obtain ⟨before, removed, behind, htext, hrep⟩ := hefits
    have hd' := Document.edit_onlyFeeds hd hefeeds htext hrep
    have hstep : d.editAll (e :: edits) = (d.edit e).editAll edits := rfl
    rcases hline with hstop | hstart
    · have hbelow : ∀ f ∈ edits, f.stop.line < line + e.linesAdded - e.linesRemoved := by
        intro f hf
        have := hstops f hf
        omega
      have hall : ∀ f ∈ e :: edits, f.stop.line < line := by
        refine List.forall_mem_cons.2 ⟨hstop, ?_⟩
        intro f hf
        have := hstops f hf
        omega
      have hsum : ((line + e.linesAdded - e.linesRemoved : Nat) : Int) + growth edits
          = line + growth (e :: edits) := by
        rw [growth_cons, he.lineDelta_eq]
        omega
      have hrest := ih hd' hfits' hfeeds hcounted hdesc fun f hf => .inl (hbelow f hf)
      rw [above_eq_self hbelow, hsum] at hrest
      rw [above_eq_self hall, hstep, hrest, Document.edit_lineAt?_below hd hefeeds htext hrep hstop]
    · have hskip : above line (e :: edits) = above line edits :=
        List.filter_cons_of_neg (by simp; omega)
      rw [hskip, hstep, ih hd' hfits' hfeeds hcounted hdesc hclear,
        Document.edit_lineAt?_above hd hefeeds htext hrep hstart]

/-! ## Ignored lines -/

theorem FitsIn.counted {d : Document} (hd : d.text.OnlyFeeds) (hmem : d.text.InMemory) {e : Edit}
    (h : FitsIn e d) : Counted e := by
  have hstop : e.stop.line < signedLimit := by
    obtain ⟨line, hline, -⟩ := h.has_stop
    rw [Document.lineAt?_eq_splitLines hd] at hline
    have hlt := (List.getElem?_eq_some_iff.1 hline).1
    rw [length_splitLines] at hlt
    have hsize := d.text.count_le_size
    unfold Text.InMemory at hmem
    omega
  exact ⟨h.start_le_stop, hstop, Edit.lineDelta_eq h.inMemory hstop⟩

theorem FitsIn.fits {d : Document} (hd : d.text.OnlyFeeds) {e : Edit} (h : FitsIn e d) :
    Fits e d.text :=
  Edit.exists_replaces hd h.start_le_stop h.has_start h.has_stop

theorem Registry.moveAll_append (before behind : List Entry) (entry : Entry) (key : DocumentKey)
    (edits : List Edit) :
    ((Registry.mk (before ++ entry :: behind)).moveAll key edits).1.entries
      = ((Registry.mk before).moveAll key edits).1.entries
        ++ (entry.follow key (lastFirst edits)).toList
        ++ ((Registry.mk behind).moveAll key edits).1.entries := by
  rw [moveAll_entries, moveAll_entries, moveAll_entries, List.filterMap_append, List.append_assoc]
  cases h : entry.follow key (lastFirst edits) <;> simp [h]

/-- Ignored lines follow the text through an event, in whatever order it lists its edits. An entry
on a line between the edits ends on the line that its text moves to, if and only if its number
stays within signed words on the way. An entry strictly inside an edit goes away. -/
theorem moveAll_tracks_lines (d : Document) (hfeeds : d.text.OnlyFeeds) (hmem : d.text.InMemory)
    (edits ordered : List Edit) (hfits : ∀ e ∈ edits, FitsIn e d) (hapart : edits.Pairwise Apart)
    (hperm : ordered.Perm edits) (hordered : ordered.Pairwise fun e f => f.start.le e.start)
    (before behind : List Entry) (entry : Entry) (hkey : entry.belongsTo d.key) :
    ((∀ e ∈ edits, e.stop.line < entry.line ∨ entry.line < e.start.line) →
      ∃ line : Nat, (line : Int) = entry.line + growth (above entry.line edits) ∧
        (d.editAll ordered).lineAt? line = d.lineAt? entry.line ∧
        (((Registry.mk (before ++ entry :: behind)).moveAll d.key edits).1.entries
            = ((Registry.mk before).moveAll d.key edits).1.entries
              ++ { entry with line } :: ((Registry.mk behind).moveAll d.key edits).1.entries
          ↔ StaysWord entry.line edits)) ∧
    ((∃ e ∈ edits, e.start.line < entry.line ∧ entry.line < e.stop.line) →
      ((Registry.mk (before ++ entry :: behind)).moveAll d.key edits).1.entries
        = ((Registry.mk before).moveAll d.key edits).1.entries
          ++ ((Registry.mk behind).moveAll d.key edits).1.entries) := by
  have hdesc : Descending ordered :=
    descending_of_apart hperm hordered (fun e he => (hfits e he).start_le_stop) hapart
  have hfits' : ∀ e ∈ ordered, FitsIn e d := fun e he => hfits e (hperm.mem_iff.1 he)
  have hcounted : ∀ e ∈ ordered, Counted e := fun e he => (hfits' e he).counted hfeeds hmem
  have hlast : lastFirst edits = ordered := by
    apply lastFirst_eq hperm hordered
    intro e he f hf hstart
    by_contra hne
    exact (hapart.forall he hf hne).2 hstart
  have hfollow : entry.follow d.key ordered
      = (moveLines entry.line ordered).map fun line => { entry with line } := by
    rw [Entry.follow, if_pos hkey]
  constructor
  · intro hclear
    have hclear' : ∀ e ∈ ordered, e.stop.line < entry.line ∨ entry.line < e.start.line :=
      fun e he => hclear e (hperm.mem_iff.1 he)
    have habove : growth (above entry.line edits) = growth (above entry.line ordered) :=
      growth_perm (hperm.symm.filter _)
    have hnonneg : 0 ≤ entry.line + growth (above entry.line ordered) := by
      have habove : ∀ e ∈ above entry.line ordered, e.stop.line ≤ entry.line :=
        fun e he => Nat.le_of_lt (by simpa using List.of_mem_filter he)
      have hrise : (added (above entry.line ordered) : Int)
          ≤ growth (above entry.line ordered) + entry.line :=
        added_le_growth (fun e he => hcounted e (List.mem_of_mem_filter he))
          (hdesc.sublist List.filter_sublist) habove
      omega
    refine ⟨(entry.line + growth (above entry.line ordered)).toNat, ?_, ?_, ?_⟩
    · rw [habove, Int.toNat_of_nonneg hnonneg]
    · exact editAll_lineAt? hfeeds (fun e he => (hfits' e he).fits hfeeds)
        (fun e he => (hfits' e he).onlyFeeds) hcounted hdesc hclear'
    · rw [← staysWord_perm hperm, ← moveLines_eq_iff hcounted hdesc hclear',
        Registry.moveAll_append, hlast, hfollow, List.append_assoc, List.append_cancel_left_eq,
        ← List.singleton_append, List.append_cancel_right_eq]
      cases moveLines entry.line ordered <;> simp
  · rintro ⟨e, he, hstart, hstop⟩
    have hnone := moveLines_of_inside hdesc (hperm.mem_iff.2 he) hstart hstop
    rw [Registry.moveAll_append, hlast, hfollow, hnone]
    simp

/-- A document of four lines, the second of which is cut while two lines are put above it: the
fourth line and its text move down by one. -/
theorem moveAll_tracks_lines_cut_and_insert :
    let d : Document := { key := ⟨['/', 'p']⟩, text := ['a', '\n', 'b', '\n', 'c', '\n', 'd'] }
    let insertion : Edit := ⟨⟨0, 1⟩, ⟨0, 1⟩, ['\n', 'x', '\n']⟩
    let cut : Edit := ⟨⟨1, 1⟩, ⟨2, 0⟩, []⟩
    let entry : Entry := ⟨['/', 'p'], 3, ['d'], 7⟩
    (d.editAll [cut, insertion]).lineAt? 4 = some ['d'] ∧
      ((Registry.mk ([] ++ entry :: [])).moveAll d.key [insertion, cut]).1.entries
        = [{ entry with line := 4 }] := by
  intro d insertion cut entry
  have hinsertion : FitsIn insertion d :=
    ⟨by decide, ⟨['a'], by decide, by decide⟩, ⟨['a'], by decide, by decide⟩, by decide, by decide⟩
  have hcut : FitsIn cut d :=
    ⟨by decide, ⟨['b'], by decide, by decide⟩, ⟨['c'], by decide, by decide⟩, by decide, by decide⟩
  have hfits : ∀ e ∈ [insertion, cut], FitsIn e d := by simp [hinsertion, hcut]
  have hapart : [insertion, cut].Pairwise Apart := by
    simp only [List.pairwise_cons, List.mem_singleton, forall_eq]
    exact ⟨⟨.inl (by decide), by decide⟩, by simp⟩
  obtain ⟨hbetween, -⟩ := moveAll_tracks_lines d (by decide) (by decide) [insertion, cut]
    [cut, insertion] hfits hapart (List.Perm.swap _ _ _) (by decide) [] [] entry (by decide)
  obtain ⟨line, hline, htext, hiff⟩ := hbetween (by decide)
  have hnumber : line = 4 := Int.ofNat.inj (hline.trans (by decide))
  subst hnumber
  refine ⟨htext.trans (by decide), (hiff.2 (by decide)).trans ?_⟩
  simp [Registry.moveAll_entries]

/-- An entry on the first line whose number is no signed word is thrown back to the first line of
the document by a line put above it. -/
theorem moveAll_resets_unsigned_line :
    let d : Document := { key := ⟨['/', 'p']⟩, text := ['a'] }
    let e : Edit := ⟨⟨0, 0⟩, ⟨0, 0⟩, ['\n']⟩
    let entry : Entry := ⟨['/', 'p'], signedLimit, ['x'], 7⟩
    d.text.OnlyFeeds ∧ d.text.InMemory ∧ FitsIn e d ∧ entry.belongsTo d.key ∧
      e.stop.line < entry.line ∧ entry.line + growth (above entry.line [e]) = signedLimit + 1 ∧
      ((Registry.mk [entry]).moveAll d.key [e]).1.entries = [{ entry with line := 0 }] := by
  refine ⟨by decide, by decide, ⟨by decide, ⟨['a'], by decide, by decide⟩,
    ⟨['a'], by decide, by decide⟩, by decide, by decide⟩, by decide, by decide, by decide, ?_⟩
  rw [Registry.moveAll_entries, lastFirst, List.mergeSort_singleton]
  decide +kernel

end Swatch.Ignored

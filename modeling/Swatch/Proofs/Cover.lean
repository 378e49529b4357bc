-- SUMMARY: A cover stays in normal form, and an interval meets it where they share an offset.
import Swatch.Cover
import Swatch.Proofs.Text.Cut

/-!
# Covered places

The intervals of a cover are kept in increasing order with a gap between any two of
them, and none is empty. Adding an interval keeps this form and adds just the offsets
of the interval. In this form the first interval that ends behind a place decides
whether something is covered from there on, and two lists of intervals that cover the
same offsets are the same list.
-/

namespace Swatch.Cover

/-- Intervals in increasing order that are not empty and have gaps between them. -/
structure IsNormal (js : List Interval) : Prop where
  pairwise : js.Pairwise fun i j => i.stop < j.start
  start_lt_stop : ∀ j ∈ js, j.start < j.stop

/-- Some interval has the offset. -/
def Covers (js : List Interval) (offset : Nat) : Prop :=
  ∃ j ∈ js, offset ∈ j

theorem covers_cons {j : Interval} {js : List Interval} {offset : Nat} :
    Covers (j :: js) offset ↔ offset ∈ j ∨ Covers js offset := by
  simp [Covers]

theorem isNormal_nil : IsNormal [] := ⟨.nil, by simp⟩

theorem isNormal_cons {j : Interval} {js : List Interval} :
    IsNormal (j :: js) ↔ j.start < j.stop ∧ (∀ k ∈ js, j.stop < k.start) ∧ IsNormal js := by
  constructor
  · intro h
    obtain ⟨hlt, hrest⟩ := List.pairwise_cons.1 h.pairwise
    obtain ⟨hj, hjs⟩ := List.forall_mem_cons.1 h.start_lt_stop
    exact ⟨hj, hlt, hrest, hjs⟩
  · rintro ⟨hj, hlt, hjs⟩
    exact ⟨List.pairwise_cons.2 ⟨hlt, hjs.pairwise⟩,
      List.forall_mem_cons.2 ⟨hj, hjs.start_lt_stop⟩⟩

/-- In normal form, what the later intervals cover is behind the first one. -/
theorem IsNormal.lt_of_covers {j : Interval} {js : List Interval} (h : IsNormal (j :: js))
    {offset : Nat} (hoffset : Covers js offset) : j.stop < offset := by
  obtain ⟨-, hlt, -⟩ := isNormal_cons.1 h
  obtain ⟨k, hk, hmem⟩ := hoffset
  exact Nat.lt_of_lt_of_le (hlt k hk) hmem.1

/-- The later intervals cover what is covered behind the first one. -/
theorem IsNormal.covers_tail_iff {j : Interval} {js : List Interval} (h : IsNormal (j :: js))
    {offset : Nat} : Covers js offset ↔ Covers (j :: js) offset ∧ j.stop < offset := by
  constructor
  · intro hcovers
    exact ⟨covers_cons.2 (.inr hcovers), h.lt_of_covers hcovers⟩
  · rintro ⟨hcovers, hlt⟩
    exact (covers_cons.1 hcovers).resolve_left fun hmem => Nat.lt_asymm hlt hmem.2

theorem IsNormal.le_of_covers {j : Interval} {js : List Interval} (h : IsNormal (j :: js))
    {offset : Nat} (hoffset : Covers (j :: js) offset) : j.start ≤ offset := by
  obtain ⟨hj, -, -⟩ := isNormal_cons.1 h
  rcases covers_cons.1 hoffset with hmem | hrest
  · exact hmem.1
  · have hlt := h.lt_of_covers hrest
    omega

/-- The first of some intervals in normal form is told by the offsets that they cover: it starts at
the lowest one and reaches as far as there is no gap. -/
theorem IsNormal.head_le_of_covers {j k : Interval} {js ks : List Interval}
    (hjs : IsNormal (j :: js)) (hks : IsNormal (k :: ks))
    (h : ∀ offset, Covers (j :: js) offset → Covers (k :: ks) offset) :
    k.start ≤ j.start ∧ (j.start = k.start → j.stop ≤ k.stop) := by
  obtain ⟨hj, -, -⟩ := isNormal_cons.1 hjs
  obtain ⟨hk, -, -⟩ := isNormal_cons.1 hks
  constructor
  · exact hks.le_of_covers (h j.start (covers_cons.2 (.inl ⟨Nat.le_refl _, hj⟩)))
  · intro hstart
    refine Nat.le_of_not_lt fun hlt => ?_
    -- The offset at which `k` stops is in `j`, and `ks` only starts behind it.
    rcases covers_cons.1 (h k.stop (covers_cons.2 (.inl ⟨by omega, hlt⟩))) with hmem | hrest
    · exact Nat.lt_irrefl _ hmem.2
    · exact Nat.lt_irrefl _ (hks.lt_of_covers hrest)

/-- A set of offsets has one normal form. -/
theorem IsNormal.eq_of_covers {js ks : List Interval} (hjs : IsNormal js) (hks : IsNormal ks)
    (h : ∀ offset, Covers js offset ↔ Covers ks offset) : js = ks := by
  induction js generalizing ks with
  | nil =>
    cases ks with
    | nil => rfl
    | cons k ks =>
      obtain ⟨hk, -, -⟩ := isNormal_cons.1 hks
      obtain ⟨j, hj, -⟩ := (h k.start).2 (covers_cons.2 (.inl ⟨Nat.le_refl _, hk⟩))
      cases hj
  | cons j js ih =>
    obtain ⟨hj, -, hrest⟩ := isNormal_cons.1 hjs
    cases ks with
    | nil =>
      obtain ⟨k, hk, -⟩ := (h j.start).1 (covers_cons.2 (.inl ⟨Nat.le_refl _, hj⟩))
      cases hk
    | cons k ks =>
      obtain ⟨hk, -, hrest'⟩ := isNormal_cons.1 hks
      obtain ⟨hstart, hstop⟩ := hjs.head_le_of_covers hks fun offset => (h offset).1
      obtain ⟨hstart', hstop'⟩ := hks.head_le_of_covers hjs fun offset => (h offset).2
      have hsame : j.start = k.start := Nat.le_antisymm hstart' hstart
      have hhead : j = k := by
        cases j
        cases k
        simp only [Interval.mk.injEq]
        exact ⟨hsame, Nat.le_antisymm (hstop hsame) (hstop' hsame.symm)⟩
      subst hhead
      refine congrArg (j :: ·) (ih hrest hrest' fun offset => ?_)
      rw [hjs.covers_tail_iff, hks.covers_tail_iff, h offset]

/-! ## Adding an interval -/

/-- What is united starts no earlier than its parts. -/
theorem lt_start_of_mem_unite {i : Interval} {js : List Interval} {bound : Nat}
    (hi : bound < i.start) (hjs : ∀ j ∈ js, bound < j.start) :
    ∀ j ∈ unite i js, bound < j.start := by
  induction js generalizing i with
  | nil => simpa [unite] using hi
  | cons j js ih =>
    obtain ⟨hj, hjs⟩ := List.forall_mem_cons.1 hjs
    rw [unite]
    split
    · exact List.forall_mem_cons.2 ⟨hj, ih hi hjs⟩
    · split
      · exact List.forall_mem_cons.2 ⟨hi, List.forall_mem_cons.2 ⟨hj, hjs⟩⟩
      · refine ih ?_ hjs
        dsimp only
        omega

theorem IsNormal.unite {i : Interval} {js : List Interval} (hi : i.start < i.stop)
    (hjs : IsNormal js) : IsNormal (unite i js) := by
  induction js generalizing i with
  | nil => exact isNormal_cons.2 ⟨hi, by simp, isNormal_nil⟩
  | cons j js ih =>
    obtain ⟨hj, hlt, hrest⟩ := isNormal_cons.1 hjs
    rw [Cover.unite]
    split
    · next hbefore => exact isNormal_cons.2 ⟨hj, lt_start_of_mem_unite hbefore hlt, ih hi hrest⟩
    · split
      · next hbehind =>
        refine isNormal_cons.2 ⟨hi, List.forall_mem_cons.2 ⟨hbehind, fun k hk => ?_⟩, hjs⟩
        have hk := hlt k hk
        omega
      · refine ih ?_ hrest
        dsimp only
        omega

theorem covers_unite {i : Interval} {js : List Interval} {offset : Nat} (hi : i.start < i.stop)
    (hjs : IsNormal js) : Covers (unite i js) offset ↔ offset ∈ i ∨ Covers js offset := by
  induction js generalizing i with
  | nil => simp [unite, Covers]
  | cons j js ih =>
    obtain ⟨hj, -, hrest⟩ := isNormal_cons.1 hjs
    rw [unite]
    split
    · rw [covers_cons, ih hi hrest, covers_cons, or_left_comm]
    · split
      · rw [covers_cons]
      · rw [ih (by dsimp only; omega) hrest, covers_cons, ← or_assoc]
        refine or_congr_left ?_
        -- The two overlap or touch, so nothing but their offsets is between their ends.
        simp only [Interval.mem_iff]
        omega

/-- Intervals that are added one after the other keep the form and cover their offsets. -/
theorem foldl_add_spec (is : List Interval) {c : Cover} (hc : IsNormal c.intervals) :
    IsNormal (is.foldl add c).intervals ∧ ∀ offset,
      Covers (is.foldl add c).intervals offset ↔ Covers is offset ∨ Covers c.intervals offset := by
  induction is generalizing c with
  | nil => simp [hc, Covers]
  | cons i is ih =>
    rw [List.foldl_cons]
    cases hempty : i.isEmpty with
    | true =>
      have hnot : ∀ offset, offset ∉ i := fun offset hmem => by
        simp only [Interval.isEmpty, decide_eq_true_eq] at hempty
        exact Nat.lt_irrefl _ (Nat.lt_of_le_of_lt hempty (Nat.lt_of_le_of_lt hmem.1 hmem.2))
      have hadd : c.add i = c := by simp [add, hempty]
      rw [hadd]
      simpa [covers_cons, hnot] using ih hc
    | false =>
      have hi := Interval.start_lt_stop hempty
      have hadd : (c.add i).intervals = Cover.unite i c.intervals := by simp [add, hempty]
      have hnormal : IsNormal (c.add i).intervals := hadd ▸ hc.unite hi
      obtain ⟨hnormal', hcovers⟩ := ih hnormal
      refine ⟨hnormal', fun offset => ?_⟩
      rw [hcovers, hadd, covers_unite hi hc, covers_cons, or_assoc, or_left_comm]

/-! ## Meeting an interval -/

/-- An interval that is not empty meets a cover where they share an offset. -/
theorem meets_iff {c : Cover} {i : Interval} (hc : IsNormal c.intervals) (hi : i.isEmpty = false) :
    c.meets i ↔ ∃ offset ∈ i, Covers c.intervals offset := by
  have hstart := Interval.start_lt_stop hi
  rw [meets, hi, if_neg Bool.false_ne_true]
  generalize c.intervals = js at hc ⊢
  induction js with
  | nil => simp [Covers]
  | cons j js ih =>
    obtain ⟨hj, hlt, hrest⟩ := isNormal_cons.1 hc
    rw [List.find?_cons]
    cases hbehind : decide (i.start < j.stop) with
    | false =>
      refine (ih hrest).trans ?_
      have hnot : ∀ offset ∈ i, offset ∉ j := fun offset hmem hmem' => by
        simp only [decide_eq_false_iff_not, Nat.not_lt] at hbehind
        exact Nat.lt_irrefl _ (Nat.lt_of_lt_of_le hmem'.2 (Nat.le_trans hbehind hmem.1))
      simp only [covers_cons]
      exact exists_congr fun offset => and_congr_right fun hmem => by simp [hnot offset hmem]
    | true =>
      simp only [decide_eq_true_eq] at hbehind
      simp only [Option.any_some, decide_eq_true_eq]
      constructor
      · intro hmeets
        have hlate : max i.start j.start < i.stop ∧ max i.start j.start < j.stop := by omega
        exact ⟨max i.start j.start, ⟨Nat.le_max_left _ _, hlate.1⟩,
          covers_cons.2 (.inl ⟨Nat.le_max_right _ _, hlate.2⟩)⟩
      · rintro ⟨offset, hmem, hcovers⟩
        rcases covers_cons.1 hcovers with hmem' | ⟨k, hk, hmem'⟩
        · exact Nat.lt_of_le_of_lt hmem'.1 hmem.2
        · have hk := hlt k hk
          have hlow := hmem'.1
          have hhigh := hmem.2
          omega

theorem isEmpty_single (offset : Nat) : (Interval.ofSize offset 1).isEmpty = false :=
  decide_eq_false (Nat.not_le_of_lt (Nat.lt_succ_self offset))

/-- A place is covered if the interval of this one offset meets the cover. -/
theorem contains_eq_meets (c : Cover) (offset : Nat) :
    c.contains offset = c.meets (.ofSize offset 1) := by
  have hstart : (fun j : Interval => decide (j.start ≤ offset))
      = fun j => decide (j.start < (Interval.ofSize offset 1).stop) :=
    funext fun _ => decide_eq_decide.2 Nat.lt_succ_iff.symm
  rw [contains, meets, isEmpty_single, if_neg Bool.false_ne_true, hstart]
  rfl

theorem contains_iff {c : Cover} {offset : Nat} (hc : IsNormal c.intervals) :
    c.contains offset ↔ Covers c.intervals offset := by
  rw [contains_eq_meets, meets_iff hc (isEmpty_single offset)]
  constructor
  · rintro ⟨offset', hmem, hcovers⟩
    obtain rfl : offset' = offset := Nat.le_antisymm (Nat.le_of_lt_succ hmem.2) hmem.1
    exact hcovers
  · intro hcovers
    exact ⟨offset, ⟨Nat.le_refl _, Nat.lt_succ_self _⟩, hcovers⟩

end Swatch.Cover

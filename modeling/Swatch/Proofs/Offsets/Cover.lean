-- SUMMARY: Covered places kept as a table: intervals located by two searches and spliced in.
import Swatch.Proofs.Cover
import Swatch.Proofs.Offsets.Reading
import Mathlib.Data.List.TakeWhile

/-!
# Covered places by index

The covered intervals are a table. An interval is added by two searches: for the first
entry that does not end before it, and for the first entry that starts behind it. The
entries between the two places touch it, and one entry takes their place.

In a cover in normal form both searches split the table, the first one no later than the
second one, so the splice is in range. It gives what adding the interval gives. So the
table is, after any intervals, the one normal form of what they cover together.
-/

namespace Swatch

namespace Offsets

open Cover (IsNormal unite)

/-! ## The table -/

/-- The index of the first entry that lacks a property, where the entries with it come first. -/
def partitionPoint (f : Interval → Bool) (js : List Interval) : Nat :=
  (js.takeWhile f).length

def entry (js : List Interval) (n : Nat) : Reading Interval :=
  js[n]?.elim (.error (.ofSize n 1)) .ok

/-- One entry in place of those from one index to another. -/
def splice (js : List Interval) (first last : Nat) (i : Interval) : Reading (List Interval) :=
  if first ≤ last ∧ last ≤ js.length then .ok (js.take first ++ i :: js.drop last)
  else .error ⟨first, last⟩

/-- Cover an interval, united with the entries that it touches. -/
def claim (js : List Interval) (i : Interval) : Reading (List Interval) :=
  if i.isEmpty then .ok js
  else do
    let first := partitionPoint (·.stop < i.start) js
    let last := partitionPoint (·.start ≤ i.stop) js
    if first < last then
      let lowest ← entry js first
      let highest ← entry js (last - 1)
      splice js first last ⟨min i.start lowest.start, max i.stop highest.stop⟩
    else splice js first last i

def claimAll (js : List Interval) : List Interval → Reading (List Interval)
  | [] => .ok js
  | i :: is => do
    let js ← claim js i
    claimAll js is

/-! ## Where the searches split the table -/

/-- A property that goes down an order is lost behind the first element without it. -/
theorem of_mem_dropWhile {α : Type} {R : α → α → Prop} {f : α → Bool} {l : List α}
    (hl : l.Pairwise R) (hf : ∀ {x y}, R x y → f y → f x) : ∀ x ∈ l.dropWhile f, f x = false := by
  induction l with
  | nil => simp
  | cons x l ih =>
    obtain ⟨hx, hl⟩ := List.pairwise_cons.1 hl
    cases hfx : f x with
    | true =>
      rw [List.dropWhile_cons_of_pos hfx]
      exact ih hl
    | false =>
      rw [List.dropWhile_cons_of_neg (by simp [hfx])]
      refine List.forall_mem_cons.2 ⟨hfx, fun y hy => Bool.eq_false_iff.2 fun hfy => ?_⟩
      rw [hf (hx y hy) hfy] at hfx
      cases hfx

section Split

variable {js : List Interval} {i : Interval}

/-- Entries of a cover start and stop in order. -/
theorem pairwise_of_isNormal (h : IsNormal js) :
    js.Pairwise fun j k => j.start < k.start ∧ j.stop < k.stop := by
  refine h.pairwise.imp_of_mem fun {j k} hj hk hlt => ?_
  have hj := h.start_lt_stop j hj
  have hk := h.start_lt_stop k hk
  omega

/-- The entries before an interval, those that touch it, and those behind it. -/
theorem exists_split (h : IsNormal js) (hi : i.start < i.stop) :
    ∃ front mid back, js = front ++ (mid ++ back) ∧
      partitionPoint (·.stop < i.start) js = front.length ∧
      partitionPoint (·.start ≤ i.stop) js = front.length + mid.length ∧
      (∀ j ∈ front, j.stop < i.start) ∧
      (∀ j ∈ mid, i.start ≤ j.stop ∧ j.start ≤ i.stop) ∧ ∀ j ∈ back, i.stop < j.start := by
  have hsorted := pairwise_of_isNormal h
  have hfront : ∀ j ∈ js.takeWhile (·.stop < i.start), j.stop < i.start :=
    fun j hj => by simpa using List.mem_takeWhile_imp hj
  have hrest : ∀ j ∈ js.dropWhile (·.stop < i.start), i.start ≤ j.stop := fun j hj => by
    simpa using of_mem_dropWhile hsorted
      (fun {j k} hlt hk => by simp only [decide_eq_true_eq] at hk ⊢; omega) j hj
  have hback : ∀ j ∈ (js.dropWhile (·.stop < i.start)).dropWhile (·.start ≤ i.stop),
      i.stop < j.start := fun j hj => by
    simpa using of_mem_dropWhile (hsorted.sublist (List.dropWhile_sublist _))
      (fun {j k} hlt hk => by simp only [decide_eq_true_eq] at hk ⊢; omega) j hj
  refine ⟨js.takeWhile (·.stop < i.start),
    (js.dropWhile (·.stop < i.start)).takeWhile (·.start ≤ i.stop),
    (js.dropWhile (·.stop < i.start)).dropWhile (·.start ≤ i.stop), ?_, rfl, ?_, hfront, ?_, hback⟩
  · rw [List.takeWhile_append_dropWhile, List.takeWhile_append_dropWhile]
  · have hfirst : ∀ j ∈ js.takeWhile (·.stop < i.start), decide (j.start ≤ i.stop) = true := by
      intro j hj
      have hlt := h.start_lt_stop j ((List.takeWhile_sublist _).subset hj)
      have hj := hfront j hj
      simp only [decide_eq_true_eq]
      omega
    rw [partitionPoint, ← List.length_append, ← List.takeWhile_append_of_pos hfirst,
      List.takeWhile_append_dropWhile]
  · intro j hj
    exact ⟨hrest j ((List.takeWhile_sublist _).subset hj), by simpa using List.mem_takeWhile_imp hj⟩

theorem unite_append {front : List Interval} (h : ∀ j ∈ front, j.stop < i.start)
    (rest : List Interval) : unite i (front ++ rest) = front ++ unite i rest := by
  induction front with
  | nil => rfl
  | cons j front ih =>
    obtain ⟨hj, hfront⟩ := List.forall_mem_cons.1 h
    rw [List.cons_append, unite, if_pos hj, ih hfront, List.cons_append]

theorem unite_of_behind {back : List Interval} (hi : i.start < i.stop)
    (h : ∀ j ∈ back, i.stop < j.start ∧ j.start < j.stop) : unite i back = i :: back := by
  cases back with
  | nil => rfl
  | cons j back =>
    have hj := (List.forall_mem_cons.1 h).1
    rw [unite, if_neg (by omega), if_pos hj.1]

/-- What is united with entries that it touches reaches from the first one to the last one. -/
theorem unite_touching {mid back : List Interval} {first last : Interval}
    (hi : i.start < i.stop) (h : IsNormal (mid ++ back))
    (hmid : ∀ j ∈ mid, i.start ≤ j.stop ∧ j.start ≤ i.stop)
    (hback : ∀ j ∈ back, i.stop < j.start) (hfirst : mid.head? = some first)
    (hlast : mid.getLast? = some last) :
    unite i (mid ++ back) = ⟨min i.start first.start, max i.stop last.stop⟩ :: back := by
  induction mid generalizing i first with
  | nil => cases hfirst
  | cons j mid ih =>
    obtain rfl : j = first := Option.some.inj hfirst
    obtain ⟨hj, hmid⟩ := List.forall_mem_cons.1 hmid
    obtain ⟨hlt, hbehind, hrest⟩ := Cover.isNormal_cons.1 h
    rw [List.cons_append, unite, if_neg (by omega), if_neg (by omega)]
    cases hnext : mid.head? with
    | none =>
      obtain rfl : mid = [] := List.head?_eq_none_iff.1 hnext
      obtain rfl : j = last := Option.some.inj hlast
      refine unite_of_behind (by dsimp only; omega) fun k hk => ?_
      have hk' := hbehind k hk
      have hk'' := hback k hk
      exact ⟨by dsimp only; omega, hrest.start_lt_stop k hk⟩
    | some next =>
      have hnext' := hbehind next (List.mem_append_left _ (List.mem_of_head? hnext))
      have hlast' : mid.getLast? = some last := by
        obtain ⟨more, rfl⟩ := List.head?_eq_some_iff.1 hnext
        simpa using hlast
      have hlow := hbehind last (List.mem_append_left _ (List.mem_of_getLast? hlast'))
      have hhigh := hrest.start_lt_stop last (List.mem_append_left _ (List.mem_of_getLast? hlast'))
      rw [ih (by dsimp only; omega) hrest (fun k hk => ?_) (fun k hk => ?_) hnext hlast']
      · simp only [List.cons.injEq, Interval.mk.injEq, and_true]
        omega
      · have hk := hmid k hk
        dsimp only
        omega
      · have hk' := hbehind k (List.mem_append_right _ hk)
        have hk := hback k hk
        dsimp only
        omega

end Split

/-! ## Adding to the table -/

theorem entry_head {mid : List Interval} {first : Interval} (h : mid.head? = some first)
    (front back : List Interval) :
    entry (front ++ (mid ++ back)) front.length = .ok first := by
  obtain ⟨more, rfl⟩ := List.head?_eq_some_iff.1 h
  rw [entry, List.getElem?_append_right (Nat.le_refl _), Nat.sub_self]
  rfl

theorem entry_last {mid : List Interval} {last : Interval} (h : mid.getLast? = some last)
    (front back : List Interval) :
    entry (front ++ (mid ++ back)) (front.length + mid.length - 1) = .ok last := by
  obtain ⟨start, rfl⟩ := List.getLast?_eq_some_iff.1 h
  rw [entry, List.append_assoc start, ← List.append_assoc front,
    List.getElem?_append_right (by simp)]
  simp

theorem splice_append (front mid back : List Interval) (i : Interval) :
    splice (front ++ (mid ++ back)) front.length (front.length + mid.length) i
      = .ok (front ++ i :: back) := by
  rw [splice, if_pos (by simp), List.take_left, ← List.append_assoc, ← List.length_append,
    List.drop_left]

theorem claim_eq {c : Cover} (h : IsNormal c.intervals) (i : Interval) :
    claim c.intervals i = .ok (c.add i).intervals := by
  unfold claim Cover.add
  cases hempty : i.isEmpty with
  | true => rfl
  | false =>
    have hi := Interval.start_lt_stop hempty
    obtain ⟨front, mid, back, hjs, hfirst, hlast, hfront, hmid, hback⟩ := exists_split h hi
    simp only [hfirst, hlast, Bool.false_eq_true, if_false]
    rw [hjs] at h ⊢
    have hrest : IsNormal (mid ++ back) :=
      ⟨(List.pairwise_append.1 h.pairwise).2.1,
        fun j hj => h.start_lt_stop j (List.mem_append_right _ hj)⟩
    rw [unite_append hfront]
    cases hhead : mid.head? with
    | none =>
      obtain rfl : mid = [] := List.head?_eq_none_iff.1 hhead
      rw [List.length_nil, Nat.add_zero, if_neg (Nat.lt_irrefl _), List.nil_append,
        unite_of_behind hi fun j hj => ⟨hback j hj, hrest.start_lt_stop j hj⟩]
      exact splice_append front [] back i
    | some first =>
      have hne : mid ≠ [] := by
        rintro rfl
        cases hhead
      have htail := List.getLast?_eq_some_getLast hne
      rw [if_pos (Nat.lt_add_of_pos_right (List.length_pos_iff.2 hne)), entry_head hhead,
        Reading.ok_bind, entry_last htail, Reading.ok_bind,
        unite_touching hi hrest hmid hback hhead htail]
      exact splice_append front mid back _

theorem isNormal_add {c : Cover} (h : IsNormal c.intervals) (i : Interval) :
    IsNormal (c.add i).intervals :=
  (Cover.foldl_add_spec [i] h).1

/-- The table stays in normal form, so no splice is out of range. -/
theorem claimAll_eq {c : Cover} (h : IsNormal c.intervals) (is : List Interval) :
    claimAll c.intervals is = .ok (is.foldl Cover.add c).intervals := by
  induction is generalizing c with
  | nil => rfl
  | cons i is ih =>
    rw [claimAll, claim_eq h, Reading.ok_bind, List.foldl_cons]
    exact ih (isNormal_add h i)

end Offsets

/-! ## The normal form of some intervals -/

namespace Cover

theorem covers_congr {is is' : List Interval} (h : ∀ i, i ∈ is' ↔ i ∈ is) (offset : Nat) :
    Covers is' offset ↔ Covers is offset := by
  simp only [Covers, h]

/-- Intervals that are covered one after the other, in whatever order and however often, leave the
one normal form of what they cover together: the intervals kept are in order, not empty and have
gaps between them, and no other such list has the same offsets. The searches and splices by index
give this list. A place is covered just if some interval has it; an interval meets the cover just if
it shares an offset with some interval or, being empty, starts at a covered place. -/
theorem foldl_add_canonical (is : List Interval) :
    let c : Cover := is.foldl add {}
    Offsets.claimAll [] is = .ok c.intervals ∧ IsNormal c.intervals ∧
      (∀ offset, Covers c.intervals offset ↔ Covers is offset) ∧
      (∀ js, IsNormal js → (∀ offset, Covers js offset ↔ Covers is offset) → js = c.intervals) ∧
      (∀ offset, c.contains offset ↔ Covers is offset) ∧
      (∀ i, i.isEmpty = false → (c.meets i ↔ ∃ j ∈ is, ¬ j.Disjoint i)) ∧
      (∀ i, i.isEmpty → c.meets i = c.contains i.start) ∧
      ∀ is' : List Interval, (∀ i, i ∈ is' ↔ i ∈ is) → is'.foldl add {} = c := by
  intro c
  have hspec (is : List Interval) : IsNormal (is.foldl add {}).intervals ∧
      ∀ offset, Covers (is.foldl add {}).intervals offset ↔ Covers is offset := by
    obtain ⟨hnormal, hcovers⟩ := foldl_add_spec is (c := {}) isNormal_nil
    exact ⟨hnormal, fun offset => by simpa [Covers] using hcovers offset⟩
  obtain ⟨hnormal, hcovers⟩ := hspec is
  have hunique (js : List Interval) (hjs : IsNormal js)
      (hsame : ∀ offset, Covers js offset ↔ Covers is offset) : js = c.intervals :=
    hjs.eq_of_covers hnormal fun offset => (hsame offset).trans (hcovers offset).symm
  refine ⟨Offsets.claimAll_eq (c := {}) isNormal_nil is, hnormal, hcovers, hunique, fun offset => ?_,
    fun i hi => ?_, fun i hi => ?_, fun is' hsame => ?_⟩
  · rw [contains_iff hnormal, hcovers]
  · rw [meets_iff hnormal hi]
    constructor
    · rintro ⟨offset, hmem, hcovered⟩
      obtain ⟨j, hj, hmem'⟩ := (hcovers offset).1 hcovered
      exact ⟨j, hj, fun hdisjoint => hdisjoint offset hmem' hmem⟩
    · rintro ⟨j, hj, hmeets⟩
      simp only [Interval.Disjoint, not_forall, not_not] at hmeets
      obtain ⟨offset, hmem', hmem⟩ := hmeets
      exact ⟨offset, hmem, (hcovers offset).2 ⟨j, hj, hmem'⟩⟩
  · rw [meets, if_pos hi]
  · obtain ⟨hnormal', hcovers'⟩ := hspec is'
    have hintervals : (is'.foldl add {}).intervals = c.intervals :=
      hunique _ hnormal' fun offset => (hcovers' offset).trans (covers_congr hsame offset)
    exact congrArg Cover.mk hintervals

/-- Intervals that touch, a reversed one and one that another one contains, then the same ones in
another order with one of them twice. -/
theorem foldl_add_canonical_touching :
    let is : List Interval := [⟨5, 9⟩, ⟨7, 3⟩, ⟨1, 2⟩, ⟨9, 12⟩, ⟨6, 7⟩]
    let is' : List Interval := [⟨6, 7⟩, ⟨9, 12⟩, ⟨7, 3⟩, ⟨9, 12⟩, ⟨5, 9⟩, ⟨1, 2⟩]
    let c : Cover := is.foldl add {}
    c.intervals = [⟨1, 2⟩, ⟨5, 12⟩] ∧ is'.foldl add {} = c ∧ c.meets ⟨2, 6⟩ ∧
      c.meets ⟨8, 8⟩ = c.contains 8 := by
  intro is is' c
  obtain ⟨-, -, -, hunique, -, hmeets, hempty, hsame⟩ := foldl_add_canonical is
  refine ⟨(hunique [⟨1, 2⟩, ⟨5, 12⟩] ⟨by decide, by decide⟩ fun offset => ?_).symm,
    hsame is' fun i => ⟨?_, ?_⟩, (hmeets ⟨2, 6⟩ (by decide)).2 ?_, hempty ⟨8, 8⟩ (by decide)⟩
  · simp only [is, Covers, List.mem_cons, List.not_mem_nil, or_false, exists_eq_or_imp,
      exists_eq_left, Interval.mem_iff]
    omega
  · exact (by decide : ∀ i ∈ is', i ∈ is) i
  · exact (by decide : ∀ i ∈ is, i ∈ is') i
  · exact ⟨⟨5, 9⟩, by decide, fun hdisjoint => hdisjoint 5 (by decide) (by decide)⟩

end Cover

end Swatch

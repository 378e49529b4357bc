-- SUMMARY: Cutting texts at byte offsets, and intervals that share no offset.
import Swatch.Text.Basic

/-!
# Cutting texts

An offset at which a text can be cut tells both parts: no other two parts join to the
text with the same size on the left. Two cuts of one text therefore leave a middle part
between them.

Intervals are compared by the offsets in them. An interval inside another one shares no
offset with whatever the other one shares none with.
-/

namespace Swatch

namespace Text

@[simp] theorem size_reverse (t : Text) : size t.reverse = t.size := by
  induction t with
  | nil => rfl
  | cons c t ih => simp [ih, Nat.add_comm]

@[simp] theorem size_eq_zero_iff {t : Text} : t.size = 0 ↔ t = [] := by
  cases t with
  | nil => simp
  | cons c t => simp [Nat.ne_of_gt (Char.utf8Size_pos c)]

theorem size_pos_iff {t : Text} : 0 < t.size ↔ t ≠ [] := by
  rw [Nat.pos_iff_ne_zero, ne_eq, size_eq_zero_iff]

/-! ## Two cuts -/

/-- Between two cuts of one text there is a middle part. -/
theorem exists_middle {l r l' r' : Text} (h : l ++ r = l' ++ r') (hle : l.size ≤ l'.size) :
    ∃ mid, l' = l ++ mid ∧ r = mid ++ r' := by
  rcases List.append_eq_append_iff.1 h with ⟨mid, hl, hr⟩ | ⟨mid, hl, hr⟩
  · exact ⟨mid, hl, hr⟩
  · have hmid : mid = [] := by
      rw [hl, size_append] at hle
      exact size_eq_zero_iff.1 (by omega)
    subst hmid
    exact ⟨[], by simpa using hl.symm, by simpa using hr.symm⟩

/-- Two cuts of one text at the same offset are the same cut. -/
theorem append_inj_of_size {l r l' r' : Text} (h : l ++ r = l' ++ r') (hsize : l.size = l'.size) :
    l = l' ∧ r = r' := by
  obtain ⟨mid, rfl, rfl⟩ := exists_middle h (Nat.le_of_eq hsize)
  rw [size_append] at hsize
  obtain rfl := size_eq_zero_iff.1 (by omega : size mid = 0)
  simp

/-! ## Cuts and slices -/

theorem splitAt?_append (l r : Text) : (l ++ r).splitAt? l.size = some (l, r) := by
  induction l with
  | nil => cases r <;> rfl
  | cons c l ih =>
    have hc : 0 < c.utf8Size := Char.utf8Size_pos c
    obtain ⟨n, hn⟩ := Nat.exists_eq_add_one.2 (Nat.add_pos_left hc (size l))
    have hrest : n + 1 - c.utf8Size = size l := by omega
    rw [List.cons_append, size_cons, hn, splitAt?, if_pos (by omega), hrest, ih]
    rfl

theorem splitAt?_eq_some_iff {t left right : Text} {n : Nat} :
    t.splitAt? n = some (left, right) ↔ left ++ right = t ∧ left.size = n := by
  constructor
  · exact splitAt?_eq_some
  · rintro ⟨rfl, rfl⟩
    exact splitAt?_append left right

theorem slice?_append (l m r : Text) : (l ++ m ++ r).slice? ⟨l.size, l.size + m.size⟩ = some m := by
  rw [slice?, if_pos (by simp), List.append_assoc, splitAt?_append]
  simp [splitAt?_append]

theorem slice_append (l m r : Text) : (l ++ m ++ r).slice ⟨l.size, l.size + m.size⟩ = m := by
  rw [slice, slice?_append, Option.getD_some]

/-- A slice is no wider than its interval, whether the text can be cut there or not. -/
theorem size_slice_le (t : Text) (i : Interval) : (t.slice i).size ≤ i.stop - i.start := by
  unfold slice slice?
  split
  · split
    · next left right _ =>
      cases hmid : right.splitAt? (i.stop - i.start) with
      | none => simp
      | some parts => simpa using Nat.le_of_eq (splitAt?_eq_some hmid).2
    · simp
  · simp

/-! ## Characters before an offset -/

/-- The characters before an offset include a prefix of the text just if its bytes end at or before
the offset. -/
theorem length_le_charsBefore_iff (before rest : Text) (offset : Nat) :
    before.length ≤ charsBefore (before ++ rest) offset ↔ before.size ≤ offset := by
  induction before generalizing offset with
  | nil => simp
  | cons c before ih =>
    rw [List.cons_append, charsBefore, List.length_cons, size_cons]
    split
    · rw [Nat.succ_le_succ_iff, ih]
      omega
    · omega

@[simp] theorem charsBefore_zero (t : Text) : t.charsBefore 0 = 0 := by
  cases t with
  | nil => rfl
  | cons c t => rw [charsBefore, if_neg (Nat.not_le_of_gt (Char.utf8Size_pos c))]

theorem charsBefore_append (s t : Text) (offset : Nat) :
    charsBefore (s ++ t) (s.size + offset) = s.length + t.charsBefore offset := by
  induction s with
  | nil => simp
  | cons c s ih =>
    have hrest : c.utf8Size + size s + offset - c.utf8Size = size s + offset := by omega
    rw [List.cons_append, size_cons, charsBefore, if_pos (by omega), hrest, ih, List.length_cons,
      Nat.add_right_comm]

theorem charsBefore_le_length (t : Text) (offset : Nat) : t.charsBefore offset ≤ t.length := by
  fun_induction charsBefore t offset with
  | case1 => exact Nat.le_refl 0
  | case2 c t offset _ ih => exact Nat.succ_le_succ ih
  | case3 => exact Nat.zero_le _

theorem charsBefore_mono (t : Text) {m n : Nat} (h : m ≤ n) :
    t.charsBefore m ≤ t.charsBefore n := by
  have hlength : (t.take (t.charsBefore m)).length = t.charsBefore m :=
    List.length_take_of_le (t.charsBefore_le_length m)
  have hcut (offset : Nat) := length_le_charsBefore_iff (t.take (t.charsBefore m))
    (t.drop (t.charsBefore m)) offset
  simp only [List.take_append_drop, hlength] at hcut
  exact (hcut n).2 (Nat.le_trans ((hcut m).1 (Nat.le_refl _)) h)

/-- Of the first characters of a text, more take more bytes. -/
theorem sizeOfFirst_le_iff {t : Text} {m n : Nat} (hm : m ≤ t.length) :
    t.sizeOfFirst m ≤ t.sizeOfFirst n ↔ m ≤ n := by
  have hmore {k l : Nat} (hkl : k ≤ l) : t.take l = t.take k ++ (t.drop k).take (l - k) := by
    rw [← List.take_add, Nat.add_sub_cancel' hkl]
  constructor
  · intro hle
    refine Nat.le_of_not_lt fun hlt => ?_
    rw [sizeOfFirst, sizeOfFirst, hmore (Nat.le_of_lt hlt), size_append] at hle
    have hrest : (t.drop n).take (m - n) = [] := size_eq_zero_iff.1 (by omega)
    have hlength := congrArg List.length hrest
    simp only [List.length_take, List.length_drop, List.length_nil] at hlength
    omega
  · intro hle
    rw [sizeOfFirst, sizeOfFirst, hmore hle, size_append]
    exact Nat.le_add_right _ _

end Text

/-! ## Intervals -/

namespace Interval

/-- No offset is in both intervals. -/
def Disjoint (i j : Interval) : Prop :=
  ∀ offset ∈ i, offset ∉ j

structure Within (i j : Interval) : Prop where
  start_le : j.start ≤ i.start
  stop_le : i.stop ≤ j.stop

theorem Within.mem {i j : Interval} (h : i.Within j) {offset : Nat} (ho : offset ∈ i) :
    offset ∈ j :=
  ⟨Nat.le_trans h.start_le ho.1, Nat.lt_of_lt_of_le ho.2 h.stop_le⟩

theorem Within.trans {i j k : Interval} (hij : i.Within j) (hjk : j.Within k) : i.Within k :=
  ⟨Nat.le_trans hjk.start_le hij.start_le, Nat.le_trans hij.stop_le hjk.stop_le⟩

theorem Disjoint.symm {i j : Interval} (h : i.Disjoint j) : j.Disjoint i :=
  fun offset hj hi => h offset hi hj

theorem Disjoint.mono {i i' j j' : Interval} (h : i.Disjoint j) (hi : i'.Within i)
    (hj : j'.Within j) : i'.Disjoint j' :=
  fun offset ho ho' => h offset (hi.mem ho) (hj.mem ho')

theorem disjoint_of_le {i j : Interval} (h : i.stop ≤ j.start) : i.Disjoint j :=
  fun _ hi hj => Nat.lt_irrefl _ (Nat.lt_of_lt_of_le hi.2 (Nat.le_trans h hj.1))

/-- Intervals are disjoint if neither starts inside the other one. -/
theorem disjoint_of_order {i j : Interval} (h : i.start ≤ j.start → i.stop ≤ j.start)
    (h' : j.start ≤ i.start → j.stop ≤ i.start) : i.Disjoint j := by
  rcases Nat.le_total i.start j.start with hle | hle
  · exact disjoint_of_le (h hle)
  · exact (disjoint_of_le (h' hle)).symm

/-- An interval ends before the next one starts, if that one is not empty and they are disjoint. -/
theorem Disjoint.stop_le {i j : Interval} (h : i.Disjoint j) (hj : j.start < j.stop)
    (hle : i.start ≤ j.start) : i.stop ≤ j.start :=
  Nat.le_of_not_lt fun hlt => h j.start ⟨hle, hlt⟩ ⟨Nat.le_refl _, hj⟩

theorem start_le_of_le {i j : Interval} (h : i.le j) : i.start ≤ j.start := by
  simp only [le, Bool.or_eq_true, Bool.and_eq_true, decide_eq_true_eq] at h
  omega

theorem le_trans {i j k : Interval} (hij : i.le j) (hjk : j.le k) : i.le k := by
  simp only [le, Bool.or_eq_true, Bool.and_eq_true, decide_eq_true_eq] at *
  omega

theorem le_total (i j : Interval) : i.le j || j.le i := by
  simp only [le, Bool.or_eq_true, Bool.and_eq_true, decide_eq_true_eq]
  omega

theorem start_lt_stop {i : Interval} (h : i.isEmpty = false) : i.start < i.stop := by
  simpa [isEmpty] using h

end Interval

end Swatch

-- SUMMARY: The first offset from another one on that has a property.
import Swatch.Proofs.Text.Cut

/-!
# First places

What goes on to the first place of some kind goes on to the end where no such place is
left. Such a place is told by being reached by nothing of its kind, so a search in a text
and a search in a list of places agree once both look for the same kind.

A text read up to the first suffix of a kind is as long as the way to the first place at
which such a suffix starts.
-/

namespace Swatch

/-- An offset is the first one from `start` on that has a property, or it is `stop` where none in
front of `stop` has it. -/
structure IsFirst (P : Nat → Prop) (start stop offset : Nat) : Prop where
  start_le : start ≤ offset
  le_stop : offset ≤ stop
  holds : offset < stop → P offset
  le : ∀ {other}, start ≤ other → P other → offset ≤ other

namespace IsFirst

variable {P Q : Nat → Prop} {start stop offset other : Nat}

theorem eq (h : IsFirst P start stop offset) (h' : IsFirst P start stop other) :
    offset = other := by
  rcases Nat.lt_trichotomy offset other with hlt | heq | hlt
  · have hle := h'.le h.start_le (h.holds (Nat.lt_of_lt_of_le hlt h'.le_stop))
    omega
  · exact heq
  · have hle := h.le h'.start_le (h'.holds (Nat.lt_of_lt_of_le hlt h.le_stop))
    omega

theorem congr (h : IsFirst P start stop offset) (hiff : ∀ other, P other ↔ Q other) :
    IsFirst Q start stop offset where
  start_le := h.start_le
  le_stop := h.le_stop
  holds hlt := (hiff offset).1 (h.holds hlt)
  le hstart hother := h.le hstart ((hiff _).2 hother)

/-- The first one of two kinds of places is the smaller one of their first ones. -/
theorem or (h : IsFirst P start stop offset) (h' : IsFirst Q start stop other) :
    IsFirst (fun place => P place ∨ Q place) start stop (min offset other) where
  start_le := Nat.le_min.2 ⟨h.start_le, h'.start_le⟩
  le_stop := Nat.le_trans (Nat.min_le_left _ _) h.le_stop
  holds hlt := by
    rcases Nat.le_total offset other with hle | hle
    · rw [Nat.min_eq_left hle] at hlt ⊢
      exact .inl (h.holds hlt)
    · rw [Nat.min_eq_right hle] at hlt ⊢
      exact .inr (h'.holds hlt)
  le hstart hplace := by
    rcases hplace with hplace | hplace
    · exact Nat.le_trans (Nat.min_le_left _ _) (h.le hstart hplace)
    · exact Nat.le_trans (Nat.min_le_right _ _) (h'.le hstart hplace)

/-- An offset stands in front of the first place just if there is no place up to it. -/
theorem lt_iff (h : IsFirst P start stop offset) :
    other < offset ↔ other < stop ∧ ∀ place, start ≤ place → place ≤ other → ¬ P place := by
  constructor
  · intro hlt
    refine ⟨Nat.lt_of_lt_of_le hlt h.le_stop, fun place hstart hle hplace => ?_⟩
    have hfirst := h.le hstart hplace
    omega
  · rintro ⟨hlt, hclear⟩
    refine Nat.lt_of_not_le fun hle => ?_
    exact hclear offset h.start_le hle (h.holds (Nat.lt_of_le_of_lt hle hlt))

end IsFirst

namespace Text

/-- A suffix with a property starts at an offset of a text. -/
def StartsAt (f : Text → Bool) (t : Text) (offset : Nat) : Prop :=
  ∃ left right, left ++ right = t ∧ left.size = offset ∧ f right

instance (f : Text → Bool) (t : Text) (offset : Nat) : Decidable (StartsAt f t offset) :=
  decidable_of_iff ((t.splitAt? offset).any fun cut => f cut.2) (by
    simp only [StartsAt, Option.any_eq_true, Prod.exists, splitAt?_eq_some_iff, and_assoc])

theorem upTo_ends (f : Text → Bool) (t : Text) :
    ∃ rest, t = t.upTo f ++ rest ∧ (rest = [] ∨ f rest) := by
  induction t with
  | nil => exact ⟨[], rfl, .inl rfl⟩
  | cons c t ih =>
    rw [upTo]
    split
    · next hc => exact ⟨c :: t, rfl, .inr hc⟩
    · obtain ⟨rest, ht, hrest⟩ := ih
      exact ⟨rest, congrArg (c :: ·) ht, hrest⟩

theorem size_upTo_le {f : Text → Bool} (skipped : Text) {rest : Text} (h : f rest) :
    (upTo f (skipped ++ rest)).size ≤ skipped.size := by
  induction skipped with
  | nil =>
    cases rest with
    | nil => exact Nat.zero_le _
    | cons c rest => simp [upTo, h]
  | cons c skipped ih =>
    rw [List.cons_append, upTo]
    split
    · exact Nat.zero_le _
    · exact Nat.add_le_add_left ih _

theorem isFirst_upTo (f : Text → Bool) (left right : Text) :
    IsFirst (StartsAt f (left ++ right)) left.size (size (left ++ right))
      (left.size + (right.upTo f).size) where
  start_le := Nat.le_add_right _ _
  le_stop := by
    obtain ⟨rest, hright, -⟩ := upTo_ends f right
    have hsize := congrArg size hright
    rw [size_append] at hsize
    rw [size_append]
    omega
  holds hlt := by
    obtain ⟨rest, hright, rfl | hrest⟩ := upTo_ends f right
    · rw [List.append_nil] at hright
      rw [size_append, ← hright] at hlt
      omega
    · refine ⟨left ++ right.upTo f, rest, ?_, size_append _ _, hrest⟩
      rw [List.append_assoc, ← hright]
  le hstart hother := by
    obtain ⟨before, behind, hcut, rfl, hbehind⟩ := hother
    obtain ⟨skipped, rfl, rfl⟩ := exists_middle hcut.symm hstart
    rw [size_append]
    exact Nat.add_le_add_left (size_upTo_le skipped hbehind) _

end Text

end Swatch

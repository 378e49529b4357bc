-- SUMMARY: What fields give under a name, and what is read from them.
import Mathlib.Data.List.Forall2
import Mathlib.Data.List.Nodup
import Swatch.Settings.Basic

/-!
# Fields that give values

Fields stand in any order, and those with names that mean nothing are passed over. What
fields give under one name is therefore told by the fields with that name alone: none at
all, or one whose value is meant.
-/

namespace Swatch

variable {α β γ : Type} {gives : β → α → Prop} {name : String} {value : Option β}
  {fields : List (Text × α)}

/-- There is one field with the name if a value is named, and it gives the value; else there is
none. Fields with other names may be anything. -/
def FieldGives (gives : β → α → Prop) (name : String) (value : Option β)
    (fields : List (Text × α)) : Prop :=
  List.Forall₂ (fun b f => gives b f.2) value.toList (fields.filter (·.1 == name.toList))

/-- The fields that are there, of those that may be there. -/
def presentFields (slots : List (Text × Option α)) : List (Text × α) :=
  slots.filterMap fun slot => slot.2.map (slot.1, ·)

theorem presentFields_cons (slot : Text × Option α) (slots : List (Text × Option α)) :
    presentFields (slot :: slots) = slot.2.toList.map (slot.1, ·) ++ presentFields slots := by
  rw [presentFields, List.filterMap_cons, presentFields]
  cases slot.2 <;> rfl

theorem filter_presentFields {slots : List (Text × Option α)} (hnames : (slots.map (·.1)).Nodup)
    {key : Text} {slot : Option α} (hslot : (key, slot) ∈ slots) :
    (presentFields slots).filter (·.1 == key) = slot.toList.map (key, ·) := by
  induction slots with
  | nil => cases hslot
  | cons first slots ih =>
    rw [List.map_cons, List.nodup_cons] at hnames
    rw [presentFields_cons, List.filter_append]
    rcases List.mem_cons.1 hslot with rfl | hslot
    · have hrest : (presentFields slots).filter (·.1 == key) = [] := by
        refine List.filter_eq_nil_iff.2 fun f hf hkey => hnames.1 ?_
        obtain ⟨other, hother, hsome⟩ := List.mem_filterMap.1 hf
        obtain ⟨a, -, rfl⟩ := Option.map_eq_some_iff.1 hsome
        exact List.mem_map.2 ⟨other, hother, by simpa using hkey⟩
      simp [hrest]
    · have hne : first.1 ≠ key := by
        rintro rfl
        exact hnames.1 (List.mem_map.2 ⟨_, hslot, rfl⟩)
      simp [hne, ih hnames.2 hslot]

/-- If all names are different, a field that is there if a value is named gives the value. -/
theorem fieldGives_present {slots : List (Text × Option α)} {write : β → α}
    (hnames : (slots.map (·.1)).Nodup) (hslot : (name.toList, value.map write) ∈ slots)
    (hwrite : ∀ b ∈ value, gives b (write b)) :
    FieldGives gives name value (presentFields slots) := by
  rw [FieldGives, filter_presentFields hnames hslot]
  cases value with
  | none => exact .nil
  | some b => exact .cons (hwrite b rfl) .nil

/-- A field that is named is read; for one that is not the default counts. -/
theorem readField?_of_gives {read : α → Option γ} {make : β → γ} (default : γ)
    (h : FieldGives gives name value fields) (hread : ∀ b a, gives b a → read a = some (make b)) :
    readField? name default read fields = some (value.elim default make) := by
  unfold FieldGives at h
  cases value with
  | none =>
    have hnone : fields.filter (·.1 == name.toList) = [] := List.forall₂_nil_left_iff.1 h
    simp [readField?, fieldValue?, hnone]
  | some b =>
    obtain ⟨f, rest, hgives, hrest, hone⟩ := List.forall₂_cons_left_iff.1 h
    obtain rfl := List.forall₂_nil_left_iff.1 hrest
    simp [readField?, fieldValue?, hone, hread b f.2 hgives]

theorem readField?_of_value {read : α → Option β} (default : β)
    (h : FieldGives (fun b a => read a = some b) name value fields) :
    readField? name default read fields = some (value.getD default) := by
  rw [readField?_of_gives default h fun _ _ h => h]
  cases value <;> rfl

end Swatch

-- SUMMARY: The keys of a table, and what giving a key a value does to them.
import Swatch.Table
import Mathlib.Data.List.Nodup

/-!
# Keys of tables

A table that holds each key once is determined by what it gives for each key. A key
that comes in goes to the end, so the keys stay apart.
-/

namespace Swatch.Table

variable {α β : Type} [DecidableEq α] {key : α} {value : β} {t : Table α β}

theorem get?_eq_none_iff : get? key t = none ↔ key ∉ t.map Prod.fst := by
  induction t with
  | nil => simp
  | cons p t ih =>
    by_cases hkey : p.1 = key
    · simp [get?, hkey]
    · simp [get?, hkey, ih, Ne.symm hkey]

theorem mem_of_get?_eq_some (h : get? key t = some value) : (key, value) ∈ t := by
  induction t with
  | nil => simp at h
  | cons p t ih =>
    by_cases hkey : p.1 = key
    · obtain rfl : p.2 = value := by simpa [get?, hkey] using h
      exact List.mem_cons.2 (.inl (by rw [← hkey]))
    · exact List.mem_cons_of_mem p (ih (by simpa [get?, hkey] using h))

/-- A table that holds each key once gives what it holds. -/
theorem get?_eq_some_iff (hnodup : (t.map Prod.fst).Nodup) :
    get? key t = some value ↔ (key, value) ∈ t := by
  refine ⟨mem_of_get?_eq_some, ?_⟩
  intro hmem
  induction t with
  | nil => cases hmem
  | cons p t ih =>
    obtain ⟨hhead, hnodup⟩ := List.nodup_cons.1 hnodup
    rcases List.mem_cons.1 hmem with rfl | hmem
    · simp [get?]
    · have hne : p.1 ≠ key := fun he => hhead (he ▸ List.mem_map_of_mem hmem)
      simpa [get?, hne] using ih hnodup hmem

/-- What is true of all values, and of a new one, is true of all values with the new one. -/
theorem forall_get?_put {P : α → β → Prop}
    (h : ∀ other value, get? other t = some value → P other value) (hvalue : P key value) :
    ∀ other value', get? other (put key value t) = some value' → P other value' := by
  intro other value' hget
  rw [get?_put] at hget
  split at hget
  · next heq => exact heq ▸ Option.some.inj hget ▸ hvalue
  · exact h other value' hget

theorem forall_get?_erase {P : α → β → Prop}
    (h : ∀ other value, get? other t = some value → P other value) :
    ∀ other value, get? other (erase key t) = some value → P other value := by
  intro other value hget
  rw [get?_erase] at hget
  split at hget
  · cases hget
  · exact h other value hget

/-- A new key goes to the end. -/
theorem put_of_notMem (value : β) (h : key ∉ t.map Prod.fst) :
    put key value t = t ++ [(key, value)] := by
  induction t with
  | nil => rfl
  | cons p t ih =>
    simp only [List.map_cons, List.mem_cons, not_or] at h
    rw [put, if_neg (Ne.symm h.1), ih h.2, List.cons_append]

/-- An old key stays where it is. -/
theorem map_fst_put_of_mem (h : key ∈ t.map Prod.fst) :
    (put key value t).map Prod.fst = t.map Prod.fst := by
  induction t with
  | nil => cases h
  | cons p t ih =>
    by_cases hkey : p.1 = key
    · simp [put, hkey]
    · have hrest : key ∈ t.map Prod.fst := by simpa [Ne.symm hkey] using h
      simp [put, hkey, ih hrest]

theorem mem_map_fst_put {other : α} :
    other ∈ (put key value t).map Prod.fst ↔ other = key ∨ other ∈ t.map Prod.fst := by
  by_cases hkey : key ∈ t.map Prod.fst
  · rw [map_fst_put_of_mem hkey]
    exact ⟨.inr, fun h => h.elim (fun he => he ▸ hkey) id⟩
  · rw [put_of_notMem value hkey, List.map_append, List.mem_append, or_comm]
    simp

theorem nodup_map_fst_put (hnodup : (t.map Prod.fst).Nodup) :
    ((put key value t).map Prod.fst).Nodup := by
  by_cases hkey : key ∈ t.map Prod.fst
  · rwa [map_fst_put_of_mem hkey]
  · rw [put_of_notMem value hkey, List.map_append]
    exact hnodup.append (List.nodup_singleton key) (List.disjoint_singleton.2 hkey)

end Swatch.Table

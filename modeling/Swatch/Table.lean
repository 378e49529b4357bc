-- SUMMARY: Finite tables as lists of pairs.

/-!
# Tables

A table maps keys to values and holds each key once. Keys stay in the order in
which they first came in.
-/

namespace Swatch

/-- A finite map as a list of pairs. -/
abbrev Table (α β : Type) := List (α × β)

namespace Table

variable {α β : Type} [DecidableEq α]

def get? (key : α) : Table α β → Option β
  | [] => none
  | (k, v) :: t => if k = key then some v else get? key t

def put (key : α) (value : β) : Table α β → Table α β
  | [] => [(key, value)]
  | (k, v) :: t => if k = key then (key, value) :: t else (k, v) :: put key value t

def erase (key : α) (t : Table α β) : Table α β :=
  t.filter (·.1 ≠ key)

@[simp] theorem get?_nil (key : α) : get? key ([] : Table α β) = none := rfl

theorem get?_put (key other : α) (value : β) (t : Table α β) :
    get? other (put key value t) = if key = other then some value else get? other t := by
  induction t with
  | nil => simp [put, get?]
  | cons p t ih => grind [put, get?]

theorem get?_erase (key other : α) (t : Table α β) :
    get? other (erase key t) = if key = other then none else get? other t := by
  induction t with
  | nil => simp [erase]
  | cons p t ih => grind [erase, get?]

end Table

end Swatch

-- SUMMARY: What is written to a file of a tree is what the file holds.
import Swatch.Files.Tree
import Mathlib.Data.List.Basic

/-!
# Writing to trees of files

A write changes what stands at one place, which is no directory. Paths are followed
through directories only, so every path leads to the same place as before, and the path
that was written to leads to the new text.
-/

namespace Swatch.FileTree

variable {tree tree' : FileTree} {place other : List Text} {node : FileNode} {p : Path} {t : Text}

/-! ## One node -/

theorem node?_put (hplace : place ≠ []) : (tree.put place node).node? place = some node := by
  simp [node?, put, hplace]

theorem lookup_filter_of_ne (nodes : List (List Text × FileNode)) (h : other ≠ place) :
    (nodes.filter (·.1 != place)).lookup other = nodes.lookup other := by
  induction nodes with
  | nil => rfl
  | cons n nodes ih =>
    rw [List.filter_cons]
    split
    · rw [List.lookup_cons, List.lookup_cons, ih]
    · next hsame =>
      have hn : n.1 = place := by simpa using hsame
      rw [List.lookup_cons, hn, beq_false_of_ne h, ih]

theorem node?_put_of_ne (h : other ≠ place) :
    (tree.put place node).node? other = tree.node? other := by
  have hlookup : (tree.put place node).nodes.lookup other = tree.nodes.lookup other := by
    rw [put, List.lookup_cons, beq_false_of_ne h]
    exact lookup_filter_of_ne tree.nodes h
  rw [node?, node?, hlookup]

/-- Only directories can be gone through. -/
theorem barrier?_eq_none_iff : tree.barrier? place = none ↔ tree.isDirectory place = true := by
  unfold barrier? isDirectory
  split <;> simp_all

/-! ## Following paths -/

/-- What is no directory stands in no other path's way. -/
theorem follow_put {names : List Text} {target : List Text}
    (hplace : tree.isDirectory place = false) (h : tree.follow other names = .ok target) :
    (tree.put place node).follow other names = .ok target := by
  induction names generalizing other with
  | nil => exact h
  | cons name names ih =>
    rw [follow] at h ⊢
    have hbarrier : tree.barrier? other = none := by
      cases hb : tree.barrier? other with
      | none => rfl
      | some e => simp [hb] at h
    have hne : other ≠ place := by
      rintro rfl
      rw [barrier?_eq_none_iff, hplace] at hbarrier
      cases hbarrier
    have hbarrier' : (tree.put place node).barrier? other = none := by
      rwa [barrier?, node?_put_of_ne hne]
    rw [hbarrier] at h
    rw [hbarrier']
    exact ih h

theorem place?_put (hplace : tree.isDirectory place = false) {target : List Text}
    (h : tree.place? p = .ok target) : (tree.put place node).place? p = .ok target := by
  unfold place? at h ⊢
  split
  · next hempty => rw [if_pos hempty] at h; cases h
  · next hempty =>
    rw [if_neg hempty] at h
    split
    · next habsolute =>
      rw [if_pos habsolute] at h
      exact follow_put hplace h
    · next habsolute =>
      rw [if_neg habsolute] at h
      exact follow_put hplace h

/-- A write puts a text at one place, which is no directory. -/
theorem exists_of_writeText (h : tree.writeText p t = .ok tree') :
    ∃ place, tree.place? p = .ok place ∧ tree.isDirectory place = false ∧ p.getLast? ≠ some '/' ∧
      tree' = tree.put place (.text t) := by
  cases hplace : tree.place? p with
  | error e => simp [writeText, hplace, bind, Except.bind] at h
  | ok place =>
    simp only [writeText, hplace, bind, Except.bind] at h
    split at h
    · cases h
    · next hfile =>
      simp only [Bool.or_eq_true, decide_eq_true_eq, not_or, Bool.not_eq_true] at hfile
      split at h
      · cases h
      · exact ⟨place, rfl, hfile.1, hfile.2, (Except.ok.inj h).symm⟩

/-- A path that has been written to leads to what was written. -/
theorem at?_writeText (h : tree.writeText p t = .ok tree') : tree'.at? p = .ok (.text t) := by
  obtain ⟨place, hplace, hfile, hslash, rfl⟩ := exists_of_writeText h
  have hne : place ≠ [] := by
    rintro rfl
    cases hfile
  rw [at?, place?_put hfile hplace]
  simp only [bind, Except.bind, node?_put hne, if_neg hslash]

theorem readText_writeText (h : tree.writeText p t = .ok tree') : tree'.readText p = .ok t := by
  rw [readText, at?_writeText h]
  rfl

theorem contains_of_readText (h : tree.readText p = .ok t) : tree.contains p = true := by
  unfold readText at h
  unfold contains
  cases hat : tree.at? p with
  | ok node => rfl
  | error e =>
    rw [hat] at h
    cases h

theorem contains_writeText (h : tree.writeText p t = .ok tree') : tree'.contains p = true := by
  rw [contains, at?_writeText h]
  rfl

end Swatch.FileTree

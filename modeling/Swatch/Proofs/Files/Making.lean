-- SUMMARY: A file can be written below new directories unless a file stands on the way.
import Swatch.Proofs.Files.Path
import Swatch.Proofs.Files.Tree

/-!
# Making directories

Directories are made one below the other, where nothing stands yet. That fails just if a
file stands at one of the places on the way. What has been made is directories all the way,
and nothing else has changed, so afterwards the file behind them can be written unless a
directory stands in its place.
-/

namespace Swatch

open Swatch.Path (IsName)

namespace FileTree

variable {tree next : FileTree} {place first way directory names : List Text}
  {places : List (List Text)} {name : Text} {t : Text}

/-- The places that names lead through, one below the other. -/
def ways (place : List Text) : List Text → List (List Text)
  | [] => []
  | name :: names => (place ++ [name]) :: ways (place ++ [name]) names

/-- A directory is at a place or can be made there. -/
def IsFree (tree : FileTree) (place : List Text) : Prop :=
  tree.node? place = none ∨ tree.node? place = some .directory

/-- How making directories at some places may end: with directories there and nothing else changed,
or because one of the places is not free. -/
def Outcome (tree : FileTree) (places : List (List Text)) : Except FileError FileTree → Prop
  | .ok made => (∀ way ∈ places, tree.IsFree way) ∧
      (∀ way ∈ places, made.isDirectory way = true) ∧
      ∀ other, other ∉ places → made.node? other = tree.node? other
  | .error _ => ∃ way ∈ places, ¬ tree.IsFree way

theorem length_of_mem_ways (h : way ∈ ways place names) :
    place.length < way.length ∧ way.length ≤ place.length + names.length := by
  induction names generalizing place with
  | nil => cases h
  | cons name names ih =>
    rw [List.length_cons]
    rcases List.mem_cons.1 h with rfl | h
    · rw [List.length_append, List.length_singleton]
      omega
    · have hbelow := ih h
      rw [List.length_append, List.length_singleton] at hbelow
      omega

theorem append_mem_ways (h : names ≠ []) : place ++ names ∈ ways place names := by
  induction names generalizing place with
  | nil => exact absurd rfl h
  | cons name names ih =>
    cases names with
    | nil => exact List.mem_cons_self
    | cons next names =>
      have hbelow : (place ++ [name]) ++ next :: names ∈ ways (place ++ [name]) (next :: names) :=
        ih (List.cons_ne_nil next names)
      rw [List.append_assoc] at hbelow
      exact List.mem_cons_of_mem _ hbelow

theorem isDirectory_iff : tree.isDirectory place = true ↔ tree.node? place = some .directory := by
  rw [isDirectory, beq_iff_eq]

/-- The first directory has been made or was there. -/
theorem Outcome.cons {r : Except FileError FileTree} (hfree : tree.IsFree first)
    (hfirst : next.node? first = some .directory)
    (hsame : ∀ other, other ≠ first → next.node? other = tree.node? other)
    (hplaces : first ∉ places) (h : next.Outcome places r) : tree.Outcome (first :: places) r := by
  have hne (way : List Text) (hway : way ∈ places) : next.node? way = tree.node? way :=
    hsame way fun heq => hplaces (heq ▸ hway)
  cases r with
  | ok made =>
    obtain ⟨hallfree, hdirectories, hrest⟩ := h
    refine ⟨List.forall_mem_cons.2 ⟨hfree, fun way hway => ?_⟩,
      List.forall_mem_cons.2 ⟨?_, hdirectories⟩, fun other hother => ?_⟩
    · have hway' := hallfree way hway
      rwa [IsFree, hne way hway] at hway'
    · rw [isDirectory_iff, hrest first hplaces, hfirst]
    · rw [List.mem_cons, not_or] at hother
      rw [hrest other hother.2, hsame other hother.1]
  | error e =>
    obtain ⟨way, hway, hnot⟩ := h
    rw [IsFree, hne way hway] at hnot
    exact ⟨way, List.mem_cons_of_mem first hway, hnot⟩

theorem outcome_makeFrom (hnames : ∀ name ∈ names, IsName name) :
    tree.Outcome (ways place names) (tree.makeFrom place names) := by
  induction names generalizing tree place with
  | nil => exact ⟨List.forall_mem_nil _, List.forall_mem_nil _, fun _ _ => rfl⟩
  | cons name names ih =>
    obtain ⟨hname, hrest⟩ := List.forall_mem_cons.1 hnames
    have hfirst : place ++ [name] ∉ ways (place ++ [name]) names := fun hmem =>
      Nat.lt_irrefl _ (length_of_mem_ways hmem).1
    rw [makeFrom, if_neg hname.ne_dots, ways]
    cases hnode : tree.node? (place ++ [name]) with
    | none =>
      have hne : place ++ [name] ≠ [] := by simp
      simp only [hnode]
      exact .cons (.inl hnode) (node?_put hne) (fun _ => node?_put_of_ne) hfirst (ih hrest)
    | some node =>
      simp only [hnode]
      cases node with
      | directory => exact .cons (.inr hnode) hnode (fun _ _ => rfl) hfirst (ih hrest)
      | text t => exact ⟨_, List.mem_cons_self, by simp [IsFree, hnode]⟩
      | bytes => exact ⟨_, List.mem_cons_self, by simp [IsFree, hnode]⟩

theorem makeDirectories_ofNames (hdirectory : ∀ name ∈ directory, IsName name) :
    tree.makeDirectories (Path.ofNames directory) = tree.makeFrom [] directory := by
  rw [makeDirectories, if_pos (Path.isAbsolute_ofNames directory), Path.names_ofNames hdirectory]

/-! ## Files below directories -/

theorem follow_of_isDirectory (hdirectory : ∀ name ∈ directory, IsName name) (hname : IsName name)
    (hplace : tree.isDirectory place = true)
    (hways : ∀ way ∈ ways place directory, tree.isDirectory way = true) :
    tree.follow place (directory ++ [name]) = .ok (place ++ (directory ++ [name])) := by
  induction directory generalizing place with
  | nil =>
    rw [List.nil_append, follow, barrier?_eq_none_iff.2 hplace]
    simp [hname.ne_dots, follow]
  | cons next directory ih =>
    obtain ⟨hnext, hrest⟩ := List.forall_mem_cons.1 hdirectory
    obtain ⟨hfirst, hbelow⟩ := List.forall_mem_cons.1 hways
    rw [List.cons_append, follow, barrier?_eq_none_iff.2 hplace]
    simp only [if_neg hnext.ne_dots]
    rw [ih hrest hfirst hbelow]
    simp

/-- The path of a file ends in its name. -/
theorem getLast?_ofNames (directory : List Text) (hname : IsName name) :
    (Path.ofNames (directory ++ [name])).getLast? ≠ some '/' := by
  obtain ⟨c, rest, rfl⟩ := List.exists_cons_of_ne_nil hname.ne_nil
  rw [Path.ofNames_of_ne_nil (by simp), List.flatMap_append, List.flatMap_singleton,
    List.getLast?_append_of_ne_nil _ (List.cons_ne_nil _ _), List.getLast?_cons_cons]
  exact fun hlast => hname.slash_notMem (List.mem_of_getLast? hlast)

/-- A file can be written below directories unless one stands in its place. -/
theorem writeText_ofNames (hdirectory : ∀ name ∈ directory, IsName name) (hname : IsName name)
    (hways : ∀ way ∈ ways [] directory, tree.isDirectory way = true) :
    tree.writeText (Path.ofNames (directory ++ [name])) t =
      if tree.isDirectory (directory ++ [name]) then .error .isDirectory
      else .ok (tree.put (directory ++ [name]) (.text t)) := by
  have hnames : ∀ name' ∈ directory ++ [name], IsName name' :=
    List.forall_mem_append.2 ⟨hdirectory, List.forall_mem_singleton.2 hname⟩
  have habsolute := Path.isAbsolute_ofNames (directory ++ [name])
  have hplace : tree.place? (Path.ofNames (directory ++ [name])) = .ok (directory ++ [name]) := by
    rw [place?, Path.isEmpty_of_isAbsolute habsolute, if_neg Bool.false_ne_true, if_pos habsolute,
      Path.names_ofNames hnames, follow_of_isDirectory hdirectory hname rfl hways, List.nil_append]
  have hbarrier : tree.barrier? directory = none := by
    rw [barrier?_eq_none_iff]
    cases directory with
    | nil => rfl
    | cons first rest => exact hways _ (append_mem_ways (List.cons_ne_nil first rest))
  simp only [writeText, hplace, bind, Except.bind, List.dropLast_concat, hbarrier,
    getLast?_ofNames directory hname, decide_false, Bool.or_false]

end FileTree

theorem Path.parent?_ofNames {directory : List Text} {name : Text}
    (hdirectory : ∀ name ∈ directory, IsName name) (hname : IsName name) :
    parent? (ofNames (directory ++ [name])) = some (ofNames directory) := by
  have hnames : ∀ name' ∈ directory ++ [name], IsName name' :=
    List.forall_mem_append.2 ⟨hdirectory, List.forall_mem_singleton.2 hname⟩
  have hreverse : (directory ++ [name]).reverse = name :: directory.reverse :=
    List.reverse_concat ..
  simp only [parent?, names_ofNames hnames, hreverse, isAbsolute_ofNames, List.reverse_reverse,
    if_true]

end Swatch

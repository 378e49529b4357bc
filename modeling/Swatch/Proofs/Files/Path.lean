-- SUMMARY: Absolute paths name the same document just if detours lead from one to the other.
import Mathlib.Data.List.Induction
import Mathlib.Logic.Relation
import Swatch.Document.Basic

/-!
# Detours

A path may take detours: it may stay where it is for a component, go into a directory and
up again, or try to go up from the root. Slashes may be repeated, and one may stand at the
end. Two paths lead to the same place if such detours, added and taken away one by one,
lead from one of them to the other; no file is looked at.

The path of a document is the one without any detours. It is found by going through the
names with a stack of those passed so far, so what a detour does is told by the stack in
front of it, and the same stack says which detours have to be taken away next.
-/

namespace Swatch

namespace Path

variable {p q : Path} {name part : Text} {route passed : List Text}

/-! ## Parts and names -/

/-- A component that names something: neither empty nor one of those that stay or lead up. -/
structure IsName (name : Text) : Prop where
  ne_nil : name ≠ []
  slash_notMem : '/' ∉ name
  ne_dot : name ≠ ['.']
  ne_dots : name ≠ ['.', '.']

theorem exists_parts (p : Path) : ∃ part more, parts p = part :: more := by
  fun_cases parts p
  · exact ⟨_, _, rfl⟩
  · exact ⟨_, _, rfl⟩
  · exact ⟨_, _, rfl⟩
  · exact ⟨_, _, rfl⟩

theorem parts_cons_of_ne {c : Char} {more : List Text} (hc : c ≠ '/') (h : parts p = part :: more) :
    parts (c :: p) = (c :: part) :: more := by
  rw [parts, if_neg hc, h]

/-- A slash separates the parts on both sides of it. -/
theorem parts_append_slash (a b : Path) : parts (a ++ '/' :: b) = parts a ++ parts b := by
  induction a with
  | nil => rfl
  | cons c a ih =>
    by_cases hc : c = '/'
    · subst hc
      exact congrArg ([] :: ·) ih
    · obtain ⟨part, more, hparts⟩ := exists_parts a
      rw [hparts] at ih
      rw [parts_cons_of_ne hc hparts, List.cons_append, parts_cons_of_ne hc ih]
      rfl

theorem parts_of_notMem (h : '/' ∉ part) : parts part = [part] := by
  induction part with
  | nil => rfl
  | cons c part ih =>
    rw [List.mem_cons, not_or] at h
    exact parts_cons_of_ne (Ne.symm h.1) (ih h.2)

theorem slash_notMem_of_mem_parts (h : part ∈ parts p) : '/' ∉ part := by
  induction p generalizing part with
  | nil =>
    obtain rfl := List.mem_singleton.1 h
    exact List.not_mem_nil
  | cons c p ih =>
    by_cases hc : c = '/'
    · subst hc
      rcases List.mem_cons.1 h with rfl | h
      · exact List.not_mem_nil
      · exact ih h
    · obtain ⟨first, more, hparts⟩ := exists_parts p
      rw [parts_cons_of_ne hc hparts] at h
      rw [hparts] at ih
      rcases List.mem_cons.1 h with rfl | h
      · exact List.not_mem_cons_of_ne_of_not_mem (Ne.symm hc) (ih List.mem_cons_self)
      · exact ih (List.mem_cons_of_mem first h)

/-- The parts, with a slash behind each of them, give the path back. -/
theorem flatMap_parts (p : Path) : (parts p).flatMap (· ++ ['/']) = p ++ ['/'] := by
  induction p with
  | nil => rfl
  | cons c p ih =>
    by_cases hc : c = '/'
    · subst hc
      exact congrArg ('/' :: ·) ih
    · obtain ⟨part, more, hparts⟩ := exists_parts p
      rw [hparts] at ih
      rw [parts_cons_of_ne hc hparts]
      exact congrArg (c :: ·) ih

/-- The parts that count. -/
def isStep (part : Text) : Bool :=
  !part.isEmpty && part != ['.']

theorem names_eq (p : Path) : names p = (parts p).filter isStep := rfl

theorem names_append_slash (a b : Path) : names (a ++ '/' :: b) = names a ++ names b := by
  rw [names_eq, parts_append_slash, List.filter_append]
  rfl

@[simp] theorem names_slash (p : Path) : names ('/' :: p) = names p := rfl

theorem IsName.names_eq (h : IsName name) : names name = [name] := by
  rw [Path.names_eq, parts_of_notMem h.slash_notMem]
  simp [isStep, h.ne_nil, h.ne_dot]

/-- What a path names, unless it leads up. -/
theorem isName_of_mem_names (h : name ∈ names p) (hdots : name ≠ ['.', '.']) : IsName name := by
  rw [names_eq, List.mem_filter, isStep] at h
  obtain ⟨hmem, hstep⟩ := h
  simp only [Bool.and_eq_true, Bool.not_eq_true', List.isEmpty_eq_false_iff, bne_iff_ne] at hstep
  exact ⟨hstep.1, slash_notMem_of_mem_parts hmem, hstep.2, hdots⟩

/-! ## Following names -/

theorem step_dots (passed : List Text) : step passed ['.', '.'] = passed.tail := rfl

theorem IsName.step_eq (h : IsName name) (passed : List Text) : step passed name = name :: passed :=
  if_neg h.ne_dots

/-- Whatever has been passed, going on passes names only. -/
theorem isName_of_mem_foldl (hpassed : ∀ name ∈ passed, IsName name)
    (hroute : ∀ name ∈ route, name ≠ ['.', '.'] → IsName name)
    (h : name ∈ route.foldl step passed) : IsName name := by
  induction route generalizing passed with
  | nil => exact hpassed name h
  | cons first route ih =>
    refine ih (fun other hother => ?_)
      (fun other hother => hroute other (List.mem_cons_of_mem first hother)) h
    rw [step] at hother
    split at hother
    · exact hpassed other (List.mem_of_mem_tail hother)
    · next hdots =>
      rcases List.mem_cons.1 hother with rfl | hother
      · exact hroute other List.mem_cons_self hdots
      · exact hpassed other hother

theorem isName_of_mem_resolve (h : name ∈ resolve p.names) : IsName name :=
  isName_of_mem_foldl (List.forall_mem_nil _) (fun _ hname => isName_of_mem_names hname)
    (List.mem_reverse.1 h)

/-- Where nothing leads up, all names are passed. -/
theorem foldl_step_of_isName (h : ∀ name ∈ route, IsName name) (passed : List Text) :
    route.foldl step passed = route.reverse ++ passed := by
  induction route generalizing passed with
  | nil => rfl
  | cons name route ih =>
    rw [List.foldl_cons, (h name List.mem_cons_self).step_eq,
      ih fun other hother => h other (List.mem_cons_of_mem name hother)]
    simp

theorem resolve_of_isName (h : ∀ name ∈ route, IsName name) : resolve route = route := by
  rw [resolve, foldl_step_of_isName h, List.append_nil, List.reverse_reverse]

/-! ## Paths of names -/

theorem ofNames_of_ne_nil (h : route ≠ []) : ofNames route = route.flatMap ('/' :: ·) :=
  if_neg (by simpa using h)

theorem isAbsolute_ofNames (route : List Text) : (ofNames route).isAbsolute := by
  cases route <;> rfl

/-- The parts of a path that was made of names: nothing in front of the first slash, then the
names. -/
theorem parts_flatMap_slash (h : ∀ name ∈ route, '/' ∉ name) :
    parts (route.flatMap ('/' :: ·)) = [] :: route := by
  induction route using List.reverseRecOn with
  | nil => rfl
  | append_singleton route name ih =>
    rw [List.flatMap_append, List.flatMap_singleton, parts_append_slash,
      ih fun other hother => h other (List.mem_append_left _ hother),
      parts_of_notMem (h name (by simp))]
    rfl

theorem mem_parts_ofNames (h : ∀ name ∈ route, '/' ∉ name) (hpart : part ∈ parts (ofNames route)) :
    part = [] ∨ part ∈ route := by
  rw [ofNames] at hpart
  split at hpart
  · left
    simpa [parts] using hpart
  · rw [parts_flatMap_slash h] at hpart
    exact List.mem_cons.1 hpart

theorem names_ofNames (h : ∀ name ∈ route, IsName name) : (ofNames route).names = route := by
  cases route with
  | nil => rfl
  | cons name more =>
    rw [ofNames_of_ne_nil (List.cons_ne_nil name more), names_eq,
      parts_flatMap_slash fun other hother => (h other hother).slash_notMem,
      List.filter_cons_of_neg (by simp [isStep])]
    refine List.filter_eq_self.2 fun other hother => ?_
    simp [isStep, (h other hother).ne_nil, (h other hother).ne_dot]

/-! ## Detours -/

/-- The second path takes a detour that the first one does not take. -/
inductive Detour : Path → Path → Prop
  /-- Stay in a directory. -/
  | stay (a b : Path) : Detour (a ++ '/' :: b) (a ++ '/' :: '.' :: '/' :: b)
  /-- Go into a directory and up again. -/
  | back (a : Path) {name : Text} (hname : IsName name) (b : Path) :
    Detour (a ++ '/' :: b) (a ++ '/' :: (name ++ '/' :: '.' :: '.' :: '/' :: b))
  | slash (a b : Path) : Detour (a ++ '/' :: b) (a ++ '/' :: '/' :: b)
  /-- Go up from the root. -/
  | above (b : Path) : Detour ('/' :: b) ('/' :: '.' :: '.' :: '/' :: b)
  /-- End with a slash. -/
  | last {p : Path} (hp : p ≠ []) : Detour p (p ++ ['/'])

/-- Detours lead from one path to the other. -/
def SamePlace : Path → Path → Prop :=
  Relation.EqvGen Detour

theorem Detour.isAbsolute_eq (h : Detour p q) : q.isAbsolute = p.isAbsolute := by
  cases h with
  | stay a b => cases a <;> rfl
  | back a hname b => cases a <;> rfl
  | slash a b => cases a <;> rfl
  | above b => rfl
  | last hp =>
    cases p with
    | nil => exact absurd rfl hp
    | cons c p => rfl

/-- A detour comes back to where it started. -/
theorem Detour.resolve_eq (h : Detour p q) : resolve q.names = resolve p.names := by
  have hdot (b : Path) : names ('.' :: '/' :: b) = names b := names_append_slash ['.'] b
  have hdots (b : Path) : names ('.' :: '.' :: '/' :: b) = ['.', '.'] :: names b :=
    names_append_slash ['.', '.'] b
  cases h with
  | stay a b => rw [names_append_slash, names_append_slash, hdot]
  | back a hname b =>
    rw [names_append_slash, names_append_slash, names_append_slash, hname.names_eq, hdots, resolve,
      resolve]
    simp [hname.step_eq, step_dots]
  | slash a b => rw [names_append_slash, names_append_slash, names_slash]
  | above b =>
    rw [names_slash, hdots]
    rfl
  | last hp =>
    rw [names_append_slash]
    exact congrArg resolve (List.append_nil (names p))

theorem SamePlace.isAbsolute_eq (h : SamePlace p q) : q.isAbsolute = p.isAbsolute := by
  induction h with
  | rel _ _ h => exact h.isAbsolute_eq
  | refl _ => rfl
  | symm _ _ _ ih => exact ih.symm
  | trans _ _ _ _ _ ih ih' => exact ih'.trans ih

theorem SamePlace.resolve_eq (h : SamePlace p q) : resolve q.names = resolve p.names := by
  induction h with
  | rel _ _ h => exact h.resolve_eq
  | refl _ => rfl
  | symm _ _ _ ih => exact ih.symm
  | trans _ _ _ _ _ ih ih' => exact ih'.trans ih

/-- A detour is taken away. -/
theorem SamePlace.skip {r : Path} (h : Detour q p) (hq : SamePlace q r) : SamePlace p r :=
  .trans _ _ _ (.symm _ _ (.rel _ _ h)) hq

/-- A path that goes on behind the names passed so far, through parts with a slash behind each of
them, leads to where its names lead from there. -/
theorem samePlace_ofNames_foldl {parts : List Text} (hparts : ∀ part ∈ parts, '/' ∉ part)
    (hpassed : ∀ name ∈ passed, IsName name) :
    SamePlace (passed.reverse.flatMap ('/' :: ·) ++ '/' :: parts.flatMap (· ++ ['/']))
      (ofNames ((parts.filter isStep).foldl step passed).reverse) := by
  have hpush (name : Text) (passed : List Text) :
      (name :: passed).reverse.flatMap ('/' :: ·)
        = passed.reverse.flatMap ('/' :: ·) ++ '/' :: name := by
    simp
  induction parts generalizing passed with
  | nil =>
    cases passed with
    | nil => exact .refl _
    | cons name passed =>
      have hne : (name :: passed).reverse ≠ [] := by simp
      have hpath : ofNames (name :: passed).reverse = _ := ofNames_of_ne_nil hne
      refine .skip (.last ?_) (hpath ▸ .refl _)
      rw [hpush]
      simp
  | cons part parts ih =>
    have hrest := fun other hother => hparts other (List.mem_cons_of_mem part hother)
    rw [List.flatMap_cons, List.append_assoc, List.singleton_append]
    by_cases hempty : part = []
    · subst hempty
      exact .skip (.slash _ _) (ih hrest hpassed)
    by_cases hdot : part = ['.']
    · subst hdot
      exact .skip (.stay _ _) (ih hrest hpassed)
    have hstep : isStep part := by simp [isStep, hempty, hdot]
    rw [List.filter_cons_of_pos hstep, List.foldl_cons]
    by_cases hdots : part = ['.', '.']
    · subst hdots
      rw [step_dots]
      -- What has been passed last is the directory that the detour went into.
      cases passed with
      | nil => exact .skip (.above _) (ih hrest hpassed)
      | cons name passed =>
        obtain ⟨hname, hpassed⟩ := List.forall_mem_cons.1 hpassed
        rw [hpush, List.append_assoc, List.cons_append]
        exact .skip (.back _ hname _) (ih hrest hpassed)
    · have hname : IsName part := ⟨hempty, hparts part List.mem_cons_self, hdot, hdots⟩
      have hgo := ih hrest (List.forall_mem_cons.2 ⟨hname, hpassed⟩)
      rw [hpush, List.append_assoc, List.cons_append] at hgo
      rwa [hname.step_eq]

/-- An absolute path leads to the path of what its names lead to. -/
theorem samePlace_ofNames_resolve (h : p.isAbsolute) : SamePlace p (ofNames (resolve p.names)) := by
  obtain ⟨t, rfl⟩ : ∃ t, p = '/' :: t := by
    cases p with
    | nil => cases h
    | cons c t => exact ⟨t, by simpa [isAbsolute] using h⟩
  have hslash : Detour ('/' :: t) ('/' :: t ++ ['/']) := .last (List.cons_ne_nil _ _)
  have hgo := @samePlace_ofNames_foldl [] (parts t) (fun _ => slash_notMem_of_mem_parts)
    (List.forall_mem_nil _)
  rw [flatMap_parts] at hgo
  exact .trans _ _ _ (.rel _ _ hslash) hgo

theorem isEmpty_of_isAbsolute (h : p.isAbsolute) : p.isEmpty = false := by
  cases p with
  | nil => cases h
  | cons c p => rfl

theorem absolute_of_isAbsolute (workingDirectory : Path) (h : p.isAbsolute) :
    absolute workingDirectory p = ofNames (resolve p.names) := by
  rw [absolute, isEmpty_of_isAbsolute h, if_neg Bool.false_ne_true, if_pos h]

end Path

namespace DocumentKey

open Swatch.Path (IsName SamePlace)

/-- Every absolute path leads to one absolute path without detours, whatever the working directory
is, and two absolute paths lead to the same one just if detours lead from one to the other. -/
theorem ofPath_eq_iff_samePlace (workingDirectory : Path) {p : Path} (hp : p.isAbsolute) :
    (ofPath workingDirectory p).path.isAbsolute ∧
      (∀ part ∈ (ofPath workingDirectory p).path.parts, part ≠ ['.'] ∧ part ≠ ['.', '.']) ∧
      (∀ other, ofPath other (ofPath workingDirectory p).path = ofPath workingDirectory p) ∧
      (∀ q other, SamePlace p q ↔
        q.isAbsolute ∧ ofPath other q = ofPath workingDirectory p) := by
  have hkey : (ofPath workingDirectory p).path = Path.ofNames (Path.resolve p.names) :=
    Path.absolute_of_isAbsolute workingDirectory hp
  have hnames : ∀ name ∈ Path.resolve p.names, IsName name := fun _ => Path.isName_of_mem_resolve
  have habsolute := Path.isAbsolute_ofNames (Path.resolve p.names)
  refine ⟨hkey ▸ habsolute, fun part hpart => ?_, fun other => ?_, fun q other => ?_⟩
  · rw [hkey] at hpart
    rcases Path.mem_parts_ofNames (fun name hname => (hnames name hname).slash_notMem) hpart with
      rfl | hpart
    · decide
    · exact ⟨(hnames part hpart).ne_dot, (hnames part hpart).ne_dots⟩
  · rw [hkey, ofPath, Path.absolute_of_isAbsolute other habsolute, Path.names_ofNames hnames,
      Path.resolve_of_isName hnames, ← hkey]
  · constructor
    · intro h
      have hq : q.isAbsolute := h.isAbsolute_eq.trans hp
      refine ⟨hq, ?_⟩
      rw [ofPath, ofPath, Path.absolute_of_isAbsolute other hq, h.resolve_eq, ← hkey, ofPath]
    · rintro ⟨hq, heq⟩
      have hsame : Path.ofNames (Path.resolve q.names) = Path.ofNames (Path.resolve p.names) := by
        rw [← Path.absolute_of_isAbsolute other hq, ← hkey, ← heq, ofPath]
      have hleads := Path.samePlace_ofNames_resolve hp
      rw [← hsame] at hleads
      exact .trans _ _ _ hleads (.symm _ _ (Path.samePlace_ofNames_resolve hq))

/-- A directory that is left again and one that is not left name one document. -/
theorem ofPath_eq_iff_samePlace_script :
    let p := "/tmp/scripts/../gm.pwn".toList
    let q := "/tmp/./gm.pwn".toList
    Path.isAbsolute p ∧ Path.isAbsolute q ∧ ofPath ['/'] p = ⟨"/tmp/gm.pwn".toList⟩ ∧
      ofPath [] q = ofPath ['/'] p ∧ SamePlace p q := by
  intro p q
  have hp : Path.isAbsolute p := by decide
  have hq : Path.isAbsolute q := by decide
  have heq : ofPath [] q = ofPath ['/'] p := by decide
  exact ⟨hp, hq, by decide, heq, ((ofPath_eq_iff_samePlace ['/'] hp).2.2.2 q []).2 ⟨hq, heq⟩⟩

end DocumentKey

end Swatch

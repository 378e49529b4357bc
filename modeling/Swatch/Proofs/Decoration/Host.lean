-- SUMMARY: Handles that are alive, and calls that only name such handles.
import Swatch.Decoration.Host
import Mathlib.Data.List.Nodup

/-!
# Using a host

A handle is alive from its creation to its disposal. Calls use the host well if they
create only handles that are new and place and dispose of only handles that are alive.
After such calls, handles that are not alive are shown nowhere.
-/

namespace Swatch

namespace Host

/-! ## Lives of handles -/

/-- Some call has created the handle. -/
def Created (h : Handle) (calls : List HostCall) : Prop :=
  ∃ looks, .create h looks ∈ calls

/-- The handle has been created and not been disposed of since, by calls with the latest one
first. -/
def Live (h : Handle) : List HostCall → Prop
  | [] => False
  | .create h' _ :: calls => h' = h ∨ Live h calls
  | .place _ _ _ :: calls => Live h calls
  | .dispose h' :: calls => h' ≠ h ∧ Live h calls

/-- The calls, the latest one first, create only new handles, and name only handles that are
alive. -/
def WellUsed : List HostCall → Prop
  | [] => True
  | .create h _ :: calls => ¬Created h calls ∧ WellUsed calls
  | .place _ h _ :: calls => Live h calls ∧ WellUsed calls
  | .dispose h :: calls => Live h calls ∧ WellUsed calls

/-- What has been created since the last disposal, by calls with the latest one first. -/
def createdLately : List HostCall → List (Handle × Appearance)
  | [] => []
  | .create h looks :: calls => (h, looks) :: createdLately calls
  | .place _ _ _ :: calls => createdLately calls
  | .dispose _ :: _ => []

theorem Live.created {h : Handle} {calls : List HostCall} (hlive : Live h calls) :
    Created h calls := by
  induction calls with
  | nil => cases hlive
  | cons call calls ih =>
    have hrest : Live h calls → Created h (call :: calls) := fun hlive => by
      obtain ⟨looks, hmem⟩ := ih hlive
      exact ⟨looks, List.mem_cons_of_mem call hmem⟩
    cases call with
    | create h' looks =>
      rcases hlive with rfl | hlive
      · exact ⟨looks, List.mem_cons_self⟩
      · exact hrest hlive
    | place editor h' ranges => exact hrest hlive
    | dispose h' => exact hrest hlive.2

/-! ## What is shown -/

theorem shown_create (host : Host) (looks : Appearance) :
    (host.create looks).2.shown = host.shown := rfl

theorem shown_place (host : Host) (editor editor' : EditorId) (h h' : Handle)
    (ranges : List Interval) :
    (host.place editor h ranges).shown editor' h'
      = if editor = editor' ∧ h = h' then ranges else host.shown editor' h' := rfl

/-- A handle that is not alive is shown nowhere. -/
theorem shownAfter_eq_nil {calls : List HostCall} (hused : WellUsed calls) {h : Handle}
    (hdead : ¬Live h calls) (editor : EditorId) : shownAfter editor h calls = [] := by
  induction calls with
  | nil => rfl
  | cons call calls ih =>
    cases call with
    | create h' looks => exact ih hused.2 fun hlive => hdead (.inr hlive)
    | place editor' h' ranges =>
      have hne : h' ≠ h := fun he => hdead (he ▸ hused.1)
      simpa [shownAfter, hne] using ih hused.2 hdead
    | dispose h' =>
      by_cases he : h' = h
      · simp [shownAfter, he]
      · simpa [shownAfter, he] using ih hused.2 fun hlive => hdead ⟨he, hlive⟩

/-! ## Handles in use -/

/-- The host has been used well, and the handles that are alive are these. -/
structure Holds (host : Host) (handles : List Handle) : Prop where
  nodup : handles.Nodup
  live_iff : ∀ h, Live h host.calls ↔ h ∈ handles
  wellUsed : WellUsed host.calls
  created_le : ∀ h, Created h host.calls → h.id ≤ host.handles

section Holds

variable {host : Host} {handles : List Handle} {h : Handle}

theorem holds_nil : Holds {} [] where
  nodup := List.nodup_nil
  live_iff _ := ⟨fun h => h.elim, fun h => (List.not_mem_nil h).elim⟩
  wellUsed := trivial
  created_le := fun _ ⟨_, hmem⟩ => (List.not_mem_nil hmem).elim

theorem Holds.notMem_new (hh : host.Holds handles) (looks : Appearance) :
    (host.create looks).1 ∉ handles := by
  intro hmem
  have hle := hh.created_le _ ((hh.live_iff _).2 hmem).created
  exact Nat.not_succ_le_self _ hle

theorem Holds.create (hh : host.Holds handles) (looks : Appearance) :
    (host.create looks).2.Holds (handles ++ [(host.create looks).1]) where
  nodup := hh.nodup.append (List.nodup_singleton _)
    (List.disjoint_singleton.2 (hh.notMem_new looks))
  live_iff h := by
    rw [List.mem_append, List.mem_singleton, ← hh.live_iff h, or_comm]
    exact or_congr eq_comm Iff.rfl
  wellUsed := by
    refine ⟨?_, hh.wellUsed⟩
    intro hcreated
    exact Nat.not_succ_le_self _ (hh.created_le _ hcreated)
  created_le := by
    rintro h ⟨looks', hmem⟩
    rcases List.mem_cons.1 hmem with heq | hmem
    · cases heq
      exact Nat.le_refl _
    · exact Nat.le_succ_of_le (hh.created_le h ⟨looks', hmem⟩)

theorem Holds.place (hh : host.Holds handles) (hmem : h ∈ handles) (editor : EditorId)
    (ranges : List Interval) : (host.place editor h ranges).Holds handles where
  nodup := hh.nodup
  live_iff := hh.live_iff
  wellUsed := ⟨(hh.live_iff h).2 hmem, hh.wellUsed⟩
  created_le := by
    rintro h ⟨looks, hmem⟩
    rcases List.mem_cons.1 hmem with heq | hmem
    · cases heq
    · exact hh.created_le h ⟨looks, hmem⟩

theorem Holds.dispose (hh : host.Holds (h :: handles)) : (host.dispose h).Holds handles where
  nodup := (List.nodup_cons.1 hh.nodup).2
  live_iff h' := by
    have hhead := (List.nodup_cons.1 hh.nodup).1
    have hlive : Live h' (host.dispose h).calls ↔ h ≠ h' ∧ Live h' host.calls := Iff.rfl
    rw [hlive, hh.live_iff h', List.mem_cons]
    constructor
    · rintro ⟨hne, heq | hmem⟩
      · exact absurd heq.symm hne
      · exact hmem
    · exact fun hmem => ⟨fun he => hhead (he ▸ hmem), .inr hmem⟩
  wellUsed := ⟨(hh.live_iff h).2 List.mem_cons_self, hh.wellUsed⟩
  created_le := by
    rintro h' ⟨looks, hmem⟩
    rcases List.mem_cons.1 hmem with heq | hmem
    · cases heq
    · exact hh.created_le h' ⟨looks, hmem⟩

/-- Handles that are not held are shown nowhere. -/
theorem Holds.shown_eq_nil (hh : host.Holds handles) (hdead : h ∉ handles) (editor : EditorId) :
    host.shown editor h = [] :=
  shownAfter_eq_nil hh.wellUsed (mt (hh.live_iff h).1 hdead) editor

end Holds

end Host

end Swatch

-- SUMMARY: When a pass notes that it has found too many places, and how often for one limit.
import Swatch.Proofs.Scan.Apart
import Swatch.Proofs.Session.Cache

/-!
# Notes of too many places

A pass that finds more places than its limit allows notes the limit and how many places it
has found, unless the last limit that was exceeded is the same one. The first pass that
exceeds a limit therefore notes it. A session remembers one limit only: a limit is noted
again once another one has been exceeded in between.
-/

namespace Swatch

/-! ## Passes -/

/-- The advisory notes that there are more places than the limit. -/
def Advisory.notes (limit : Nat) : Advisory → Bool
  | .capacityExceeded noted _ => noted == limit
  | .crashRisk _ _ => false

/-- A pass: its limit, how many places it has found, and what it reports. -/
structure Pass where
  limit : Nat
  found : Nat
  report : Report

namespace Pass

def exceeds (p : Pass) : Bool :=
  p.limit < p.found

def notes (limit : Nat) (p : Pass) : Bool :=
  p.report.advisories.any (Advisory.notes limit)

/-- The last limit that was exceeded, given the last one before the pass. -/
def lastLimit (last : Option Nat) (p : Pass) : Option Nat :=
  if p.exceeds then some p.limit else last

/-- The limits that some passes exceed, in order. -/
def exceeded (passes : List Pass) : List Nat :=
  (passes.filter exceeds).map limit

/-- The limit of a pass is noted just if it is exceeded and is not the last one that was. -/
structure NotesUnless (last : Option Nat) (p : Pass) : Prop where
  mem_advisories_iff : ∀ limit n, .capacityExceeded limit n ∈ p.report.advisories ↔
    limit = p.limit ∧ n = p.found ∧ p.exceeds ∧ last ≠ some limit

/-- Each of some passes notes its limit unless it is the last one that was exceeded. -/
inductive Remembers : Option Nat → List Pass → Prop
  | nil (last : Option Nat) : Remembers last []
  | cons {last : Option Nat} {p : Pass} {passes : List Pass} (hp : p.NotesUnless last)
      (hpasses : Remembers (p.lastLimit last) passes) : Remembers last (p :: passes)

theorem NotesUnless.notes_iff {last : Option Nat} {p : Pass} (h : p.NotesUnless last)
    {limit : Nat} :
    notes limit p ↔ limit = p.limit ∧ p.exceeds ∧ last ≠ some limit := by
  rw [notes, List.any_eq_true]
  constructor
  · rintro ⟨a, ha, hnotes⟩
    cases a with
    | capacityExceeded noted n =>
      obtain rfl : noted = limit := by simpa [Advisory.notes] using hnotes
      obtain ⟨hlimit, -, hrest⟩ := (h.mem_advisories_iff noted n).1 ha
      exact ⟨hlimit, hrest⟩
    | crashRisk line content => cases hnotes
  · rintro ⟨hlimit, hrest⟩
    exact ⟨_, (h.mem_advisories_iff limit p.found).2 ⟨hlimit, rfl, hrest⟩, by simp [Advisory.notes]⟩

theorem exceeded_cons_of_exceeds {p : Pass} (h : p.exceeds) (passes : List Pass) :
    exceeded (p :: passes) = p.limit :: exceeded passes := by
  simp [exceeded, h]

theorem exceeded_cons_of_not_exceeds {p : Pass} (h : ¬ p.exceeds) (passes : List Pass) :
    exceeded (p :: passes) = exceeded passes := by
  simp [exceeded, h]

section Remembers

variable {last : Option Nat} {p : Pass} {passes before after : List Pass} {limit : Nat}

/-- A pass knows the last limit that the passes before it have exceeded. -/
theorem Remembers.notesUnless (h : Remembers last (before ++ p :: after)) :
    p.NotesUnless ((exceeded before).getLast?.or last) := by
  induction before generalizing last with
  | nil =>
    cases h with
    | cons hp _ => exact hp
  | cons q before ih =>
    cases h with
    | cons _ hpasses =>
      have hp := ih hpasses
      by_cases hq : q.exceeds
      · rw [exceeded_cons_of_exceeds hq, List.getLast?_cons]
        rw [lastLimit, if_pos hq] at hp
        cases hlast : (exceeded before).getLast? <;> simpa [hlast] using hp
      · rw [exceeded_cons_of_not_exceeds hq]
        rwa [lastLimit, if_neg hq] at hp

/-- A limit that is not the last one is noted as soon as it is exceeded. -/
theorem Remembers.countP_eq_zero_iff (h : Remembers last passes) (hlast : last ≠ some limit) :
    passes.countP (notes limit) = 0 ↔ limit ∉ exceeded passes := by
  induction h with
  | nil => simp [exceeded]
  | @cons last p passes hp _ ih =>
    by_cases hexceeds : p.exceeds
    · by_cases hlimit : p.limit = limit
      · have hnotes : notes limit p := hp.notes_iff.2 ⟨hlimit.symm, hexceeds, hlast⟩
        simp [exceeded_cons_of_exceeds hexceeds, hnotes, hlimit]
      · have hnotes : ¬ notes limit p := fun hnotes => hlimit (hp.notes_iff.1 hnotes).1.symm
        have hrest := ih (by simpa [lastLimit, hexceeds] using hlimit)
        rw [List.countP_cons_of_neg hnotes, exceeded_cons_of_exceeds hexceeds, hrest, List.mem_cons,
          not_or]
        exact (and_iff_right (Ne.symm hlimit)).symm
    · have hnotes : ¬ notes limit p := fun hnotes => hexceeds (hp.notes_iff.1 hnotes).2.1
      have hrest := ih (by simpa [lastLimit, hexceeds] using hlast)
      rw [List.countP_cons_of_neg hnotes, exceeded_cons_of_not_exceeds hexceeds, hrest]

/-- The last limit is noted again as soon as it is exceeded behind another one. -/
theorem Remembers.countP_last_eq_zero_iff (h : Remembers (some limit) passes) :
    passes.countP (notes limit) = 0 ↔
      ∀ other, other ≠ limit → ¬ [other, limit].Sublist (exceeded passes) := by
  induction passes with
  | nil => simp [exceeded]
  | cons p passes ih =>
    cases h with
    | cons hp hpasses =>
      have hnotes : ¬ notes limit p := fun hnotes => (hp.notes_iff.1 hnotes).2.2 rfl
      rw [List.countP_cons_of_neg hnotes]
      by_cases hexceeds : p.exceeds
      · rw [lastLimit, if_pos hexceeds] at hpasses
        rw [exceeded_cons_of_exceeds hexceeds]
        by_cases hlimit : p.limit = limit
        · rw [hlimit] at hpasses ⊢
          rw [ih hpasses]
          refine forall₂_congr fun other hother => not_congr ?_
          rw [List.sublist_cons_iff]
          simp [hother]
        · rw [hpasses.countP_eq_zero_iff (by simpa using hlimit)]
          constructor
          · rintro hnever other - hsublist
            exact hnever (by
              rcases List.sublist_cons_iff.1 hsublist with h | ⟨more, hmore, h⟩
              · exact h.subset (by simp)
              · simp only [List.cons.injEq] at hmore
                rw [← hmore.2] at h
                exact h.subset (by simp))
          · intro hapart hmem
            exact hapart p.limit hlimit ((List.singleton_sublist.2 hmem).cons_cons p.limit)
      · rw [lastLimit, if_neg hexceeds] at hpasses
        rw [exceeded_cons_of_not_exceeds hexceeds, ih hpasses]

/-- A limit that is not the last one is noted once at most, unless it is exceeded again behind
another one. -/
theorem Remembers.countP_le_one_iff (h : Remembers last passes) (hlast : last ≠ some limit) :
    passes.countP (notes limit) ≤ 1 ↔
      ∀ other, other ≠ limit → ¬ [limit, other, limit].Sublist (exceeded passes) := by
  induction h with
  | nil => simp [exceeded]
  | @cons last p passes hp hpasses ih =>
    by_cases hexceeds : p.exceeds
    · rw [exceeded_cons_of_exceeds hexceeds]
      by_cases hlimit : p.limit = limit
      · have hnotes : notes limit p := hp.notes_iff.2 ⟨hlimit.symm, hexceeds, hlast⟩
        rw [lastLimit, if_pos hexceeds, hlimit] at hpasses
        have honce : passes.countP (notes limit) + 1 ≤ 1 ↔ passes.countP (notes limit) = 0 := by
          omega
        rw [List.countP_cons_of_pos hnotes, honce, hlimit, hpasses.countP_last_eq_zero_iff]
        exact forall₂_congr fun other _ => not_congr List.cons_sublist_cons.symm
      · have hnotes : ¬ notes limit p := fun hnotes => hlimit (hp.notes_iff.1 hnotes).1.symm
        rw [List.countP_cons_of_neg hnotes, ih (by simpa [lastLimit, hexceeds] using hlimit)]
        refine forall₂_congr fun other _ => not_congr ?_
        rw [List.sublist_cons_iff]
        simp [Ne.symm hlimit]
    · have hnotes : ¬ notes limit p := fun hnotes => hexceeds (hp.notes_iff.1 hnotes).2.1
      rw [List.countP_cons_of_neg hnotes, exceeded_cons_of_not_exceeds hexceeds,
        ih (by simpa [lastLimit, hexceeds] using hlast)]

end Remembers

end Pass

/-! ## What a pass finds -/

namespace Session

/-- The scan that a pass looks at, if it has lines to look at and can read them. -/
def scan? (s : Session) (v : EditorView) (settings : Settings) : Option Scan :=
  ((Viewport.ofVisible v.visible settings.viewportBuffer).clamp? v.lineCount).bind fun lines =>
    (s.cachedScan? v lines settings).or (v.text.map fun text => Scan.ofText text lines settings)

/-- How many places a pass finds that are not on ignored lines. -/
def found (s : Session) (v : EditorView) (settings : Settings) : Nat :=
  ((s.scan? v settings).elim [] (s.unignored v.key)).length

/-- The scans that are kept warn of strings only. -/
def WarnsOfStrings (s : Session) : Prop :=
  ∀ key c, s.cache.get? key = some c → ∀ a ∈ c.scan.advisories, a.isCrashRisk

section Run

variable {s : Session} {v : EditorView} {settings : Settings}

theorem WarnsOfStrings.cachedScan? (h : s.WarnsOfStrings) {lines : LineRange} {scan : Scan}
    (hcached : s.cachedScan? v lines settings = some scan) :
    ∀ a ∈ scan.advisories, a.isCrashRisk := by
  obtain ⟨c, hget, hc⟩ := Option.bind_eq_some_iff.1 hcached
  obtain ⟨-, hscan⟩ := Option.ite_none_right_eq_some.1 hc
  exact Option.some.inj hscan ▸ h v.key c hget

theorem WarnsOfStrings.put (h : s.WarnsOfStrings) {s' : Session} {key : DocumentKey}
    {c : CachedScan} (hs' : s'.cache = s.cache.put key c)
    (hc : ∀ a ∈ c.scan.advisories, a.isCrashRisk) : s'.WarnsOfStrings := by
  rw [WarnsOfStrings, hs']
  exact Table.forall_get?_put h hc

theorem WarnsOfStrings.closeDocument (h : s.WarnsOfStrings) (key : DocumentKey) :
    (s.closeDocument key).WarnsOfStrings :=
  Table.forall_get?_erase h

def pass (s : Session) (v : EditorView) (settings : Settings) (host : Host) : Pass where
  limit := settings.maxDecorations
  found := s.found v settings
  report := (s.run v settings host).1

/-- The limit that was exceeded last is remembered, whether it is noted or not. -/
theorem finish_reportedLimit (window : Viewport) (scan : Scan) (cached : Bool) (host : Host) :
    (s.finish v window settings scan cached host).2.1.reportedLimit
      = if settings.maxDecorations < (s.unignored v.key scan).length then
          some settings.maxDecorations else s.reportedLimit := by
  change (if settings.maxDecorations < (s.unignored v.key scan).length
    && s.reportedLimit != some settings.maxDecorations then _ else _) = _
  by_cases hlast : s.reportedLimit = some settings.maxDecorations
  · simp [hlast]
  · simp [hlast]

theorem finish_notesUnless (window : Viewport) {scan : Scan}
    (hscan : ∀ a ∈ scan.advisories, a.isCrashRisk) (cached : Bool) (host : Host) :
    Pass.NotesUnless s.reportedLimit ⟨settings.maxDecorations, (s.unignored v.key scan).length,
      (s.finish v window settings scan cached host).1⟩ where
  mem_advisories_iff limit n := by
    have hnot : .capacityExceeded limit n ∉ scan.advisories := fun hmem =>
      absurd (hscan _ hmem) (by simp [Advisory.isCrashRisk])
    simp only [finish, Pass.exceeds]
    split
    · next hexceeded =>
      simp only [Bool.and_eq_true, decide_eq_true_eq, bne_iff_ne] at hexceeded
      simp only [List.mem_cons, hnot, or_false, Advisory.capacityExceeded.injEq, decide_eq_true_eq]
      constructor
      · rintro ⟨rfl, rfl⟩
        exact ⟨rfl, rfl, hexceeded⟩
      · rintro ⟨rfl, rfl, -⟩
        exact ⟨rfl, rfl⟩
    · next hnone =>
      simp only [Bool.and_eq_true, decide_eq_true_eq, bne_iff_ne] at hnone
      refine iff_of_false hnot ?_
      rintro ⟨rfl, -, hexceeded⟩
      exact hnone (by simpa using hexceeded)

/-- A pass without a scan reports nothing; any other one goes on with its scan, which warns of
strings only. -/
theorem run_cases (h : s.WarnsOfStrings) (v : EditorView) (settings : Settings) (host : Host) :
    (s.scan? v settings = none ∧ (s.run v settings host).1.advisories = [] ∧
        (s.run v settings host).2.1.reportedLimit = s.reportedLimit ∧
        (s.run v settings host).2.1.cache = s.cache) ∨
      ∃ (scan : Scan) (s' : Session) (cached : Bool), s.scan? v settings = some scan ∧
        (∀ a ∈ scan.advisories, a.isCrashRisk) ∧ s'.registry = s.registry ∧
        s'.reportedLimit = s.reportedLimit ∧ s'.WarnsOfStrings ∧
        s.run v settings host = s'.finish v (Viewport.ofVisible v.visible settings.viewportBuffer)
          settings scan cached host := by
  let s' : Session := { s with schedule := { s.schedule with delay := settings.debounceMs } }
  unfold run scan?
  dsimp only
  cases (Viewport.ofVisible v.visible settings.viewportBuffer).clamp? v.lineCount with
  | none => exact .inl ⟨rfl, rfl, rfl, rfl⟩
  | some lines =>
    have hsame : s'.cachedScan? v lines settings = s.cachedScan? v lines settings := rfl
    simp only [Option.bind_some, s', hsame]
    cases hcached : s.cachedScan? v lines settings with
    | some scan => exact .inr ⟨scan, s', true, rfl, h.cachedScan? hcached, rfl, rfl, h, rfl⟩
    | none =>
      cases v.text with
      | none => exact .inl ⟨rfl, rfl, rfl, rfl⟩
      | some text =>
        let kept : CachedScan := ⟨v.revision, lines, settings, Scan.ofText text lines settings⟩
        have hscan : ∀ a ∈ kept.scan.advisories, a.isCrashRisk := fun _ => Scan.isCrashRisk_of_mem
        exact .inr ⟨kept.scan, { s' with cache := s'.cache.put v.key kept }, false, rfl, hscan, rfl,
          rfl, h.put rfl hscan, rfl⟩

/-- A pass notes its limit unless it is the one that was exceeded last, which is what the session
remembers. -/
theorem run_remembers (h : s.WarnsOfStrings) (v : EditorView) (settings : Settings) (host : Host) :
    (s.pass v settings host).NotesUnless s.reportedLimit ∧
      (s.run v settings host).2.1.reportedLimit
        = (s.pass v settings host).lastLimit s.reportedLimit ∧
      (s.run v settings host).2.1.WarnsOfStrings := by
  rcases run_cases h v settings host with
    ⟨hscan, hadvisories, hlimit, hcache⟩ |
      ⟨scan, s', cached, hscan, hwarns, hregistry, hlimit, h', hrun⟩
  · have hexceeds : (s.pass v settings host).exceeds = false := by
      simp [Pass.exceeds, pass, found, hscan]
    refine ⟨⟨fun limit n => ?_⟩, ?_, ?_⟩
    · rw [hexceeds]
      simp [pass, hadvisories]
    · rw [hlimit, Pass.lastLimit, hexceeds, if_neg Bool.false_ne_true]
    · intro key c hget
      exact h key c (hcache ▸ hget)
  · have hfound : s.found v settings = (s'.unignored v.key scan).length := by
      rw [found, hscan, unignored, hregistry]
      rfl
    have hpass : s.pass v settings host
        = ⟨settings.maxDecorations, (s'.unignored v.key scan).length,
          (s'.finish v (Viewport.ofVisible v.visible settings.viewportBuffer) settings scan cached
            host).1⟩ := by
      rw [pass, hfound, hrun]
    refine ⟨?_, ?_, ?_⟩
    · rw [hpass, ← hlimit]
      exact finish_notesUnless _ hwarns cached host
    · rw [hrun, finish_reportedLimit, hpass, ← hlimit]
      simp [Pass.lastLimit, Pass.exceeds]
    · rw [hrun]
      exact h'

/-- A pass ignores no lines and restores none. -/
theorem run_registry (s : Session) (v : EditorView) (settings : Settings) (host : Host) :
    (s.run v settings host).2.1.registry = s.registry := by
  unfold run
  dsimp only
  split
  · rfl
  · split
    · rfl
    · split <;> rfl

/-- Where kept scans are what new ones would give, a pass finds what a new scan gives. -/
theorem Faithful.found_eq {contents : Contents} (hf : s.Faithful contents) (hv : v.Reads contents) :
    s.found v settings = ((scanOf contents v settings).marks.filter fun m =>
      !s.registry.isIgnored v.key m.line).length := by
  rw [found, scan?, scanOf]
  cases (Viewport.ofVisible v.visible settings.viewportBuffer).clamp? v.lineCount with
  | none => rfl
  | some lines =>
    have hscan : (s.cachedScan? v lines settings).or
        (v.text.map fun text => Scan.ofText text lines settings)
        = some (Scan.ofText (contents v.key v.revision).1 lines settings) := by
      rw [hv.1]
      cases hcached : s.cachedScan? v lines settings with
      | none => rfl
      | some scan => rw [Option.some_or, hf.cachedScan?_eq hcached]
    rw [Option.bind_some, hscan, Option.elim_some, unignored_eq, Option.elim_some]

end Run

end Session

/-! ## Histories -/

namespace Scene

/-- At first no scan is kept. -/
theorem warnsOfStrings_start (r : Ignored.Registry) : (start r).session.WarnsOfStrings := by
  intro key c hget
  cases hget

theorem faithful_start (r : Ignored.Registry) (contents : Contents) :
    (start r).session.Faithful contents := by
  intro key c hget
  cases hget

def passes (scene : Scene) : List Event → List Pass
  | [] => []
  | .pass v settings :: events =>
    scene.session.pass v settings scene.host :: (scene.step (.pass v settings)).passes events
  | e :: events => (scene.step e).passes events

/-- What is remembered of the limits outlives every event but a disposal. -/
theorem remembers_passes (scene : Scene) (h : scene.session.WarnsOfStrings) {events : List Event}
    (hevents : .dispose ∉ events) :
    Pass.Remembers scene.session.reportedLimit (scene.passes events) := by
  induction events generalizing scene with
  | nil => exact .nil _
  | cons e events ih =>
    obtain ⟨he, hrest⟩ := not_or.1 (mt List.mem_cons.2 hevents)
    cases e with
    | pass v settings =>
      obtain ⟨hnotes, hlimit, hwarns⟩ := Session.run_remembers h v settings scene.host
      refine .cons hnotes ?_
      rw [← hlimit]
      exact ih (scene.step (.pass v settings)) hwarns hrest
    | closeDocument key =>
      exact ih (scene.step (.closeDocument key)) (h.closeDocument key) hrest
    | dispose => exact absurd rfl he
    | closeEditor editor => exact ih (scene.step (.closeEditor editor)) h hrest
    | request now request => exact ih (scene.step (.request now request)) h hrest
    | submit editor now => exact ih (scene.step (.submit editor now)) h hrest
    | takeDue now => exact ih (scene.step (.takeDue now)) h hrest
    | setDelay delay => exact ih (scene.step (.setDelay delay)) h hrest

/-- Of the limits of some passes over one view, those below the number of places are exceeded. -/
theorem exceeded_passes {contents : Contents} {scene : Scene}
    (hf : scene.session.Faithful contents) {v : EditorView} (hv : v.Reads contents)
    (settings : Settings) (limits : List Nat) :
    Pass.exceeded (scene.passes (limits.map fun limit =>
        .pass v { settings with maxDecorations := limit }))
      = limits.filter fun limit =>
          limit < ((Session.scanOf contents v settings).marks.filter fun m =>
            !scene.session.registry.isIgnored v.key m.line).length := by
  induction limits generalizing scene with
  | nil => rfl
  | cons limit limits ih =>
    let settings' : Settings := { settings with maxDecorations := limit }
    have hfound : scene.session.found v settings'
        = ((Session.scanOf contents v settings).marks.filter fun m =>
            !scene.session.registry.isIgnored v.key m.line).length := hf.found_eq hv
    have hf' : (scene.step (.pass v settings')).session.Faithful contents := hf.run hv
    have hrest := ih hf'
    have hregistry : (scene.step (.pass v settings')).session.registry = scene.session.registry :=
      Session.run_registry _ v settings' scene.host
    rw [hregistry, ← hfound] at hrest
    rw [← hfound, List.map_cons, passes, List.filter_cons, ← hrest]
    have hexceeds : (scene.session.pass v settings' scene.host).exceeds
        = decide (limit < scene.session.found v settings') := rfl
    split
    · next hlt =>
      rw [Pass.exceeded_cons_of_exceeds (hexceeds.trans hlt)]
      rfl
    · next hnot => rw [Pass.exceeded_cons_of_not_exceeds fun h => hnot (hexceeds.symm.trans h)]

/-- In every history without a disposal, a pass notes its limit, and how many places it has found,
if it exceeds the limit and the last limit that was exceeded before is another one; so the first
pass that exceeds a limit notes it. A limit is noted once at most if and only if it is not exceeded
again behind another one. -/
theorem capacity_noted_unless_last (r : Ignored.Registry) (events : List Event)
    (hevents : .dispose ∉ events) :
    let passes := (start r).passes events
    (∀ before p after, passes = before ++ p :: after →
      (∀ limit n, .capacityExceeded limit n ∈ p.report.advisories ↔
        limit = p.limit ∧ n = p.found ∧ p.exceeds ∧
          (Pass.exceeded before).getLast? ≠ some limit) ∧
      (p.exceeds → p.limit ∉ Pass.exceeded before → Pass.notes p.limit p)) ∧
    ∀ limit, passes.countP (Pass.notes limit) ≤ 1 ↔
      ∀ other, other ≠ limit → ¬ [limit, other, limit].Sublist (Pass.exceeded passes) := by
  intro passes
  have hremembers : Pass.Remembers none passes :=
    remembers_passes _ (warnsOfStrings_start r) hevents
  refine ⟨fun before p after hpasses => ?_, fun limit => hremembers.countP_le_one_iff (by simp)⟩
  have hnotes := (hpasses ▸ hremembers).notesUnless
  rw [Option.or_none] at hnotes
  refine ⟨hnotes.mem_advisories_iff, fun hexceeds hfirst => ?_⟩
  refine hnotes.notes_iff.2 ⟨rfl, hexceeds, fun hlast => ?_⟩
  exact hfirst (List.mem_of_getLast? hlast)

/-- One place, which exceeds a limit of zero in two passes. -/
theorem capacity_noted_unless_last_again :
    let v : EditorView :=
      { editor := 1, key := ⟨['/', 'p']⟩, revision := 0, lineCount := 1
        text := some "0xFF0000".toList, visible := [⟨0, 0⟩] }
    let events : List Event :=
      [.pass v { maxDecorations := 0 }, .closeDocument v.key, .pass v { maxDecorations := 0 }]
    let passes := (start {}).passes events
    .dispose ∉ events ∧ Pass.exceeded passes = [0, 0] ∧
      passes.map (·.report.advisories) = [[.capacityExceeded 0 1], []] ∧
      passes.countP (Pass.notes 0) ≤ 1 := by
  intro v events passes
  have hevents : .dispose ∉ events := by simp [events]
  have hexceeded : Pass.exceeded passes = [0, 0] := by decide +kernel
  have hadvisories : passes.map (·.report.advisories) = [[.capacityExceeded 0 1], []] := by
    decide +kernel
  obtain ⟨-, honce⟩ := capacity_noted_unless_last {} events hevents
  refine ⟨hevents, hexceeded, hadvisories, (honce 0).2 fun other _ hsublist => ?_⟩
  rw [hexceeded] at hsublist
  exact absurd hsublist.length_le (by simp)

/-- Three places exceed a limit of one, then one of two, then one of one again, which is noted
twice. -/
theorem capacity_noted_twice :
    let v : EditorView :=
      { editor := 1, key := ⟨['/', 'p']⟩, revision := 0, lineCount := 3
        text := some "0xFF0000\n0xFF0000\n0xFF0000".toList, visible := [⟨0, 2⟩] }
    let events : List Event := [1, 2, 1].map fun limit => .pass v { maxDecorations := limit }
    .dispose ∉ events ∧ ¬ ((start {}).passes events).countP (Pass.notes 1) ≤ 1 := by
  intro v events
  let text : Text := "0xFF0000\n0xFF0000\n0xFF0000".toList
  have hevents : .dispose ∉ events := by simp [events]
  -- The marks are counted before they are sorted.
  have hplaces : ((Session.scanOf (fun _ _ => (text, 3)) v {}).marks.filter fun m =>
      !(start {}).session.registry.isIgnored v.key m.line).length = 3 := by
    have hlines : (Viewport.ofVisible v.visible ({} : Settings).viewportBuffer).clamp? v.lineCount
        = some ⟨0, 2⟩ := by decide +kernel
    have hwindow : Source.window? { text } ⟨0, 2⟩ = some ⟨0, 26⟩ := by decide +kernel
    rw [Session.scanOf, hlines, Option.elim_some, Scan.ofText,
      ((Scan.perm_marks {} hwindow).filter _).length_eq]
    decide +kernel
  have hv : v.Reads fun _ _ => (text, 3) := ⟨rfl, rfl⟩
  have hexceeded := exceeded_passes (faithful_start {} _) hv {} [1, 2, 1]
  rw [hplaces] at hexceeded
  have hremembers := remembers_passes _ (warnsOfStrings_start {}) hevents
  rw [hremembers.countP_le_one_iff (by decide)]
  refine ⟨hevents, fun honce => honce 2 (by decide) ?_⟩
  exact hexceeded ▸ List.Sublist.refl _

end Scene

end Swatch

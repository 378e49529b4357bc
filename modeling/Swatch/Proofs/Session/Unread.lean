-- SUMMARY: A document that cannot be read leaves no trace but the cleared editor.
import Swatch.Proofs.Session.Shown

/-!
# Documents that cannot be read

A pass that has to read its document and cannot does one thing: it hides what its own
editor shows. It keeps no scan, reports no limit and creates no handle, so that the
session differs from the one before it only in what it remembers of this editor, and in
the delay, which every pass sets.

What a session remembers of editors tells a pass what to hide and nothing else. Two
sessions that differ only in that make the same reports, and both show in an editor what
its last pass reports. After the next pass of the editor they show the same everywhere.
-/

namespace Swatch

open Pool (Tracks)

/-! ## The pass that fails -/

namespace Session

/-- A pass has to read its document, and the host fails to give the text. -/
structure FailsToRead (s : Session) (v : EditorView) (settings : Settings) : Prop where
  exists_lines : ∃ lines,
    (Viewport.ofVisible v.visible settings.viewportBuffer).clamp? v.lineCount = some lines ∧
      s.cachedScan? v lines settings = none
  text_eq : v.text = none

/-- Such a pass hides what its editor shows and forgets that it did. Nothing else changes but the
delay. -/
theorem FailsToRead.run_eq {s : Session} {v : EditorView} {settings : Settings}
    (h : s.FailsToRead v settings) (hpending : s.pool.pending = []) (host : Host) :
    s.run v settings host =
      ({ editor := v.editor
         window := Viewport.ofVisible v.visible settings.viewportBuffer
         handles := 0
         degraded := true },
       { s with
         schedule := { s.schedule with delay := settings.debounceMs }
         pool := { s.pool with applied := s.pool.applied.put v.editor [] } },
       Pool.hide v.editor s.pool host ((s.pool.applied.get? v.editor).getD [])) := by
  obtain ⟨⟨lines, hlines, hcached⟩, htext⟩ := h
  have hcached' : cachedScan?
      { s with schedule := { s.schedule with delay := settings.debounceMs } } v lines settings
        = none := hcached
  have hlast (paints : List Paint) :
      (paints.filter fun p => !([] : List Paint).contains p) = paints :=
    List.filter_eq_self.2 fun _ _ => rfl
  obtain ⟨registry, ⟨handles, pending, applied⟩, schedule, cache, limit⟩ := s
  obtain rfl : pending = [] := hpending
  simp only [run, hlines, hcached', htext, commit, Pool.commit, Pool.placeAll, List.map_nil,
    List.foldl_nil, List.length_nil, hlast]

end Session

/-! ## Pools that remember different editors -/

namespace Pool

/-- Two pools with the same handles and ranges, and hosts that have handed out as many handles. The
pools may remember different paints of an editor, and the hosts may show different ranges. -/
structure Alike (pool : Pool) (host : Host) (pool' : Pool) (host' : Host) : Prop where
  handles_eq : pool.handles = pool'.handles
  pending_eq : pool.pending = pool'.pending
  created_eq : host.handles = host'.handles

section Alike

variable {pool pool' : Pool} {host host' : Host}

theorem Alike.recordAll (h : Alike pool host pool' host') (marks : List Mark) :
    Alike (pool.recordAll marks) host (pool'.recordAll marks) host' := by
  induction marks generalizing pool pool' with
  | nil => exact h
  | cons m marks ih =>
    refine ih ⟨h.handles_eq, ?_, h.created_eq⟩
    simp only [record, h.pending_eq]

/-- Both hosts hand out the same handle for a paint that has none. -/
theorem Alike.placePaint (h : Alike pool host pool' host') (editor : EditorId) (p : Paint)
    (ranges : List Interval) :
    Alike (placePaint editor pool host p ranges).1 (placePaint editor pool host p ranges).2
      (placePaint editor pool' host' p ranges).1 (placePaint editor pool' host' p ranges).2 := by
  have hget : pool.handles.get? p = pool'.handles.get? p := congrArg _ h.handles_eq
  cases hp : pool'.handles.get? p with
  | some k =>
    simp only [Pool.placePaint, handle, hget, hp]
    exact ⟨h.handles_eq, h.pending_eq, h.created_eq⟩
  | none =>
    simp only [Pool.placePaint, handle, hget, hp]
    refine ⟨?_, h.pending_eq, congrArg (· + 1) h.created_eq⟩
    simp only [Host.create, h.handles_eq, h.created_eq]

theorem Alike.placeAll (h : Alike pool host pool' host') (editor : EditorId)
    (pass : Table Paint (List Interval)) :
    Alike (placeAll editor pool host pass).1 (placeAll editor pool host pass).2
      (placeAll editor pool' host' pass).1 (placeAll editor pool' host' pass).2 := by
  induction pass generalizing pool host pool' host' with
  | nil => exact h
  | cons entry pass ih => exact ih (h.placePaint editor entry.1 entry.2)

/-- To hide paints creates no handle. -/
theorem hide_handles (editor : EditorId) (pool : Pool) (host : Host) (paints : List Paint) :
    (hide editor pool host paints).handles = host.handles := by
  induction paints generalizing host with
  | nil => rfl
  | cons p paints ih =>
    rw [hide, List.foldl_cons, ← hide, ih]
    split <;> rfl

/-- To hide paints of an editor tells the host nothing else. -/
theorem hide_calls (editor : EditorId) (pool : Pool) (host : Host) (paints : List Paint) :
    ∃ calls, (hide editor pool host paints).calls = calls ++ host.calls ∧
      ∀ call ∈ calls, ∃ h, call = .place editor h [] := by
  induction paints generalizing host with
  | nil => exact ⟨[], rfl, by simp⟩
  | cons p paints ih =>
    rw [hide, List.foldl_cons, ← hide]
    split
    · next h _ =>
      obtain ⟨calls, hcalls, hall⟩ := ih (host.place editor h [])
      refine ⟨calls ++ [.place editor h []], ?_, fun call hcall => ?_⟩
      · rw [hcalls, List.append_assoc]
        rfl
      · rcases List.mem_append.1 hcall with hcall | hcall
        · exact hall call hcall
        · exact ⟨h, List.mem_singleton.1 hcall⟩
    · exact ih host

theorem Alike.commit (h : Alike pool host pool' host') (editor : EditorId) :
    (pool.commit editor host).1 = (pool'.commit editor host').1 ∧
      Alike (pool.commit editor host).2.1 (pool.commit editor host).2.2
        (pool'.commit editor host').2.1 (pool'.commit editor host').2.2 := by
  have hempty : Alike { pool with pending := [] } host { pool' with pending := [] } host' :=
    ⟨h.handles_eq, rfl, h.created_eq⟩
  have hplaced := hempty.placeAll editor pool.pending
  simp only [Pool.commit, ← h.pending_eq]
  refine ⟨trivial, hplaced.handles_eq, hplaced.pending_eq, ?_⟩
  simp only [hide_handles, hplaced.created_eq]

/-- An editor without marks shows nothing. -/
theorem Tracks.shown_eq_nil {latest : EditorId → List Mark} (ht : Tracks pool host latest)
    {editor : EditorId} (hlatest : latest editor = []) (h : Handle) : host.shown editor h = [] := by
  by_contra hshown
  obtain ⟨p, -, hpaint⟩ := ht.backed.exists_paint hshown
  rw [ht.shownIn_eq, hlatest] at hpaint
  exact hshown (hpaint.symm.trans List.mergeSort_nil)

/-- What an editor shows is told by the handles and by its last marks. -/
theorem Tracks.shown_eq {latest latest' : EditorId → List Mark} (ht : Tracks pool host latest)
    (ht' : Tracks pool' host' latest') (hhandles : pool.handles = pool'.handles) {editor : EditorId}
    (hlatest : latest editor = latest' editor) (h : Handle) :
    host.shown editor h = host'.shown editor h := by
  by_cases hmem : h ∈ pool.handles.map Prod.snd
  · obtain ⟨⟨p, h'⟩, hentry, rfl⟩ := List.mem_map.1 hmem
    have hget := (Table.get?_eq_some_iff ht.backed.nodup).2 hentry
    have hshown := ht.shownIn_eq editor p
    have hshown' := ht'.shownIn_eq editor p
    rw [shownIn, hget] at hshown
    rw [shownIn, ← hhandles, hget, ← hlatest] at hshown'
    exact hshown.trans hshown'.symm
  · rw [ht.backed.holds.shown_eq_nil hmem, ht'.backed.holds.shown_eq_nil (hhandles ▸ hmem)]

end Alike

end Pool

/-! ## Sessions that remember different editors -/

namespace Scene

/-- Two scenes that may differ in what editors show, and in the requests that wait. -/
structure Alike (scene scene' : Scene) : Prop where
  registry_eq : scene.session.registry = scene'.session.registry
  cache_eq : scene.session.cache = scene'.session.cache
  reportedLimit_eq : scene.session.reportedLimit = scene'.session.reportedLimit
  pool : Pool.Alike scene.session.pool scene.host scene'.session.pool scene'.host

section Alike

variable {scene scene' : Scene}

theorem Alike.commit (h : Alike scene scene') (editor : EditorId) :
    (scene.session.commit editor scene.host).1 = (scene'.session.commit editor scene'.host).1 ∧
      Alike
        ⟨(scene.session.commit editor scene.host).2.1,
          (scene.session.commit editor scene.host).2.2⟩
        ⟨(scene'.session.commit editor scene'.host).2.1,
          (scene'.session.commit editor scene'.host).2.2⟩ := by
  obtain ⟨hcount, hpool⟩ := h.pool.commit editor
  exact ⟨hcount, h.registry_eq, h.cache_eq, h.reportedLimit_eq, hpool⟩

theorem Alike.finish (h : Alike scene scene') (v : EditorView) (window : Viewport)
    (settings : Settings) (scan : Scan) (cached : Bool) :
    let done := scene.session.finish v window settings scan cached scene.host
    let done' := scene'.session.finish v window settings scan cached scene'.host
    done.1 = done'.1 ∧ Alike ⟨done.2.1, done.2.2⟩ ⟨done'.2.1, done'.2.2⟩ := by
  obtain ⟨⟨registry, pool, schedule, cache, limit⟩, host⟩ := scene
  obtain ⟨⟨registry', pool', schedule', cache', limit'⟩, host'⟩ := scene'
  obtain ⟨hregistry, hcache, hlimit, hpool⟩ := h
  dsimp only at hregistry hcache hlimit hpool
  subst hregistry hcache hlimit
  obtain ⟨hcount, hpool⟩ := (hpool.recordAll _).commit v.editor
  refine ⟨?_, rfl, rfl, rfl, hpool⟩
  exact congrArg (fun handles => Report.mk v.editor window _ handles _ cached false) hcount

theorem Alike.keep {s s' : Session} {host host' : Host} (h : Alike ⟨s, host⟩ ⟨s', host'⟩)
    (key : DocumentKey) (c : CachedScan) :
    Alike ⟨{ s with cache := s.cache.put key c }, host⟩
      ⟨{ s' with cache := s'.cache.put key c }, host'⟩ :=
  ⟨h.registry_eq, congrArg (Table.put key c) h.cache_eq, h.reportedLimit_eq, h.pool⟩

/-- What editors show has no say in a pass. -/
theorem Alike.pass (h : Alike scene scene') (v : EditorView) (settings : Settings) :
    scene.report v settings = scene'.report v settings ∧
      Alike (scene.step (.pass v settings)) (scene'.step (.pass v settings)) := by
  obtain ⟨s, host⟩ := scene
  obtain ⟨s', host'⟩ := scene'
  have hready : Alike ⟨{ s with schedule.delay := settings.debounceMs }, host⟩
      ⟨{ s' with schedule.delay := settings.debounceMs }, host'⟩ :=
    ⟨h.registry_eq, h.cache_eq, h.reportedLimit_eq, h.pool⟩
  cases hlines : (Viewport.ofVisible v.visible settings.viewportBuffer).clamp? v.lineCount with
  | none =>
    simp only [report, step, Session.run, hlines]
    obtain ⟨hcount, hdone⟩ := hready.commit v.editor
    exact ⟨congrArg (Report.mk v.editor _ [] · [] false false) hcount, hdone⟩
  | some lines =>
    have hcached : { s with schedule.delay := settings.debounceMs }.cachedScan? v lines settings
        = { s' with schedule.delay := settings.debounceMs }.cachedScan? v lines settings := by
      rw [Session.cachedScan?, Session.cachedScan?, hready.cache_eq]
    simp only [report, step, Session.run, hlines, hcached]
    split
    · exact hready.finish v _ settings _ true
    · split
      · obtain ⟨hcount, hdone⟩ := hready.commit v.editor
        exact ⟨congrArg (Report.mk v.editor _ [] · [] false true) hcount, hdone⟩
      · exact (hready.keep v.key _).finish v _ settings _ false

end Alike

/-! ## Passes one after the other -/

def reports (scene : Scene) : List (EditorView × Settings) → List Report
  | [] => []
  | (v, settings) :: passes =>
    scene.report v settings :: (scene.step (.pass v settings)).reports passes

def afterPasses (scene : Scene) (passes : List (EditorView × Settings)) : Scene :=
  scene.after (passes.map fun (v, settings) => .pass v settings)

section Passes

variable {scene scene' : Scene} {passes : List (EditorView × Settings)}

theorem Alike.reports_eq (h : Alike scene scene') (passes : List (EditorView × Settings)) :
    scene.reports passes = scene'.reports passes ∧
      Alike (scene.afterPasses passes) (scene'.afterPasses passes) := by
  induction passes generalizing scene scene' with
  | nil => exact ⟨rfl, h⟩
  | cons p passes ih =>
    obtain ⟨hreport, hstep⟩ := h.pass p.1 p.2
    obtain ⟨hreports, hafter⟩ := ih hstep
    exact ⟨by rw [reports, reports, hreport, hreports], hafter⟩

/-- What an editor should show after some passes is told by their reports, if one of them is about
the editor. -/
theorem Alike.latestMarks_eq (h : Alike scene scene') {latest latest' : EditorId → List Mark}
    {editor : EditorId}
    (hlatest : (∃ p ∈ passes, p.1.editor = editor) ∨ latest editor = latest' editor) :
    scene.latestMarks latest (passes.map fun (v, settings) => .pass v settings) editor
      = scene'.latestMarks latest' (passes.map fun (v, settings) => .pass v settings) editor := by
  induction passes generalizing scene scene' latest latest' with
  | nil => exact hlatest.resolve_left (by simp)
  | cons p passes ih =>
    obtain ⟨hreport, hstep⟩ := h.pass p.1 p.2
    refine ih hstep ?_
    simp only [latestAfter, hreport]
    by_cases heditor : p.1.editor = editor
    · simp [heditor]
    · simpa [heditor] using hlatest

end Passes

/-! ## The trace of a failed pass -/

/-- After any history, a pass that has to read its document and cannot reports no marks and no
warnings, and hides what its editor shows; the host is told nothing else. Ignored lines, requests
that wait and handles are left as they are. All passes that follow report the same as without the
failed one, and as soon as one of them is about the editor, every editor shows the same. -/
theorem failed_pass_leaves_no_trace (r : Ignored.Registry) (events : List Event) (v : EditorView)
    (settings : Settings) (hfails : ((start r).after events).session.FailsToRead v settings) :
    let scene := (start r).after events
    let failed := scene.step (.pass v settings)
    ((scene.report v settings).degraded = true ∧ (scene.report v settings).marks = [] ∧
      (scene.report v settings).advisories = []) ∧
    (∀ h, failed.host.shown v.editor h = []) ∧
    (∀ editor, editor ≠ v.editor → ∀ h, failed.host.shown editor h = scene.host.shown editor h) ∧
    (∃ calls, failed.host.calls = calls ++ scene.host.calls ∧
      ∀ call ∈ calls, ∃ h, call = .place v.editor h []) ∧
    failed.session.registry = scene.session.registry ∧
    failed.session.schedule = { scene.session.schedule with delay := settings.debounceMs } ∧
    failed.session.pool.handles = scene.session.pool.handles ∧
    ∀ passes, failed.reports passes = scene.reports passes ∧
      ((∃ p ∈ passes, p.1.editor = v.editor) → ∀ editor h,
        (failed.afterPasses passes).host.shown editor h
          = (scene.afterPasses passes).host.shown editor h) := by
  intro scene failed
  have ht := tracks_after (start r) Pool.tracks_nil events
  have hfailed := tracks_step scene ht (.pass v settings)
  have hrun := hfails.run_eq ht.pending_eq scene.host
  have hreport : scene.report v settings = _ := congrArg Prod.fst hrun
  have hsession : failed.session = _ := congrArg (·.2.1) hrun
  have hhost : failed.host = _ := congrArg (·.2.2) hrun
  have hhandles : failed.session.pool.handles = scene.session.pool.handles := by rw [hsession]
  have halike : Alike failed scene := by
    refine ⟨by rw [hsession], by rw [hsession], by rw [hsession], hhandles, by rw [hsession], ?_⟩
    rw [hhost, Pool.hide_handles]
  -- The failed pass changes nothing of what other editors should show.
  have hlatest {editor : EditorId} (heditor : v.editor ≠ editor) :
      scene.latestAfter ((start r).latestMarks (fun _ => []) events) (.pass v settings) editor
        = (start r).latestMarks (fun _ => []) events editor := if_neg heditor
  refine ⟨by simp [hreport], fun h => hfailed.shown_eq_nil ?_ h, fun editor heditor h =>
    hfailed.shown_eq ht hhandles (hlatest (Ne.symm heditor)) h, ?_, by rw [hsession],
    by rw [hsession], hhandles, fun passes => ?_⟩
  · simp [latestAfter, hreport]
  · rw [hhost]
    exact Pool.hide_calls v.editor scene.session.pool scene.host _
  · obtain ⟨hreports, hafter⟩ := halike.reports_eq passes
    refine ⟨hreports, fun heditor editor h => ?_⟩
    have hshown := tracks_after failed hfailed (passes.map fun (v, settings) => .pass v settings)
    have hshown' := tracks_after scene ht (passes.map fun (v, settings) => .pass v settings)
    refine hshown.shown_eq hshown' hafter.pool.handles_eq (halike.latestMarks_eq ?_) h
    by_cases hsame : v.editor = editor
    · exact .inl (hsame ▸ heditor)
    · exact .inr (hlatest hsame)

/-- An editor shows a color, its document changes and cannot be read, and then it can. -/
theorem failed_pass_leaves_no_trace_shown :
    let v : EditorView :=
      { editor := 1, key := ⟨['/', 'p']⟩, revision := 3, lineCount := 1
        text := some "0xFF0000".toList, visible := [⟨0, 0⟩] }
    let unread : EditorView := { v with revision := 4, text := none }
    let scene := (start {}).after [.submit 1 0, .pass v {}]
    let failed := scene.step (.pass unread {})
    scene.session.FailsToRead unread {} ∧
      scene.host.shown 1 ⟨1⟩ = [⟨0, 8⟩] ∧ failed.host.shown 1 ⟨1⟩ = [] ∧
      failed.session.schedule.nextDeadline? = scene.session.schedule.nextDeadline? ∧
      failed.reports [(v, {})] = scene.reports [(v, {})] ∧
      (failed.afterPasses [(v, {})]).host.shown 1 ⟨1⟩ = [⟨0, 8⟩] := by
  intro v unread scene failed
  have hfails : scene.session.FailsToRead unread {} := ⟨⟨⟨0, 0⟩, by decide +kernel⟩, rfl⟩
  have hshown : scene.host.shown 1 ⟨1⟩ = [⟨0, 8⟩] := by decide +kernel
  have hagain : (scene.afterPasses [(v, {})]).host.shown 1 ⟨1⟩ = [⟨0, 8⟩] := by decide +kernel
  obtain ⟨-, hcleared, -, -, -, hschedule, -, hfollow⟩ :=
    failed_pass_leaves_no_trace {} [.submit 1 0, .pass v {}] unread {} hfails
  obtain ⟨hreports, hsame⟩ := hfollow [(v, {})]
  have hdeadline : failed.session.schedule.nextDeadline?
      = scene.session.schedule.nextDeadline? := by
    rw [hschedule]
    rfl
  exact ⟨hfails, hshown, hcleared ⟨1⟩, hdeadline, hreports,
    (hsame ⟨(v, {}), List.mem_singleton_self _, rfl⟩ 1 ⟨1⟩).trans hagain⟩

end Scene

end Swatch

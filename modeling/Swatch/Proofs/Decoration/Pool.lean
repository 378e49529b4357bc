-- SUMMARY: The pool of handles shows, in each editor, the marks of its last commit.
import Swatch.Decoration.Pool
import Swatch.Proofs.Decoration.Host
import Swatch.Proofs.Table
import Swatch.Scan
import Mathlib.Data.List.Dedup

/-!
# What the pool shows

The pool holds one handle for each paint, and those handles are the ones that are
alive. So the ranges that an editor shows belong to paints, and a commit decides for
each paint what the editor shows of it from then on: the ranges of the pass if it
occurs there, nothing if only the last pass had it.
-/

namespace Swatch

/-! ## Marks by paint -/

def paintsOf (marks : List Mark) : List Paint :=
  (marks.map Mark.paint).dedup

/-- Where some marks have a paint. -/
def extentsOf (marks : List Mark) (p : Paint) : List Interval :=
  (marks.filter (·.paint = p)).map Mark.extent

@[simp] theorem paintsOf_nil : paintsOf [] = [] := rfl

@[simp] theorem extentsOf_nil (p : Paint) : extentsOf [] p = [] := rfl

theorem nodup_paintsOf (marks : List Mark) : (paintsOf marks).Nodup :=
  List.nodup_dedup _

theorem mem_paintsOf {marks : List Mark} {p : Paint} :
    p ∈ paintsOf marks ↔ p ∈ marks.map Mark.paint :=
  List.mem_dedup

theorem extentsOf_eq_nil_iff {marks : List Mark} {p : Paint} :
    extentsOf marks p = [] ↔ p ∉ paintsOf marks := by
  simp [mem_paintsOf, extentsOf]

namespace Pool

/-! ## Handles of paints -/

/-- The table gives a handle to each paint, and the handles that the host holds are those. All of
them have been created since the last disposal. -/
structure Backed (handles : Table Paint Handle) (host : Host) : Prop where
  nodup : (handles.map Prod.fst).Nodup
  holds : host.Holds (handles.map Prod.snd)
  createdLately_eq : (Host.createdLately host.calls).reverse
    = handles.map fun (p, h) => (h, p.appearance)

/-- Where a paint is shown in an editor. -/
def shownIn (handles : Table Paint Handle) (host : Host) (editor : EditorId) (p : Paint) :
    List Interval :=
  ((handles.get? p).map (host.shown editor)).getD []

section Backed

variable {handles : Table Paint Handle} {host : Host} {p q : Paint} {h : Handle}

theorem backed_nil : Backed [] {} where
  nodup := List.nodup_nil
  holds := Host.holds_nil
  createdLately_eq := rfl

/-- Two paints do not share a handle. -/
theorem Backed.paint_eq (hb : Backed handles host) (hp : handles.get? p = some h)
    (hq : handles.get? q = some h) : p = q := by
  have hinj := List.inj_on_of_nodup_map hb.holds.nodup
  exact congrArg Prod.fst (hinj (Table.mem_of_get?_eq_some hp) (Table.mem_of_get?_eq_some hq) rfl)

/-- What an editor shows belongs to a paint. -/
theorem Backed.exists_paint (hb : Backed handles host) {editor : EditorId}
    (hshown : host.shown editor h ≠ []) :
    ∃ p, handles.get? p = some h ∧ shownIn handles host editor p = host.shown editor h := by
  have halive : h ∈ handles.map Prod.snd := by
    by_contra hdead
    exact hshown (hb.holds.shown_eq_nil hdead editor)
  obtain ⟨⟨p, h'⟩, hmem, rfl⟩ := List.mem_map.1 halive
  have hget := (Table.get?_eq_some_iff hb.nodup).2 hmem
  exact ⟨p, hget, by rw [shownIn, hget]; rfl⟩

theorem Backed.place (hb : Backed handles host) (hp : handles.get? p = some h) (editor : EditorId)
    (ranges : List Interval) : Backed handles (host.place editor h ranges) where
  nodup := hb.nodup
  holds := hb.holds.place (List.mem_map_of_mem (Table.mem_of_get?_eq_some hp)) editor ranges
  createdLately_eq := hb.createdLately_eq

theorem Backed.shownIn_place (hb : Backed handles host) (hp : handles.get? p = some h)
    (editor editor' : EditorId) (ranges : List Interval) (q : Paint) :
    shownIn handles (host.place editor h ranges) editor' q
      = if editor = editor' ∧ p = q then ranges else shownIn handles host editor' q := by
  cases hq : handles.get? q with
  | none =>
    have hne : p ≠ q := fun he => by simp [← he, hp] at hq
    simp [shownIn, hq, hne]
  | some k =>
    have hiff : h = k ↔ p = q := by
      constructor
      · rintro rfl
        exact hb.paint_eq hp hq
      · rintro rfl
        exact Option.some.inj (hp.symm.trans hq)
    simp [shownIn, hq, Host.shown_place, hiff]

theorem Backed.create (hb : Backed handles host) (hp : handles.get? p = none) :
    Backed (handles.put p (host.create p.appearance).1) (host.create p.appearance).2 := by
  have hput := Table.put_of_notMem (host.create p.appearance).1 (Table.get?_eq_none_iff.1 hp)
  refine ⟨Table.nodup_map_fst_put hb.nodup, ?_, ?_⟩
  · rw [hput, List.map_append]
    exact hb.holds.create p.appearance
  · rw [hput, List.map_append, ← hb.createdLately_eq]
    exact List.reverse_cons

/-- A new handle is shown nowhere yet. -/
theorem Backed.shownIn_create (hb : Backed handles host) (hp : handles.get? p = none)
    (editor : EditorId) (q : Paint) :
    shownIn (handles.put p (host.create p.appearance).1) (host.create p.appearance).2 editor q
      = shownIn handles host editor q := by
  by_cases he : p = q
  · subst he
    have hnew := hb.holds.shown_eq_nil (hb.holds.notMem_new p.appearance) editor
    simp [shownIn, Table.get?_put, hp, Host.shown_create, hnew]
  · simp [shownIn, Table.get?_put, he, Host.shown_create]

theorem Backed.dispose (hb : Backed handles host) :
    Backed [] (handles.foldl (fun host (_, h) => host.dispose h) host) := by
  have hholds {handles : Table Paint Handle} {host : Host}
      (hh : host.Holds (handles.map Prod.snd)) :
      (handles.foldl (fun host (_, h) => host.dispose h) host).Holds [] := by
    induction handles generalizing host with
    | nil => exact hh
    | cons entry handles ih => exact ih hh.dispose
  have hlately {handles : Table Paint Handle} {host : Host}
      (hnone : Host.createdLately host.calls = []) :
      Host.createdLately (handles.foldl (fun host (_, h) => host.dispose h) host).calls = [] := by
    induction handles generalizing host with
    | nil => exact hnone
    | cons entry handles ih => exact ih rfl
  refine ⟨List.nodup_nil, hholds hb.holds, ?_⟩
  cases handles with
  | nil => exact hb.createdLately_eq
  | cons entry handles =>
    rw [List.foldl_cons, hlately rfl]
    rfl

end Backed

/-! ## Showing and hiding paints -/

theorem placePaint_spec {pool pool' : Pool} {host host' : Host} (hb : Backed pool.handles host)
    {editor : EditorId} {p : Paint} {ranges : List Interval}
    (h : placePaint editor pool host p ranges = (pool', host')) :
    Backed pool'.handles host' ∧ pool'.pending = pool.pending ∧ pool'.applied = pool.applied ∧
      ∀ editor' q, shownIn pool'.handles host' editor' q
        = if editor = editor' ∧ p = q then ranges.mergeSort Interval.le
          else shownIn pool.handles host editor' q := by
  cases hget : pool.handles.get? p with
  | some k =>
    simp only [placePaint, handle, hget, Prod.mk.injEq] at h
    obtain ⟨rfl, rfl⟩ := h
    refine ⟨hb.place hget editor _, rfl, rfl, ?_⟩
    intro editor' q
    exact hb.shownIn_place hget editor editor' _ q
  | none =>
    simp only [placePaint, handle, hget, Prod.mk.injEq] at h
    obtain ⟨rfl, rfl⟩ := h
    have hb' := hb.create hget
    have hget' : (pool.handles.put p (host.create p.appearance).1).get? p
        = some (host.create p.appearance).1 := by
      rw [Table.get?_put, if_pos rfl]
    refine ⟨hb'.place hget' editor _, rfl, rfl, ?_⟩
    intro editor' q
    rw [hb'.shownIn_place hget', hb.shownIn_create hget]

/-- Placing shows the ranges of the paints of a pass, in order, and leaves all else as it was. -/
theorem placeAll_spec {pool pool' : Pool} {host host' : Host} (hb : Backed pool.handles host)
    {editor : EditorId} {pass : Table Paint (List Interval)} (hpass : (pass.map Prod.fst).Nodup)
    (h : placeAll editor pool host pass = (pool', host')) :
    Backed pool'.handles host' ∧ pool'.pending = pool.pending ∧ pool'.applied = pool.applied ∧
      ∀ editor' q, shownIn pool'.handles host' editor' q
        = if editor = editor' ∧ q ∈ pass.map Prod.fst
          then ((pass.get? q).getD []).mergeSort Interval.le
          else shownIn pool.handles host editor' q := by
  induction pass generalizing pool host with
  | nil =>
    obtain ⟨rfl, rfl⟩ := Prod.mk.inj h
    exact ⟨hb, rfl, rfl, fun editor' q => by simp⟩
  | cons entry pass ih =>
    obtain ⟨p, ranges⟩ := entry
    obtain ⟨hhead, hpass⟩ := List.nodup_cons.1 hpass
    obtain ⟨⟨pool₁, host₁⟩, hfirst⟩ : ∃ r, placePaint editor pool host p ranges = r := ⟨_, rfl⟩
    have hstep : placeAll editor pool host ((p, ranges) :: pass)
        = placeAll editor (placePaint editor pool host p ranges).1
            (placePaint editor pool host p ranges).2 pass := rfl
    rw [hstep, hfirst] at h
    obtain ⟨hb₁, hpending₁, happlied₁, hshown₁⟩ := placePaint_spec hb hfirst
    obtain ⟨hb', hpending, happlied, hshown⟩ := ih hb₁ hpass h
    refine ⟨hb', hpending.trans hpending₁, happlied.trans happlied₁, ?_⟩
    intro editor' q
    rw [hshown, hshown₁]
    by_cases hq : p = q
    · subst hq
      have hnone : p ∉ pass.map Prod.fst := hhead
      simp [hnone, Table.get?]
    · have hkeys : q ∈ ((p, ranges) :: pass).map Prod.fst ↔ q ∈ pass.map Prod.fst := by
        simp [Ne.symm hq]
      simp only [hq, and_false, if_false, hkeys, Table.get?]

/-- Hiding leaves some paints without ranges in an editor, and all else as it was. -/
theorem hide_spec {pool : Pool} {host : Host} (hb : Backed pool.handles host) (editor : EditorId)
    (paints : List Paint) :
    Backed pool.handles (hide editor pool host paints) ∧
      ∀ editor' q, shownIn pool.handles (hide editor pool host paints) editor' q
        = if editor = editor' ∧ q ∈ paints then [] else shownIn pool.handles host editor' q := by
  induction paints generalizing host with
  | nil => exact ⟨hb, fun editor' q => by simp [hide]⟩
  | cons p paints ih =>
    cases hget : pool.handles.get? p with
    | some k =>
      have hstep : hide editor pool host (p :: paints)
          = hide editor pool (host.place editor k []) paints := by
        simp [hide, hget]
      obtain ⟨hb', hshown⟩ := ih (hb.place hget editor [])
      refine ⟨hstep ▸ hb', ?_⟩
      intro editor' q
      rw [hstep, hshown, hb.shownIn_place hget]
      by_cases hq : p = q
      · by_cases heditor : editor = editor' <;> simp [hq, heditor]
      · simp [hq, Ne.symm hq]
    | none =>
      have hstep : hide editor pool host (p :: paints) = hide editor pool host paints := by
        simp [hide, hget]
      obtain ⟨hb', hshown⟩ := ih hb
      refine ⟨hstep ▸ hb', ?_⟩
      intro editor' q
      rw [hstep, hshown]
      by_cases hq : p = q
      · have hnone : shownIn pool.handles host editor' p = [] := by simp [shownIn, hget]
        simp [← hq, hnone]
      · simp [Ne.symm hq]

/-! ## Recording marks -/

def recordAll (pool : Pool) (marks : List Mark) : Pool :=
  marks.foldl (fun pool m => pool.record m.paint m.extent) pool

theorem recordAll_handles (pool : Pool) (marks : List Mark) :
    (pool.recordAll marks).handles = pool.handles ∧
      (pool.recordAll marks).applied = pool.applied := by
  induction marks generalizing pool with
  | nil => exact ⟨rfl, rfl⟩
  | cons m marks ih => exact ih (pool.record m.paint m.extent)

theorem recordAll_keys (pool : Pool) (hnodup : (pool.pending.map Prod.fst).Nodup)
    (marks : List Mark) :
    ((pool.recordAll marks).pending.map Prod.fst).Nodup ∧
      ∀ p, p ∈ (pool.recordAll marks).pending.map Prod.fst
        ↔ p ∈ marks.map Mark.paint ∨ p ∈ pool.pending.map Prod.fst := by
  induction marks generalizing pool with
  | nil => exact ⟨hnodup, fun p => by simp [recordAll]⟩
  | cons m marks ih =>
    obtain ⟨hnodup', hkeys⟩ := ih (pool.record m.paint m.extent)
      (Table.nodup_map_fst_put hnodup)
    refine ⟨hnodup', ?_⟩
    intro p
    rw [recordAll, List.foldl_cons, ← recordAll, hkeys, record, Table.mem_map_fst_put,
      List.map_cons, List.mem_cons, or_left_comm, or_assoc]

theorem recordAll_get? (pool : Pool) (marks : List Mark) (p : Paint) :
    ((pool.recordAll marks).pending.get? p).getD []
      = (pool.pending.get? p).getD [] ++ extentsOf marks p := by
  induction marks generalizing pool with
  | nil => simp [recordAll, extentsOf]
  | cons m marks ih =>
    rw [recordAll, List.foldl_cons, ← recordAll, ih, record, Table.get?_put]
    by_cases hp : m.paint = p
    · simp [extentsOf, hp]
    · simp [extentsOf, hp]

/-- A pass records, for each paint of its marks, where they have it. -/
theorem recordAll_spec {pool : Pool} (hpending : pool.pending = []) (marks : List Mark) :
    ((pool.recordAll marks).pending.map Prod.fst).Perm (paintsOf marks) ∧
      ∀ p, ((pool.recordAll marks).pending.get? p).getD [] = extentsOf marks p := by
  obtain ⟨hnodup, hkeys⟩ := recordAll_keys pool (by simp [hpending]) marks
  constructor
  · apply (List.perm_ext_iff_of_nodup hnodup (nodup_paintsOf marks)).2
    intro p
    rw [hkeys, hpending, mem_paintsOf]
    simp
  · intro p
    rw [recordAll_get?, hpending]
    rfl

/-! ## Commits -/

/-- A commit of some marks counts their paints, remembers them, and shows nothing of what only the
last pass had. -/
theorem commit_spec {pool pool' : Pool} {host host' : Host} {count : Nat}
    (hb : Backed pool.handles host) (hpending : pool.pending = []) (marks : List Mark)
    {editor : EditorId}
    (h : (pool.recordAll marks).commit editor host = (count, pool', host')) :
    count = (paintsOf marks).length ∧ Backed pool'.handles host' ∧ pool'.pending = [] ∧
      (∃ paints, paints.Perm (paintsOf marks) ∧
        pool'.applied = pool.applied.put editor paints) ∧
      ∀ editor' p, shownIn pool'.handles host' editor' p
        = if editor = editor' ∧ p ∈ (pool.applied.get? editor).getD [] ∧ p ∉ paintsOf marks then []
          else if editor = editor' ∧ p ∈ paintsOf marks
            then (extentsOf marks p).mergeSort Interval.le
          else shownIn pool.handles host editor' p := by
  obtain ⟨hhandles, happlied⟩ := recordAll_handles pool marks
  obtain ⟨hpaints, hranges⟩ := recordAll_spec hpending marks
  obtain ⟨⟨placed, host₁⟩, hplace⟩ : ∃ r, placeAll editor
    { pool.recordAll marks with pending := [] } host (pool.recordAll marks).pending = r := ⟨_, rfl⟩
  have hb₁ : Backed (Pool.handles { pool.recordAll marks with pending := [] }) host :=
    hhandles ▸ hb
  obtain ⟨hplaced, hpending₁, happlied₁, hshown⟩ :=
    placeAll_spec hb₁ (hpaints.nodup_iff.2 (nodup_paintsOf marks)) hplace
  simp only [Pool.commit, hplace, Prod.mk.injEq] at h
  obtain ⟨rfl, rfl, rfl⟩ := h
  obtain ⟨hhidden, hshown'⟩ := hide_spec hplaced editor
    ((((pool.recordAll marks).applied.get? editor).getD []).filter fun p =>
      !((pool.recordAll marks).pending.map Prod.fst).contains p)
  refine ⟨hpaints.length_eq, hhidden, hpending₁, ⟨_, hpaints, ?_⟩, ?_⟩
  · exact congrArg (Table.put editor _) (happlied₁.trans happlied)
  · intro editor' p
    have hlast : p ∈ ((((pool.recordAll marks).applied.get? editor).getD []).filter fun p =>
        !((pool.recordAll marks).pending.map Prod.fst).contains p)
        ↔ p ∈ (pool.applied.get? editor).getD [] ∧ p ∉ paintsOf marks := by
      rw [List.mem_filter, happlied, ← hpaints.mem_iff]
      simp
    have hold : shownIn (Pool.handles { pool.recordAll marks with pending := [] }) host editor' p
        = shownIn pool.handles host editor' p :=
      congrArg (shownIn · host editor' p) hhandles
    rw [hshown', hshown, hranges, hold]
    simp only [hlast, hpaints.mem_iff]

/-! ## The last commit of each editor -/

/-- Between passes, each editor shows the places of some marks, paint by paint and in order, and the
pool remembers the paints of those marks. -/
structure Tracks (pool : Pool) (host : Host) (latest : EditorId → List Mark) : Prop where
  backed : Backed pool.handles host
  pending_eq : pool.pending = []
  mem_applied : ∀ editor p,
    p ∈ (pool.applied.get? editor).getD [] ↔ p ∈ paintsOf (latest editor)
  shownIn_eq : ∀ editor p,
    shownIn pool.handles host editor p = (extentsOf (latest editor) p).mergeSort Interval.le

section Tracks

variable {pool : Pool} {host : Host} {latest : EditorId → List Mark}

theorem tracks_nil : Tracks {} {} fun _ => [] where
  backed := backed_nil
  pending_eq := rfl
  mem_applied editor p := by simp
  shownIn_eq editor p := by simp [shownIn]

/-- A commit of some marks shows them instead of the last ones, and counts their paints. -/
theorem Tracks.commit (ht : Tracks pool host latest) (marks : List Mark) {editor : EditorId}
    {count : Nat} {pool' : Pool} {host' : Host}
    (h : (pool.recordAll marks).commit editor host = (count, pool', host')) :
    count = (paintsOf marks).length ∧
      Tracks pool' host' fun editor' => if editor = editor' then marks else latest editor' := by
  obtain ⟨hcount, hbacked, hpending, ⟨paints, hpaints, happlied⟩, hshown⟩ :=
    commit_spec ht.backed ht.pending_eq marks h
  refine ⟨hcount, hbacked, hpending, ?_, ?_⟩
  · intro editor' p
    rw [happlied, Table.get?_put]
    by_cases heditor : editor = editor'
    · simpa [heditor] using hpaints.mem_iff
    · simpa [heditor] using ht.mem_applied editor' p
  · intro editor' p
    rw [hshown, ht.shownIn_eq]
    by_cases heditor : editor = editor'
    · subst heditor
      simp only [true_and, if_true, ht.mem_applied]
      by_cases hp : p ∈ paintsOf marks
      · simp [hp]
      · rw [extentsOf_eq_nil_iff.2 hp]
        by_cases hq : p ∈ paintsOf (latest editor)
        · simp [hp, hq]
        · simp [hp, hq, extentsOf_eq_nil_iff.2 hq]
    · simp [heditor]

/-- Clearing an editor shows nothing in it. -/
theorem Tracks.clearEditor (ht : Tracks pool host latest) {editor : EditorId} {pool' : Pool}
    {host' : Host} (h : pool.clearEditor editor host = (pool', host')) :
    Tracks pool' host' fun editor' => if editor = editor' then [] else latest editor' := by
  obtain ⟨rfl, rfl⟩ := Prod.mk.inj h
  obtain ⟨hbacked, hhidden⟩ := hide_spec ht.backed editor ((pool.applied.get? editor).getD [])
  refine ⟨hbacked, ht.pending_eq, ?_, ?_⟩
  · intro editor' p
    rw [Table.get?_erase]
    by_cases heditor : editor = editor'
    · simp [heditor]
    · simpa [heditor] using ht.mem_applied editor' p
  · intro editor' p
    have hshown := hhidden editor' p
    rw [ht.shownIn_eq] at hshown
    refine hshown.trans ?_
    by_cases heditor : editor = editor'
    · subst heditor
      simp only [true_and, if_true, ht.mem_applied]
      by_cases hp : p ∈ paintsOf (latest editor)
      · simp [hp]
      · simp [hp, extentsOf_eq_nil_iff.2 hp]
    · simp [heditor]

/-- Disposing of the pool shows nothing anywhere. -/
theorem Tracks.dispose (ht : Tracks pool host latest) {pool' : Pool} {host' : Host}
    (h : pool.dispose host = (pool', host')) : Tracks pool' host' fun _ => [] := by
  obtain ⟨rfl, rfl⟩ := Prod.mk.inj h
  exact ⟨ht.backed.dispose, rfl, fun editor p => by simp,
    fun editor p => by simp [shownIn]⟩

end Tracks

end Pool

end Swatch

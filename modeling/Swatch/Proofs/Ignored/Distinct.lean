-- SUMMARY: The registry lists a line twice just after an event that puts two ignored lines together.
import Swatch.Ignored.Store
import Swatch.Proofs.Ignored.Merging
import Mathlib.Data.List.Pairwise

/-!
# Lines that are ignored once

A request to restore a line looks for one entry of the line and stops there, so a line is
only restored for good if it has one entry at most. Every request keeps it so, but for
those that follow an event: there two ignored lines may end on one number.

Of two entries that an event puts on one line, the request to restore the line takes the
first one away, and the line stays ignored.
-/

namespace Swatch

theorem Path.same_iff {p q : Path} : p.same q ↔ p.components = q.components :=
  beq_iff_eq

namespace Ignored

/-! ## Entries of one line -/

namespace Entry

variable {e f : Entry} {key : DocumentKey} {line : Nat}

/-- Two entries are about one line of one document. -/
def Meets (e f : Entry) : Prop :=
  e.line = f.line ∧ e.path.same f.path

instance (e f : Entry) : Decidable (e.Meets f) :=
  inferInstanceAs (Decidable (e.line = f.line ∧ e.path.same f.path))

theorem isAt_iff : e.isAt key line ↔ e.line = line ∧ e.belongsTo key := by
  simp [isAt]

theorem isAt_self (e : Entry) : e.isAt ⟨e.path⟩ e.line :=
  isAt_iff.2 ⟨rfl, Path.same_iff.2 rfl⟩

theorem belongsTo_congr (h : e.path.same f.path) (key : DocumentKey) :
    e.belongsTo key = f.belongsTo key := by
  rw [belongsTo, belongsTo, Path.same, Path.same, Path.same_iff.1 h]

theorem meets_of_isAt (he : e.isAt key line) (hf : f.isAt key line) : e.Meets f := by
  obtain ⟨hline, hpath⟩ := isAt_iff.1 he
  obtain ⟨hline', hpath'⟩ := isAt_iff.1 hf
  rw [belongsTo, Path.same_iff] at hpath hpath'
  exact ⟨hline.trans hline'.symm, Path.same_iff.2 (hpath.trans hpath'.symm)⟩

theorem Meets.symm (h : e.Meets f) : f.Meets e :=
  ⟨h.1.symm, Path.same_iff.2 (Path.same_iff.1 h.2).symm⟩

theorem Meets.isAt (h : e.Meets f) (he : e.isAt key line) : f.isAt key line := by
  obtain ⟨hline, hkey⟩ := isAt_iff.1 he
  exact isAt_iff.2 ⟨h.1.symm.trans hline, (belongsTo_congr h.2 key).symm.trans hkey⟩

/-! ## Entries that an event moves -/

/-- Edits leave two entries on one line of one document. -/
def Collides (key : DocumentKey) (edits : List Edit) (e f : Entry) : Prop :=
  ∃ e' ∈ e.follow key edits, ∃ f' ∈ f.follow key edits, e'.Meets f'

instance (key : DocumentKey) (edits : List Edit) : Std.Symm fun e f => ¬ Collides key edits e f where
  symm _ _ h := fun ⟨e', he', f', hf', hmeets⟩ => h ⟨f', hf', e', he', hmeets.symm⟩

/-- Where edits leave an entry of their document. -/
theorem mem_follow_iff (hkey : e.belongsTo key) {edits : List Edit} :
    f ∈ e.follow key edits ↔
      ∃ line, moveLines e.line edits = some line ∧ { e with line } = f := by
  simp [follow, hkey]

theorem path_of_mem_follow {edits : List Edit} (h : f ∈ e.follow key edits) : f.path = e.path := by
  by_cases hkey : e.belongsTo key
  · obtain ⟨line, -, rfl⟩ := (mem_follow_iff hkey).1 h
    rfl
  · obtain rfl : e = f := by simpa [follow, hkey] using h
    rfl

/-- Entries of different lines collide just if both are about the document and the edits put their
lines on one number. -/
theorem collides_iff {edits : List Edit} (hedits : ∀ e ∈ edits, WellFormed e) (h : ¬ e.Meets f) :
    Collides key edits e f ↔
      e.belongsTo key ∧ f.belongsTo key ∧ e.line ≠ f.line ∧ Merged e.line f.line edits := by
  constructor
  · rintro ⟨e', he', f', hf', hmeets⟩
    have hpath : e.path.same f.path := path_of_mem_follow he' ▸ path_of_mem_follow hf' ▸ hmeets.2
    have hboth := belongsTo_congr hpath key
    by_cases hkey : e.belongsTo key
    · have hkey' : f.belongsTo key := hboth.symm.trans hkey
      obtain ⟨line, hline, rfl⟩ := (mem_follow_iff hkey).1 he'
      obtain ⟨line', hline', rfl⟩ := (mem_follow_iff hkey').1 hf'
      obtain rfl : line = line' := hmeets.1
      have hne : e.line ≠ f.line := fun heq => h ⟨heq, hpath⟩
      exact ⟨hkey, hkey', hne, (merged_iff hedits hne).2 ⟨line, hline, hline'⟩⟩
    · have hkey' : ¬ f.belongsTo key := hboth ▸ hkey
      obtain rfl : e = e' := by simpa [follow, hkey] using he'
      obtain rfl : f = f' := by simpa [follow, hkey'] using hf'
      exact absurd hmeets h
  · rintro ⟨hkey, hkey', hne, hmerged⟩
    obtain ⟨line, hline, hline'⟩ := (merged_iff hedits hne).1 hmerged
    refine ⟨_, (mem_follow_iff hkey).2 ⟨line, hline, rfl⟩, _,
      (mem_follow_iff hkey').2 ⟨line, hline', rfl⟩, ?_⟩
    exact meets_of_isAt (isAt_iff.2 ⟨rfl, hkey⟩) (isAt_iff.2 ⟨rfl, hkey'⟩)

end Entry

namespace Registry

variable {r : Registry} {key : DocumentKey} {line : Nat}

/-- No line of a document has two entries. -/
def Distinct (r : Registry) : Prop :=
  r.entries.Pairwise fun e f => ¬ e.Meets f

instance (r : Registry) : Decidable r.Distinct :=
  inferInstanceAs (Decidable (r.entries.Pairwise fun e f => ¬ e.Meets f))

def entriesAt (r : Registry) (key : DocumentKey) (line : Nat) : Nat :=
  r.entries.countP (·.isAt key line)

theorem distinct_iff : r.Distinct ↔ ∀ key line, r.entriesAt key line ≤ 1 := by
  obtain ⟨entries⟩ := r
  simp only [Distinct, entriesAt]
  induction entries with
  | nil => simp
  | cons e entries ih =>
    rw [List.pairwise_cons, ih]
    constructor
    · rintro ⟨hfirst, hrest⟩ key line
      by_cases he : e.isAt key line
      · have hnone : entries.countP (·.isAt key line) = 0 :=
          List.countP_eq_zero.2 fun f hf hat => hfirst f hf (Entry.meets_of_isAt he hat)
        simp [he, hnone]
      · simpa [he] using hrest key line
    · intro hcount
      refine ⟨fun f hf hmeets => ?_, fun key line => ?_⟩
      · have hpos : 0 < entries.countP (·.isAt ⟨e.path⟩ e.line) :=
          List.countP_pos_iff.2 ⟨f, hf, hmeets.isAt e.isAt_self⟩
        have hle := hcount ⟨e.path⟩ e.line
        simp only [List.countP_cons, e.isAt_self, if_true] at hle
        omega
      · exact Nat.le_trans (List.sublist_cons_self e entries).countP_le (hcount key line)

theorem isIgnored_iff : r.isIgnored key line ↔ 0 < r.entriesAt key line := by
  rw [isIgnored, List.any_eq_true, entriesAt, List.countP_pos_iff]

/-! ## Restoring a line -/

/-- To restore a line takes one of its entries away. -/
theorem entriesAt_restore (r : Registry) (key : DocumentKey) (line : Nat) :
    (r.restore key line).entriesAt key line = r.entriesAt key line - 1 := by
  simp only [entriesAt, restore]
  by_cases hany : ∃ e ∈ r.entries, e.isAt key line
  · obtain ⟨e, hmem, hat⟩ := hany
    obtain ⟨f, before, behind, -, hf, hentries, herased⟩ :=
      List.exists_of_eraseP (p := (·.isAt key line)) hmem hat
    rw [herased, hentries]
    simp [hf]
  · have hnone : ∀ e ∈ r.entries, ¬ e.isAt key line := fun e he hat => hany ⟨e, he, hat⟩
    rw [List.eraseP_of_forall_not hnone, List.countP_eq_zero.2 hnone]

/-- A line that has been restored stays ignored just if it had a second entry. -/
theorem isIgnored_restore_iff :
    (r.restore key line).isIgnored key line ↔ 1 < r.entriesAt key line := by
  rw [isIgnored_iff, entriesAt_restore]
  omega

/-- Restoring works for every line just if no line has two entries. -/
theorem distinct_iff_restore :
    r.Distinct ↔ ∀ key line, (r.restore key line).isIgnored key line = false := by
  rw [distinct_iff]
  refine forall_congr' fun key => forall_congr' fun line => ?_
  rw [← Bool.not_eq_true, isIgnored_restore_iff, Nat.not_lt]

/-! ## Requests -/

/-- The edits that a request follows are well formed. -/
def Request.WellFormed : Request → Prop
  | .follow _ edits => ∀ e ∈ edits, Ignored.WellFormed e
  | _ => True

/-- An event puts two ignored lines of the document on one number. -/
def Merges (r : Registry) (key : DocumentKey) (edits : List Edit) : Prop :=
  ∃ line ∈ r.linesOf key, ∃ line' ∈ r.linesOf key, line ≠ line' ∧
    Merged line line' (lastFirst edits)

theorem mem_linesOf_iff : line ∈ r.linesOf key ↔ ∃ e ∈ r.entries, e.isAt key line := by
  simp only [linesOf, List.mem_map, List.mem_filter, Entry.isAt_iff]
  constructor
  · rintro ⟨e, ⟨hmem, hkey⟩, hline⟩
    exact ⟨e, hmem, hline, hkey⟩
  · rintro ⟨e, hmem, hline, hkey⟩
    exact ⟨e, ⟨hmem, hkey⟩, hline⟩

theorem Distinct.restore (h : r.Distinct) (key : DocumentKey) (line : Nat) :
    (r.restore key line).Distinct :=
  h.sublist List.eraseP_sublist

theorem Distinct.restoreAll (h : r.Distinct) (key : DocumentKey) : (r.restoreAll key).Distinct :=
  h.sublist List.filter_sublist

theorem Distinct.ignore (h : r.Distinct) (key : DocumentKey) (line : Nat) (content : Text)
    (now : Nat) : (r.ignore key line content now).Distinct := by
  refine List.pairwise_cons.2 ⟨fun f hf hmeets => ?_, h.restore key line⟩
  have hrestored := distinct_iff_restore.1 h key line
  rw [isIgnored, List.any_eq_false] at hrestored
  exact hrestored f hf (hmeets.isAt (Entry.isAt_self ⟨key.path, line, content, now⟩))

theorem Distinct.ignoreLines (h : r.Distinct) (key : DocumentKey) (lineCount : Nat)
    (lineAt? : Nat → Option Text) (now : Nat) :
    (r.ignoreLines key lineCount lineAt? now).Distinct := by
  refine List.pairwise_append.2 ⟨List.pairwise_reverse.2 ?_, h.restoreAll key, ?_⟩
  · refine List.pairwise_map.2 (List.nodup_range.imp fun hne hmeets => hne ?_)
    exact hmeets.1.symm
  · intro e he f hf hmeets
    obtain ⟨line, -, rfl⟩ := List.mem_map.1 (List.mem_reverse.1 he)
    have hkey : f.belongsTo key :=
      (Entry.belongsTo_congr hmeets.2 key).symm.trans (Path.same_iff.2 rfl)
    simpa [hkey] using (List.mem_filter.1 hf).2

/-- A registry that lists no line twice does so after an event just if the event puts no two ignored
lines together. -/
theorem Distinct.moveAll_iff (h : r.Distinct) (key : DocumentKey) {edits : List Edit}
    (hedits : ∀ e ∈ edits, Ignored.WellFormed e) :
    (r.moveAll key edits).1.Distinct ↔ ¬ r.Merges key edits := by
  have hwell : ∀ e ∈ lastFirst edits, Ignored.WellFormed e :=
    fun e he => hedits e ((lastFirst_perm edits).mem_iff.1 he)
  have hpairwise : (r.moveAll key edits).1.Distinct ↔
      r.entries.Pairwise fun e f => ¬ Entry.Collides key (lastFirst edits) e f := by
    rw [Distinct, moveAll_entries, List.pairwise_filterMap]
    simp [Entry.Collides]
  rw [hpairwise]
  constructor
  · rintro hpairwise ⟨line, hline, line', hline', hne, hmerged⟩
    obtain ⟨e, hmem, hat⟩ := mem_linesOf_iff.1 hline
    obtain ⟨f, hmem', hat'⟩ := mem_linesOf_iff.1 hline'
    obtain ⟨rfl, hkey⟩ := Entry.isAt_iff.1 hat
    obtain ⟨rfl, hkey'⟩ := Entry.isAt_iff.1 hat'
    refine hpairwise.forall hmem hmem' (fun he => hne (congrArg Entry.line he)) ?_
    exact (Entry.collides_iff hwell fun hmeets => hne hmeets.1).2 ⟨hkey, hkey', hne, hmerged⟩
  · intro hmerges
    refine h.imp_of_mem fun {e f} hmem hmem' hnot hcollides => hmerges ?_
    obtain ⟨hkey, hkey', hne, hmerged⟩ := (Entry.collides_iff hwell hnot).1 hcollides
    exact ⟨e.line, mem_linesOf_iff.2 ⟨e, hmem, Entry.isAt_iff.2 ⟨rfl, hkey⟩⟩, f.line,
      mem_linesOf_iff.2 ⟨f, hmem', Entry.isAt_iff.2 ⟨rfl, hkey'⟩⟩, hne, hmerged⟩

theorem Distinct.perform_iff (h : r.Distinct) (now : Nat) {request : Request}
    (hrequest : request.WellFormed) :
    (r.perform now request).registry.Distinct ↔
      ∀ key edits, request = .follow key edits → ¬ r.Merges key edits := by
  cases request with
  | follow key edits => simpa [perform] using h.moveAll_iff key hrequest
  | ignore key line content => exact iff_of_true (h.ignore key line content now) (by simp)
  | restore key line => exact iff_of_true (h.restore key line) (by simp)
  | ignoreLines key lineCount lineAt? =>
    exact iff_of_true (h.ignoreLines key lineCount lineAt? now) (by simp)
  | restoreAll key => exact iff_of_true (h.restoreAll key) (by simp)
  | clear => exact iff_of_true .nil (by simp)

end Registry

/-! ## Runs -/

namespace Kept

variable {σ : Type} [Store σ] {k : Kept σ}

theorem persist_registry (k : Kept σ) : k.persist.registry = k.registry := rfl

/-- The store has no say in what is ignored. -/
theorem perform_registry (k : Kept σ) (now : Nat) (request : Registry.Request) :
    (k.perform now request).2.registry = (k.registry.perform now request).registry := by
  simp only [perform]
  split
  · rw [persist_registry]
  · rfl

theorem performAll_take_succ (k : Kept σ) {requests : List (Nat × Registry.Request)} {n : Nat}
    {request : Nat × Registry.Request} (h : requests[n]? = some request) :
    k.performAll (requests.take (n + 1))
      = ((k.performAll (requests.take n)).perform request.1 request.2).2 := by
  rw [performAll, performAll, List.take_add_one, h, List.foldl_append]
  rfl

/-- In a run, no line is ever listed twice just if no event puts two ignored lines together. -/
theorem distinct_performAll_iff (hk : k.registry.Distinct)
    {requests : List (Nat × Registry.Request)} (hrequests : ∀ q ∈ requests, q.2.WellFormed) :
    (∀ n, (k.performAll (requests.take n)).registry.Distinct) ↔
      ∀ n now key edits, requests[n]? = some (now, .follow key edits) →
        ¬ (k.performAll (requests.take n)).registry.Merges key edits := by
  have hstep {n : Nat} {request : Nat × Registry.Request} (hget : requests[n]? = some request)
      (h : (k.performAll (requests.take n)).registry.Distinct) :=
    h.perform_iff request.1 (hrequests request (List.mem_of_getElem? hget))
  constructor
  · intro hall n now key edits hget
    have hnext := hall (n + 1)
    rw [performAll_take_succ k hget, perform_registry] at hnext
    exact (hstep hget (hall n)).1 hnext key edits rfl
  · intro hevents n
    induction n with
    | zero => exact hk
    | succ n ih =>
      cases hget : requests[n]? with
      | none => rwa [List.take_add_one, hget, Option.toList_none, List.append_nil]
      | some request =>
        rw [performAll_take_succ k hget, perform_registry]
        refine (hstep hget ih).2 fun key edits heq => hevents n request.1 key edits ?_
        rw [hget, ← heq]

/-- In every run from an empty store these are the same: no line is ever listed twice; to restore a
line always works; no event puts two ignored lines together. -/
theorem run_distinct_iff (store : σ) (hstore : (Store.load store).getD [] = [])
    (requests : List (Nat × Registry.Request)) (hrequests : ∀ q ∈ requests, q.2.WellFormed) :
    let after := fun n => (load store).performAll (requests.take n)
    ((∀ n, (after n).registry.Distinct) ↔
      ∀ n now key edits, requests[n]? = some (now, .follow key edits) →
        ¬ (after n).registry.Merges key edits) ∧
    ∀ n, (after n).registry.Distinct ↔
      ∀ now key line,
        ((after n).perform now (.restore key line)).2.registry.isIgnored key line = false := by
  intro after
  constructor
  · refine distinct_performAll_iff ?_ hrequests
    rw [load, hstore]
    exact .nil
  · intro n
    simp only [perform_registry]
    exact Registry.distinct_iff_restore.trans ⟨fun h _ => h, fun h => h 0⟩

/-- An event joins an ignored line to the line below it, which is not ignored: no line is listed
twice, and every line can be restored. -/
theorem run_distinct_one_joined :
    let key : DocumentKey := ⟨['/', 'p']⟩
    let join : Edit := ⟨⟨4, 3⟩, ⟨5, 0⟩, []⟩
    let requests : List (Nat × Registry.Request) :=
      [(0, .ignore key 4 ['x']), (0, .ignore key 6 ['y']), (0, .follow key [join])]
    let after := fun n => (load ({} : MemoryStore)).performAll (requests.take n)
    (after 3).registry.linesOf key = [5, 4] ∧
      ¬ (after 2).registry.Merges key [join] ∧
      ∀ now key line,
        ((after 3).perform now (.restore key line)).2.registry.isIgnored key line = false := by
  intro key join requests after
  have hjoin : WellFormed join := ⟨by decide, by decide, by decide⟩
  have hrequests : ∀ q ∈ requests, q.2.WellFormed := by
    simp [requests, Registry.Request.WellFormed, hjoin]
  obtain ⟨hevents, hrestore⟩ := run_distinct_iff ({} : MemoryStore) rfl requests hrequests
  have hthree : (after 3).registry.Distinct := by decide +kernel
  have hall : ∀ n, (after n).registry.Distinct := by
    intro n
    match n with
    | 0 => decide +kernel
    | 1 => decide +kernel
    | 2 => decide +kernel
    | n + 3 =>
      have hwhole : requests.take (n + 3) = requests.take 3 := by simp [requests]
      simpa only [after, hwhole] using hthree
  exact ⟨by decide +kernel, hevents.1 hall 2 0 key [join] rfl, (hrestore 3).1 hthree⟩

/-- An event joins two ignored lines: the upper one is listed twice, and when it is restored it
stays ignored. -/
theorem run_lists_joined_line_twice :
    let key : DocumentKey := ⟨['/', 'p']⟩
    let join : Edit := ⟨⟨4, 3⟩, ⟨5, 0⟩, []⟩
    let requests : List (Nat × Registry.Request) :=
      [(0, .ignore key 4 ['x']), (0, .ignore key 5 ['y']), (0, .follow key [join])]
    let after := (load ({} : MemoryStore)).performAll requests
    WellFormed join ∧ after.registry.linesOf key = [4, 4] ∧ ¬ after.registry.Distinct ∧
      (after.perform 0 (.restore key 4)).2.registry.isIgnored key 4 = true := by
  intro key join requests after
  exact ⟨⟨by decide, by decide, by decide⟩, by decide +kernel⟩

end Kept

end Ignored

end Swatch

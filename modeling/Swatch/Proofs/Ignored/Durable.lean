-- SUMMARY: A store mirrors memory if its last save worked, and no failure reaches memory.
import Swatch.Ignored.Store
import Swatch.Proofs.Files.Tree
import Swatch.Proofs.Ignored.Distinct
import Swatch.Proofs.Ignored.Json

/-!
# Stores that may fail

A request is answered from memory, so what a store does has no say in the answers. A
request that changes the entries saves them. If the save works, then what the store loads
are the entries in memory, until the next save that fails, which may leave anything behind.

A store in a file loads what it has saved if the lines and times are 64-bit words. They
always are: what is read holds words, and so does everything that requests add.
-/

namespace Swatch.Ignored

/-! ## Words -/

theorem shiftLine_lt (line : Nat) (delta : Int) : shiftLine line delta < UInt64.size := by
  have hlimit : signedLimit = 0x8000000000000000 := rfl
  rw [shiftLine, size_eq_signedLimit, hlimit, Int.bmod_def]
  omega

theorem moveLine_lt {line line' : Nat} {e : Edit} (hline : line < UInt64.size)
    (h : moveLine line e = some line') : line' < UInt64.size := by
  unfold moveLine at h
  split at h
  · exact Option.some.inj h ▸ hline
  · obtain rfl := Option.some.inj h
    split
    · exact hline
    · exact shiftLine_lt _ _
  · cases h

theorem Entry.IsWord.move {key : DocumentKey} {e : Edit} {entry moved : Entry}
    (hword : entry.IsWord) (h : entry.move key e = some moved) : moved.IsWord := by
  unfold Entry.move at h
  split at h
  · obtain ⟨line, hline, rfl⟩ := Option.map_eq_some_iff.1 h
    exact ⟨moveLine_lt hword.line_lt hline, hword.timestamp_lt⟩
  · exact Option.some.inj h ▸ hword

namespace Registry

variable {r : Registry}

/-- All lines and times of a registry are words. -/
def IsWord (r : Registry) : Prop :=
  ∀ e ∈ r.entries, e.IsWord

/-- A request adds nothing but words: its line and the time are words, and so are the lines of its
document. -/
def Request.IsWord (now : Nat) : Request → Prop
  | .ignore _ line _ => line < UInt64.size ∧ now < UInt64.size
  | .ignoreLines _ lineCount _ => lineCount ≤ UInt64.size ∧ now < UInt64.size
  | _ => True

theorem IsWord.restore (h : r.IsWord) (key : DocumentKey) (line : Nat) :
    (r.restore key line).IsWord :=
  fun e he => h e (List.mem_of_mem_eraseP he)

theorem IsWord.restoreAll (h : r.IsWord) (key : DocumentKey) : (r.restoreAll key).IsWord :=
  fun e he => h e (List.mem_of_mem_filter he)

theorem IsWord.moveAll (h : r.IsWord) (key : DocumentKey) (edits : List Edit) :
    (r.moveAll key edits).1.IsWord := by
  rw [Registry.moveAll]
  generalize (edits.mergeSort fun e f => f.start.le e.start) = edits
  generalize false = touched
  induction edits generalizing r touched with
  | nil => exact h
  | cons e edits ih =>
    refine ih (fun entry hentry => ?_) _
    obtain ⟨before, hbefore, hmove⟩ := List.mem_filterMap.1 hentry
    exact (h before hbefore).move hmove

theorem IsWord.perform (h : r.IsWord) {now : Nat} {request : Request}
    (hrequest : request.IsWord now) : (r.perform now request).registry.IsWord := by
  cases request with
  | ignore key line content =>
    obtain ⟨hline, hnow⟩ := hrequest
    exact List.forall_mem_cons.2 ⟨⟨hline, hnow⟩, h.restore key line⟩
  | restore key line => exact h.restore key line
  | ignoreLines key lineCount lineAt? =>
    obtain ⟨hlines, hnow⟩ := hrequest
    intro e he
    rcases List.mem_append.1 he with he | he
    · obtain ⟨line, hline, rfl⟩ := List.mem_map.1 (List.mem_reverse.1 he)
      exact ⟨(List.mem_range.1 hline).trans_le hlines, hnow⟩
    · exact h.restoreAll key e he
  | restoreAll key => exact h.restoreAll key
  | clear => exact fun e he => absurd he List.not_mem_nil
  | follow key edits => exact h.moveAll key edits

/-! ## Requests that change nothing -/

/-- Edits that touch no entry change nothing. -/
theorem foldl_move_of_not_touched {key : DocumentKey} (edits : List Edit) {touched : Bool}
    (h : (edits.foldl (fun (r, touched) e =>
      (Registry.move r key e, touched || r.entries.any (·.isTouched key e)))
        (r, touched)).2 = false) :
    touched = false ∧ (edits.foldl (fun (r, touched) e =>
      (Registry.move r key e, touched || r.entries.any (·.isTouched key e)))
        (r, touched)).1 = r := by
  induction edits generalizing r touched with
  | nil => exact ⟨h, rfl⟩
  | cons e edits ih =>
    obtain ⟨hflag, hsame⟩ := ih h
    obtain ⟨htouched, hany⟩ := Bool.or_eq_false_iff.1 hflag
    have hmove : r.move key e = r := by
      have hentries : r.entries.filterMap (·.move key e) = r.entries.filterMap some :=
        List.filterMap_congr fun entry hentry =>
          Entry.move_of_not_isTouched (Bool.eq_false_iff.2 (List.any_eq_false.1 hany entry hentry))
      rw [Registry.move, hentries, List.filterMap_some]
    exact ⟨htouched, hsame.trans hmove⟩

/-- A request that asks for no save changes nothing. -/
theorem perform_of_not_durable {now : Nat} {request : Request}
    (h : (r.perform now request).durable = false) : (r.perform now request).registry = r := by
  cases request with
  | ignore key line content => cases h
  | restore key line =>
    have hnone : ∀ e ∈ r.entries, ¬ e.isAt key line = true := List.any_eq_false.1 h
    exact congrArg Registry.mk (List.eraseP_of_forall_not hnone)
  | ignoreLines key lineCount lineAt? => cases h
  | restoreAll key =>
    have hcount : (r.linesOf key).length = 0 := by simpa using of_decide_eq_false h
    have hnone : ∀ e ∈ r.entries, ¬ e.belongsTo key = true := by
      rwa [linesOf, List.length_map, List.length_eq_zero_iff, List.filter_eq_nil_iff] at hcount
    refine congrArg Registry.mk (List.filter_eq_self.2 fun e he => ?_)
    rw [Bool.eq_false_iff.2 (hnone e he)]
    rfl
  | clear => cases h
  | follow key edits => exact (foldl_move_of_not_touched _ h).2

end Registry

/-! ## Stores -/

/-- A store loads what it has saved. Of what may be stored it loads nothing else. -/
structure Store.Keeps (σ : Type) [Store σ] (Storable : Entry → Prop) : Prop where
  storable : ∀ (s : σ) entries, Store.load s = some entries → ∀ e ∈ entries, Storable e
  load_save : ∀ (s : σ) entries, (∀ e ∈ entries, Storable e) → (Store.save s entries).1 = true →
    Store.load (Store.save s entries).2 = some entries

theorem MemoryStore.keeps : Store.Keeps MemoryStore fun _ => True where
  storable _ _ _ _ _ := trivial
  load_save _ _ _ _ := rfl

namespace JsonFile

theorem runOn_load (p : Path) (time : Nat) (tree : FileTree) :
    ((load p).runOn time tree).1 = if tree.contains p then
      match tree.readText p with
      | .ok t => read? t
      | .error _ => none
    else some [] := by
  simp only [load, bind, Script.bind, Script.exists?, Script.runOn]
  split
  · simp only [Script.bind, Script.read, Script.runOn]
    cases tree.readText p <;> rfl
  · rfl

/-- A save writes to the file of the tree in which its directory has been made. -/
theorem runOn_save (p : Path) (entries : List Entry) (time : Nat) (tree : FileTree) :
    (∃ made : FileTree, (save p entries).runOn time tree =
      ((made.writeText p (render entries)).isOk,
        (made.attempt (made.writeText p (render entries))).2)) ∨
    (save p entries).runOn time tree = (false, tree) := by
  cases hparent : p.parent? with
  | none =>
    refine .inl ⟨tree, ?_⟩
    simp only [save, hparent, bind, pure, Script.bind, Script.write, Script.runOn]
    cases tree.writeText p (render entries) <;> rfl
  | some directory =>
    cases hmade : tree.makeDirectories directory with
    | error e =>
      refine .inr ?_
      simp only [save, hparent, bind, Script.bind, Script.makeDirs, Script.runOn, hmade]
      rfl
    | ok made =>
      refine .inl ⟨made, ?_⟩
      simp only [save, hparent, bind, Script.bind, Script.makeDirs, Script.write, Script.runOn,
        hmade, FileTree.attempt]
      cases made.writeText p (render entries) <;> rfl

/-- A save that worked has written to the file. -/
theorem exists_write_of_save {p : Path} {entries : List Entry} {time : Nat} {tree : FileTree}
    (h : ((save p entries).runOn time tree).1 = true) :
    ∃ made : FileTree, made.writeText p (render entries)
      = .ok ((save p entries).runOn time tree).2 := by
  rcases runOn_save p entries time tree with ⟨made, hsave⟩ | hsave
  · rw [hsave] at h ⊢
    cases hwrite : made.writeText p (render entries) with
    | ok written => exact ⟨made, hwrite⟩
    | error e => rw [hwrite] at h; cases h
  · rw [hsave] at h
    cases h

end JsonFile

theorem JsonFileStore.keeps : Store.Keeps JsonFileStore Entry.IsWord where
  storable s entries h := by
    have hload := (JsonFile.runOn_load s.path 0 s.tree).symm.trans h
    split at hload
    · split at hload
      · exact isWord_of_read? hload
      · cases hload
    · obtain rfl := Option.some.inj hload
      exact fun e he => absurd he List.not_mem_nil
  load_save s entries hword hsaved := by
    obtain ⟨made, hwrite⟩ := JsonFile.exists_write_of_save hsaved
    replace hwrite : made.writeText s.path (render entries) = .ok (Store.save s entries).2.tree :=
      hwrite
    refine (JsonFile.runOn_load s.path 0 _).trans ?_
    rw [if_pos (FileTree.contains_writeText hwrite), FileTree.readText_writeText hwrite]
    exact read?_render hword

/-! ## Stores that fail -/

/-- A store some of whose saves fail. A save that fails may leave anything behind. -/
structure FaultyStore (σ : Type) where
  inner : σ
  /-- What the first, second, … save leaves behind, if it fails. -/
  fault : Nat → Option (σ → σ)
  /-- Whether the saves so far have worked, the last one first. -/
  outcomes : List Bool := []

namespace FaultyStore

variable {σ : Type} [Store σ]

/-- Save entries, or fail as it is laid down for this save. -/
def save (s : FaultyStore σ) (entries : List Entry) : Bool × FaultyStore σ :=
  let (saved, inner) := match s.fault s.outcomes.length with
    | some leave => (false, leave s.inner)
    | none => Store.save s.inner entries
  (saved, { s with inner, outcomes := saved :: s.outcomes })

instance : Store (FaultyStore σ) where
  load s := Store.load s.inner
  save := save

/-- The last save that was attempted has worked. -/
def LastSaved (s : FaultyStore σ) : Prop :=
  s.outcomes.head? = some true

instance (s : FaultyStore σ) : Decidable s.LastSaved :=
  inferInstanceAs (Decidable (_ = _))

theorem lastSaved_save (s : FaultyStore σ) (entries : List Entry) :
    (Store.save s entries).2.LastSaved ↔ (Store.save s entries).1 = true :=
  Option.some_inj

theorem load_save {Storable : Entry → Prop} (hkeeps : Store.Keeps σ Storable) (s : FaultyStore σ)
    {entries : List Entry} (hentries : ∀ e ∈ entries, Storable e)
    (hsaved : (Store.save s entries).1 = true) :
    Store.load (Store.save s entries).2 = some entries := by
  change (save s entries).1 = true at hsaved
  change Store.load (save s entries).2.inner = some entries
  cases hfault : s.fault s.outcomes.length with
  | some leave =>
    simp only [save, hfault] at hsaved
    cases hsaved
  | none =>
    simp only [save, hfault] at hsaved ⊢
    exact hkeeps.load_save s.inner entries hentries hsaved

end FaultyStore

/-! ## Memory and store -/

namespace Kept

variable {σ : Type} [Store σ]

def replies (k : Kept σ) : List (Nat × Registry.Request) → List Registry.Reply
  | [] => []
  | (now, request) :: requests =>
    (k.perform now request).1 :: (k.perform now request).2.replies requests

/-- The store has no say in what requests do to the registry and in what they return. -/
theorem performAll_congr {τ : Type} [Store τ] {k : Kept σ} {k' : Kept τ}
    (h : k.registry = k'.registry) (requests : List (Nat × Registry.Request)) :
    (k.performAll requests).registry = (k'.performAll requests).registry ∧
      k.replies requests = k'.replies requests := by
  induction requests generalizing k k' with
  | nil => exact ⟨h, rfl⟩
  | cons q requests ih =>
    have hstep : (k.perform q.1 q.2).2.registry = (k'.perform q.1 q.2).2.registry := by
      rw [perform_registry, perform_registry, h]
    have hreply : (k.perform q.1 q.2).1 = (k'.perform q.1 q.2).1 := by
      rw [perform, perform, h]
    obtain ⟨hregistry, hreplies⟩ := ih hstep
    exact ⟨hregistry, by rw [replies, replies, hreply, hreplies]⟩

/-- If the last save has worked, then the store loads the entries in memory. -/
structure Mirrors (k : Kept (FaultyStore σ)) (Storable : Entry → Prop) : Prop where
  storable : ∀ e ∈ k.registry.entries, Storable e
  load_eq : k.store.LastSaved → Store.load k.store = some k.registry.entries

variable {Storable : Entry → Prop}

theorem mirrors_load (hkeeps : Store.Keeps σ Storable) (inner : σ) (fault : Nat → Option (σ → σ)) :
    (load ({ inner, fault } : FaultyStore σ)).Mirrors Storable where
  storable e he := by
    change e ∈ (Store.load inner).getD [] at he
    cases hload : Store.load inner with
    | none => simp [hload] at he
    | some entries => exact hkeeps.storable inner entries hload e (by simpa [hload] using he)
  load_eq h := by cases h

theorem Mirrors.perform (hkeeps : Store.Keeps σ Storable) {k : Kept (FaultyStore σ)}
    (hk : k.Mirrors Storable) (now : Nat) (request : Registry.Request)
    (hstorable : ∀ e ∈ (k.registry.perform now request).registry.entries, Storable e) :
    (k.perform now request).2.Mirrors Storable where
  storable := by rwa [perform_registry]
  load_eq h := by
    cases hdurable : (k.registry.perform now request).durable with
    | true =>
      simp only [Kept.perform, hdurable, if_true, persist] at h ⊢
      exact FaultyStore.load_save hkeeps k.store hstorable ((FaultyStore.lastSaved_save _ _).1 h)
    | false =>
      simp only [Kept.perform, hdurable, Bool.false_eq_true, if_false] at h ⊢
      rw [Registry.perform_of_not_durable hdurable]
      exact hk.load_eq h

theorem Mirrors.performAll (hkeeps : Store.Keeps σ Storable) {k : Kept (FaultyStore σ)}
    (hk : k.Mirrors Storable) {requests : List (Nat × Registry.Request)}
    (hstorable : ∀ r : Registry, (∀ e ∈ r.entries, Storable e) → ∀ q ∈ requests,
      ∀ e ∈ (r.perform q.1 q.2).registry.entries, Storable e) :
    (k.performAll requests).Mirrors Storable := by
  induction requests generalizing k with
  | nil => exact hk
  | cons q requests ih =>
    refine ih (hk.perform hkeeps q.1 q.2 ?_) fun r hr q hq => ?_
    · exact hstorable k.registry hk.storable q List.mem_cons_self
    · exact hstorable r hr q (List.mem_cons_of_mem _ hq)

/-- What a registry in a store that may fail owes for some requests. -/
structure Durable (store : FaultyStore σ) (requests : List (Nat × Registry.Request)) : Prop where
  /-- Failures are not seen: the requests return what they return with a store that never fails. -/
  replies_eq : (load store).replies requests
    = (load (MemoryStore.mk ((Store.load store).getD []))).replies requests
  registry_eq : ((load store).performAll requests).registry
    = ((load (MemoryStore.mk ((Store.load store).getD []))).performAll requests).registry
  /-- If the last save has worked, then the store loads what is in memory. -/
  load_eq : ((load store).performAll requests).store.LastSaved →
    Store.load ((load store).performAll requests).store
      = some ((load store).performAll requests).registry.entries
  reload_eq : ((load store).performAll requests).store.LastSaved →
    (load ((load store).performAll requests).store).registry
      = ((load store).performAll requests).registry

theorem durable_of_keeps (hkeeps : Store.Keeps σ Storable) (inner : σ)
    (fault : Nat → Option (σ → σ)) {requests : List (Nat × Registry.Request)}
    (hstorable : ∀ r : Registry, (∀ e ∈ r.entries, Storable e) → ∀ q ∈ requests,
      ∀ e ∈ (r.perform q.1 q.2).registry.entries, Storable e) :
    Durable { inner, fault } requests := by
  have hstart : (load ({ inner, fault } : FaultyStore σ)).registry
      = (load (MemoryStore.mk ((Store.load inner).getD []))).registry := rfl
  obtain ⟨hregistry, hreplies⟩ := performAll_congr hstart requests
  have hmirrors := (mirrors_load hkeeps inner fault).performAll hkeeps hstorable
  refine ⟨hreplies, hregistry, hmirrors.load_eq, fun hlast => ?_⟩
  rw [load, hmirrors.load_eq hlast]
  rfl

/-- Whatever is requested and whichever saves fail, the replies and the registry are those of a
store that never fails; and if the last save has worked, then the store loads the entries of the
registry again. A file does so for all lines and times that are 64-bit words, and for all paths and
contents. -/
theorem storage_mirrors_memory (requests : List (Nat × Registry.Request)) :
    (∀ (inner : MemoryStore) fault, Durable { inner, fault } requests) ∧
    ((∀ q ∈ requests, q.2.IsWord q.1) →
      ∀ (inner : JsonFileStore) fault, Durable { inner, fault } requests) := by
  refine ⟨fun inner fault => ?_, fun hwords inner fault => ?_⟩
  · exact durable_of_keeps MemoryStore.keeps inner fault fun _ _ _ _ _ _ => trivial
  · exact durable_of_keeps JsonFileStore.keeps inner fault fun r hr q hq =>
      Registry.IsWord.perform hr (hwords q hq)

/-- The first save fails and spoils the file, the second one works. -/
theorem storage_mirrors_memory_spoilt :
    let spoil (s : JsonFileStore) : JsonFileStore :=
      { s with tree := s.tree.put ["i".toList] .bytes }
    let store : FaultyStore JsonFileStore :=
      { inner := ⟨"/i".toList, {}⟩, fault := fun n => if n = 0 then some spoil else none }
    let key : DocumentKey := ⟨"/p".toList⟩
    let last := UInt64.size - 1
    let requests : List (Nat × Registry.Request) :=
      [(0, .ignore key 0 "\"\t☃".toList), (last, .ignore key last []), (5, .restore key 7)]
    ((load store).performAll requests).store.LastSaved ∧
      Store.load ((load store).performAll requests).store
        = some [⟨"/p".toList, last, [], last⟩, ⟨"/p".toList, 0, "\"\t☃".toList, 0⟩] := by
  intro spoil store key last requests
  have hwords : ∀ q ∈ requests, q.2.IsWord q.1 := by
    simp [requests, last, Registry.Request.IsWord, UInt64.size]
  have hlast : ((load store).performAll requests).store.LastSaved := by
    decide +kernel
  exact ⟨hlast, ((storage_mirrors_memory requests).2 hwords _ _).load_eq hlast⟩

end Kept

end Swatch.Ignored

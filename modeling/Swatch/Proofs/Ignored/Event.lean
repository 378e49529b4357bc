-- SUMMARY: An event moves or takes away lines of its own document only, and is saved once if it touches any.
import Swatch.Proofs.Ignored.Durable
import Swatch.Proofs.Ignored.Listing

/-!
# What an event changes

An event is about one document, and each entry follows its edits by itself. So the entries
that are left stand in the order in which they stood, each between the entries of other
documents between which it stood, and of an entry only the number of its line changes.

The entries are saved once, when all edits have been followed, and only if some edit touches
an entry. Otherwise nothing has changed. A `Recorder` tells what a store is given to save.
-/

namespace Swatch.Ignored

/-! ## Entries that are left -/

/-- An entry that an event of a document may make of another one: only its line may differ, and that
only if it is about the document. -/
structure Entry.Renumbered (key : DocumentKey) (e e' : Entry) : Prop where
  path_eq : e'.path = e.path
  content_eq : e'.content = e.content
  timestamp_eq : e'.timestamp = e.timestamp
  other_eq : e.belongsTo key = false → e' = e

theorem Entry.renumbered_of_mem_follow {key : DocumentKey} {edits : List Edit} {e e' : Entry}
    (h : e' ∈ e.follow key edits) : e.Renumbered key e' := by
  by_cases hkey : e.belongsTo key
  · obtain ⟨line, -, rfl⟩ := (mem_follow_iff hkey).1 h
    exact ⟨rfl, rfl, rfl, fun hother => by simp [hkey] at hother⟩
  · obtain rfl : e = e' := by simpa [follow, hkey] using h
    exact ⟨rfl, rfl, rfl, fun _ => rfl⟩

/-- No event takes an entry of another document away. -/
theorem Entry.isSome_follow_of_other {key : DocumentKey} {e : Entry} (h : e.belongsTo key = false)
    (edits : List Edit) : (e.follow key edits).isSome := by
  simp [follow, h]

/-- What is left of some entries after an event of a document: those of other documents are all
there and as they were, and the order is the same. -/
def Leaves (key : DocumentKey) (entries entries' : List Entry) : Prop :=
  ∃ survivors, survivors.Sublist entries ∧
    survivors.filter (!·.belongsTo key) = entries.filter (!·.belongsTo key) ∧
    List.Forall₂ (Entry.Renumbered key) survivors entries'

/-- Entries that follow edits one by one leave what an event may leave. -/
theorem leaves_filterMap_follow (key : DocumentKey) (edits : List Edit) (entries : List Entry) :
    Leaves key entries (entries.filterMap (·.follow key edits)) := by
  refine ⟨entries.filter fun e => (e.follow key edits).isSome, List.filter_sublist, ?_, ?_⟩
  · rw [List.filter_filter]
    apply List.filter_congr
    intro e _
    cases hkey : e.belongsTo key with
    | true => rfl
    | false => simp [Entry.isSome_follow_of_other hkey]
  · induction entries with
    | nil => exact .nil
    | cons e entries ih =>
      cases hfollow : e.follow key edits with
      | none => simpa [hfollow] using ih
      | some e' =>
        have hrenumbered := Entry.renumbered_of_mem_follow (Option.mem_def.2 hfollow)
        simpa [hfollow] using ⟨hrenumbered, ih⟩

/-! ## What is saved -/

/-- A store that notes what it is given to save, whether it works or not. -/
structure Recorder (σ : Type) where
  inner : σ
  /-- The entries that have been given to it, the first ones first. -/
  received : List (List Entry) := []

instance {σ : Type} [Store σ] : Store (Recorder σ) where
  load s := Store.load s.inner
  save s entries :=
    let (saved, inner) := Store.save s.inner entries
    (saved, ⟨inner, s.received ++ [entries]⟩)

namespace Kept

variable {σ : Type} [Store σ]

/-- A request gives the store the entries that it leaves, if the change has to be durable. -/
theorem perform_received (k : Kept (Recorder σ)) (now : Nat) (request : Registry.Request) :
    (k.perform now request).2.store.received
      = k.store.received ++
        if (k.registry.perform now request).durable then [(k.perform now request).2.registry.entries]
        else [] := by
  rw [perform_registry]
  cases hdurable : (k.registry.perform now request).durable with
  | true =>
    simp only [perform, hdurable, if_true]
    rfl
  | false =>
    simp only [perform, hdurable, Bool.false_eq_true, if_false, List.append_nil]

/-- After an event of a document, the entries of all other documents are as they were and where they
were among those that are left, and of these only the line has changed. The request returns whether
some edit touches an entry. If so, the store has been given the entries that are left, and nothing
else; if not, it has been given nothing, and all entries are as they were. -/
theorem follow_saved_once (k : Kept (Recorder σ)) (now : Nat) (key : DocumentKey)
    (edits : List Edit) :
    let after := k.perform now (.follow key edits)
    let touched := k.registry.entries.any fun entry => edits.any (entry.isTouched key ·)
    Leaves key k.registry.entries after.2.registry.entries ∧
      after.1 = .flag touched ∧
      (touched = true → after.2.store.received = k.store.received ++ [after.2.registry.entries]) ∧
      (touched = false →
        after.2.store.received = k.store.received ∧ after.2.registry = k.registry) := by
  intro after touched
  have htouched : (k.registry.moveAll key edits).2 = touched := k.registry.moveAll_touched key edits
  have hdurable : (k.registry.perform now (.follow key edits)).durable = touched := htouched
  have hreceived := k.perform_received now (.follow key edits)
  rw [hdurable] at hreceived
  refine ⟨?_, congrArg Registry.Reply.flag htouched, ?_, ?_⟩
  · have hentries : after.2.registry.entries = (k.registry.moveAll key edits).1.entries :=
      congrArg Registry.entries (k.perform_registry now (.follow key edits))
    rw [hentries, Registry.moveAll_entries]
    exact leaves_filterMap_follow key (lastFirst edits) k.registry.entries
  · intro h
    rw [h, if_pos rfl] at hreceived
    exact hreceived
  · intro h
    rw [h] at hreceived hdurable
    constructor
    · simpa using hreceived
    · exact (k.perform_registry now _).trans (Registry.perform_of_not_durable hdurable)

/-- Two edits take one ignored line away and move another one twice; the line of another document
stays. The store is given the outcome once. -/
theorem follow_saved_once_two_edits :
    let key : DocumentKey := ⟨['/', 'p']⟩
    let ninth : Entry := ⟨['/', 'p'], 9, ['a'], 1⟩
    let other : Entry := ⟨['/', 'q'], 3, ['b'], 2⟩
    let third : Entry := ⟨['/', 'p'], 3, ['c'], 3⟩
    let edits : List Edit := [⟨⟨2, 0⟩, ⟨5, 0⟩, []⟩, ⟨⟨0, 0⟩, ⟨0, 0⟩, ['\n']⟩]
    let k : Kept (Recorder MemoryStore) := ⟨⟨[ninth, other, third]⟩, ⟨{}, []⟩, 0⟩
    let after := k.perform 4 (.follow key edits)
    Leaves key [ninth, other, third] after.2.registry.entries ∧ after.1 = .flag true ∧
      after.2.store.received = [[{ ninth with line := 7 }, other]] := by
  intro key ninth other third edits k after
  obtain ⟨hleaves, hreply, hsaved, -⟩ := follow_saved_once k 4 key edits
  have hentries : after.2.registry.entries = [{ ninth with line := 7 }, other] := by
    rw [perform_registry, Registry.perform, Registry.moveAll_entries,
      lastFirst_of_pairwise (by decide)]
    decide +kernel
  refine ⟨hleaves, hreply.trans (by decide +kernel), ?_⟩
  rw [hsaved (by decide +kernel), hentries]
  rfl

end Kept

end Swatch.Ignored

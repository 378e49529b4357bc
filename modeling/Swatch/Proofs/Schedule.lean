-- SUMMARY: In every history, a schedule gives out what is due, each request once.
import Swatch.Proofs.Table
import Swatch.Schedule
import Mathlib.Data.List.Induction
import Mathlib.Data.Set.List
import Mathlib.Order.Bounds.Defs

/-!
# Histories of schedules

A schedule answers calls in any order and at any times. What it should answer is told by
the calls and answers so far: a request is good until its editor asks again or cancels,
or until its ticket is taken. The table of a schedule holds the good requests and nothing
else, each with the deadline of the delay that was in force when it was made.
-/

namespace Swatch.Schedule

/-! ## Calls and answers -/

inductive Call where
  | submit (editor : EditorId) (now : Nat)
  | cancel (editor : EditorId)
  | setDelay (delay : Nat)
  | takeDue (now : Nat)
  deriving DecidableEq, Repr

/-- A call and the tickets that it returned. -/
structure Exchange where
  call : Call
  tickets : List Ticket
  deriving DecidableEq, Repr

namespace Exchange

/-- The ticket of a request that was made. -/
def issued (x : Exchange) : List Ticket :=
  match x.call with
  | .submit _ _ => x.tickets
  | _ => []

def taken (x : Exchange) : List Ticket :=
  match x.call with
  | .takeDue _ => x.tickets
  | _ => []

/-- An editor asks for a new pass or cancels the one it waits for. -/
def Drops (x : Exchange) (editor : EditorId) : Prop :=
  match x.call with
  | .submit e _ | .cancel e => e = editor
  | _ => False

end Exchange

def answer (s : Schedule) : Call → List Ticket × Schedule
  | .submit editor now =>
    let (ticket, s) := s.submit editor now
    ([ticket], s)
  | .cancel editor => ([], (s.cancel editor).2)
  | .setDelay delay => ([], { s with delay })
  | .takeDue now => s.takeDue now

def after (s : Schedule) (calls : List Call) : Schedule :=
  calls.foldl (fun s call => (s.answer call).2) s

/-- Some calls and what they return. -/
def exchanges (s : Schedule) : List Call → List Exchange
  | [] => []
  | call :: calls => ⟨call, (s.answer call).1⟩ :: (s.answer call).2.exchanges calls

/-! ## Requests in a history -/

/-- The delay in force after a history. -/
def delayAfter (initial : Nat) (history : List Exchange) : Nat :=
  history.foldl
    (fun delay x =>
      match x.call with
      | .setDelay delay => delay
      | _ => delay)
    initial

/-- A request for a pass: when it was made, the delay then in force, and its ticket. -/
structure Request where
  editor : EditorId
  time : Nat
  delay : Nat
  ticket : Ticket

namespace Request

def deadline (r : Request) : Nat :=
  r.time + r.delay

/-- Requests are due in the order of their deadlines, those of one deadline by editor. -/
def Before (r r' : Request) : Prop :=
  r.deadline < r'.deadline ∨ r.deadline = r'.deadline ∧ r.editor < r'.editor

/-- The call that makes a request, and its answer. -/
def made (r : Request) : Exchange :=
  ⟨.submit r.editor r.time, [r.ticket]⟩

theorem ne_made {x : Exchange} (r : Request) (h : x.issued = []) : x ≠ r.made := by
  rintro rfl
  cases h

end Request

/-- A request was made in a history, and since then its editor has neither asked again nor
cancelled, and its ticket has not been taken. -/
def Outstanding (initial : Nat) (history : List Exchange) (r : Request) : Prop :=
  ∃ before since, history = before ++ r.made :: since ∧ r.delay = delayAfter initial before ∧
    ∀ x ∈ since, ¬ x.Drops r.editor ∧ r.ticket ∉ x.taken

/-- An editor got a ticket and has asked again or cancelled since. -/
def Dropped (history : List Exchange) (ticket : Ticket) : Prop :=
  ∃ before editor now since, history = before ++ ⟨.submit editor now, [ticket]⟩ :: since ∧
    ∃ x ∈ since, x.Drops editor

/-- What a schedule should return when asked at a time for what is due. -/
structure IsDue (initial : Nat) (history : List Exchange) (now : Nat) (tickets : List Ticket) :
    Prop where
  exists_requests : ∃ due : List Request, tickets = due.map (·.ticket) ∧
    (due.map (·.editor)).Nodup ∧ due.Pairwise Request.Before ∧
    ∀ r, r ∈ due ↔ Outstanding initial history r ∧ r.deadline ≤ now
  not_dropped : ∀ ticket ∈ tickets, ¬ Dropped history ticket

/-! ### One more call -/

section Snoc

variable {initial : Nat} {history : List Exchange} {x : Exchange} {r r' : Request} {ticket : Ticket}

/-- A place of a list and one more element is the last place or one of the list. -/
theorem append_singleton_eq_append_cons_iff {α : Type} {l before since : List α} {x y : α} :
    l ++ [x] = before ++ y :: since ↔
      (before = l ∧ y = x ∧ since = []) ∨
        ∃ rest, since = rest ++ [x] ∧ l = before ++ y :: rest := by
  constructor
  · intro h
    rcases List.eq_nil_or_concat since with rfl | ⟨rest, z, rfl⟩
    · obtain ⟨rfl, hx⟩ := List.append_inj' h rfl
      exact .inl ⟨rfl, (List.singleton_inj.1 hx).symm, rfl⟩
    · rw [List.concat_eq_append, ← List.cons_append, ← List.append_assoc] at h
      obtain ⟨rfl, hx⟩ := List.append_inj' h rfl
      obtain rfl := List.singleton_inj.1 hx
      exact .inr ⟨rest, List.concat_eq_append, rfl⟩
  · rintro (⟨rfl, rfl, rfl⟩ | ⟨rest, rfl, rfl⟩)
    · rfl
    · simp

theorem outstanding_nil : ¬ Outstanding initial [] r := by
  rintro ⟨before, since, h, -⟩
  simp at h

theorem outstanding_concat : Outstanding initial (history ++ [x]) r ↔
    (x = r.made ∧ r.delay = delayAfter initial history) ∨
      (Outstanding initial history r ∧ ¬ x.Drops r.editor ∧ r.ticket ∉ x.taken) := by
  constructor
  · rintro ⟨before, since, h, hdelay, hsince⟩
    rcases append_singleton_eq_append_cons_iff.1 h with ⟨rfl, rfl, -⟩ | ⟨rest, rfl, rfl⟩
    · exact .inl ⟨rfl, hdelay⟩
    · obtain ⟨hrest, hx⟩ := List.forall_mem_append.1 hsince
      exact .inr ⟨⟨before, rest, rfl, hdelay, hrest⟩, hx x (List.mem_singleton_self x)⟩
  · rintro (⟨rfl, hdelay⟩ | ⟨⟨before, since, rfl, hdelay, hsince⟩, hx⟩)
    · exact ⟨history, [], rfl, hdelay, List.forall_mem_nil _⟩
    · refine ⟨before, since ++ [x], by simp, hdelay, ?_⟩
      exact List.forall_mem_append.2 ⟨hsince, List.forall_mem_singleton.2 hx⟩

/-- An editor waits for one request at most. -/
theorem Outstanding.eq_of_editor (h : Outstanding initial history r)
    (h' : Outstanding initial history r') (heditor : r.editor = r'.editor) : r = r' := by
  induction history using List.reverseRecOn with
  | nil => exact absurd h outstanding_nil
  | append_singleton history x ih =>
    rcases outstanding_concat.1 h with ⟨hx, hdelay⟩ | ⟨h, hdrops, -⟩ <;>
      rcases outstanding_concat.1 h' with ⟨hx', hdelay'⟩ | ⟨h', hdrops', -⟩
    · obtain ⟨editor, time, delay, ticket⟩ := r
      obtain ⟨editor', time', delay', ticket'⟩ := r'
      simp_all [Request.made]
    · exact absurd (by rw [hx]; exact heditor) hdrops'
    · exact absurd (by rw [hx']; exact heditor.symm) hdrops
    · exact ih h h'

theorem dropped_concat : Dropped (history ++ [x]) ticket ↔
    Dropped history ticket ∨
      ∃ editor now, ⟨.submit editor now, [ticket]⟩ ∈ history ∧ x.Drops editor := by
  constructor
  · rintro ⟨before, editor, now, since, h, y, hy, hdrops⟩
    rcases append_singleton_eq_append_cons_iff.1 h with ⟨-, -, rfl⟩ | ⟨rest, rfl, rfl⟩
    · cases hy
    · rcases List.mem_append.1 hy with hy | hy
      · exact .inl ⟨before, editor, now, rest, rfl, y, hy, hdrops⟩
      · exact .inr ⟨editor, now, by simp, List.mem_singleton.1 hy ▸ hdrops⟩
  · rintro (⟨before, editor, now, since, rfl, y, hy, hdrops⟩ | ⟨editor, now, hmem, hdrops⟩)
    · exact ⟨before, editor, now, since ++ [x], by simp, y, List.mem_append_left _ hy, hdrops⟩
    · obtain ⟨before, since, rfl⟩ := List.append_of_mem hmem
      exact ⟨before, editor, now, since ++ [x], by simp, x, by simp, hdrops⟩

end Snoc

/-! ## What a call does to the table -/

/-- The ticket of a request that waits. -/
def ticketOf (entry : EditorId × Waiting) : Ticket :=
  ⟨entry.1, entry.2.generation⟩

/-- How a request waits. -/
def Request.entry (r : Request) : EditorId × Waiting :=
  (r.editor, ⟨r.ticket.generation, r.deadline⟩)

section Table

variable (s : Schedule)

/-- What is due is sorted and taken out of the table. -/
theorem takeDue_eq (now : Nat) : s.takeDue now =
    (((s.waiting.filter (·.2.deadline ≤ now)).mergeSort dueBefore).map ticketOf,
      { s with waiting := s.waiting.filter (now < ·.2.deadline) }) := by
  simp only [takeDue, List.partition_eq_filter_filter, Function.comp_def, ← decide_not, Nat.not_le]
  rfl

theorem mem_takeDue {now : Nat} {ticket : Ticket} : ticket ∈ (s.takeDue now).1 ↔
    ∃ entry ∈ s.waiting, entry.2.deadline ≤ now ∧ ticketOf entry = ticket := by
  simp only [takeDue_eq, List.mem_map, List.mem_mergeSort, List.mem_filter, decide_eq_true_eq,
    and_assoc]

theorem mem_put {t : Table EditorId Waiting} (hnodup : (t.map Prod.fst).Nodup) {editor : EditorId}
    {w : Waiting} {entry : EditorId × Waiting} : entry ∈ t.put editor w ↔
      entry = (editor, w) ∨ (entry ∈ t ∧ editor ≠ entry.1) := by
  obtain ⟨other, w'⟩ := entry
  rw [← Table.get?_eq_some_iff (Table.nodup_map_fst_put hnodup), Table.get?_put,
    ← Table.get?_eq_some_iff hnodup]
  by_cases heditor : editor = other
  · simp [heditor, eq_comm]
  · simp [heditor, Ne.symm heditor]

variable {s}

theorem nodup_answer (hnodup : (s.waiting.map Prod.fst).Nodup) (call : Call) :
    ((s.answer call).2.waiting.map Prod.fst).Nodup := by
  cases call with
  | submit editor now => exact Table.nodup_map_fst_put hnodup
  | cancel editor => exact (List.filter_sublist.map _).nodup hnodup
  | setDelay delay => exact hnodup
  | takeDue now =>
    rw [answer, takeDue_eq]
    exact (List.filter_sublist.map _).nodup hnodup

/-- After a call, a request waits if the call made it, or if it waited before and has neither been
dropped nor taken. -/
theorem mem_waiting_answer (hnodup : (s.waiting.map Prod.fst).Nodup) (call : Call)
    (entry : EditorId × Waiting) :
    let x : Exchange := ⟨call, (s.answer call).1⟩
    entry ∈ (s.answer call).2.waiting ↔
      (∃ r : Request, x = r.made ∧ r.delay = s.delay ∧ r.entry = entry) ∨
        (entry ∈ s.waiting ∧ ¬ x.Drops entry.1 ∧ ticketOf entry ∉ x.taken) := by
  intro x
  cases call with
  | submit editor now =>
    have hmade : (∃ r : Request, x = r.made ∧ r.delay = s.delay ∧ r.entry = entry) ↔
        entry = (editor, ⟨s.lastGeneration + 1, now + s.delay⟩) := by
      constructor
      · rintro ⟨⟨editor', time, delay, ticket⟩, hx, rfl, rfl⟩
        obtain ⟨⟨rfl, rfl⟩, rfl⟩ : (editor = editor' ∧ now = time) ∧
            (s.submit editor now).1 = ticket := by simpa [x, Request.made, answer] using hx
        rfl
      · rintro rfl
        exact ⟨⟨editor, now, s.delay, ⟨editor, s.lastGeneration + 1⟩⟩, rfl, rfl, rfl⟩
    rw [hmade]
    simp only [x, Exchange.Drops, Exchange.taken, List.not_mem_nil, not_false_eq_true, and_true]
    exact mem_put hnodup
  | cancel editor =>
    rw [or_iff_right fun ⟨r, hx, _⟩ => r.ne_made rfl hx]
    simp only [x, answer, cancel, Table.erase, Exchange.Drops, Exchange.taken, List.mem_filter,
      decide_eq_true_eq, List.not_mem_nil, not_false_eq_true, and_true, ne_comm]
  | setDelay delay =>
    rw [or_iff_right fun ⟨r, hx, _⟩ => r.ne_made rfl hx]
    simp only [x, answer, Exchange.Drops, Exchange.taken, List.not_mem_nil, not_false_eq_true,
      and_true]
  | takeDue now =>
    rw [or_iff_right fun ⟨r, hx, _⟩ => r.ne_made rfl hx, answer, takeDue_eq, List.mem_filter,
      decide_eq_true_eq]
    refine and_congr_right fun hentry => ?_
    have htaken : ticketOf entry ∈ x.taken ↔ entry.2.deadline ≤ now := by
      refine (mem_takeDue s).trans ⟨?_, fun hdue => ⟨entry, hentry, hdue, rfl⟩⟩
      rintro ⟨other, hother, hdue, hticket⟩
      have hsame : other = entry :=
        List.inj_on_of_nodup_map hnodup hother hentry (congrArg Ticket.editor hticket)
      exact hsame ▸ hdue
    rw [htaken, Nat.not_le]
    exact (and_iff_right id).symm

end Table

/-! ## What a schedule keeps of its history -/

/-- The table of a schedule holds the outstanding requests of a history. -/
structure Tracks (initial : Nat) (history : List Exchange) (s : Schedule) : Prop where
  delay_eq : s.delay = delayAfter initial history
  nodup : (s.waiting.map Prod.fst).Nodup
  mem_iff : ∀ entry, entry ∈ s.waiting ↔
    ∃ r, Outstanding initial history r ∧ r.entry = entry
  /-- Every request got a ticket of its editor, with a higher number than all before. -/
  issued : ∀ x ∈ history, ∀ editor now, x.call = .submit editor now →
    ∃ generation ≤ s.lastGeneration, x.tickets = [⟨editor, generation⟩]
  increasing : (history.flatMap Exchange.issued).Pairwise (·.generation < ·.generation)
  taken_le : ∀ ticket ∈ history.flatMap Exchange.taken, ticket.generation ≤ s.lastGeneration
  taken_nodup : (history.flatMap Exchange.taken).Nodup
  not_taken : ∀ entry ∈ s.waiting, ticketOf entry ∉ history.flatMap Exchange.taken
  not_dropped : ∀ entry ∈ s.waiting, ¬ Dropped history (ticketOf entry)

section Tracks

variable {initial : Nat} {history : List Exchange} {s : Schedule}

theorem tracks_nil (initial : Nat) : Tracks initial [] { delay := initial } where
  delay_eq := rfl
  nodup := List.nodup_nil
  mem_iff entry := ⟨fun h => absurd h List.not_mem_nil, fun ⟨_, h, _⟩ => absurd h outstanding_nil⟩
  issued := by simp
  increasing := List.Pairwise.nil
  taken_le := by simp
  taken_nodup := List.nodup_nil
  not_taken := by simp
  not_dropped := by simp

/-- The ticket of a request names its editor and is not newer than the last one. -/
theorem Tracks.ticket_of_mem (ht : Tracks initial history s) {editor : EditorId} {now : Nat}
    {ticket : Ticket} (h : ⟨.submit editor now, [ticket]⟩ ∈ history) :
    ticket.editor = editor ∧ ticket.generation ≤ s.lastGeneration := by
  obtain ⟨generation, hle, htickets⟩ := ht.issued _ h editor now rfl
  obtain rfl := List.singleton_inj.1 htickets
  exact ⟨rfl, hle⟩

theorem Outstanding.made_mem {r : Request} (h : Outstanding initial history r) :
    r.made ∈ history := by
  obtain ⟨before, since, rfl, -⟩ := h
  simp

theorem Tracks.ticketOf_entry (ht : Tracks initial history s) {r : Request}
    (h : Outstanding initial history r) : ticketOf r.entry = r.ticket := by
  obtain ⟨heditor, -⟩ := ht.ticket_of_mem h.made_mem
  rw [ticketOf, Request.entry, ← heditor]

/-- What waits has one of the numbers given out so far. -/
theorem Tracks.waiting_le (ht : Tracks initial history s) {entry : EditorId × Waiting}
    (h : entry ∈ s.waiting) : (ticketOf entry).generation ≤ s.lastGeneration := by
  obtain ⟨r, hr, rfl⟩ := (ht.mem_iff entry).1 h
  exact (ht.ticket_of_mem hr.made_mem).2

theorem Tracks.issued_le (ht : Tracks initial history s) {ticket : Ticket}
    (h : ticket ∈ history.flatMap Exchange.issued) : ticket.generation ≤ s.lastGeneration := by
  obtain ⟨⟨call, tickets⟩, hx, hticket⟩ := List.mem_flatMap.1 h
  cases call with
  | submit editor now =>
    obtain ⟨generation, hle, htickets⟩ := ht.issued _ hx editor now rfl
    have hsame : ticket = ⟨editor, generation⟩ := List.mem_singleton.1 (htickets ▸ hticket)
    exact hsame ▸ hle
  | cancel editor => cases hticket
  | setDelay delay => cases hticket
  | takeDue now => cases hticket

/-- A dropped ticket has been given out. -/
theorem Tracks.dropped_le (ht : Tracks initial history s) {ticket : Ticket}
    (h : Dropped history ticket) : ticket.generation ≤ s.lastGeneration := by
  obtain ⟨before, editor, now, since, rfl, -⟩ := h
  have hmem : ⟨.submit editor now, [ticket]⟩ ∈ before ++ ⟨.submit editor now, [ticket]⟩ :: since :=
    List.mem_append_right _ List.mem_cons_self
  exact (ht.ticket_of_mem hmem).2

theorem lastGeneration_le_answer (s : Schedule) (call : Call) :
    s.lastGeneration ≤ (s.answer call).2.lastGeneration := by
  cases call with
  | submit editor now => exact Nat.le_succ _
  | cancel editor => exact Nat.le_refl _
  | setDelay delay => exact Nat.le_refl _
  | takeDue now => exact Nat.le_refl _

/-- A call gives out new numbers only. -/
theorem issued_answer (s : Schedule) (call : Call) :
    ∀ ticket ∈ (Exchange.mk call (s.answer call).1).issued,
      s.lastGeneration < ticket.generation := by
  cases call with
  | submit editor now => exact List.forall_mem_singleton.2 (Nat.lt_succ_self _)
  | cancel editor => exact List.forall_mem_nil _
  | setDelay delay => exact List.forall_mem_nil _
  | takeDue now => exact List.forall_mem_nil _

theorem pairwise_issued_answer (s : Schedule) (call : Call) :
    (Exchange.mk call (s.answer call).1).issued.Pairwise (·.generation < ·.generation) := by
  cases call with
  | submit editor now => exact List.pairwise_singleton _ _
  | cancel editor => exact .nil
  | setDelay delay => exact .nil
  | takeDue now => exact .nil

/-- What a call takes waited before. -/
theorem exists_of_mem_taken_answer {call : Call} {ticket : Ticket}
    (h : ticket ∈ (Exchange.mk call (s.answer call).1).taken) :
    ∃ entry ∈ s.waiting, ticketOf entry = ticket := by
  cases call with
  | submit editor now => cases h
  | cancel editor => cases h
  | setDelay delay => cases h
  | takeDue now =>
    obtain ⟨entry, hentry, -, hticket⟩ := (mem_takeDue s).1 h
    exact ⟨entry, hentry, hticket⟩

theorem nodup_taken_answer (hnodup : (s.waiting.map Prod.fst).Nodup) (call : Call) :
    (Exchange.mk call (s.answer call).1).taken.Nodup := by
  cases call with
  | submit editor now => exact .nil
  | cancel editor => exact .nil
  | setDelay delay => exact .nil
  | takeDue now =>
    have hsorted := List.mergeSort_perm (s.waiting.filter (·.2.deadline ≤ now)) dueBefore
    have heditors := (hsorted.map Prod.fst).nodup_iff.2 ((List.filter_sublist.map _).nodup hnodup)
    simp only [Exchange.taken, answer, takeDue_eq]
    refine List.Nodup.of_map Ticket.editor ?_
    rw [List.map_map]
    exact heditors

theorem delay_answer (s : Schedule) (call : Call) (history : List Exchange)
    (hdelay : s.delay = delayAfter initial history) :
    (s.answer call).2.delay = delayAfter initial (history ++ [⟨call, (s.answer call).1⟩]) := by
  simp only [delayAfter, List.foldl_append, List.foldl_cons, List.foldl_nil] at hdelay ⊢
  rw [← hdelay]
  cases call with
  | submit editor now => rfl
  | cancel editor => rfl
  | setDelay delay => rfl
  | takeDue now => rfl

/-- What waits after a call has a new number, or it waited before. -/
theorem Tracks.new_or_waited (ht : Tracks initial history s) {call : Call}
    {entry : EditorId × Waiting} (h : entry ∈ (s.answer call).2.waiting) :
    s.lastGeneration < (ticketOf entry).generation ∨
      (entry ∈ s.waiting ∧ ¬ (Exchange.mk call (s.answer call).1).Drops entry.1 ∧
        ticketOf entry ∉ (Exchange.mk call (s.answer call).1).taken) := by
  refine ((mem_waiting_answer ht.nodup call entry).1 h).imp_left ?_
  rintro ⟨r, hx, -, rfl⟩
  refine issued_answer s call r.ticket ?_
  rw [hx]
  exact List.mem_singleton_self _

theorem Tracks.answer (ht : Tracks initial history s) (call : Call) :
    Tracks initial (history ++ [⟨call, (s.answer call).1⟩]) (s.answer call).2 where
  delay_eq := delay_answer s call history ht.delay_eq
  nodup := nodup_answer ht.nodup call
  mem_iff entry := by
    refine (mem_waiting_answer ht.nodup call entry).trans ?_
    rw [ht.mem_iff, ht.delay_eq]
    constructor
    · rintro (⟨r, hx, hdelay, hentry⟩ | ⟨⟨r, hr, rfl⟩, hdrops, htaken⟩)
      · exact ⟨r, outstanding_concat.2 (.inl ⟨hx, hdelay⟩), hentry⟩
      · rw [ht.ticketOf_entry hr] at htaken
        exact ⟨r, outstanding_concat.2 (.inr ⟨hr, hdrops, htaken⟩), rfl⟩
    · rintro ⟨r, hr, rfl⟩
      rcases outstanding_concat.1 hr with ⟨hx, hdelay⟩ | ⟨hr, hdrops, htaken⟩
      · exact .inl ⟨r, hx, hdelay, rfl⟩
      · rw [← ht.ticketOf_entry hr] at htaken
        exact .inr ⟨⟨r, hr, rfl⟩, hdrops, htaken⟩
  issued x hx editor now hcall := by
    rcases List.mem_append.1 hx with hx | hx
    · obtain ⟨generation, hle, htickets⟩ := ht.issued x hx editor now hcall
      exact ⟨generation, Nat.le_trans hle (lastGeneration_le_answer s call), htickets⟩
    · obtain rfl := List.mem_singleton.1 hx
      obtain rfl : call = .submit editor now := hcall
      exact ⟨s.lastGeneration + 1, Nat.le_refl _, rfl⟩
  increasing := by
    rw [List.flatMap_append, List.flatMap_singleton]
    refine List.pairwise_append.2 ⟨ht.increasing, pairwise_issued_answer s call, ?_⟩
    exact fun a ha b hb => Nat.lt_of_le_of_lt (ht.issued_le ha) (issued_answer s call b hb)
  taken_le ticket hticket := by
    refine Nat.le_trans ?_ (lastGeneration_le_answer s call)
    rw [List.flatMap_append, List.flatMap_singleton] at hticket
    rcases List.mem_append.1 hticket with hticket | hticket
    · exact ht.taken_le ticket hticket
    · obtain ⟨entry, hentry, rfl⟩ := exists_of_mem_taken_answer hticket
      exact ht.waiting_le hentry
  taken_nodup := by
    rw [List.flatMap_append, List.flatMap_singleton]
    refine ht.taken_nodup.append (nodup_taken_answer ht.nodup call) fun ticket hold hnew => ?_
    obtain ⟨entry, hentry, rfl⟩ := exists_of_mem_taken_answer hnew
    exact ht.not_taken entry hentry hold
  not_taken entry hentry := by
    rw [List.flatMap_append, List.flatMap_singleton, List.mem_append, not_or]
    rcases ht.new_or_waited hentry with hnew | ⟨hold, -, htaken⟩
    · refine ⟨fun h => ?_, fun h => ?_⟩
      · exact absurd (ht.taken_le _ h) (Nat.not_le.2 hnew)
      · obtain ⟨other, hother, hticket⟩ := exists_of_mem_taken_answer h
        exact absurd (hticket ▸ ht.waiting_le hother) (Nat.not_le.2 hnew)
    · exact ⟨ht.not_taken entry hold, htaken⟩
  not_dropped entry hentry := by
    intro hdropped
    rcases ht.new_or_waited hentry with hnew | ⟨hold, hdrops, -⟩
    · refine absurd ?_ (Nat.not_le.2 hnew)
      rcases dropped_concat.1 hdropped with hdropped | ⟨editor, now, hmem, -⟩
      · exact ht.dropped_le hdropped
      · exact (ht.ticket_of_mem hmem).2
    · rcases dropped_concat.1 hdropped with hdropped | ⟨editor, now, hmem, hx⟩
      · exact ht.not_dropped entry hold hdropped
      · obtain ⟨rfl, -⟩ := ht.ticket_of_mem hmem
        exact hdrops hx

/-! ## Every answer of a history -/

theorem dueBefore_iff {a b : EditorId × Waiting} : dueBefore a b = true ↔
    a.2.deadline < b.2.deadline ∨ a.2.deadline = b.2.deadline ∧ a.1 ≤ b.1 := by
  simp only [dueBefore, Bool.or_eq_true, Bool.and_eq_true, decide_eq_true_eq]

theorem dueBefore_trans (a b c : EditorId × Waiting) (hab : dueBefore a b = true)
    (hbc : dueBefore b c = true) : dueBefore a c = true := by
  rw [dueBefore_iff] at *
  grind

theorem dueBefore_total (a b : EditorId × Waiting) : (dueBefore a b || dueBefore b a) = true := by
  rw [Bool.or_eq_true, dueBefore_iff, dueBefore_iff]
  grind

/-- What a schedule gives out is what its history says is due. -/
theorem Tracks.isDue (ht : Tracks initial history s) (now : Nat) :
    IsDue initial history now (s.takeDue now).1 where
  exists_requests := by
    set entries := (s.waiting.filter (·.2.deadline ≤ now)).mergeSort dueBefore with hentries
    have hmem (entry : EditorId × Waiting) :
        entry ∈ entries ↔ entry ∈ s.waiting ∧ entry.2.deadline ≤ now := by
      rw [hentries, List.mem_mergeSort, List.mem_filter, decide_eq_true_eq]
    have hnodup : (entries.map Prod.fst).Nodup :=
      ((List.mergeSort_perm _ _).map _).nodup_iff.2 ((List.filter_sublist.map _).nodup ht.nodup)
    have hsorted : entries.Pairwise fun a b => dueBefore a b :=
      List.pairwise_mergeSort dueBefore_trans dueBefore_total _
    -- Each entry is how one outstanding request waits.
    obtain ⟨due, hdue⟩ : ∃ due : List {r // Outstanding initial history r},
        due.map (·.1.entry) = entries := by
      rw [← Set.mem_range, Set.range_list_map]
      intro entry hentry
      obtain ⟨r, hr, rfl⟩ := (ht.mem_iff entry).1 ((hmem entry).1 hentry).1
      exact ⟨⟨r, hr⟩, rfl⟩
    rw [← hdue, List.map_map] at hnodup
    rw [← hdue] at hsorted
    refine ⟨due.map Subtype.val, ?_, by rwa [List.map_map], ?_, fun r => ?_⟩
    · rw [takeDue_eq, ← hentries, ← hdue, List.map_map, List.map_map]
      exact List.map_congr_left fun r _ => ht.ticketOf_entry r.2
    · rw [List.pairwise_map] at hsorted ⊢
      refine hsorted.imp₂ (fun r r' hle hne => ?_) (List.pairwise_map.1 hnodup)
      exact (dueBefore_iff.1 hle).imp_right fun ⟨heq, hle⟩ => ⟨heq, Nat.lt_of_le_of_ne hle hne⟩
    · constructor
      · intro hr
        obtain ⟨r, hmem', rfl⟩ := List.mem_map.1 hr
        have hentry : r.1.entry ∈ entries := hdue ▸ List.mem_map.2 ⟨r, hmem', rfl⟩
        exact ⟨r.2, ((hmem _).1 hentry).2⟩
      · rintro ⟨hr, hdeadline⟩
        have hentry : r.entry ∈ entries := (hmem _).2 ⟨(ht.mem_iff _).2 ⟨r, hr, rfl⟩, hdeadline⟩
        rw [← hdue] at hentry
        obtain ⟨r', hr', hsame⟩ := List.mem_map.1 hentry
        obtain rfl : r'.1 = r := r'.2.eq_of_editor hr (congrArg Prod.fst hsame)
        exact List.mem_map_of_mem hr'
  not_dropped ticket hticket := by
    obtain ⟨entry, hentry, -, rfl⟩ := (mem_takeDue s).1 hticket
    exact ht.not_dropped entry hentry

/-- The next deadline is the earliest one of a request that is still good. -/
theorem Tracks.nextDeadline?_eq_some_iff (ht : Tracks initial history s) (deadline : Nat) :
    s.nextDeadline? = some deadline ↔
      IsLeast {d | ∃ r, Outstanding initial history r ∧ r.deadline = d} deadline := by
  have hmem (d : Nat) : d ∈ s.waiting.map (·.2.deadline) ↔
      ∃ r, Outstanding initial history r ∧ r.deadline = d := by
    simp only [List.mem_map, ht.mem_iff]
    constructor
    · rintro ⟨_, ⟨r, hr, rfl⟩, hd⟩
      exact ⟨r, hr, hd⟩
    · rintro ⟨r, hr, hd⟩
      exact ⟨r.entry, ⟨r, hr, rfl⟩, hd⟩
  rw [nextDeadline?, List.min?_eq_some_iff, hmem]
  refine and_congr_right fun _ => forall_congr' fun d => ?_
  rw [hmem]
  rfl

theorem Tracks.nextDeadline?_eq_none_iff (ht : Tracks initial history s) :
    s.nextDeadline? = none ↔ ∀ r, ¬ Outstanding initial history r := by
  rw [nextDeadline?, List.min?_eq_none_iff, List.map_eq_nil_iff, List.eq_nil_iff_forall_not_mem]
  constructor
  · exact fun hnone r hr => hnone r.entry ((ht.mem_iff _).2 ⟨r, hr, rfl⟩)
  · intro hnone entry hentry
    obtain ⟨r, hr, -⟩ := (ht.mem_iff entry).1 hentry
    exact hnone r hr

theorem Tracks.after (ht : Tracks initial history s) (calls : List Call) :
    Tracks initial (history ++ s.exchanges calls) (s.after calls) := by
  induction calls generalizing history s with
  | nil => rwa [exchanges, List.append_nil]
  | cons call calls ih =>
    have hrest := ih (ht.answer call)
    rwa [List.append_assoc] at hrest

end Tracks

/-- At each place of a history, some calls have led to a schedule that then answers the next one. -/
theorem exists_calls_of_exchanges_eq {s : Schedule} {calls : List Call} {x : Exchange}
    {before since : List Exchange} (h : s.exchanges calls = before ++ x :: since) :
    ∃ earlier, before = s.exchanges earlier ∧
      x.tickets = ((s.after earlier).answer x.call).1 := by
  induction before generalizing s calls with
  | nil =>
    cases calls with
    | nil => cases h
    | cons call calls =>
      obtain ⟨rfl, -⟩ := List.cons.inj h
      exact ⟨[], rfl, rfl⟩
  | cons y before ih =>
    cases calls with
    | nil => cases h
    | cons call calls =>
      obtain ⟨rfl, hrest⟩ := List.cons.inj h
      obtain ⟨earlier, rfl, hx⟩ := ih hrest
      exact ⟨call :: earlier, rfl, hx⟩

/-- In every history of a new schedule, what is due is given out and nothing else: at each time, one
ticket for each editor whose last request is still good and whose deadline, by the delay in force
when it was made, has come. No ticket is given out twice, each request gets a higher number than all
before, and the next deadline is the earliest one of a request that is still good. -/
theorem history_gives_due (initial : Nat) (calls : List Call) :
    let s : Schedule := { delay := initial }
    let history := s.exchanges calls
    (∀ before now tickets since, history = before ++ ⟨.takeDue now, tickets⟩ :: since →
      IsDue initial before now tickets) ∧
    (history.flatMap Exchange.taken).Nodup ∧
    (∀ x ∈ history, ∀ editor now, x.call = .submit editor now →
      ∃ generation, x.tickets = [⟨editor, generation⟩]) ∧
    (history.flatMap Exchange.issued).Pairwise (·.generation < ·.generation) ∧
    (∀ deadline, (s.after calls).nextDeadline? = some deadline ↔
      IsLeast {d | ∃ r, Outstanding initial history r ∧ r.deadline = d} deadline) ∧
    ((s.after calls).nextDeadline? = none ↔ ∀ r, ¬ Outstanding initial history r) := by
  intro s history
  have ht : Tracks initial history (s.after calls) := (tracks_nil initial).after calls
  refine ⟨fun before now tickets since h => ?_, ht.taken_nodup, fun x hx editor now hcall => ?_,
    ht.increasing, ht.nextDeadline?_eq_some_iff, ht.nextDeadline?_eq_none_iff⟩
  · obtain ⟨earlier, rfl, htickets⟩ := exists_calls_of_exchanges_eq h
    have hanswer : tickets = ((s.after earlier).takeDue now).1 := htickets
    rw [hanswer]
    exact ((tracks_nil initial).after earlier).isDue now
  · obtain ⟨generation, -, htickets⟩ := ht.issued x hx editor now hcall
    exact ⟨generation, htickets⟩

/-- Two edits in a row cost one pass, at the deadline of the second one. -/
example : exchanges {} [.submit 1 0, .submit 1 90, .setDelay 10, .takeDue 100, .takeDue 190] =
    [⟨.submit 1 0, [⟨1, 1⟩]⟩, ⟨.submit 1 90, [⟨1, 2⟩]⟩, ⟨.setDelay 10, []⟩, ⟨.takeDue 100, []⟩,
      ⟨.takeDue 190, [⟨1, 2⟩]⟩] := by
  decide +kernel

end Swatch.Schedule

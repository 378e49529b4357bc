-- SUMMARY: Whose requests a session takes, and how long the ticket of a request is its own.
import Swatch.Proofs.Schedule
import Swatch.Proofs.Session.History

/-!
# Tickets in histories of sessions

An event calls the schedule of a session, leaves it alone, or disposes of the session, which
starts a new schedule with the same delay. So the history of a session is a history of calls
to its schedules, and what a schedule keeps of its calls is known. What a session takes when
it is due is told by the events so far: the last request of an editor, unless the editor has
been closed, the session disposed of or the ticket taken since.

A new schedule numbers its requests from one. Thus a ticket names one request only as long as
the session is not disposed of.
-/

namespace Swatch

open Schedule (ticketOf append_singleton_eq_append_cons_iff)

/-! ## Events and answers -/

namespace Event

/-- The call that an event makes to the schedule. To dispose of a session replaces its schedule and
calls none. -/
def call? : Event → Option Schedule.Call
  | .pass _ settings => some (.setDelay settings.debounceMs)
  | .closeEditor editor => some (.cancel editor)
  | .submit editor now => some (.submit editor now)
  | .takeDue now => some (.takeDue now)
  | .setDelay delay => some (.setDelay delay)
  | .closeDocument _ | .request _ _ | .dispose => none

theorem eq_submit_of_call? {e : Event} {editor : EditorId} {now : Nat}
    (h : e.call? = some (.submit editor now)) : e = .submit editor now := by
  cases e with
  | submit editor now =>
    cases h
    rfl
  | _ => cases h

/-- How many requests there have been since the session was new or disposed of. -/
def requestsAfter (n : Nat) : Event → Nat
  | .submit _ _ => n + 1
  | .dispose => 0
  | _ => n

end Event

/-- An event and the tickets that it returned. -/
structure Answered where
  event : Event
  tickets : List Ticket

namespace Answered

/-- The call to the schedule, and its answer. -/
def exchange? (x : Answered) : Option Schedule.Exchange :=
  x.event.call?.map (⟨·, x.tickets⟩)

/-- A request goes on waiting: no new schedule is started, and the one in use neither drops the
request nor gives out its ticket. -/
def Leaves (x : Answered) (ticket : Ticket) : Prop :=
  x.event ≠ .dispose ∧
    ∀ exchange ∈ x.exchange?, ¬ exchange.Drops ticket.editor ∧ ticket ∉ exchange.taken

end Answered

/-- The calls of a history to the schedules of the session. -/
def exchangesOf (history : List Answered) : List Schedule.Exchange :=
  history.filterMap Answered.exchange?

/-- The tickets of the requests that were made in a history. -/
def issuedIn (history : List Answered) : List Ticket :=
  (exchangesOf history).flatMap Schedule.Exchange.issued

namespace Scene

def tickets (scene : Scene) : Event → List Ticket
  | .submit editor now => [(scene.session.submit editor now).1]
  | .takeDue now => (scene.session.takeDue now).1
  | _ => []

/-- Some events and what they return. -/
def answers (scene : Scene) : List Event → List Answered
  | [] => []
  | e :: events => ⟨e, scene.tickets e⟩ :: (scene.step e).answers events

theorem answers_concat (scene : Scene) (events : List Event) (e : Event) :
    scene.answers (events ++ [e])
      = scene.answers events ++ [⟨e, (scene.after events).tickets e⟩] := by
  induction events generalizing scene with
  | nil => rfl
  | cons e' events ih => exact congrArg (_ :: ·) (ih (scene.step e'))

theorem after_concat (scene : Scene) (events : List Event) (e : Event) :
    scene.after (events ++ [e]) = (scene.after events).step e :=
  List.foldl_concat ..

end Scene

/-! ## Requests in a history -/

/-- The delay in force after a history. A new schedule has the delay of the one before. -/
def delayLately (history : List Answered) : Nat :=
  Schedule.delayAfter ({} : Schedule).delay (exchangesOf history)

/-- How many requests a session has counted after some events. -/
def requestsLately (events : List Event) : Nat :=
  events.foldl Event.requestsAfter 0

/-- A ticket is that of the last request of its editor, which has not been dropped since, and it has
not been taken. The deadline is that of the delay that was in force. -/
def Waits (history : List Answered) (ticket : Ticket) (deadline : Nat) : Prop :=
  ∃ before time since, history = before ++ ⟨.submit ticket.editor time, [ticket]⟩ :: since ∧
    deadline = time + delayLately before ∧
    ∀ x ∈ since, x.Leaves ticket

/-- An editor has asked when there had been so many requests. -/
def AskedAt (events : List Event) (editor : EditorId) (n : Nat) : Prop :=
  ∃ before time since, events = before ++ .submit editor time :: since ∧ requestsLately before = n

/-- An editor asks when there have been as many requests as at an earlier time when it asked. -/
def AsksAgain (events : List Event) : Prop :=
  ∃ before editor time since, events = before ++ .submit editor time :: since ∧
    AskedAt before editor (requestsLately before)

section Snoc

variable {history : List Answered} {x : Answered} {events : List Event} {e : Event}
  {ticket : Ticket} {deadline n : Nat} {editor : EditorId}

theorem not_waits_nil : ¬ Waits [] ticket deadline := by
  rintro ⟨before, time, since, h, -⟩
  simp at h

theorem waits_concat : Waits (history ++ [x]) ticket deadline ↔
    (∃ time, x = ⟨.submit ticket.editor time, [ticket]⟩ ∧ deadline = time + delayLately history) ∨
      (Waits history ticket deadline ∧ x.Leaves ticket) := by
  constructor
  · rintro ⟨before, time, since, h, hdeadline, hsince⟩
    rcases append_singleton_eq_append_cons_iff.1 h with ⟨rfl, rfl, -⟩ | ⟨rest, rfl, rfl⟩
    · exact .inl ⟨time, rfl, hdeadline⟩
    · obtain ⟨hrest, hx⟩ := List.forall_mem_append.1 hsince
      exact .inr ⟨⟨before, time, rest, rfl, hdeadline, hrest⟩, hx x (List.mem_singleton_self x)⟩
  · rintro (⟨time, rfl, hdeadline⟩ | ⟨⟨before, time, since, rfl, hdeadline, hsince⟩, hx⟩)
    · exact ⟨history, time, [], rfl, hdeadline, List.forall_mem_nil _⟩
    · refine ⟨before, time, since ++ [x], by simp, hdeadline, ?_⟩
      exact List.forall_mem_append.2 ⟨hsince, List.forall_mem_singleton.2 hx⟩

theorem not_askedAt_nil : ¬ AskedAt [] editor n := by
  rintro ⟨before, time, since, h, -⟩
  simp at h

theorem askedAt_concat : AskedAt (events ++ [e]) editor n ↔
    AskedAt events editor n ∨ ((∃ time, e = .submit editor time) ∧ requestsLately events = n) := by
  constructor
  · rintro ⟨before, time, since, h, hn⟩
    rcases append_singleton_eq_append_cons_iff.1 h with ⟨rfl, rfl, -⟩ | ⟨rest, rfl, rfl⟩
    · exact .inr ⟨⟨time, rfl⟩, hn⟩
    · exact .inl ⟨before, time, rest, rfl, hn⟩
  · rintro (⟨before, time, since, rfl, hn⟩ | ⟨⟨time, rfl⟩, hn⟩)
    · exact ⟨before, time, since ++ [e], by simp, hn⟩
    · exact ⟨events, time, [], rfl, hn⟩

theorem not_asksAgain_nil : ¬ AsksAgain [] := by
  rintro ⟨before, editor, time, since, h, -⟩
  simp at h

theorem asksAgain_concat : AsksAgain (events ++ [e]) ↔
    AsksAgain events ∨
      ∃ editor time, e = .submit editor time ∧ AskedAt events editor (requestsLately events) := by
  constructor
  · rintro ⟨before, editor, time, since, h, hasked⟩
    rcases append_singleton_eq_append_cons_iff.1 h with ⟨rfl, rfl, -⟩ | ⟨rest, rfl, rfl⟩
    · exact .inr ⟨editor, time, rfl, hasked⟩
    · exact .inl ⟨before, editor, time, rest, rfl, hasked⟩
  · rintro (⟨before, editor, time, since, rfl, hasked⟩ | ⟨editor, time, rfl, hasked⟩)
    · exact ⟨before, editor, time, since ++ [e], by simp, hasked⟩
    · exact ⟨events, editor, time, [], rfl, hasked⟩

end Snoc

/-! ## What an event does to the schedule -/

/-- A pass sets the delay and leaves the requests alone. -/
theorem Session.schedule_run (s : Session) (v : EditorView) (settings : Settings) (host : Host) :
    (s.run v settings host).2.1.schedule = { s.schedule with delay := settings.debounceMs } := by
  simp only [Session.run]
  split
  · rfl
  · split
    · rfl
    · split <;> rfl

namespace Scene

variable {scene : Scene} {history : List Answered} {e : Event}

/-- An event that calls the schedule returns what the schedule answers. -/
theorem answer_of_call? {call : Schedule.Call} (h : e.call? = some call) :
    scene.session.schedule.answer call = (scene.tickets e, (scene.step e).session.schedule) := by
  cases e with
  | pass v settings =>
    cases h
    exact congrArg (Prod.mk []) (scene.session.schedule_run v settings scene.host).symm
  | closeDocument | request | dispose => cases h
  | closeEditor | submit | takeDue | setDelay =>
    cases h
    rfl

/-- All other events leave the schedule alone, unless they dispose of the session. -/
theorem schedule_step_of_call? (h : e.call? = none) (hdispose : e ≠ .dispose) :
    (scene.step e).session.schedule = scene.session.schedule := by
  cases e with
  | closeDocument | request => rfl
  | dispose => exact absurd rfl hdispose
  | pass | closeEditor | submit | takeDue | setDelay => cases h

theorem schedule_dispose (scene : Scene) :
    (scene.step .dispose).session.schedule = { delay := scene.session.schedule.delay } :=
  rfl

theorem exchange?_of_call? {call : Schedule.Call} (h : e.call? = some call) :
    Answered.exchange? ⟨e, scene.tickets e⟩
      = some ⟨call, (scene.session.schedule.answer call).1⟩ := by
  rw [answer_of_call? h, Answered.exchange?, h]
  rfl

theorem exchangesOf_concat (history : List Answered) (x : Answered) :
    exchangesOf (history ++ [x]) = exchangesOf history ++ x.exchange?.toList := by
  rw [exchangesOf, List.filterMap_append]
  rfl

/-- Without being disposed of, a session has one schedule, and its history is that of the calls to
it. -/
theorem exchangesOf_answers {events : List Event} (h : Event.dispose ∉ events) (scene : Scene) :
    exchangesOf (scene.answers events)
      = scene.session.schedule.exchanges (events.filterMap Event.call?) := by
  induction events generalizing scene with
  | nil => rfl
  | cons e events ih =>
    obtain ⟨he, hevents⟩ := not_or.1 (mt List.mem_cons.2 h)
    have hrest := ih hevents (scene.step e)
    cases hcall : e.call? with
    | none =>
      have hnone : Answered.exchange? ⟨e, scene.tickets e⟩ = none := by
        rw [Answered.exchange?, hcall, Option.map_none]
      rw [answers, exchangesOf, List.filterMap_cons_none hnone, List.filterMap_cons_none hcall,
        ← schedule_step_of_call? hcall (Ne.symm he)]
      exact hrest
    | some call =>
      rw [answers, exchangesOf, List.filterMap_cons_some (exchange?_of_call? hcall),
        List.filterMap_cons_some hcall, Schedule.exchanges]
      congr 1
      rw [answer_of_call? hcall]
      exact hrest

/-! ## What a schedule keeps of its history -/

/-- The event that calls for a request is the one that makes it. -/
theorem exists_made_iff {call : Schedule.Call} (h : e.call? = some call)
    (entry : EditorId × Waiting) (delay : Nat) :
    (∃ r : Schedule.Request,
      ⟨call, scene.tickets e⟩ = r.made ∧ r.delay = delay ∧ r.entry = entry) ↔
      ∃ time, (⟨e, scene.tickets e⟩ : Answered) = ⟨.submit entry.1 time, [ticketOf entry]⟩ ∧
        entry.2.deadline = time + delay := by
  constructor
  · rintro ⟨⟨editor, time, delay, ticket⟩, hmade, rfl, rfl⟩
    obtain ⟨rfl, htickets⟩ := Schedule.Exchange.mk.inj hmade
    obtain rfl := Event.eq_submit_of_call? h
    obtain rfl : (scene.session.submit editor time).1 = ticket := List.singleton_inj.1 htickets
    exact ⟨time, rfl, rfl⟩
  · obtain ⟨editor, generation, deadline⟩ := entry
    rintro ⟨time, hx, hdeadline⟩
    obtain rfl : deadline = time + delay := hdeadline
    obtain ⟨rfl, htickets⟩ := Answered.mk.inj hx
    cases h
    have hmade := congrArg (Schedule.Exchange.mk (.submit editor time)) htickets
    exact ⟨⟨editor, time, delay, ⟨editor, generation⟩⟩, hmade, rfl, rfl⟩

/-- After an event, a request waits if the event made it, or if it waited before and the event
leaves it. -/
theorem mem_waiting_step (hnodup : (scene.session.schedule.waiting.map Prod.fst).Nodup)
    (e : Event) (entry : EditorId × Waiting) :
    let s := scene.session.schedule
    let x : Answered := ⟨e, scene.tickets e⟩
    entry ∈ (scene.step e).session.schedule.waiting ↔
      (∃ time, x = ⟨.submit entry.1 time, [ticketOf entry]⟩ ∧ entry.2.deadline = time + s.delay) ∨
        (entry ∈ s.waiting ∧ x.Leaves (ticketOf entry)) := by
  intro s x
  cases hcall : e.call? with
  | none =>
    have hother : ¬ ∃ time,
        x = ⟨.submit entry.1 time, [ticketOf entry]⟩ ∧ entry.2.deadline = time + s.delay := by
      rintro ⟨time, hx, -⟩
      obtain rfl : e = .submit entry.1 time := congrArg Answered.event hx
      cases hcall
    have hexchange : x.exchange? = none := by
      rw [Answered.exchange?, hcall, Option.map_none]
    rw [or_iff_right hother, Answered.Leaves, hexchange]
    by_cases hdispose : e = .dispose
    · subst hdispose
      simp [schedule_dispose, x]
    · rw [schedule_step_of_call? hcall hdispose]
      simp [x, s, hdispose]
  | some call =>
    have hwaiting := Schedule.mem_waiting_answer hnodup call entry
    simp only [answer_of_call? hcall] at hwaiting
    have hdispose : e ≠ .dispose := by
      rintro rfl
      cases hcall
    refine hwaiting.trans (or_congr (exists_made_iff hcall entry _) (and_congr_right fun _ => ?_))
    simp [Answered.Leaves, Answered.exchange?, x, hcall, hdispose, ticketOf]

/-- A schedule holds the requests that wait in a history. -/
structure Holds (history : List Answered) (s : Schedule) : Prop where
  delay_eq : s.delay = delayLately history
  /-- Since it was new, the schedule has had a history of its own. -/
  tracks : ∃ initial recent, s.Tracks initial recent
  mem_iff : ∀ entry, entry ∈ s.waiting ↔ Waits history (ticketOf entry) entry.2.deadline

theorem holds_nil : Holds [] {} where
  delay_eq := rfl
  tracks := ⟨_, _, Schedule.tracks_nil _⟩
  mem_iff _ := ⟨fun h => absurd h List.not_mem_nil, fun h => absurd h not_waits_nil⟩

theorem Holds.delay_step (h : Holds history scene.session.schedule) (e : Event) :
    (scene.step e).session.schedule.delay
      = delayLately (history ++ [⟨e, scene.tickets e⟩]) := by
  rw [delayLately, exchangesOf_concat]
  cases hcall : e.call? with
  | none =>
    rw [Answered.exchange?, hcall, Option.map_none, Option.toList_none, List.append_nil]
    by_cases hdispose : e = .dispose
    · subst hdispose
      exact h.delay_eq
    · rw [schedule_step_of_call? hcall hdispose]
      exact h.delay_eq
  | some call =>
    have hdelay := Schedule.delay_answer scene.session.schedule call _ h.delay_eq
    rw [exchange?_of_call? hcall, Option.toList_some, ← hdelay, answer_of_call? hcall]

/-- A schedule that has been called goes on with its history, and a new one starts another. -/
theorem Holds.tracks_step (h : Holds history scene.session.schedule) (e : Event) :
    ∃ initial recent, (scene.step e).session.schedule.Tracks initial recent := by
  obtain ⟨initial, recent, htracks⟩ := h.tracks
  cases hcall : e.call? with
  | none =>
    by_cases hdispose : e = .dispose
    · subst hdispose
      exact ⟨_, _, Schedule.tracks_nil _⟩
    · rw [schedule_step_of_call? hcall hdispose]
      exact ⟨initial, recent, htracks⟩
  | some call =>
    have hnext := htracks.answer call
    rw [answer_of_call? hcall] at hnext
    exact ⟨_, _, hnext⟩

theorem Holds.step (h : Holds history scene.session.schedule) (e : Event) :
    Holds (history ++ [⟨e, scene.tickets e⟩]) (scene.step e).session.schedule where
  delay_eq := h.delay_step e
  tracks := h.tracks_step e
  mem_iff entry := by
    obtain ⟨initial, recent, htracks⟩ := h.tracks
    refine (mem_waiting_step htracks.nodup e entry).trans ?_
    rw [waits_concat, h.mem_iff, h.delay_eq]
    rfl

theorem holds_after (r : Ignored.Registry) (events : List Event) :
    Holds ((start r).answers events) ((start r).after events).session.schedule := by
  induction events using List.reverseRecOn with
  | nil => exact holds_nil
  | append_singleton events e ih =>
    rw [answers_concat, after_concat]
    exact ih.step e

/-- What is taken has waited until its deadline. -/
theorem Holds.mem_takeDue_iff (h : Holds history scene.session.schedule) {now : Nat}
    {ticket : Ticket} : ticket ∈ scene.tickets (.takeDue now) ↔
      ∃ deadline ≤ now, Waits history ticket deadline := by
  refine (Schedule.mem_takeDue scene.session.schedule).trans ?_
  constructor
  · rintro ⟨entry, hentry, hdue, rfl⟩
    exact ⟨entry.2.deadline, hdue, (h.mem_iff entry).1 hentry⟩
  · rintro ⟨deadline, hdue, hwaits⟩
    exact ⟨(ticket.editor, ⟨ticket.generation, deadline⟩), (h.mem_iff _).2 hwaits, hdue, rfl⟩

/-- Without being disposed of, a session gives no ticket twice. -/
theorem Holds.nodup_issuedIn (h : Holds history scene.session.schedule) {later : List Event}
    (hlater : Event.dispose ∉ later) : (issuedIn (scene.answers later)).Nodup := by
  obtain ⟨initial, recent, htracks⟩ := h.tracks
  have hincreasing := (htracks.after (later.filterMap Event.call?)).increasing
  rw [List.flatMap_append, ← exchangesOf_answers hlater] at hincreasing
  refine (List.pairwise_append.1 hincreasing).2.1.imp ?_
  intro ticket ticket' hlt hsame
  exact Nat.ne_of_lt hlt (congrArg Ticket.generation hsame)

/-! ## Numbers of requests -/

theorem lastGeneration_step (scene : Scene) (e : Event) :
    (scene.step e).session.schedule.lastGeneration
      = e.requestsAfter scene.session.schedule.lastGeneration := by
  cases e with
  | pass v settings =>
    have hrun := scene.session.schedule_run v settings scene.host
    exact (congrArg Schedule.lastGeneration hrun :)
  | _ => rfl

theorem lastGeneration_after (r : Ignored.Registry) (events : List Event) :
    ((start r).after events).session.schedule.lastGeneration = requestsLately events := by
  induction events using List.reverseRecOn with
  | nil => rfl
  | append_singleton events e ih =>
    rw [after_concat, lastGeneration_step, ih, requestsLately, requestsLately, List.foldl_concat]

theorem issuedIn_concat (history : List Answered) (x : Answered) :
    issuedIn (history ++ [x]) = issuedIn history ++ issuedIn [x] := by
  rw [issuedIn, exchangesOf, List.filterMap_append, List.flatMap_append]
  rfl

/-- A request gets one ticket. -/
theorem issuedIn_single (scene : Scene) (e : Event) :
    issuedIn [⟨e, scene.tickets e⟩] = [] ∧ (∀ editor now, e ≠ .submit editor now) ∨
      ∃ editor now, e = .submit editor now ∧ issuedIn [⟨e, scene.tickets e⟩]
        = [⟨editor, scene.session.schedule.lastGeneration + 1⟩] := by
  cases e with
  | submit editor now => exact .inr ⟨editor, now, rfl, rfl⟩
  | _ => exact .inl ⟨rfl, by simp⟩

/-- The tickets of a history name editors that asked and the requests before. -/
theorem mem_issuedIn_iff (r : Ignored.Registry) (events : List Event) (ticket : Ticket) :
    ticket ∈ issuedIn ((start r).answers events) ↔
      ∃ n, AskedAt events ticket.editor n ∧ ticket.generation = n + 1 := by
  induction events using List.reverseRecOn with
  | nil => simp [answers, issuedIn, exchangesOf, not_askedAt_nil]
  | append_singleton events e ih =>
    rw [answers_concat, issuedIn_concat, List.mem_append, ih]
    simp only [askedAt_concat, or_and_right, exists_or]
    refine or_congr_right ?_
    have hsingle := issuedIn_single ((start r).after events) e
    rcases hsingle with ⟨hnone, hother⟩ | ⟨editor, now, rfl, hone⟩
    · simp [hnone, hother]
    · rw [hone, lastGeneration_after]
      obtain ⟨other, generation⟩ := ticket
      simp [eq_comm]

theorem nodup_issuedIn_iff (r : Ignored.Registry) (events : List Event) :
    (issuedIn ((start r).answers events)).Nodup ↔ ¬ AsksAgain events := by
  induction events using List.reverseRecOn with
  | nil => simp [answers, issuedIn, exchangesOf, not_asksAgain_nil]
  | append_singleton events e ih =>
    rw [answers_concat, issuedIn_concat, asksAgain_concat, not_or, ← ih]
    have hsingle := issuedIn_single ((start r).after events) e
    rcases hsingle with ⟨hnone, hother⟩ | ⟨editor, now, rfl, hone⟩
    · simp [hnone, hother]
    · rw [hone, lastGeneration_after, (List.perm_append_singleton _ _).nodup_iff, List.nodup_cons,
        mem_issuedIn_iff, and_comm]
      simp

/-- At each moment, a session takes the last request of each editor that is due, unless the editor
has been closed, the session disposed of or the ticket taken since. Requests get a ticket each, and
as long as the session is not disposed of, no two get the same. In a whole history two get the same
just if an editor asks again when there have been as many requests as before, counted from the last
time the session was disposed of. -/
theorem tickets_of_history (r : Ignored.Registry) (events : List Event) :
    (∀ now ticket, ticket ∈ ((start r).after events).tickets (.takeDue now) ↔
      ∃ deadline ≤ now, Waits ((start r).answers events) ticket deadline) ∧
    (∀ editor now, ((start r).after events).tickets (.submit editor now)
      = [⟨editor, requestsLately events + 1⟩]) ∧
    (∀ later, .dispose ∉ later →
      (issuedIn (((start r).after events).answers later)).Nodup) ∧
    ((issuedIn ((start r).answers events)).Nodup ↔ ¬ AsksAgain events) := by
  have hholds := holds_after r events
  refine ⟨?_, ?_, ?_, nodup_issuedIn_iff r events⟩
  · exact fun now ticket => hholds.mem_takeDue_iff
  · intro editor now
    rw [← lastGeneration_after r events]
    rfl
  · exact fun later hlater => hholds.nodup_issuedIn hlater

/-- A session that is disposed of between two requests of an editor gives both the same ticket. -/
theorem ticket_after_dispose :
    let history := (start {}).answers [.submit 1 0, .dispose, .submit 1 0]
    issuedIn history = [⟨1, 1⟩, ⟨1, 1⟩] ∧ ¬ (issuedIn history).Nodup := by
  decide

end Scene

end Swatch

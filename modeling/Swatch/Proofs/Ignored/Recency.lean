-- SUMMARY: Without edits the registry lists each ignored line once, the most recently ignored one first.
import Swatch.Proofs.Ignored.Distinct

/-!
# What a history of requests leaves

Without edits, the requests alone tell what is ignored: a line is ignored if the last
request about it ignored it. To ignore a document counts as restoring all its lines and then
ignoring them one after the other, so its last line is listed first.

`Recalls` ties a registry to the requests so far. A request changes nothing but the lines
that it is about, and these are listed in front if it ignores them. So one request keeps
`Recalls`, and a whole history does.
-/

namespace Swatch.Ignored

namespace Registry

/-! ## Requests and the lines that they are about -/

namespace Request

/-- The request is about a line of a document. -/
def concerns (key : DocumentKey) (line : Nat) : Request → Bool
  | .ignore key' line' _ => line == line' && key.path.same key'.path
  | .restore key' line' => line == line' && key.path.same key'.path
  | .ignoreLines key' _ _ => key.path.same key'.path
  | .restoreAll key' => key.path.same key'.path
  | .clear => true
  | .follow key' _ => key.path.same key'.path

def isFollow : Request → Bool
  | .follow _ _ => true
  | _ => false

def isIgnore : Request → Bool
  | .ignore _ _ _ => true
  | _ => false

/-- The entries that a request puts in front. -/
def added (now : Nat) : Request → List Entry
  | .ignore key line content => [⟨key.path, line, content, now⟩]
  | .ignoreLines key lineCount lineAt? => (allLines key lineCount lineAt? now).reverse
  | _ => []

/-- What a request counts as: to ignore a document is to restore all its lines and then to ignore
them one after the other. -/
def steps : Request → List Request
  | .ignoreLines key lineCount lineAt? =>
    .restoreAll key ::
      (List.range lineCount).map fun line => .ignore key line ((lineAt? line).getD [])
  | request => [request]

/-- The request is a step of its own. -/
def isStep : Request → Bool
  | .ignoreLines _ _ _ => false
  | .follow _ _ => false
  | _ => true

theorem isStep_of_mem_steps {request step : Request} (hrequest : request.isFollow = false)
    (h : step ∈ request.steps) : step.isStep := by
  cases request with
  | ignoreLines key lineCount lineAt? =>
    rcases List.mem_cons.1 h with rfl | h
    · rfl
    · obtain ⟨line, -, rfl⟩ := List.mem_map.1 h
      rfl
  | follow key edits => cases hrequest
  | ignore key line content => exact List.mem_singleton.1 h ▸ rfl
  | restore key line => exact List.mem_singleton.1 h ▸ rfl
  | restoreAll key => exact List.mem_singleton.1 h ▸ rfl
  | clear => exact List.mem_singleton.1 h ▸ rfl

theorem isFollow_of_isStep {request : Request} (h : request.isStep) : request.isFollow = false := by
  cases request with
  | follow key edits => cases h
  | _ => rfl

variable {e : Entry} {key : DocumentKey} {line now : Nat}

/-- A request is about a line whichever way the path of its document is written. -/
theorem concerns_of_isAt (he : e.isAt key line) (request : Request) :
    request.concerns ⟨e.path⟩ e.line = request.concerns key line := by
  obtain ⟨rfl, hpath⟩ := Entry.isAt_iff.1 he
  have hsame (p : Path) : e.path.same p = key.path.same p := by
    rw [Path.same, Path.same, Path.same_iff.1 hpath]
  cases request <;> simp only [concerns, hsame]

/-- What a request puts in front it is about. -/
theorem concerns_of_mem_added {request : Request} (he : e ∈ request.added now) :
    request.concerns ⟨e.path⟩ e.line := by
  have hself (p : Path) : p.same p := Path.same_iff.2 rfl
  cases request with
  | ignore key line content =>
    obtain rfl := List.mem_singleton.1 he
    simp [concerns, hself]
  | ignoreLines key lineCount lineAt? =>
    obtain ⟨line, -, rfl⟩ := List.mem_map.1 (List.mem_reverse.1 he)
    exact hself key.path
  | restore key line => cases he
  | restoreAll key => cases he
  | clear => cases he
  | follow key edits => cases he

/-- A step puts an entry in front just if it ignores the line of the entry. -/
theorem mem_added_iff {request : Request} (hstep : request.isStep) :
    e ∈ request.added now ↔ request = .ignore ⟨e.path⟩ e.line e.content ∧ e.timestamp = now := by
  cases request with
  | ignore key line content =>
    rw [added, List.mem_singleton]
    constructor
    · rintro rfl
      exact ⟨rfl, rfl⟩
    · rintro ⟨hrequest, rfl⟩
      cases hrequest
      rfl
  | ignoreLines key lineCount lineAt? => cases hstep
  | follow key edits => cases hstep
  | _ => simp [added]

/-- A step puts one entry in front at most. -/
theorem pairwise_added {request : Request} (hstep : request.isStep) (R : Entry → Entry → Prop) :
    (request.added now).Pairwise R := by
  cases request with
  | ignore key line content => exact List.pairwise_singleton R _
  | ignoreLines key lineCount lineAt? => cases hstep
  | _ => exact .nil

/-- A step that is about a line puts it in front just if it ignores it. -/
theorem any_added_of_concerns {request : Request} (hstep : request.isStep)
    (h : request.concerns key line) :
    (request.added now).any (·.isAt key line) = request.isIgnore := by
  cases request with
  | ignore key' line' content =>
    obtain ⟨hline, hpath⟩ := Bool.and_eq_true_iff.1 h
    have hat : Entry.isAt ⟨key'.path, line', content, now⟩ key line :=
      Entry.isAt_iff.2 ⟨(eq_of_beq hline).symm, Path.same_iff.2 (Path.same_iff.1 hpath).symm⟩
    simp [added, isIgnore, hat]
  | ignoreLines key lineCount lineAt? => cases hstep
  | _ => rfl

/-- A request puts no line in front that it is not about. -/
theorem any_added_of_not_concerns {request : Request} (h : request.concerns key line = false) :
    (request.added now).any (·.isAt key line) = false := by
  apply List.any_eq_false.2
  intro e he hat
  have habout := concerns_of_mem_added he
  rw [concerns_of_isAt hat, h] at habout
  cases habout

/-- Entries of one line are all among those that a request is about, or none of them is. -/
theorem not_concerns_and_isAt (request : Request) (e : Entry) (key : DocumentKey) (line : Nat) :
    (!request.concerns ⟨e.path⟩ e.line && e.isAt key line)
      = (!request.concerns key line && e.isAt key line) := by
  cases hat : e.isAt key line with
  | true => rw [concerns_of_isAt hat]
  | false => rw [Bool.and_false, Bool.and_false]

end Request

/-! ## One request -/

section OneRequest

variable {r : Registry}

/-- Of a line that is listed once, to take the first entry away is to take all away. -/
theorem Distinct.restore_entries (h : r.Distinct) (key : DocumentKey) (line : Nat) :
    (r.restore key line).entries = r.entries.filter (!·.isAt key line) := by
  obtain ⟨entries⟩ := r
  change entries.eraseP (·.isAt key line) = entries.filter (!·.isAt key line)
  induction entries with
  | nil => rfl
  | cons e entries ih =>
    obtain ⟨hfirst, hrest⟩ := List.pairwise_cons.1 h
    by_cases he : e.isAt key line
    · have hnone (f : Entry) (hf : f ∈ entries) : (!f.isAt key line) = true := by
        rw [Bool.not_eq_true']
        apply Bool.eq_false_iff.2
        intro hat
        exact hfirst f hf (Entry.meets_of_isAt he hat)
      simp [he, List.filter_eq_self.2 hnone]
    · simp [he, ih hrest]

/-- A request puts entries in front and takes away those that it is about. All others stay as they
are and where they are. -/
theorem Distinct.perform_entries (h : r.Distinct) (now : Nat) {request : Request}
    (hrequest : request.isFollow = false) :
    (r.perform now request).registry.entries
      = request.added now ++ r.entries.filter fun e => !request.concerns ⟨e.path⟩ e.line := by
  cases request with
  | ignore key line content => exact congrArg (_ :: ·) (h.restore_entries key line)
  | restore key line => exact h.restore_entries key line
  | ignoreLines key lineCount lineAt? => rfl
  | restoreAll key => rfl
  | clear => simp [perform, Request.added, Request.concerns]
  | follow key edits => cases hrequest

/-- A request leaves the entries that it is not about, in their order. -/
theorem Distinct.perform_others (h : r.Distinct) (now : Nat) {request : Request}
    (hrequest : request.isFollow = false) :
    (r.perform now request).registry.entries.filter (fun e => !request.concerns ⟨e.path⟩ e.line)
      = r.entries.filter fun e => !request.concerns ⟨e.path⟩ e.line := by
  have hnone : (request.added now).filter (fun e => !request.concerns ⟨e.path⟩ e.line) = [] := by
    apply List.filter_eq_nil_iff.2
    intro e he
    simp [Request.concerns_of_mem_added he]
  rw [h.perform_entries now hrequest, List.filter_append, hnone, List.nil_append, List.filter_filter]
  simp only [Bool.and_self]

/-- The ignored lines of a document are listed without repetition. -/
theorem Distinct.nodup_linesOf (h : r.Distinct) (key : DocumentKey) : (r.linesOf key).Nodup := by
  apply List.pairwise_map.2
  apply List.pairwise_filter.2
  refine h.imp ?_
  intro e f hmeets he hf hline
  exact hmeets (Entry.meets_of_isAt (Entry.isAt_iff.2 ⟨hline, he⟩) (Entry.isAt_iff.2 ⟨rfl, hf⟩))

end OneRequest

/-! ## A document that is ignored step by step -/

def performAll (r : Registry) (requests : List (Nat × Request)) : Registry :=
  requests.foldl (fun r (now, request) => (r.perform now request).registry) r

theorem performAll_append (r : Registry) (requests requests' : List (Nat × Request)) :
    r.performAll (requests ++ requests') = (r.performAll requests).performAll requests' :=
  List.foldl_append

/-- The first lines of a document that has no entries are ignored one after the other. -/
theorem performAll_ignore (r : Registry) (key : DocumentKey) (lineAt? : Nat → Option Text)
    (now n : Nat) :
    (r.restoreAll key).performAll ((List.range n).map fun line =>
        (now, .ignore key line ((lineAt? line).getD [])))
      = r.ignoreLines key n lineAt? now := by
  induction n with
  | zero => rfl
  | succ n ih =>
    rw [List.range_succ, List.map_append, performAll_append, ih]
    change Registry.ignore _ key n ((lineAt? n).getD []) now = _
    rw [Registry.ignore, Registry.restore, ignoreLines, List.eraseP_of_forall_not]
    · simp [ignoreLines, allLines, List.range_succ]
    · intro e he
      rcases List.mem_append.1 he with he | he
      · obtain ⟨line, hline, rfl⟩ := List.mem_map.1 (List.mem_reverse.1 he)
        have hlt := List.mem_range.1 hline
        simp [Entry.isAt, Nat.ne_of_lt hlt]
      · have hother : e.belongsTo key = false := by simpa using (List.mem_filter.1 he).2
        simp [Entry.isAt, hother]

/-- A request does what its steps do. -/
theorem perform_eq_steps (r : Registry) (now : Nat) (request : Request) :
    (r.perform now request).registry = r.performAll (request.steps.map (now, ·)) := by
  cases request with
  | ignoreLines key lineCount lineAt? =>
    have hlines := performAll_ignore r key lineAt? now lineCount
    rw [Request.steps, List.map_cons, List.map_map]
    exact hlines.symm
  | _ => rfl

def steps (requests : List (Nat × Request)) : List (Nat × Request) :=
  requests.flatMap fun (now, request) => request.steps.map (now, ·)

theorem performAll_steps (r : Registry) (requests : List (Nat × Request)) :
    r.performAll requests = r.performAll (steps requests) := by
  induction requests generalizing r with
  | nil => rfl
  | cons q requests ih =>
    change (r.perform q.1 q.2).registry.performAll requests = _
    rw [ih, perform_eq_steps, ← performAll_append]
    rfl

/-! ## Histories -/

/-- The last step about a line. -/
def latest (steps : List (Nat × Request)) (key : DocumentKey) (line : Nat) : Option (Nat × Request) :=
  steps.reverse.find? fun q => q.2.concerns key line

/-- Some step was about one entry after the last step about another one. -/
def MoreRecent (steps : List (Nat × Request)) (e f : Entry) : Prop :=
  ∃ recent, recent <:+ steps ∧ (∃ q ∈ recent, q.2.concerns ⟨e.path⟩ e.line) ∧
    ∀ q ∈ recent, ¬ q.2.concerns ⟨f.path⟩ f.line

section Steps

variable {steps : List (Nat × Request)} {q : Nat × Request} {key : DocumentKey} {line : Nat}
  {e f : Entry}

theorem latest_append_of_concerns (h : q.2.concerns key line) :
    latest (steps ++ [q]) key line = some q := by
  simp [latest, h]

theorem latest_append_of_not_concerns (h : q.2.concerns key line = false) :
    latest (steps ++ [q]) key line = latest steps key line := by
  simp [latest, h]

theorem MoreRecent.append (h : MoreRecent steps e f) (hq : q.2.concerns ⟨f.path⟩ f.line = false) :
    MoreRecent (steps ++ [q]) e f := by
  obtain ⟨recent, ⟨old, rfl⟩, ⟨p, hp, hconcerns⟩, hnone⟩ := h
  refine ⟨recent ++ [q], ⟨old, (List.append_assoc old recent [q]).symm⟩, ?_, ?_⟩
  · exact ⟨p, List.mem_append_left [q] hp, hconcerns⟩
  · intro p hp
    rcases List.mem_append.1 hp with hp | hp
    · exact hnone p hp
    · rw [List.mem_singleton.1 hp, hq]
      exact Bool.false_ne_true

theorem moreRecent_last (he : q.2.concerns ⟨e.path⟩ e.line)
    (hf : q.2.concerns ⟨f.path⟩ f.line = false) : MoreRecent (steps ++ [q]) e f := by
  refine ⟨[q], List.suffix_append steps [q], ⟨q, List.mem_singleton_self q, he⟩, ?_⟩
  intro p hp
  rw [List.mem_singleton.1 hp, hf]
  exact Bool.false_ne_true

end Steps

/-- The registry is what some steps leave. -/
structure Recalls (r : Registry) (steps : List (Nat × Request)) : Prop where
  /-- A line is ignored just if the last step about it ignored it. -/
  isIgnored_eq : ∀ key line,
    r.isIgnored key line = (latest steps key line).any fun q => q.2.isIgnore
  /-- No line is listed twice. -/
  distinct : r.Distinct
  /-- An entry has the content and the time of the last step about its line. -/
  latest_eq : ∀ e ∈ r.entries,
    latest steps ⟨e.path⟩ e.line = some (e.timestamp, .ignore ⟨e.path⟩ e.line e.content)
  /-- The line that was ignored last is listed first. -/
  ordered : r.entries.Pairwise (MoreRecent steps)

theorem recalls_nil : Recalls {} [] where
  isIgnored_eq _ _ := rfl
  distinct := .nil
  latest_eq _ he := absurd he List.not_mem_nil
  ordered := .nil

section Recalls

variable {r : Registry} {steps : List (Nat × Request)}

/-- A step puts the entry of the line that it ignores in front, and takes away the entries of the
lines that it is about. -/
theorem Recalls.perform (h : Recalls r steps) (now : Nat) {request : Request}
    (hstep : request.isStep) :
    Recalls (r.perform now request).registry (steps ++ [(now, request)]) := by
  have hfollow := Request.isFollow_of_isStep hstep
  have hentries := h.distinct.perform_entries now hfollow
  have hkept {e : Entry} (he : e ∈ r.entries.filter fun e => !request.concerns ⟨e.path⟩ e.line) :
      e ∈ r.entries ∧ request.concerns ⟨e.path⟩ e.line = false := by
    simpa using he
  constructor
  case isIgnored_eq =>
    intro key line
    rw [isIgnored, hentries, List.any_append, List.any_filter]
    simp only [Request.not_concerns_and_isAt]
    cases hconcerns : request.concerns key line with
    | true =>
      rw [latest_append_of_concerns hconcerns, Request.any_added_of_concerns hstep hconcerns]
      simp
    | false =>
      rw [latest_append_of_not_concerns hconcerns, Request.any_added_of_not_concerns hconcerns]
      have hsame := h.isIgnored_eq key line
      rw [isIgnored] at hsame
      simpa using hsame
  case distinct =>
    apply (h.distinct.perform_iff now _).2
    · rintro key edits rfl
      cases hfollow
    · cases request with
      | follow key edits => cases hfollow
      | _ => trivial
  case latest_eq =>
    intro e he
    rw [hentries] at he
    rcases List.mem_append.1 he with he | he
    · obtain ⟨rfl, rfl⟩ := (Request.mem_added_iff hstep).1 he
      exact latest_append_of_concerns (Request.concerns_of_mem_added he)
    · obtain ⟨hmem, hother⟩ := hkept he
      rw [latest_append_of_not_concerns hother]
      exact h.latest_eq e hmem
  case ordered =>
    rw [hentries]
    apply List.pairwise_append.2
    refine ⟨Request.pairwise_added hstep _, ?_, ?_⟩
    · have hordered := h.ordered.filter fun e => !request.concerns ⟨e.path⟩ e.line
      apply hordered.imp_of_mem
      intro e f _ hf hrecent
      exact hrecent.append (hkept hf).2
    · intro e he f hf
      exact moreRecent_last (Request.concerns_of_mem_added he) (hkept hf).2

theorem Recalls.performAll (h : Recalls r steps) {steps' : List (Nat × Request)}
    (hsteps : ∀ q ∈ steps', q.2.isStep) : Recalls (r.performAll steps') (steps ++ steps') := by
  induction steps' generalizing r steps with
  | nil => rwa [List.append_nil]
  | cons q steps' ih =>
    obtain ⟨hq, hsteps⟩ := List.forall_mem_cons.1 hsteps
    have hrest := ih (h.perform q.1 hq) hsteps
    rwa [List.append_assoc] at hrest

/-- Without edits, a registry that was empty at first recalls the steps of all requests. -/
theorem recalls_performAll {requests : List (Nat × Request)}
    (hrequests : ∀ q ∈ requests, q.2.isFollow = false) :
    Recalls (performAll {} requests) (Registry.steps requests) := by
  rw [performAll_steps]
  apply recalls_nil.performAll
  intro q hq
  obtain ⟨p, hp, hq⟩ := List.mem_flatMap.1 hq
  obtain ⟨step, hstep, rfl⟩ := List.mem_map.1 hq
  exact Request.isStep_of_mem_steps (hrequests p hp) hstep

/-- The ignored lines of a document are those that the last step about them ignored. -/
theorem Recalls.mem_linesOf_iff (h : Recalls r steps) (key : DocumentKey) (line : Nat) :
    line ∈ r.linesOf key ↔ (latest steps key line).any fun q => q.2.isIgnore := by
  rw [Registry.mem_linesOf_iff, ← h.isIgnored_eq, isIgnored, List.any_eq_true]

end Recalls

end Registry

namespace Kept

variable {σ : Type} [Store σ]

theorem performAll_registry (k : Kept σ) (requests : List (Nat × Registry.Request)) :
    (k.performAll requests).registry = k.registry.performAll requests := by
  induction requests generalizing k with
  | nil => rfl
  | cons q requests ih =>
    change ((k.perform q.1 q.2).2.performAll requests).registry = _
    rw [ih, perform_registry]
    rfl

/-- In every run without edits from an empty store, a line is ignored just if the last step about it
ignored it, and ignored lines are listed once each, the most recently ignored one first, with what
that step says. To restore a line returns whether it was ignored, and to restore a document how many
lines of it were. No request changes what is listed of the lines that it is not about. -/
theorem run_lists_recent (store : σ) (hstore : (Store.load store).getD [] = [])
    (requests : List (Nat × Registry.Request)) (hrequests : ∀ q ∈ requests, q.2.isFollow = false) :
    let k := (load store).performAll requests
    let steps := Registry.steps requests
    let ignored := fun key line => (Registry.latest steps key line).any fun q => q.2.isIgnore
    k.registry.Recalls steps ∧
      (∀ now key line, (k.perform now (.restore key line)).1 = .flag (ignored key line)) ∧
      (∀ now key, ∃ lines : List Nat, lines.Nodup ∧ (∀ line, line ∈ lines ↔ ignored key line) ∧
        (k.perform now (.restoreAll key)).1 = .count lines.length) ∧
      ∀ now request, request.isFollow = false →
        (k.perform now request).2.registry.entries.filter
            (fun e => !request.concerns ⟨e.path⟩ e.line)
          = k.registry.entries.filter fun e => !request.concerns ⟨e.path⟩ e.line := by
  intro k steps ignored
  have hrecalls : k.registry.Recalls steps := by
    have hstart : (load store).registry = {} := congrArg Registry.mk hstore
    rw [performAll_registry, hstart]
    exact Registry.recalls_performAll hrequests
  refine ⟨hrecalls, ?_, ?_, ?_⟩
  · intro now key line
    exact congrArg Registry.Reply.flag (hrecalls.isIgnored_eq key line)
  · intro now key
    refine ⟨k.registry.linesOf key, hrecalls.distinct.nodup_linesOf key, ?_, rfl⟩
    exact hrecalls.mem_linesOf_iff key
  · intro now request hrequest
    rw [perform_registry]
    exact hrecalls.distinct.perform_others now hrequest

/-- A line is ignored, its document is ignored, the other line of it is restored, and the line is
ignored once more: it stands in front of a line of another document that was ignored in between. -/
theorem run_lists_recent_again :
    let key : DocumentKey := ⟨['/', 'p']⟩
    let other : DocumentKey := ⟨['/', 'q']⟩
    let requests : List (Nat × Registry.Request) :=
      [(1, .ignore key 1 ['x']), (2, .ignoreAll ⟨key, ['a', '\n', 'b'], 0⟩), (3, .ignore other 0 ['z']),
        (4, .restore key 0), (5, .ignore key 1 ['y'])]
    let k := (load ({} : MemoryStore)).performAll requests
    k.registry.entries = [⟨key.path, 1, ['y'], 5⟩, ⟨other.path, 0, ['z'], 3⟩] ∧
      k.registry.Recalls (Registry.steps requests) ∧
      (k.perform 6 (.restore key 0)).1 = .flag false := by
  intro key other requests k
  have hrequests : ∀ q ∈ requests, q.2.isFollow = false := by
    simp [requests, Registry.Request.ignoreAll, Registry.Request.isFollow]
  obtain ⟨hrecalls, hrestore, -⟩ := run_lists_recent ({} : MemoryStore) rfl requests hrequests
  exact ⟨by decide +kernel, hrecalls, (hrestore 6 key 0).trans (by decide +kernel)⟩

end Kept

end Swatch.Ignored

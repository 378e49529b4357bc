-- SUMMARY: The edit between a text and the text with whole lines put into it.
import Swatch.Proofs.Document.Position

/-!
# The edit that puts in lines

The edit between two texts keeps all that they start with, then all that they end
with. If whole lines are put in front of a line, it is an insertion of as many line
feeds. It starts behind the line's old place as far as the text that follows reads the
same, so it can start in the middle of a line.
-/

namespace Swatch

namespace Edit

/-! ## Common starts and ends -/

/-- A common start is found in full: behind it the texts differ at once, unless one of them ends. -/
theorem splitCommon_spec {old new common oldRest newRest : Text}
    (h : splitCommon old new = (common, oldRest, newRest)) :
    old = common ++ oldRest ∧ new = common ++ newRest ∧
      (oldRest = [] ∨ newRest = [] ∨ oldRest.head? ≠ newRest.head?) := by
  fun_induction splitCommon old new generalizing common oldRest newRest with
  | case1 old d new common' old' new' heq ih =>
    obtain ⟨rfl, rfl, rfl⟩ : d :: common' = common ∧ old' = oldRest ∧ new' = newRest := by
      simpa using h
    obtain ⟨hold, hnew, hdiffer⟩ := ih heq
    exact ⟨by rw [hold]; rfl, by rw [hnew]; rfl, hdiffer⟩
  | case2 c old d new hne =>
    obtain ⟨rfl, rfl, rfl⟩ : [] = common ∧ c :: old = oldRest ∧ d :: new = newRest := by
      simpa using h
    exact ⟨rfl, rfl, .inr (.inr (by simpa using hne))⟩
  | case3 old new hnone =>
    obtain ⟨rfl, rfl, rfl⟩ : [] = common ∧ old = oldRest ∧ new = newRest := by simpa using h
    refine ⟨rfl, rfl, ?_⟩
    cases old with
    | nil => exact .inl rfl
    | cons c old =>
      cases new with
      | nil => exact .inr (.inl rfl)
      | cons d new => exact absurd rfl (hnone c old d new rfl)

theorem splitCommon_append (start old new : Text) :
    splitCommon (start ++ old) (start ++ new)
      = (start ++ (splitCommon old new).1, (splitCommon old new).2) := by
  induction start with
  | nil => rfl
  | cons c start ih => simp [splitCommon, ih]

/-- A text ends in common with all that it is put in front of. -/
theorem commonEnd_append (inserted rest : Text) :
    commonEnd rest (inserted ++ rest) = rest.length := by
  have h := splitCommon_append rest.reverse [] inserted.reverse
  rw [List.append_nil] at h
  rw [commonEnd, List.reverse_append, h]
  simp [splitCommon]

/-! ## Putting in a text -/

/-- The edit that puts a text in between: it starts as far behind as the texts read the same, and
puts in the same characters turned around accordingly. -/
theorem between?_insert (before inserted behind : Text) (hne : inserted ≠ []) :
    ∃ same rest text, behind = same ++ rest ∧ same ++ text = inserted ++ same ∧
      (rest = [] ∨ rest.head? ≠ text.head?) ∧
      between? (before ++ behind) (before ++ inserted ++ behind)
        = some ⟨.after (before ++ same), .after (before ++ same), text⟩ := by
  obtain ⟨⟨same, rest, newRest⟩, hsplit⟩ : ∃ p, splitCommon behind (inserted ++ behind) = p :=
    ⟨_, rfl⟩
  obtain ⟨hold, hnew, hdiffer⟩ := splitCommon_spec hsplit
  -- What is left of the longer text ends in what is left of the shorter one.
  obtain ⟨text, rfl, hturn⟩ :
      ∃ text, newRest = text ++ rest ∧ same ++ text = inserted ++ same := by
    have happ : same ++ newRest = inserted ++ same ++ rest := by
      rw [← hnew, List.append_assoc, ← hold]
    have hlength := congrArg List.length happ
    simp only [List.length_append] at hlength
    rw [← List.take_append_drop inserted.length newRest, ← List.append_assoc] at happ
    obtain ⟨hturn, hdrop⟩ := List.append_inj happ (by
      simp only [List.length_append, List.length_take]
      omega)
    exact ⟨newRest.take inserted.length, by rw [← hdrop, List.take_append_drop], hturn⟩
  have hlength : text.length = inserted.length := by
    have := congrArg List.length hturn
    simp only [List.length_append] at this
    omega
  have htext : text ≠ [] := by
    rintro rfl
    exact hne (List.eq_nil_of_length_eq_zero hlength.symm)
  have hnever : ¬before ++ behind = before ++ inserted ++ behind := by
    intro he
    have := congrArg List.length he
    have := List.length_pos_iff.2 hne
    simp only [List.length_append] at *
    omega
  refine ⟨same, rest, text, hold, hturn, ?_, ?_⟩
  · rcases hdiffer with hrest | hnil | hhead
    · exact .inl hrest
    · exact absurd (List.append_eq_nil_iff.1 hnil).1 htext
    · obtain ⟨c, text, rfl⟩ := List.exists_cons_of_ne_nil htext
      exact .inr (by simpa using hhead)
  · have hcommon := splitCommon_append before behind (inserted ++ behind)
    rw [hsplit, ← List.append_assoc] at hcommon
    rw [between?, if_neg hnever, hcommon]
    simp [commonEnd_append]

end Edit

/-! ## Putting in lines -/

/-- A text with some lines put in front of its line `line`. -/
def insertLines (t : Text) (line : Nat) (lines : List Text) : Text :=
  ((documentLines t).take line).flatten ++ lines.flatMap (· ++ ['\n'])
    ++ ((documentLines t).drop line).flatten

/-- Whole lines end in a line feed. -/
theorem exists_flatMap_feed {lines : List Text} (hne : lines ≠ []) :
    ∃ start, lines.flatMap (· ++ ['\n']) = start ++ ['\n'] := by
  obtain ⟨init, last, rfl⟩ := (List.eq_nil_or_concat lines).resolve_left hne
  exact ⟨init.flatMap (· ++ ['\n']) ++ last, by simp⟩

/-- If the insertion of whole lines starts in front of a line, so does what it puts in end. -/
theorem lastPart_turned {before same inserted text : Text} (hturn : same ++ text = inserted ++ same)
    (hinserted : ∃ start, inserted = start ++ ['\n'])
    (hstart : Text.lastPart (before ++ same) = []) :
    Text.lastPart (before ++ same ++ text) = [] := by
  rw [List.append_assoc, hturn, ← List.append_assoc]
  by_cases hsame : '\n' ∈ same
  · rw [Text.lastPart_append_of_mem _ hsame] at hstart ⊢
    exact hstart
  · rw [Text.lastPart_append_of_notMem _ hsame] at hstart
    obtain ⟨start, rfl⟩ := hinserted
    rw [(List.append_eq_nil_iff.1 hstart).2, List.append_nil, ← List.append_assoc,
      Text.lastPart_append_feed]

/-- Putting in lines puts in a text that breaks lines, and does so in front of a line if it starts
there. -/
theorem Edit.between?_insertLines (t : Text) (k : Nat) {lines : List Text} (hne : lines ≠ []) :
    ∃ before text rest, t = before ++ rest ∧ insertLines t k lines = before ++ text ++ rest ∧
      '\n' ∈ text ∧ (rest = [] ∨ rest.head? ≠ text.head?) ∧
      (before.lastPart = [] → Text.lastPart (before ++ text) = []) ∧
      between? t (insertLines t k lines) = some ⟨.after before, .after before, text⟩ := by
  obtain ⟨start, hinserted⟩ := exists_flatMap_feed hne
  obtain ⟨same, rest, text, hbehind, hturn, hdiffer, hbetween⟩ := between?_insert
    ((documentLines t).take k).flatten (lines.flatMap (· ++ ['\n']))
    ((documentLines t).drop k).flatten (by simp [hinserted])
  have hold : ((documentLines t).take k).flatten ++ ((documentLines t).drop k).flatten = t := by
    rw [← List.flatten_append, List.take_append_drop, documentLines_flatten]
  have hnew : insertLines t k lines
      = ((documentLines t).take k).flatten ++ same ++ text ++ rest := by
    rw [insertLines, hbehind, List.append_assoc _ same, hturn]
    simp only [List.append_assoc]
  have hfeed : '\n' ∈ text := by
    have hcount := congrArg (List.count '\n') hturn
    rw [hinserted] at hcount
    simp only [List.count_append, List.count_singleton_self] at hcount
    exact List.count_pos_iff.1 (by omega)
  refine ⟨((documentLines t).take k).flatten ++ same, text, rest, ?_, hnew, hfeed, hdiffer, ?_, ?_⟩
  · rw [List.append_assoc, ← hbehind, hold]
  · exact lastPart_turned hturn ⟨start, hinserted⟩
  · rwa [hold] at hbetween

theorem insertLines_onlyFeeds {t : Text} (h : t.OnlyFeeds) {k : Nat} {lines : List Text}
    (hlines : ∀ line ∈ lines, line.OnlyFeeds) : Text.OnlyFeeds (insertLines t k lines) := by
  have hold : t = ((documentLines t).take k).flatten ++ ((documentLines t).drop k).flatten := by
    rw [← List.flatten_append, List.take_append_drop, documentLines_flatten]
  rw [hold] at h
  refine (h.left.append ?_).append h.right
  intro c hc hbreak
  obtain ⟨line, hline, hc⟩ := List.mem_flatMap.1 hc
  rcases List.mem_append.1 hc with hc | hc
  · exact hlines line hline c hc hbreak
  · simpa using hc

end Swatch

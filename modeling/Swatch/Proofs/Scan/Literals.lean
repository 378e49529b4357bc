-- SUMMARY: Literals of a window are those of the whole text on its lines, but for torn number lists.
import Swatch.Proofs.Scan.Window

/-!
# Literals in a window

No literal looks beyond its line, so the tokens of a window are those of the whole text
that start on its lines. Marked literals and braced ones are told by their tokens. A
number list has to stand alone, though, and what it stands next to is looked for beyond
blanks and so beyond the ends of lines. A list at the edge of a window may stand alone
in the window and be part of a longer list in the text: such a list is torn. The window
marks it and the whole text does not; apart from torn lists the two mark the same.
-/

namespace Swatch

namespace Tuple

/-! ## Neighbours -/

/-- A list goes on in front of a tuple, or a decimal point stands there. -/
def goesOnBefore (before : Text) : Bool :=
  match before.dropWhile isBlank with
  | '.' :: _ => true
  | ',' :: rest => endsInDigit rest
  | _ => false

/-- A list goes on behind a tuple, or a fraction stands there. -/
def goesOnBehind (after : Text) : Bool :=
  match after.dropWhile isBlank with
  | ',' :: rest => startsWithDigit rest
  | '.' :: d :: _ => d.isDigit
  | _ => false

theorem isGlued_eq (before after : Text) :
    isGlued before after = (goesOnBefore before || goesOnBehind after) := rfl

theorem startsWithDigit_append {t : Text} (h : startsWithDigit t) (beyond : Text) :
    startsWithDigit (t ++ beyond) := by
  unfold startsWithDigit at h ⊢
  rw [List.dropWhile_append]
  cases hrest : t.dropWhile isBlank with
  | nil => simp [hrest] at h
  | cons c rest => simpa [hrest] using h

theorem goesOnBefore_append {before : Text} (h : goesOnBefore before) (left : Text) :
    goesOnBefore (before ++ left) := by
  unfold goesOnBefore at h ⊢
  rw [List.dropWhile_append]
  split at h
  · next rest hrest => simp [hrest]
  · next rest hrest =>
    have hdigit : endsInDigit (rest ++ left) := startsWithDigit_append h left
    simpa [hrest] using hdigit
  · cases h

theorem goesOnBehind_append {after : Text} (h : goesOnBehind after) (right : Text) :
    goesOnBehind (after ++ right) := by
  unfold goesOnBehind at h ⊢
  rw [List.dropWhile_append]
  split at h
  · next rest hrest => simpa [hrest] using startsWithDigit_append h right
  · next d rest hrest => simpa [hrest] using h
  · cases h

/-- More text around a tuple does not set it free. -/
theorem isGlued_append {before after : Text} (h : isGlued before after) (left right : Text) :
    isGlued (before ++ left) (after ++ right) := by
  rw [isGlued_eq, Bool.or_eq_true] at h ⊢
  exact h.imp (goesOnBefore_append · left) (goesOnBehind_append · right)

theorem startsWithDigit_return (t : Text) : startsWithDigit (t ++ ['\r']) = startsWithDigit t := by
  unfold startsWithDigit
  rw [List.dropWhile_append]
  cases hrest : t.dropWhile isBlank with
  | nil => rfl
  | cons c rest => simp

/-- A carriage return at the end does not make a tuple part of a list. -/
theorem isGlued_return (before after : Text) :
    isGlued before (after ++ ['\r']) = isGlued before after := by
  have hbehind : goesOnBehind (after ++ ['\r']) = goesOnBehind after := by
    unfold goesOnBehind
    rw [List.dropWhile_append]
    cases hrest : after.dropWhile isBlank with
    | nil => rfl
    | cons c rest =>
      by_cases hcomma : c = ','
      · subst hcomma
        exact startsWithDigit_return rest
      · by_cases hpoint : c = '.'
        · subst hpoint
          cases rest <;> rfl
        · simp [hcomma, hpoint]
  rw [isGlued_eq, isGlued_eq, hbehind]

end Tuple

/-! ## Tokens of a window -/

/-- A carriage return at the end of a text starts no token and is part of none. -/
theorem Pattern.IsLocal.occurrences_return {p : Pattern} (hp : p.IsLocal) (base : Nat) (t : Text)
    {ret : Text} (hret : ret = [] ∨ ret = ['\r']) :
    p.occurrences base (t ++ ret) = (p.occurrences base t).map (·.widen [] ret) := by
  rcases hret with rfl | rfl
  · simp [Occurrence.widen]
  · have hsplit := hp.occurrencesFrom_append (c := '\r') rfl [] base t []
    rwa [occurrencesFrom, List.append_nil] at hsplit

/-- Tokens of a pattern that cover the same bytes are the same. -/
theorem Pattern.eq_of_extent_eq {p : Pattern} {base : Nat} {t : Text} {o o' : Occurrence}
    (ho : o ∈ p.occurrences base t) (ho' : o' ∈ p.occurrences base t)
    (hextent : o.extent = o'.extent) : o = o' := by
  have hpairwise : (p.occurrences base t).Pairwise fun o o' => o.extent.Disjoint o'.extent :=
    (p.pairwise_occurrences base t).imp Interval.disjoint_of_le
  have hsymm : Std.Symm fun o o' : Occurrence => o.extent.Disjoint o'.extent := ⟨fun _ _ h => h.symm⟩
  by_contra hne
  have hstart : o.offset ∈ o.extent := ⟨Nat.le_refl _, (finds_of_mem ho).start_lt_stop⟩
  exact hpairwise.forall ho ho' hne o.offset hstart (hextent ▸ hstart)

namespace Source

variable {s : Source} {lines : LineRange} {before part after : Text} {window : Interval}

/-- What stands in front of a window, last character first. -/
def textBefore (s : Source) (window : Interval) : Text :=
  (s.text.slice ⟨0, window.start⟩).reverse

/-- What stands behind a window. -/
def textBehind (s : Source) (window : Interval) : Text :=
  s.text.slice ⟨window.stop, s.text.size⟩

/-- What stands around a window: whole lines, but for a carriage return. -/
theorem HasWindow.text_around (h : s.HasWindow lines before part after)
    (hwindow : s.window? lines = some window) :
    ∃ ret, stripReturn part ++ ret = part ∧ (ret = [] ∨ ret = ['\r']) ∧
      s.textBefore window = before.reverse ∧ s.textBehind window = ret ++ after := by
  obtain ⟨ret, htext, hpart, hret⟩ := h.text_eq
  rw [h.window_eq] at hwindow
  obtain rfl := Option.some.inj hwindow
  refine ⟨ret, hpart, hret, ?_, ?_⟩
  · have hslice := Text.slice_append [] before (stripReturn part ++ (ret ++ after))
    rw [List.nil_append, htext, Text.size_nil, Nat.zero_add] at hslice
    rw [textBefore, hslice]
  · have hslice := Text.slice_append (before ++ stripReturn part) (ret ++ after) []
    rw [← Text.size_append, List.append_nil, List.append_assoc, htext, Text.size_append] at hslice
    exact hslice

/-- The tokens of a window are those of the text that start on its lines. -/
theorem HasWindow.mem_occurrences_iff (h : s.HasWindow lines before part after)
    (hwindow : s.window? lines = some window) {p : Pattern} (hp : p.IsLocal) {o : Occurrence} :
    o ∈ p.occurrences 0 s.text ∧ s.lineOf o.offset ∈ lines ↔
      ∃ o' ∈ p.occurrences window.start (s.text.slice window),
        o = o'.widen (s.textBefore window) (s.textBehind window) := by
  obtain ⟨ret, hpart, hret, hbefore, hbehind⟩ := h.text_around hwindow
  rw [h.window_eq] at hwindow
  obtain rfl := Option.some.inj hwindow
  rw [h.slice_eq, hbefore, hbehind]
  obtain ⟨above, below, hsplit, habove, hbelow⟩ :=
    hp.occurrences_lines part h.hasLines.before_ends h.hasLines.after_starts
  rw [h.hasLines.text_eq, ← hpart, hp.occurrences_return before.size (stripReturn part) hret]
    at hsplit
  constructor
  · rintro ⟨ho, hline⟩
    have hfinds := Pattern.finds_of_mem ho
    have hstart := (h.first_le_iff o.offset).1 hline.1
    rw [hsplit] at ho
    rcases List.mem_append.1 ho with ho | ho
    · rcases List.mem_append.1 ho with ho | ho
      · exact absurd hstart (Nat.not_le_of_lt (habove o ho))
      · obtain ⟨o', ho', rfl⟩ := List.mem_map.1 ho
        obtain ⟨o'', ho'', rfl⟩ := List.mem_map.1 ho'
        exact ⟨o'', ho'', by simp⟩
    · -- Below the last line there is either a line feed or nothing.
      have hlow := hbelow o ho
      rcases (h.le_last_iff o.offset).1 hline.2 with rfl | hle
      · have hstop := hfinds.stop_add_after
        have hlt := hfinds.start_lt_stop
        have hsize := congrArg Text.size h.hasLines.text_eq
        simp only [Text.size_append, Text.size_nil] at hsize
        omega
      · omega
  · rintro ⟨o', ho', rfl⟩
    have hfinds := Pattern.finds_of_mem ho'
    have hlt := hfinds.start_lt_stop
    have hstop := hfinds.stop_add_after
    refine ⟨?_, h.lineOf_mem hfinds.base_le ?_⟩
    · rw [hsplit]
      refine List.mem_append_left _ (List.mem_append_right _ (List.mem_map.2 ⟨o'.widen [] ret, ?_, ?_⟩))
      · exact List.mem_map_of_mem ho'
      · simp
    · simp only [Occurrence.widen_offset] at hstop ⊢
      omega

/-- Literals that are told by their tokens are those of the text that start on the lines. -/
theorem HasWindow.mem_filterMap_iff (h : s.HasWindow lines before part after)
    (hwindow : s.window? lines = some window) {p : Pattern} (hp : p.IsLocal)
    {f : Occurrence → Option Literal} (hwiden : ∀ o left right, f (o.widen left right) = f o)
    (hextent : ∀ {o l}, f o = some l → l.extent = o.extent) {l : Literal} :
    l ∈ (p.occurrences window.start (s.text.slice window)).filterMap f ↔
      l ∈ (p.occurrences 0 s.text).filterMap f ∧ s.lineOf l.extent.start ∈ lines := by
  simp only [List.mem_filterMap]
  constructor
  · rintro ⟨o, ho, hl⟩
    obtain ⟨ho', hline⟩ := (h.mem_occurrences_iff hwindow hp).2 ⟨o, ho, rfl⟩
    refine ⟨⟨_, ho', by rw [hwiden, hl]⟩, ?_⟩
    rwa [hextent hl]
  · rintro ⟨⟨o, ho, hl⟩, hline⟩
    rw [hextent hl] at hline
    obtain ⟨o', ho', rfl⟩ := (h.mem_occurrences_iff hwindow hp).1 ⟨ho, hline⟩
    exact ⟨o', ho', by rw [← hl, hwiden]⟩

/-! ## Torn tuples -/

/-- The tuples that some lines show standing alone, though they are part of a longer list in the
text. -/
def tornTuples (s : Source) (lines : LineRange) : List Occurrence :=
  match s.window? lines with
  | none => []
  | some window =>
    (Tuple.token.occurrences window.start (s.text.slice window)).filter fun o =>
      s.admitsTuple o.offset && (Tuple.literal? o).isSome && !Tuple.isGlued o.before o.after
        && Tuple.isGlued (o.before ++ s.textBefore window) (o.after ++ s.textBehind window)

/-- A tuple of the text that stands alone in it. -/
def HasTuple (s : Source) (l : Literal) : Prop :=
  ∃ o ∈ Tuple.token.occurrences 0 s.text, Tuple.isGlued o.before o.after = false ∧
    Tuple.literal? o = some l ∧ s.admitsTuple o.offset

theorem tornTuples_allLines (s : Source) : s.tornTuples s.allLines = [] := by
  have hwindow := s.hasWindow_allLines.window_eq
  obtain ⟨ret, -, hret, hbefore, hbehind⟩ := s.hasWindow_allLines.text_around hwindow
  have hglued (o : Occurrence) : Tuple.isGlued (o.before ++ [].reverse) (o.after ++ (ret ++ []))
      = Tuple.isGlued o.before o.after := by
    rcases hret with rfl | rfl
    · simp
    · simpa using Tuple.isGlued_return o.before o.after
  simp only [tornTuples, hwindow, hbefore, hbehind, hglued]
  refine List.filter_eq_nil_iff.2 fun o _ => ?_
  cases Tuple.isGlued o.before o.after <;> simp

theorem mem_tuples {l : Literal} : l ∈ s.tuples window ↔
    ∃ o ∈ Tuple.token.occurrences window.start (s.text.slice window),
      Tuple.isGlued o.before o.after = false ∧ Tuple.literal? o = some l ∧
        s.admitsTuple o.offset := by
  rw [tuples, List.mem_filter, Tuple.literals_eq, List.mem_filterMap]
  constructor
  · rintro ⟨⟨o, ho, hl⟩, hadmits⟩
    split at hl
    · cases hl
    · next hglued =>
      rw [Tuple.literal?_extent hl] at hadmits
      exact ⟨o, ho, Bool.eq_false_iff.2 hglued, hl, hadmits⟩
  · rintro ⟨o, ho, hglued, hl, hadmits⟩
    refine ⟨⟨o, ho, by simp [hglued, hl]⟩, ?_⟩
    rwa [Tuple.literal?_extent hl]

/-- A tuple that is marked in a window and not torn is one that stands alone in the text. -/
theorem HasWindow.mem_tuples_iff (h : s.HasWindow lines before part after)
    (hwindow : s.window? lines = some window) {l : Literal} :
    l ∈ s.tuples window ∧ l.extent ∉ (s.tornTuples lines).map Occurrence.extent ↔
      s.HasTuple l ∧ s.lineOf l.extent.start ∈ lines := by
  simp only [mem_tuples, tornTuples, hwindow]
  constructor
  · rintro ⟨⟨o, ho, hglued, hl, hadmits⟩, hnot⟩
    obtain ⟨ho', hline⟩ := (h.mem_occurrences_iff hwindow Tuple.isLocal_token).2 ⟨o, ho, rfl⟩
    refine ⟨⟨_, ho', Bool.eq_false_iff.2 fun hwide => hnot ?_, hl, hadmits⟩, ?_⟩
    · refine List.mem_map.2 ⟨o, List.mem_filter.2 ⟨ho, ?_⟩, (Tuple.literal?_extent hl).symm⟩
      have hwide' : Tuple.isGlued (o.before ++ s.textBefore window)
        (o.after ++ s.textBehind window) := hwide
      simp [hadmits, hl, hglued, hwide']
    · rwa [Tuple.literal?_extent hl]
  · rintro ⟨⟨o, ho, hglued, hl, hadmits⟩, hline⟩
    rw [Tuple.literal?_extent hl] at hline ⊢
    obtain ⟨o', ho', rfl⟩ := (h.mem_occurrences_iff hwindow Tuple.isLocal_token).1 ⟨ho, hline⟩
    refine ⟨⟨o', ho', Bool.eq_false_iff.2 fun hnarrow => ?_, hl, hadmits⟩, fun hmem => ?_⟩
    · have hwide := Tuple.isGlued_append hnarrow (s.textBefore window) (s.textBehind window)
      exact absurd (hglued.symm.trans hwide) (by decide)
    · obtain ⟨torn, htorn, hextent⟩ := List.mem_map.1 hmem
      obtain ⟨htorn, hwide⟩ := List.mem_filter.1 htorn
      have heq := Pattern.eq_of_extent_eq htorn ho' hextent
      subst heq
      simp only [Bool.and_eq_true] at hwide
      exact absurd (hglued.symm.trans hwide.2) (by decide)

/-! ## All literals -/

/-- A literal of the text that its token tells, outside of comments. -/
def HasToken (s : Source) (l : Literal) : Prop :=
  (l ∈ Hex.literals 0 s.text ∨ l ∈ Braced.literals 0 s.text) ∧ s.inComment l.extent.start = false

/-- A token of another pattern is no torn tuple. -/
theorem not_torn (hwindow : s.window? lines = some window) {l : Literal}
    (hl : l ∈ Hex.literals window.start (s.text.slice window) ∨
      l ∈ Braced.literals window.start (s.text.slice window)) :
    l.extent ∉ (s.tornTuples lines).map Occurrence.extent := by
  intro hmem
  simp only [tornTuples, hwindow] at hmem
  obtain ⟨o, ho, hextent⟩ := List.mem_map.1 hmem
  have hfinds := Pattern.finds_of_mem (List.mem_filter.1 ho).1
  have hapart : o.extent.Disjoint l.extent := by
    rcases hl with hl | hl
    · obtain ⟨o', ho', heq⟩ := (Hex.areTokens_literals _ _).finds l hl
      exact heq ▸ disjoint_tuple_marked hfinds ho'
    · obtain ⟨o', ho', heq⟩ := (Braced.areTokens_literals _ _).finds l hl
      exact heq ▸ disjoint_tuple_braced hfinds ho'
  have hstart : o.offset ∈ o.extent := ⟨Nat.le_refl _, hfinds.start_lt_stop⟩
  exact hapart o.offset hstart (hextent ▸ hstart)

theorem HasWindow.mem_literals_iff (h : s.HasWindow lines before part after)
    (hwindow : s.window? lines = some window) {l : Literal} :
    l ∈ s.literals window ∧ l.extent ∉ (s.tornTuples lines).map Occurrence.extent ↔
      (s.HasToken l ∨ s.HasTuple l) ∧ s.lineOf l.extent.start ∈ lines := by
  have hmarked : l ∈ Hex.literals window.start (s.text.slice window) ↔
      l ∈ Hex.literals 0 s.text ∧ s.lineOf l.extent.start ∈ lines :=
    h.mem_filterMap_iff hwindow Hex.isLocal_token (fun _ _ _ => rfl) Hex.literal?_extent
  have hbraced : l ∈ Braced.literals window.start (s.text.slice window) ↔
      l ∈ Braced.literals 0 s.text ∧ s.lineOf l.extent.start ∈ lines :=
    h.mem_filterMap_iff hwindow Braced.isLocal_token (fun _ _ _ => rfl) Braced.literal?_extent
  have htokens : (l ∈ Hex.literals window.start (s.text.slice window) ∨
        l ∈ Braced.literals window.start (s.text.slice window)) ∧ s.inComment l.extent.start = false ∧
        l.extent ∉ (s.tornTuples lines).map Occurrence.extent ↔
      s.HasToken l ∧ s.lineOf l.extent.start ∈ lines := by
    constructor
    · rintro ⟨hl, hcomment, -⟩
      rw [hmarked, hbraced, ← or_and_right] at hl
      exact ⟨⟨hl.1, hcomment⟩, hl.2⟩
    · rintro ⟨⟨hl, hcomment⟩, hline⟩
      have hl' := and_comm.1 ⟨hline, hl⟩
      rw [or_and_right, ← hmarked, ← hbraced] at hl'
      exact ⟨hl', hcomment, not_torn hwindow hl'⟩
  rw [or_and_right, ← htokens, ← h.mem_tuples_iff hwindow, ← and_assoc, ← or_and_right]
  simp only [literals, List.mem_append, List.mem_filter, Bool.not_eq_true']

/-- A literal of the text, told by its token or a tuple that stands alone, is marked. -/
def MarksLiteral (s : Source) (style : Style) (m : Mark) : Prop :=
  ∃ l, (s.HasToken l ∨ s.HasTuple l) ∧ m ∈ s.mark? ⟨l.color, style, .literal⟩ l.extent

theorem HasWindow.mem_literalMarks_iff (h : s.HasWindow lines before part after)
    (hwindow : s.window? lines = some window) {style : Style} {m : Mark} :
    m ∈ s.literalMarks style window ∧ m.extent ∉ (s.tornTuples lines).map Occurrence.extent ↔
      s.MarksLiteral style m ∧ m.line ∈ lines := by
  constructor
  · rintro ⟨hm, hnot⟩
    obtain ⟨l, hl, hm⟩ := List.mem_filterMap.1 hm
    obtain ⟨-, hextent, -, hline⟩ := mem_mark? hm
    rw [hextent] at hnot
    obtain ⟨hl, hmem⟩ := (h.mem_literals_iff hwindow).1 ⟨hl, hnot⟩
    exact ⟨⟨l, hl, hm⟩, hline ▸ hmem⟩
  · rintro ⟨⟨l, hl, hm⟩, hmem⟩
    obtain ⟨-, hextent, -, hline⟩ := mem_mark? hm
    rw [hline] at hmem
    obtain ⟨hl, hnot⟩ := (h.mem_literals_iff hwindow).2 ⟨hl, hmem⟩
    exact ⟨List.mem_filterMap.2 ⟨l, hl, hm⟩, hextent ▸ hnot⟩

/-- A torn tuple is marked in its window. -/
theorem exists_mark_of_torn (hwindow : s.window? lines = some window) {o : Occurrence}
    (ho : o ∈ s.tornTuples lines) (style : Style) :
    ∃ m ∈ s.literalMarks style window, m.extent = o.extent := by
  simp only [tornTuples, hwindow] at ho
  obtain ⟨ho, htorn⟩ := List.mem_filter.1 ho
  simp only [Bool.and_eq_true, Bool.not_eq_true'] at htorn
  obtain ⟨⟨⟨hadmits, hread⟩, hglued⟩, -⟩ := htorn
  obtain ⟨l, hl⟩ := Option.isSome_iff_exists.1 hread
  have hextent := Tuple.literal?_extent hl
  have hempty : l.extent.isEmpty = false := by
    rw [hextent, Interval.isEmpty, decide_eq_false_iff_not, Nat.not_le]
    exact (Pattern.finds_of_mem ho).start_lt_stop
  have hmem : l ∈ s.literals window := by
    rw [literals]
    exact List.mem_append_right _ (mem_tuples.2 ⟨o, ho, hglued, hl, hadmits⟩)
  refine ⟨⟨⟨l.color, style, .literal⟩, l.extent, s.lineOf l.extent.start⟩,
    List.mem_filterMap.2 ⟨l, hmem, ?_⟩, hextent⟩
  rw [mark?, hempty, if_neg Bool.false_ne_true]

end Source

namespace Scan

variable {s : Source} {lines : LineRange} {settings : Settings} {window : Interval} {m : Mark}

theorem mem_literal_iff (hwindow : s.window? lines = some window) :
    m ∈ (ofLines s lines settings).marks ∧ m.paint.role = .literal ↔
      settings.hex.enabled ∧ m ∈ s.literalMarks settings.hex.style window := by
  rw [(perm_marks settings hwindow).mem_iff, List.mem_append, mem_ofFamily]
  constructor
  · rintro ⟨hm | hm, hrole⟩
    · rw [(mem_textMarks hm).1] at hrole
      cases hrole
    · exact hm
  · exact fun hm => ⟨.inr hm, (Source.mem_literalMarks hm.2).1⟩

/-- The literals that a window marks, but for torn tuples, are those of the text that are on its
lines. -/
theorem mem_literal_not_torn_iff {before part after : Text} (h : s.HasWindow lines before part after) :
    m ∈ (ofLines s lines settings).marks ∧ m.paint.role = .literal ∧
        m.extent ∉ (s.tornTuples lines).map Occurrence.extent ↔
      settings.hex.enabled ∧ s.MarksLiteral settings.hex.style m ∧ m.line ∈ lines := by
  rw [← and_assoc, mem_literal_iff h.window_eq, and_assoc, h.mem_literalMarks_iff h.window_eq]

/-- No torn tuple is marked just if literals are not shown or no tuple is torn. -/
theorem forall_not_torn_iff (hwindow : s.window? lines = some window) :
    (∀ m ∈ (ofLines s lines settings).marks, m.paint.role = .literal →
        m.extent ∉ (s.tornTuples lines).map Occurrence.extent) ↔
      settings.hex.enabled = false ∨ (s.tornTuples lines).map Occurrence.extent = [] := by
  constructor
  · intro hnot
    by_contra hboth
    obtain ⟨hshown, htorn⟩ := not_or.1 hboth
    obtain ⟨extent, hextent⟩ := List.exists_mem_of_ne_nil _ htorn
    obtain ⟨o, ho, rfl⟩ := List.mem_map.1 hextent
    obtain ⟨m, hm, hmo⟩ := Source.exists_mark_of_torn hwindow ho settings.hex.style
    obtain ⟨hmarks, hrole⟩ := (mem_literal_iff hwindow).2 ⟨by simpa using hshown, hm⟩
    exact hnot m hmarks hrole (hmo ▸ hextent)
  · rintro (hhidden | hnone) m hm hrole
    · have hshown := ((mem_literal_iff hwindow).1 ⟨hm, hrole⟩).1
      exact absurd (hhidden.symm.trans hshown) (by decide)
    · simp [hnone]

/-- The literals that the whole text marks on some lines are those of the window but for torn
tuples. So the two agree just if literals are not shown or no tuple is torn. -/
theorem literals_of_window (text : Text) (settings : Settings) {lines : LineRange}
    (hle : lines.first ≤ lines.last) (hlast : lines.last < Source.lineCount { text }) :
    let torn := (Source.tornTuples { text } lines).map Occurrence.extent
    let whole := ofText text (Source.allLines { text }) settings
    let scan := ofText text lines settings
    whole.marks.filter (fun m => m.paint.role = .literal ∧ m.line ∈ lines)
        = scan.marks.filter (fun m => m.paint.role = .literal ∧ m.extent ∉ torn) ∧
      (scan.marks.filter (·.paint.role = .literal)
          = whole.marks.filter (fun m => m.paint.role = .literal ∧ m.line ∈ lines)
        ↔ settings.hex.enabled = false ∨ torn = []) := by
  intro torn whole scan
  obtain ⟨before, part, after, hwindow⟩ := Source.exists_hasWindow hle hlast
  have hwhole := Source.hasWindow_allLines { text }
  have hsame : whole.marks.filter (fun m => m.paint.role = .literal ∧ m.line ∈ lines)
      = scan.marks.filter (fun m => m.paint.role = .literal ∧ m.extent ∉ torn) := by
    refine List.Pairwise.eq_of_mem_iff (pairwise_precedes _ _ _ .literal fun m hm => ?_)
      (pairwise_precedes _ _ _ .literal fun m hm => ?_) fun m => ?_
    · exact (of_decide_eq_true hm).1
    · exact (of_decide_eq_true hm).1
    · have hall : m ∈ whole.marks ∧ _ ↔ _ := mem_literal_not_torn_iff hwhole
      simp only [Source.tornTuples_allLines, List.map_nil, List.not_mem_nil, not_false_eq_true,
        and_true] at hall
      simp only [List.mem_filter, decide_eq_true_eq]
      refine Iff.trans ?_ (mem_literal_not_torn_iff hwindow).symm
      rw [← and_assoc, hall, and_assoc, and_assoc]
      refine and_congr_right fun _ => and_congr_right fun _ => ?_
      exact and_iff_right_of_imp (mem_allLines hlast)
  refine ⟨hsame, ?_⟩
  rw [hsame]
  refine Iff.trans ?_ (forall_not_torn_iff hwindow.window_eq)
  constructor
  · intro heq m hm hrole
    have hmem : m ∈ scan.marks.filter (·.paint.role = .literal) :=
      List.mem_filter.2 ⟨hm, decide_eq_true hrole⟩
    rw [heq] at hmem
    exact (of_decide_eq_true (List.mem_filter.1 hmem).2).2
  · intro hnot
    refine List.filter_congr fun m hm => ?_
    by_cases hrole : m.paint.role = .literal
    · have hmem := hnot m hm hrole
      simp [hrole, torn, hmem]
    · simp [hrole]

/-- A tuple between other numbers is not torn where no comma stands at its line. -/
theorem literals_of_window_between_numbers :
    let text : Text := "0xFF0000 // 1, 2\n3, 4, 5\n6, 7".toList
    let lines : LineRange := ⟨1, 1⟩
    let whole := ofText text (Source.allLines { text }) {}
    let scan := ofText text lines {}
    lines.first ≤ lines.last ∧ lines.last < Source.lineCount { text } ∧
      scan.marks.map (·.extent) = [⟨17, 24⟩] ∧
      scan.marks.filter (·.paint.role = .literal)
        = whole.marks.filter (fun m => m.paint.role = .literal ∧ m.line ∈ lines) := by
  intro text lines whole scan
  have hle : lines.first ≤ lines.last := by decide
  have hlast : lines.last < Source.lineCount { text } := by decide +kernel
  refine ⟨hle, hlast, by decide +kernel, ?_⟩
  exact (literals_of_window text {} hle hlast).2.2 (.inr (by decide +kernel))

/-- A tuple at the end of a window that the next line goes on with is marked in the window, and is
not marked in the whole text. -/
theorem torn_tuple_marked :
    let text : Text := "1, 2, 3\n, 4".toList
    let lines : LineRange := ⟨0, 0⟩
    let whole := ofText text (Source.allLines { text }) {}
    let scan := ofText text lines {}
    lines.first ≤ lines.last ∧ lines.last < Source.lineCount { text } ∧
      ¬ scan.marks.filter (·.paint.role = .literal)
        = whole.marks.filter (fun m => m.paint.role = .literal ∧ m.line ∈ lines) := by
  decide +kernel

end Scan

end Swatch

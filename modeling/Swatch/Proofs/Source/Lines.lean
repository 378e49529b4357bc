-- SUMMARY: Where the lines of a source stand in its text, and which line an offset is on.
import Swatch.Proofs.Document.Lines
import Swatch.Proofs.Text.Cut
import Swatch.Scan

/-!
# Lines of a source

A line stands between two line feeds, or at an end of the text: what precedes it is
empty or ends in a line feed, and what follows it is empty or starts with one. As many
line feeds stand before a line as there are lines above it.

Lines start one behind the other, so an offset is on a line or below it just if it is
not before its start. The bytes of some lines are therefore a part of the text whose
offsets are those on the lines.
-/

namespace Swatch

def LineRange.Mem (r : LineRange) (line : Nat) : Prop :=
  r.first ≤ line ∧ line ≤ r.last

instance : Membership Nat LineRange := ⟨LineRange.Mem⟩

instance (r : LineRange) (line : Nat) : Decidable (line ∈ r) :=
  inferInstanceAs (Decidable (r.first ≤ line ∧ line ≤ r.last))

theorem LineRange.mem_toList {r : LineRange} {line : Nat} : line ∈ r.toList ↔ line ∈ r := by
  rw [toList, List.mem_range'_1]
  refine and_congr_right fun hfirst => ?_
  omega

/-- Whole lines in a text: what precedes them, what they read up to the last line feed, and what
follows. -/
structure Text.HasLines (t before lines after : Text) : Prop where
  text_eq : before ++ (lines ++ after) = t
  before_ends : before = [] ∨ before.getLast? = some '\n'
  after_starts : after = [] ∨ after.head? = some '\n'

namespace Text.HasLines

variable {t before lines after : Text}

/-- A character in front of a text either belongs to its first line or starts further lines. -/
theorem cons_before {c : Char} (h : t.HasLines before lines after)
    (hc : before = [] → c = '\n') : HasLines (c :: t) (c :: before) lines after where
  text_eq := congrArg (c :: ·) h.text_eq
  before_ends := by
    right
    cases before with
    | nil => simp [hc rfl]
    | cons d before => simpa using h.before_ends
  after_starts := h.after_starts

theorem cons_lines {c : Char} (h : t.HasLines [] lines after) :
    HasLines (c :: t) [] (c :: lines) after where
  text_eq := congrArg (c :: ·) h.text_eq
  before_ends := .inl rfl
  after_starts := h.after_starts

end Text.HasLines

/-! ## Single lines -/

/-- Each line stands somewhere in the text, below as many line feeds as its number says. -/
theorem exists_hasLines (t : Text) {n : Nat} (hn : n ≤ t.count '\n') :
    ∃ before line after, t.HasLines before line after ∧ '\n' ∉ line ∧ before.count '\n' = n := by
  induction t generalizing n with
  | nil =>
    obtain rfl : n = 0 := by simpa using hn
    exact ⟨[], [], [], ⟨rfl, .inl rfl, .inl rfl⟩, by simp, rfl⟩
  | cons c t ih =>
    by_cases hc : c = '\n'
    · subst hc
      cases n with
      | zero => exact ⟨[], [], _, ⟨rfl, .inl rfl, .inr rfl⟩, by simp, rfl⟩
      | succ n =>
        obtain ⟨before, line, after, hlines, hfeed, hcount⟩ := ih (n := n) (by simpa using hn)
        exact ⟨_, line, after, hlines.cons_before fun _ => rfl, hfeed, by simp [hcount]⟩
    · obtain ⟨before, line, after, hlines, hfeed, hcount⟩ :=
        ih (n := n) (by simpa [List.count_cons_of_ne hc] using hn)
      cases before with
      | nil =>
        exact ⟨[], c :: line, after, hlines.cons_lines, by simp [hfeed, Ne.symm hc], by simpa using hcount⟩
      | cons d before =>
        refine ⟨c :: d :: before, line, after, hlines.cons_before (by simp), hfeed, ?_⟩
        rw [List.count_cons_of_ne hc, hcount]

/-- The line of a number, found in the text, is the line that the source knows by that number. -/
theorem Line.getElem?_ofParts {t before line after : Text} (start : Nat)
    (h : t.HasLines before line after) (hfeed : '\n' ∉ line) :
    (Line.ofParts start (splitLines t))[before.count '\n']?
      = some ⟨start + before.size, stripReturn line⟩ := by
  obtain ⟨rfl, hbefore, hafter⟩ := h
  induction before generalizing start with
  | nil =>
    have hfirst := getElem?_splitLines_append [] (line ++ after)
    have hpart : Text.firstPart (line ++ after) = line := by
      rw [Text.firstPart_append_of_notMem _ hfeed, Text.firstPart_eq_nil_iff.2 hafter, List.append_nil]
    obtain ⟨part, parts, hparts⟩ := exists_splitLines (line ++ after)
    simp only [List.nil_append, List.count_nil, hparts, List.getElem?_cons_zero, hpart,
      Text.lastPart_nil, Option.some.injEq] at hfirst ⊢
    subst hfirst
    simp [ofParts]
  | cons c before ih =>
    have hrest : before = [] ∨ before.getLast? = some '\n' := by
      cases before with
      | nil => exact .inl rfl
      | cons d before => exact .inr (by simpa using hbefore)
    by_cases hc : c = '\n'
    · subst hc
      have hfeedSize : '\n'.utf8Size = 1 := rfl
      rw [List.cons_append, splitLines_feed, List.count_cons_self, ofParts,
        List.getElem?_cons_succ, ih _ hrest]
      simp [hfeedSize, Nat.add_assoc]
    · obtain ⟨part, parts, hparts⟩ := exists_splitLines (before ++ (line ++ after))
      have hne : before ≠ [] := by
        rintro rfl
        simp [hc] at hbefore
      have hmem : '\n' ∈ before := List.mem_of_getLast? (hrest.resolve_left hne)
      obtain ⟨n, hn⟩ := Nat.exists_eq_add_one.2 (List.count_pos_iff.2 hmem)
      have hline := ih (start + c.utf8Size) hrest
      rw [hparts, hn, ofParts, List.getElem?_cons_succ] at hline
      rw [List.cons_append, splitLines_cons_of_ne hc hparts, List.count_cons_of_ne hc, hn, ofParts,
        List.getElem?_cons_succ]
      simpa [Nat.add_assoc] using hline

namespace Source

variable {s : Source}

theorem lineCount_eq_count (s : Source) : s.lineCount = s.text.count '\n' + 1 := by
  have hlength (start : Nat) (parts : List Text) :
      (Line.ofParts start parts).length = parts.length := by
    induction parts generalizing start with
    | nil => rfl
    | cons part parts ih => simp [Line.ofParts, ih]
  rw [lineCount, s.lines_eq, Line.ofText, hlength, length_splitLines]

theorem getElem?_lines {before line after : Text} (h : s.text.HasLines before line after)
    (hfeed : '\n' ∉ line) :
    s.lines[before.count '\n']? = some ⟨before.size, stripReturn line⟩ := by
  rw [s.lines_eq, Line.ofText, Line.getElem?_ofParts 0 h hfeed, Nat.zero_add]

/-! ## The line of an offset -/

end Source

/-- Nothing but a carriage return is stripped. -/
theorem exists_stripReturn_append (t : Text) :
    ∃ ret, stripReturn t ++ ret = t ∧ (ret = [] ∨ ret = ['\r']) := by
  unfold stripReturn
  split
  · next hlast =>
    obtain ⟨start, rfl⟩ := List.getLast?_eq_some_iff.1 hlast
    exact ⟨['\r'], by simp, .inr rfl⟩
  · exact ⟨[], List.append_nil t, .inl rfl⟩

theorem stripReturn_size_le (t : Text) : (stripReturn t).size ≤ t.size := by
  obtain ⟨ret, ht, -⟩ := exists_stripReturn_append t
  have hsize := congrArg Text.size ht
  rw [Text.size_append] at hsize
  omega

/-- What stands behind a line feed is stripped by itself. -/
theorem stripReturn_append {s : Text} (t : Text) (h : s = [] ∨ s.getLast? = some '\n') :
    stripReturn (s ++ t) = s ++ stripReturn t := by
  cases t with
  | nil => rcases h with rfl | hlast <;> simp [stripReturn, *]
  | cons c t =>
    have hlast : (s ++ c :: t).getLast? = (c :: t).getLast? := by
      simp [List.getLast?_append, List.getLast?_cons]
    rw [stripReturn, stripReturn, hlast, List.dropLast_append_of_ne_nil (List.cons_ne_nil c t)]
    split <;> rfl

/-- Each line ends before the next one starts. -/
theorem Line.pairwise_ofParts (start : Nat) (parts : List Text) :
    (ofParts start parts).Pairwise (fun l l' => l.extent.stop < l'.start) ∧
      ∀ l ∈ ofParts start parts, start ≤ l.start := by
  induction parts generalizing start with
  | nil => exact ⟨.nil, by simp [ofParts]⟩
  | cons part parts ih =>
    obtain ⟨hpairwise, hstart⟩ := ih (start + part.size + 1)
    refine ⟨List.pairwise_cons.2 ⟨fun l hl => ?_, hpairwise⟩, fun l hl => ?_⟩
    · have hle := hstart l hl
      have hstrip := stripReturn_size_le part
      simp only [extent, Interval.ofSize]
      omega
    · rcases List.mem_cons.1 hl with rfl | hl
      · exact Nat.le_refl _
      · have hle := hstart l hl
        omega

/-- Of elements in increasing order, those up to a bound come first. -/
theorem getElem_le_iff_lt_countP {α : Type} {f : α → Nat} {l : List α}
    (h : l.Pairwise fun x y => f x < f y) {n : Nat} {x : α} (hx : l[n]? = some x) (bound : Nat) :
    f x ≤ bound ↔ n < l.countP (f · ≤ bound) := by
  induction l generalizing n with
  | nil => cases hx
  | cons y l ih =>
    obtain ⟨hy, hl⟩ := List.pairwise_cons.1 h
    cases n with
    | zero =>
      obtain rfl : y = x := by simpa using hx
      by_cases hle : f y ≤ bound
      · simp [hle]
      · have hnone : l.countP (f · ≤ bound) = 0 := by
          rw [List.countP_eq_zero]
          intro z hz
          have hlt := hy z hz
          simp only [decide_eq_true_eq]
          omega
        simp [hle, hnone]
    | succ n =>
      have hmem : x ∈ l := List.mem_of_getElem? hx
      have hlt := hy x hmem
      have hih := ih hl (by simpa using hx)
      by_cases hle : f y ≤ bound
      · simp [hle, hih]
      · have hnone : l.countP (f · ≤ bound) = 0 := by
          rw [List.countP_eq_zero]
          intro z hz
          have hlt' := hy z hz
          simp only [decide_eq_true_eq]
          omega
        simp only [List.countP_cons, hle, hnone]
        simp
        omega

/-- A prefix that ends in a line feed is among the first characters just if its line feeds are. -/
theorem Text.count_le_count_take_iff {before : Text} (h : before = [] ∨ before.getLast? = some '\n')
    (rest : Text) (n : Nat) :
    before.count '\n' ≤ ((before ++ rest).take n).count '\n' ↔ before.length ≤ n := by
  constructor
  · intro hle
    rcases h with rfl | hlast
    · exact Nat.zero_le n
    · obtain ⟨start, rfl⟩ := List.getLast?_eq_some_iff.1 hlast
      refine Nat.le_of_not_lt fun hlt => ?_
      rw [List.length_append, List.length_singleton] at hlt
      rw [List.append_assoc, List.take_append_of_le_length (Nat.le_of_lt_succ hlt),
        List.count_append] at hle
      have hsub := (List.take_sublist n start).count_le '\n'
      simp at hle
      omega
  · intro hle
    rw [List.take_append, List.take_of_length_le hle, List.count_append]
    exact Nat.le_add_right _ _

namespace Source

variable {s : Source}

theorem pairwise_lines (s : Source) : s.lines.Pairwise fun l l' => l.extent.stop < l'.start := by
  rw [s.lines_eq]
  exact (Line.pairwise_ofParts 0 _).1

/-- What stands around a line in its text. -/
theorem exists_around_line {n : Nat} {l : Line} (hl : s.lines[n]? = some l) :
    ∃ before after, before ++ (l.text ++ after) = s.text ∧ l.start = before.size := by
  have hn : n < s.lineCount := (List.getElem?_eq_some_iff.1 hl).1
  rw [lineCount_eq_count] at hn
  obtain ⟨before, part, after, hlines, hfeed, rfl⟩ := exists_hasLines s.text (Nat.le_of_lt_succ hn)
  obtain rfl := Option.some.inj (hl.symm.trans (getElem?_lines hlines hfeed))
  obtain ⟨ret, hpart, -⟩ := exists_stripReturn_append part
  refine ⟨before, ret ++ after, ?_, rfl⟩
  rw [← List.append_assoc (stripReturn part), hpart, hlines.text_eq]

theorem stop_lt_start {n m : Nat} {l l' : Line} (hl : s.lines[n]? = some l)
    (hl' : s.lines[m]? = some l') (hlt : n < m) : l.extent.stop < l'.start := by
  obtain ⟨hn, rfl⟩ := List.getElem?_eq_some_iff.1 hl
  obtain ⟨hm, rfl⟩ := List.getElem?_eq_some_iff.1 hl'
  exact List.pairwise_iff_getElem.1 s.pairwise_lines n m hn hm hlt

theorem lineOf_lt_lineCount (s : Source) (offset : Nat) : s.lineOf offset < s.lineCount := by
  have hpos : 0 < s.lineCount := by
    rw [lineCount_eq_count]
    exact Nat.succ_pos _
  have hle : s.lines.countP (·.start ≤ offset) ≤ s.lineCount := List.countP_le_length
  unfold lineOf
  omega

/-- An offset is on a line or below it just if it is not before the start of the line. -/
theorem le_lineOf_iff {n : Nat} {l : Line} (hl : s.lines[n]? = some l) (offset : Nat) :
    n ≤ s.lineOf offset ↔ l.start ≤ offset := by
  have hsorted : s.lines.Pairwise fun l l' => l.start < l'.start := by
    refine s.pairwise_lines.imp fun {l l'} hlt => Nat.lt_of_le_of_lt ?_ hlt
    exact Nat.le_add_right _ _
  have hcount (n : Nat) (l : Line) (hl : s.lines[n]? = some l) :=
    getElem_le_iff_lt_countP (f := Line.start) hsorted hl offset
  -- The first line starts at no offset but zero, so it is always counted.
  obtain ⟨before, line, after, hlines, hfeed, hzero⟩ := exists_hasLines s.text (Nat.zero_le _)
  have hfirst := getElem?_lines hlines hfeed
  have hbefore : before = [] := by
    refine hlines.before_ends.resolve_right fun hlast => ?_
    exact List.count_eq_zero.1 hzero (List.mem_of_getLast? hlast)
  subst hbefore
  have hpos := (hcount _ _ hfirst).1 (Nat.zero_le offset)
  rw [hcount n l hl, lineOf]
  simp only [List.count_nil] at hpos
  omega

/-- The offsets up to the end of a line are on it or above it. -/
theorem lineOf_le {n : Nat} {l : Line} (hl : s.lines[n]? = some l) {offset : Nat}
    (hle : offset ≤ l.extent.stop) : s.lineOf offset ≤ n := by
  refine Nat.le_of_not_lt fun hlt => ?_
  have hbound := Nat.lt_of_le_of_lt hlt (s.lineOf_lt_lineCount offset)
  obtain ⟨l', hl'⟩ : ∃ l', s.lines[n + 1]? = some l' := ⟨_, List.getElem?_eq_getElem hbound⟩
  have hstart := (le_lineOf_iff hl' offset).1 hlt
  have hapart := stop_lt_start hl hl' (Nat.lt_succ_self n)
  omega

/-- The bytes of a line are on that line. -/
theorem lineOf_eq {n : Nat} {l : Line} (hl : s.lines[n]? = some l) {offset : Nat}
    (hstart : l.start ≤ offset) (hstop : offset ≤ l.extent.stop) : s.lineOf offset = n :=
  Nat.le_antisymm (lineOf_le hl hstop) ((le_lineOf_iff hl offset).2 hstart)

/-- As many line feeds stand before an offset as there are lines above it. -/
theorem lineOf_eq_count (s : Source) (offset : Nat) :
    s.lineOf offset = (s.text.take (s.text.charsBefore offset)).count '\n' := by
  have hiff (n : Nat) (hn : n ≤ s.text.count '\n') :
      n ≤ s.lineOf offset ↔ n ≤ (s.text.take (s.text.charsBefore offset)).count '\n' := by
    obtain ⟨before, line, after, hlines, hfeed, rfl⟩ := exists_hasLines s.text hn
    rw [le_lineOf_iff (getElem?_lines hlines hfeed), ← hlines.text_eq,
      Text.count_le_count_take_iff hlines.before_ends, Text.length_le_charsBefore_iff]
  have hbound := s.lineOf_lt_lineCount offset
  rw [lineCount_eq_count] at hbound
  have hcount := (List.take_sublist (s.text.charsBefore offset) s.text).count_le '\n'
  apply Nat.le_antisymm
  · exact (hiff _ (Nat.le_of_lt_succ hbound)).1 (Nat.le_refl _)
  · exact (hiff _ hcount).2 (Nat.le_refl _)

/-! ## Windows -/

/-- The offsets up to the end of some lines are on them or above them. -/
theorem lineOf_le_iff {before part after : Text} (h : s.text.HasLines before part after)
    (offset : Nat) : s.lineOf offset ≤ (before ++ part).count '\n'
      ↔ after = [] ∨ offset ≤ before.size + part.size := by
  cases after with
  | nil =>
    have hbound := s.lineOf_lt_lineCount offset
    rw [lineCount_eq_count, ← h.text_eq, List.append_nil] at hbound
    simpa using Nat.le_of_lt_succ hbound
  | cons c rest =>
    obtain rfl : c = '\n' := by simpa using h.after_starts
    -- The line below starts behind the line feed.
    have hbelow : s.text.HasLines (before ++ part ++ ['\n']) (Text.firstPart rest)
        (rest.dropWhile (· ≠ '\n')) := by
      refine ⟨?_, .inr (by simp), ?_⟩
      · rw [Text.firstPart, List.takeWhile_append_dropWhile, ← h.text_eq]
        simp
      · cases hrest : rest.dropWhile (· ≠ '\n') with
        | nil => exact .inl rfl
        | cons d rest' =>
          have hd := List.head?_dropWhile_not (· ≠ '\n') rest
          rw [hrest] at hd
          exact .inr (by simpa using hd)
    have hfeed : '\n' ∉ (Text.firstPart rest) := fun hmem => by
      simpa using List.mem_takeWhile_imp hmem
    have hfeedSize : '\n'.utf8Size = 1 := rfl
    have hle := le_lineOf_iff (getElem?_lines hbelow hfeed) offset
    simp only [List.count_append, List.count_cons_self, List.count_nil, Text.size_append,
      Text.size_cons, Text.size_nil, hfeedSize] at hle
    simp only [List.count_append]
    simp
    omega

/-- Where the lines of a window stand in the text. The window has their bytes, but for a carriage
return at the end. -/
structure HasWindow (s : Source) (lines : LineRange) (before part after : Text) : Prop where
  hasLines : s.text.HasLines before part after
  window_eq : s.window? lines = some ⟨before.size, before.size + (stripReturn part).size⟩
  first_le_iff : ∀ offset, lines.first ≤ s.lineOf offset ↔ before.size ≤ offset
  le_last_iff : ∀ offset, s.lineOf offset ≤ lines.last
    ↔ after = [] ∨ offset ≤ before.size + part.size

theorem exists_hasWindow {lines : LineRange} (hle : lines.first ≤ lines.last)
    (hlast : lines.last < s.lineCount) :
    ∃ before part after, s.HasWindow lines before part after := by
  rw [lineCount_eq_count] at hlast
  obtain ⟨before, first, rest, hfirst, hfeed, hcount⟩ :=
    exists_hasLines s.text (n := lines.first) (by omega)
  obtain ⟨above, last, after, hlast', hfeed', hcount'⟩ :=
    exists_hasLines s.text (n := lines.last) (by omega)
  have hget := getElem?_lines hfirst hfeed
  have hget' := getElem?_lines hlast' hfeed'
  rw [hcount] at hget
  rw [hcount'] at hget'
  have hsize : before.size ≤ above.size := by
    rcases Nat.lt_or_eq_of_le hle with hlt | heq
    · exact Nat.le_of_lt (Nat.lt_of_le_of_lt (Nat.le_add_right _ _) (stop_lt_start hget hget' hlt))
    · rw [heq, hget'] at hget
      exact Nat.le_of_eq (congrArg Line.start (Option.some.inj hget)).symm
  obtain ⟨mid, rfl, hrest⟩ := Text.exists_middle (hfirst.text_eq.trans hlast'.text_eq.symm) hsize
  have hlines : s.text.HasLines before (mid ++ last) after :=
    ⟨by simpa using hlast'.text_eq, hfirst.before_ends, hlast'.after_starts⟩
  refine ⟨before, mid ++ last, after, hlines, ?_, le_lineOf_iff hget, ?_⟩
  · have hmid : mid = [] ∨ mid.getLast? = some '\n' := by
      cases mid with
      | nil => exact .inl rfl
      | cons c mid => exact .inr (by simpa using hlast'.before_ends)
    have hstrip := stripReturn_append last hmid
    simp [window?, hget, hget', hstrip, Line.extent, Interval.ofSize, Nat.add_assoc]
  · intro offset
    rw [← lineOf_le_iff hlines, ← List.append_assoc, List.count_append, hcount',
      List.count_eq_zero.2 hfeed', Nat.add_zero]

/-- The text of a window, and what stands around it. -/
theorem HasWindow.text_eq {lines : LineRange} {before part after : Text}
    (h : s.HasWindow lines before part after) :
    ∃ ret, before ++ (stripReturn part ++ (ret ++ after)) = s.text ∧ stripReturn part ++ ret = part ∧
      (ret = [] ∨ ret = ['\r']) := by
  obtain ⟨ret, hpart, hret⟩ := exists_stripReturn_append part
  refine ⟨ret, ?_, hpart, hret⟩
  rw [← List.append_assoc (stripReturn part), hpart, h.hasLines.text_eq]

theorem HasWindow.slice_eq {lines : LineRange} {before part after : Text}
    (h : s.HasWindow lines before part after) :
    s.text.slice ⟨before.size, before.size + (stripReturn part).size⟩ = stripReturn part := by
  obtain ⟨ret, htext, -⟩ := h.text_eq
  rw [← htext, ← List.append_assoc, Text.slice_append]

/-- An offset inside the text of a window is on one of its lines. -/
theorem HasWindow.lineOf_mem {lines : LineRange} {before part after : Text}
    (h : s.HasWindow lines before part after) {offset : Nat} (hstart : before.size ≤ offset)
    (hstop : offset ≤ before.size + (stripReturn part).size) : s.lineOf offset ∈ lines := by
  have hstrip := stripReturn_size_le part
  exact ⟨(h.first_le_iff offset).2 hstart, (h.le_last_iff offset).2 (.inr (by omega))⟩

/-- The lines of a window end in it. -/
theorem HasWindow.stop_le {lines : LineRange} {before part after : Text}
    (h : s.HasWindow lines before part after) {n : Nat} {l : Line} (hl : s.lines[n]? = some l)
    (hle : n ≤ lines.last) : l.extent.stop ≤ before.size + (stripReturn part).size := by
  have hwindow := h.window_eq
  simp only [window?, Option.bind_eq_bind, Option.bind_eq_some_iff, Option.pure_def,
    Option.some.injEq, Interval.mk.injEq] at hwindow
  obtain ⟨first, -, last, hlast, -, hstop⟩ := hwindow
  rw [← hstop]
  rcases Nat.lt_or_eq_of_le hle with hlt | rfl
  · have hapart := stop_lt_start hl hlast hlt
    exact Nat.le_trans (Nat.le_of_lt hapart) (Nat.le_add_right _ _)
  · rw [hl] at hlast
    exact Nat.le_of_eq (congrArg (·.extent.stop) (Option.some.inj hlast))

end Source

end Swatch

-- SUMMARY: The table of line starts, and places of a text looked up by their offsets.
import Swatch.Proofs.Offsets.Call
import Swatch.Proofs.Source.Touched

/-!
# Places by offsets

A document is a text and the table of the offsets at which its lines start. The line of
an offset is searched in the table. A line ends one byte before the next one starts, and
a byte before that if a carriage return stands there; the line is cut out and lexed
whenever a question about a place on it is asked.

The table starts with zero, so no offset is before the first line. All answers are those
that the source gives.
-/

namespace Swatch

namespace Offsets

/-! ## Lines -/

/-- The offsets behind the line feeds of a text that starts at an offset. -/
def startsFrom (offset : Nat) : Text → List Nat
  | [] => []
  | c :: t =>
    if c = '\n' then (offset + 1) :: startsFrom (offset + 1) t
    else startsFrom (offset + c.utf8Size) t

def lineStarts (t : Text) : List Nat :=
  0 :: startsFrom 0 t

/-- The line of an offset: found in the table, or before the place where it would be inserted. -/
def lineOf (t : Text) (offset : Nat) : Reading Nat :=
  if offset ∈ lineStarts t then .ok ((lineStarts t).idxOf offset)
  else Reading.distance 1 ((lineStarts t).countP (· < offset))

/-- The bytes of a line, without what ends it. -/
def lineRange? (t : Text) (n : Nat) : Reading (Option Interval) :=
  (lineStarts t)[n]?.elim (.ok none) fun start => do
    let stop ← (lineStarts t)[n + 1]?.elim (.ok t.size) (Reading.distance 1)
    if start < stop then
      let last ← Reading.byte t (stop - 1)
      return some ⟨start, if last = ascii '\r' then stop - 1 else stop⟩
    else return some ⟨start, stop⟩

def line? (t : Text) (n : Nat) : Reading (Option Line) := do
  let range ← lineRange? t n
  range.elim (.ok none) fun i => do
    let text ← Reading.part t i
    return some ⟨i.start, text⟩

/-- The line of a place inside the text. -/
def lineAt? (t : Text) (offset : Nat) : Reading (Option Line) :=
  if t.size < offset then .ok none
  else do
    let n ← lineOf t offset
    line? t n

section Lines

variable {s : Source}

theorem map_start_ofParts (offset : Nat) (t : Text) :
    (Line.ofParts offset (splitLines t)).map Line.start = offset :: startsFrom offset t := by
  induction t generalizing offset with
  | nil => rfl
  | cons c t ih =>
    by_cases hc : c = '\n'
    · subst hc
      simp [startsFrom, splitLines_feed, Line.ofParts, ih]
    · obtain ⟨part, parts, hparts⟩ := exists_splitLines t
      have hrest := ih (offset + c.utf8Size)
      rw [hparts, Line.ofParts, List.map_cons, List.cons.injEq] at hrest
      rw [startsFrom, if_neg hc, splitLines_cons_of_ne hc hparts, Line.ofParts, List.map_cons,
        Text.size_cons, ← Nat.add_assoc offset, hrest.2]

theorem lineStarts_eq (s : Source) : lineStarts s.text = s.lines.map Line.start := by
  rw [s.lines_eq, Line.ofText, map_start_ofParts, lineStarts]

/-- An offset at which no line starts is behind the first line start. -/
theorem lineOf_eq (s : Source) (offset : Nat) : lineOf s.text offset = .ok (s.lineOf offset) := by
  unfold lineOf
  split
  · next hmem =>
    have hget := List.getElem?_eq_getElem (List.idxOf_lt_length_of_mem hmem)
    rw [List.getElem_idxOf, lineStarts_eq, List.getElem?_map, Option.map_eq_some_iff] at hget
    obtain ⟨l, hl, hstart⟩ := hget
    rw [lineStarts_eq, Source.lineOf_eq hl (Nat.le_of_eq hstart)
      (Nat.le_trans (Nat.le_of_eq hstart.symm) (Nat.le_add_right _ _))]
  · next hmem =>
    have hcount : (lineStarts s.text).countP (· < offset) = s.lines.countP (·.start ≤ offset) := by
      rw [lineStarts_eq, List.countP_map]
      refine List.countP_congr fun l hl => ?_
      have hne : l.start ≠ offset := fun heq =>
        hmem (lineStarts_eq s ▸ heq ▸ List.mem_map_of_mem hl)
      simp only [Function.comp_apply, decide_eq_true_eq]
      omega
    have hpos : 0 < (lineStarts s.text).countP (· < offset) := by
      refine List.countP_pos_iff.2 ⟨0, List.mem_cons_self, ?_⟩
      have hne : 0 ≠ offset := fun heq => hmem (heq ▸ List.mem_cons_self)
      simp only [decide_eq_true_eq]
      omega
    rw [Reading.distance_of_le hpos, hcount, Source.lineOf]

/-- A line in its text, and the offsets on it or above it. -/
theorem exists_line {n : Nat} (hn : n < s.lineCount) :
    ∃ before part after, before ++ (part ++ after) = s.text ∧
      s.lines[n]? = some ⟨before.size, stripReturn part⟩ ∧
      ∀ offset, s.lineOf offset ≤ n ↔ after = [] ∨ offset ≤ before.size + part.size := by
  rw [Source.lineCount_eq_count] at hn
  obtain ⟨before, part, after, hlines, hfeed, rfl⟩ := exists_hasLines s.text (Nat.le_of_lt_succ hn)
  refine ⟨before, part, after, hlines.text_eq, Source.getElem?_lines hlines hfeed, fun offset => ?_⟩
  rw [← Source.lineOf_le_iff hlines, List.count_append, List.count_eq_zero.2 hfeed, Nat.add_zero]

/-- The line below starts one byte behind the end of a line. -/
theorem getElem?_lineStarts_succ {n : Nat} {before part after : Text}
    (htext : before ++ (part ++ after) = s.text) (hn : n < s.lineCount)
    (hle : ∀ offset, s.lineOf offset ≤ n ↔ after = [] ∨ offset ≤ before.size + part.size) :
    (lineStarts s.text)[n + 1]?.elim (.ok s.text.size) (Reading.distance 1)
      = .ok (before.size + part.size) := by
  rw [lineStarts_eq, List.getElem?_map]
  cases hl : s.lines[n + 1]? with
  | none =>
    have hafter : after = [] := by
      have hlast : s.lineCount ≤ n + 1 := List.getElem?_eq_none_iff.1 hl
      have hlt := s.lineOf_lt_lineCount (before.size + part.size + 1)
      have hmem := (hle (before.size + part.size + 1)).1 (by omega)
      exact hmem.resolve_right (Nat.not_succ_le_self _)
    simp [← htext, hafter]
  | some l =>
    have hbelow := Source.le_lineOf_iff hl
    have hstart : l.start = before.size + part.size + 1 := by
      have hbehind := mt (hle l.start).2 (Nat.not_le_of_lt ((hbelow l.start).2 (Nat.le_refl _)))
      have hnext := mt (hle (before.size + part.size + 1)).1
        (not_or.2 ⟨fun hafter => hbehind (.inl hafter), Nat.not_succ_le_self _⟩)
      have hstart := (hbelow _).1 (Nat.lt_of_not_le hnext)
      have hstop := Nat.lt_of_not_le fun hstop => hbehind (.inr hstop)
      omega
    rw [Option.map_some, Option.elim_some, hstart, Reading.distance_of_le (by omega)]
    rfl

/-- The byte in front of the end of a line tells whether a carriage return is stripped. -/
theorem lineRange?_eq (s : Source) (n : Nat) :
    lineRange? s.text n = .ok (s.lines[n]?.map Line.extent) := by
  unfold lineRange?
  rcases Nat.lt_or_ge n s.lineCount with hn | hn
  · obtain ⟨before, part, after, htext, hl, hle⟩ := exists_line hn
    have hstop := getElem?_lineStarts_succ htext hn hle
    rw [lineStarts_eq, List.getElem?_map, hl, ← lineStarts_eq, Option.map_some, Option.elim_some,
      hstop, Reading.ok_bind]
    rcases List.eq_nil_or_concat' part with rfl | ⟨start, c, rfl⟩
    · simp [stripReturn, Line.extent, Interval.ofSize]
    · have hpos := Char.utf8Size_pos c
      have hreturn : '\r'.utf8Size = 1 := rfl
      obtain ⟨b, hb, hlast⟩ := Text.exists_last_byte (before ++ start) c after
      have hoffset : before.size + Text.size (start ++ [c]) - 1
          = Text.size (before ++ start) + (c.utf8Size - 1) := by
        simp only [Text.size_append, Text.size_cons, Text.size_nil]
        omega
      have htext' : s.text = before ++ start ++ c :: after := by simp [← htext]
      have hiff : b = ascii '\r' ↔ c = '\r' := by
        rcases hlast with ⟨hascii, rfl⟩ | ⟨hwide, hb⟩
        · exact Text.ascii_inj hascii (by decide)
        · exact ⟨fun h => absurd h (Text.ne_ascii_of_le hb (by decide)),
            fun h => absurd (h ▸ hwide) (by decide)⟩
      have hlt : before.size < before.size + Text.size (start ++ [c]) := by
        simp only [Text.size_append, Text.size_cons, Text.size_nil]
        omega
      rw [if_pos hlt, hoffset, htext', hb, Reading.ok_bind, ← hoffset]
      by_cases hc : c = '\r'
      · rw [if_pos (hiff.2 hc)]
        simp [stripReturn, hc, Line.extent, Interval.ofSize, hreturn, ← Nat.add_assoc]
      · rw [if_neg (mt hiff.1 hc)]
        simp [stripReturn, hc, Line.extent, Interval.ofSize]
  · have hnone : s.lines[n]? = none := List.getElem?_eq_none_iff.2 hn
    rw [lineStarts_eq, List.getElem?_map, hnone]
    rfl

theorem part_line {n : Nat} {l : Line} (hl : s.lines[n]? = some l) :
    Reading.part s.text l.extent = .ok l.text := by
  obtain ⟨before, after, htext, hstart⟩ := Source.exists_around_line hl
  rw [← htext, Line.extent, Interval.ofSize, hstart]
  exact Reading.part_append before l.text after

/-- A line is cut out between characters. -/
theorem line?_eq (s : Source) (n : Nat) : line? s.text n = .ok s.lines[n]? := by
  rw [line?, lineRange?_eq, Reading.ok_bind]
  cases hl : s.lines[n]? with
  | none => rfl
  | some l =>
    rw [Option.map_some, Option.elim_some, part_line hl]
    rfl

theorem lineAt?_eq (s : Source) (offset : Nat) :
    lineAt? s.text offset = .ok (s.lineAt? offset) := by
  unfold lineAt? Source.lineAt?
  split
  · rw [if_neg (by omega)]
  · rw [if_pos (by omega), lineOf_eq, Reading.ok_bind, line?_eq]

theorem start_le_of_lineAt? {offset : Nat} {l : Line} (h : s.lineAt? offset = some l) :
    l.start ≤ offset := by
  unfold Source.lineAt? at h
  split at h
  · exact (Source.le_lineOf_iff h offset).1 (Nat.le_refl _)
  · cases h

/-- What stands around a string in its text; its quote is in front of it. -/
theorem exists_quoted {n : Nat} {q : Quoted} (hq : q ∈ s.quotes n) :
    ∃ before content after : Text, before ++ '"' :: (content ++ after) = s.text ∧
      q.content = ⟨before.size + 1, before.size + 1 + content.size⟩ := by
  obtain ⟨l, hl, hmem⟩ := Source.mem_quotes hq
  obtain ⟨before, content, after, htext, hcontent, -⟩ := (Source.standsOn hl hmem).exists_text
  exact ⟨before, content, after, htext, hcontent⟩

/-- What stands around the content of a string in its text. -/
theorem exists_content {n : Nat} {q : Quoted} (hq : q ∈ s.quotes n) :
    ∃ before content after : Text, before ++ (content ++ after) = s.text ∧
      q.content = ⟨before.size, before.size + content.size⟩ := by
  obtain ⟨before, content, after, htext, hcontent⟩ := exists_quoted hq
  have hquote : Text.size (before ++ ['"']) = before.size + 1 := Text.size_append before ['"']
  refine ⟨before ++ ['"'], content, after, ?_, ?_⟩
  · rw [← htext, List.append_assoc, List.singleton_append]
  · rw [hcontent, hquote]

end Lines

/-! ## Questions about places -/

/-- A place is behind the `//` of its line. -/
def inRemark (t : Text) (offset : Nat) : Reading Bool := do
  let line ← lineAt? t offset
  return line.any fun l => (lex l.text).remark?.any fun c => decide (l.start + c ≤ offset)

/-- More block comments are opened than closed before a place; none if the text cannot be cut
there. -/
def inBlockComment (t : Text) (offset : Nat) : Bool :=
  (t.slice? ⟨0, offset⟩).any fun before => before.countPair '*' '/' < before.countPair '/' '*'

def inComment (t : Text) (offset : Nat) : Reading Bool := do
  let remark ← inRemark t offset
  return remark || inBlockComment t offset

def quotes (t : Text) (n : Nat) : Reading (List Quoted) := do
  let line ← line? t n
  return line.elim [] fun l => (lex l.text).quotes l.start l.text.size

def inString (t : Text) (offset : Nat) : Reading Bool := do
  let line ← lineAt? t offset
  return line.any fun l => ((lex l.text).quotes l.start l.text.size).any (·.holds offset)

/-- The innermost function whose argument list holds a place. -/
def enclosingCall? (t : Text) (offset : Nat) : Reading (Option Text) := do
  let line ← lineAt? t offset
  line.elim (.ok none) fun l => enclosingCallOn? l offset

theorem inRemark_eq (s : Source) (offset : Nat) :
    inRemark s.text offset = .ok (s.inRemark offset) := by
  rw [inRemark, lineAt?_eq, Reading.ok_bind, Source.inRemark]
  cases s.lineAt? offset with
  | none => rfl
  | some l => simp [← lex_remark?, Option.any_map]

theorem inBlockComment_eq (s : Source) (offset : Nat) :
    inBlockComment s.text offset = s.inBlockComment offset := by
  have hfirst : s.text.splitAt? 0 = some ([], s.text) := by
    cases s.text <;> rfl
  simp only [inBlockComment, Text.slice?, Nat.zero_le, if_true, hfirst, Nat.sub_zero,
    Source.inBlockComment]
  cases s.text.splitAt? offset <;> rfl

theorem inComment_eq (s : Source) (offset : Nat) :
    inComment s.text offset = .ok (s.inComment offset) := by
  rw [inComment, inRemark_eq, Reading.ok_bind, inBlockComment_eq]
  rfl

theorem quotes_eq (s : Source) (n : Nat) : quotes s.text n = .ok (s.quotes n) := by
  rw [quotes, line?_eq, Reading.ok_bind, Source.quotes]
  cases s.lines[n]? with
  | none => rfl
  | some l => exact congrArg Except.ok (lex_quotes l)

theorem inString_eq (s : Source) (offset : Nat) :
    inString s.text offset = .ok (s.inString offset) := by
  rw [inString, lineAt?_eq, Reading.ok_bind, Source.inString, Source.quoteAt?]
  cases s.lineAt? offset with
  | none => rfl
  | some l =>
    have hfind : l.quotes.any (·.holds offset) = (l.quotes.find? (·.holds offset)).isSome := by
      rw [Bool.eq_iff_iff, List.any_eq_true, List.find?_isSome]
    simp [lex_quotes, hfind]

theorem enclosingCall?_eq (s : Source) (offset : Nat) :
    enclosingCall? s.text offset = .ok (s.enclosingCall? offset) := by
  rw [enclosingCall?, lineAt?_eq, Reading.ok_bind, Source.enclosingCall?]
  cases hl : s.lineAt? offset with
  | none => rfl
  | some l => exact enclosingCallOn?_eq (start_le_of_lineAt? hl)

end Offsets

end Swatch

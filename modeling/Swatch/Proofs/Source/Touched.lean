-- SUMMARY: The string that holds a place is the only string of its line that touches the place.
import Swatch.Proofs.Source.Alike

/-!
# Strings and the places that touch them

A line is cut into pieces from left to right. A string that is not closed and the remark are
last: all other pieces are whole, and a whole piece has a quote only around a string or in
front of the apostrophe that ends a character literal.

Strings of a line do not touch each other. Thus the first one that holds a place is the only
one, and asking for the string of a place is the same as looking for it among the strings of
the line.
-/

namespace Swatch

/-! ## How a line is cut -/

/-- A piece that others may follow. -/
def Piece.IsWhole : Piece → Prop
  | .quoted _ closed => closed = true
  | .character literal => ∀ left right, left ++ '"' :: right = literal → right = ['\'']
  | .remark _ => False
  | .code c => c ≠ '"'

/-- A text is cut into pieces, of which only the last may not be whole. -/
inductive IsCut : Text → List Piece → Prop
  | nil : IsCut [] []
  | unclosed (content : Text) : IsCut ('"' :: content) [.quoted content false]
  | remark (t : Text) : IsCut t [.remark t]
  | cons {p : Piece} {t : Text} {ps : List Piece} (hp : p.IsWhole) (h : IsCut t ps) :
    IsCut (p.text ++ t) (p :: ps)

theorem IsCharacterLiteral.isWhole {after literal : Text} (h : IsCharacterLiteral after literal) :
    (Piece.character literal).IsWhole := by
  intro left right htext
  have hsuffix : '"' :: right <:+ literal := ⟨left, htext⟩
  cases h with
  | @guarded c hone =>
    have hright : '"' = c ∧ right = ['\''] := by simpa [List.suffix_cons_iff] using hsuffix
    exact hright.2
  | @plain c hone hguard =>
    have hright : '"' = c ∧ right = ['\''] := by simpa [List.suffix_cons_iff] using hsuffix
    exact hright.2

theorem isCut_pieces (t : Text) : IsCut t (pieces t) := by
  fun_induction pieces t with
  | case1 => exact .nil
  | case2 rest content after heq ih =>
    have happend := quotedContent_append rest
    rw [heq] at happend
    have htext : '"' :: rest = (Piece.quoted content true).text ++ after := by
      simp [Piece.text, happend]
    rw [htext]
    exact .cons rfl ih
  | case3 rest content heq =>
    have happend := quotedContent_append rest
    rw [heq, List.append_nil] at happend
    exact happend ▸ .unclosed content
  | case4 rest => exact .remark _
  | case5 c rest _ _ literal after heq ih =>
    rw [characterLiteral?_append heq]
    exact .cons (characterLiteral?_eq_some_iff.1 heq).2.isWhole ih
  | case6 c rest hquote _ _ ih => exact .cons (p := .code c) hquote ih

namespace Line

variable {offset r : Nat} {t : Text} {p : Piece} {ps : List Piece} {q : Quoted}

theorem mem_quotedFrom_cons : q ∈ quotedFrom offset (p :: ps) ↔
    (∃ content, p = .quoted content q.closed ∧ q.content = .ofSize (offset + 1) content.size) ∨
      q ∈ quotedFrom (offset + p.text.size) ps := by
  obtain ⟨i, closed⟩ := q
  cases p with
  | quoted content closed' =>
    simp [quotedFrom, and_comm, eq_comm]
  | _ => simp [quotedFrom]

/-- What stands around a string: its opening quote, and its closing one or the end of the text. -/
theorem exists_text_of_isCut (h : IsCut t ps) (hq : q ∈ quotedFrom offset ps) :
    ∃ left content right : Text, left ++ '"' :: (content ++ right) = t ∧
      q.content = .ofSize (offset + left.size + 1) content.size ∧
      if q.closed then right.head? = some '"' else right = [] := by
  induction h generalizing offset with
  | nil => cases hq
  | unclosed content =>
    obtain rfl := List.mem_singleton.1 hq
    exact ⟨[], content, [], by simp, rfl, rfl⟩
  | remark t => cases hq
  | @cons p t ps hp _ ih =>
    rcases mem_quotedFrom_cons.1 hq with ⟨content, rfl, hcontent⟩ | hq
    · have hclosed : q.closed = true := hp
      refine ⟨[], content, '"' :: t, ?_, hcontent, ?_⟩
      · simp [Piece.text, hclosed]
      · simp [hclosed]
    · obtain ⟨left, content, right, rfl, hcontent, hright⟩ := ih hq
      refine ⟨p.text ++ left, content, right, by simp, ?_, hright⟩
      rw [hcontent, Text.size_append, Nat.add_assoc offset]

theorem size_quoted (content : Text) :
    (Piece.quoted content true).text.size = content.size + 2 := by
  have hquote : '"'.utf8Size = 1 := rfl
  simp [Piece.text, hquote]
  omega

theorem remarkFrom_cons (hp : p.IsWhole) :
    remarkFrom offset (p :: ps) = remarkFrom (offset + p.text.size) ps := by
  cases p with
  | remark text => exact hp.elim
  | _ => rfl

/-- The remark opens behind all strings. -/
theorem stop_lt_of_remarkFrom (h : IsCut t ps) (hq : q ∈ quotedFrom offset ps)
    (hr : remarkFrom offset ps = some r) : q.content.stop < r := by
  induction h generalizing offset with
  | nil => cases hq
  | unclosed content => cases hr
  | remark t => cases hq
  | @cons p t ps hp _ ih =>
    rw [remarkFrom_cons hp] at hr
    rcases mem_quotedFrom_cons.1 hq with ⟨content, rfl, hcontent⟩ | hq
    · have hclosed : q.closed = true := hp
      have hle := le_of_remarkFrom hr
      rw [hclosed, size_quoted] at hle
      simp only [hcontent, Interval.ofSize]
      omega
    · exact ih hq hr

/-- A quote in a whole piece is around its string, or it stands in front of the apostrophe that
ends a character literal. -/
theorem quote_of_isWhole (hp : p.IsWhole) {before after : Text}
    (ht : before ++ '"' :: after = p.text) :
    (∃ content, p = .quoted content true ∧ before.size ≤ content.size + 1) ∨ after = ['\''] := by
  cases p with
  | quoted content closed =>
    obtain rfl : closed = true := hp
    have hsize := congrArg Text.size ht
    rw [size_quoted] at hsize
    have hquote : '"'.utf8Size = 1 := rfl
    simp only [Text.size_append, Text.size_cons, hquote] at hsize
    exact .inl ⟨content, rfl, by omega⟩
  | character literal => exact .inr (hp before after ht)
  | remark text => exact hp.elim
  | code c =>
    have hc : before = [] ∧ '"' = c ∧ after = [] := by
      simpa [Piece.text, List.append_eq_cons_iff] using ht
    exact absurd hc.2.1.symm hp

/-- Every quote belongs to a string or to the remark, or it stands in front of the apostrophe that
ends a character literal. -/
theorem quote_of_isCut (h : IsCut t ps) {before after : Text} (ht : before ++ '"' :: after = t) :
    (∃ q ∈ quotedFrom offset ps, q.content.start ≤ offset + before.size + 1 ∧
        offset + before.size ≤ q.content.stop) ∨
      (∃ r, remarkFrom offset ps = some r ∧ r ≤ offset + before.size) ∨
      after.head? = some '\'' := by
  induction h generalizing offset before with
  | nil => simp at ht
  | unclosed content =>
    have hsize := congrArg Text.size ht
    simp only [Text.size_append, Text.size_cons] at hsize
    refine .inl ⟨_, List.mem_singleton_self _, ?_, ?_⟩
    · simp only [Interval.ofSize]
      omega
    · simp only [Interval.ofSize]
      omega
  | remark t => exact .inr (.inl ⟨offset, rfl, Nat.le_add_right _ _⟩)
  | @cons p t ps hp _ ih =>
    rw [remarkFrom_cons hp]
    rcases Nat.lt_or_ge before.size p.text.size with hlt | hle
    · obtain ⟨mid, htext, hrest⟩ := Text.exists_middle ht (Nat.le_of_lt hlt)
      cases mid with
      | nil => simp [htext] at hlt
      | cons c mid =>
        obtain ⟨rfl, rfl⟩ := List.cons.inj hrest
        rcases quote_of_isWhole hp htext.symm with ⟨content, rfl, hsize⟩ | rfl
        · refine .inl ⟨⟨.ofSize (offset + 1) content.size, true⟩,
            mem_quotedFrom_cons.2 (.inl ⟨content, rfl, rfl⟩), ?_, ?_⟩
          · simp only [Interval.ofSize]
            omega
          · simp only [Interval.ofSize]
            omega
        · exact .inr (.inr rfl)
    · obtain ⟨mid, rfl, hrest⟩ := Text.exists_middle ht.symm hle
      rw [Text.size_append, ← Nat.add_assoc offset]
      refine (ih hrest.symm).imp_left ?_
      rintro ⟨q, hq, hbounds⟩
      exact ⟨q, mem_quotedFrom_cons.2 (.inr hq), hbounds⟩

end Line

/-! ## Strings of a source -/

/-- How a string stands on a line: behind its opening quote, in front of its closing one or of the
end of the line, and outside of the remark. -/
structure Quoted.StandsOn (s : Source) (l : Line) (q : Quoted) : Prop where
  start_lt : l.start < q.content.start
  start_le_stop : q.content.start ≤ q.content.stop
  exists_text : ∃ before content after : Text, before ++ '"' :: (content ++ after) = s.text ∧
    q.content = .ofSize (before.size + 1) content.size ∧
    (q.closed = true → after.head? = some '"')
  stop_lt_of_closed : q.closed = true → q.content.stop < l.extent.stop
  last_of_unclosed : q.closed = false →
    q.content.stop = l.extent.stop ∧ l.quotes.getLast? = some q
  not_inRemark : ∀ offset, q.content.start ≤ offset → offset ≤ q.content.stop →
    s.inRemark offset = false

namespace Line

variable {l : Line} {q : Quoted}

/-- Behind a string that takes the rest of its line there is no other one. -/
theorem getLast?_quotes (hq : q ∈ l.quotes) (hstop : q.content.stop = l.extent.stop) :
    l.quotes.getLast? = some q := by
  obtain ⟨before, after, hquotes⟩ := List.append_of_mem hq
  cases after with
  | nil => rw [hquotes, List.getLast?_concat]
  | cons q' after =>
    have hpairwise := l.pairwise_quotes
    rw [hquotes, List.pairwise_append] at hpairwise
    have hlt := List.rel_of_pairwise_cons hpairwise.2.1 List.mem_cons_self
    have hbounds := quotes_bounds (hquotes ▸ by simp : q' ∈ l.quotes)
    omega

end Line

namespace Source

variable {s : Source} {n : Nat} {l : Line} {q : Quoted}

theorem inRemark_eq {offset : Nat} (hl : s.lines[n]? = some l) (hstart : l.start ≤ offset)
    (hstop : offset ≤ l.extent.stop) : s.inRemark offset = l.remark?.any (· ≤ offset) := by
  obtain ⟨before, after, htext, hbefore⟩ := exists_around_line hl
  have hsize := congrArg Text.size htext
  have hle : offset ≤ s.text.size := by
    simp only [Line.extent, Interval.ofSize] at hstop
    simp only [Text.size_append] at hsize
    omega
  rw [inRemark, lineAt?, if_pos hle, lineOf_eq hl hstart hstop, hl, Option.bind_some]

theorem quotes_eq (hl : s.lines[n]? = some l) : s.quotes n = l.quotes := by
  rw [quotes, hl]

theorem standsOn (hl : s.lines[n]? = some l) (hq : q ∈ l.quotes) : q.StandsOn s l := by
  have hcut := isCut_pieces l.text
  obtain ⟨hfirst, hle, hlast⟩ := Line.quotes_bounds hq
  obtain ⟨left, content, right, htext, hcontent, hright⟩ := Line.exists_text_of_isCut hcut hq
  obtain ⟨before, after, hline, hstart⟩ := exists_around_line hl
  have hsize := congrArg Text.size htext
  have hquote : '"'.utf8Size = 1 := rfl
  simp only [Text.size_append, Text.size_cons, hquote] at hsize
  have hstop : q.content.stop + right.size = l.extent.stop := by
    simp only [hcontent, Line.extent, Interval.ofSize]
    omega
  refine ⟨hfirst, hle, ⟨before ++ left, content, right ++ after, ?_, ?_, ?_⟩, ?_, ?_, ?_⟩
  · rw [← hline, ← htext]
    simp
  · rw [hcontent, hstart, Text.size_append]
  · intro hclosed
    rw [hclosed, if_pos rfl] at hright
    rw [List.head?_append, hright, Option.some_or]
  · intro hclosed
    rw [hclosed, if_pos rfl] at hright
    obtain ⟨more, rfl⟩ := List.head?_eq_some_iff.1 hright
    rw [Text.size_cons, hquote] at hstop
    omega
  · intro hclosed
    rw [hclosed, if_neg Bool.false_ne_true] at hright
    have hend : q.content.stop = l.extent.stop := by simpa [hright] using hstop
    exact ⟨hend, Line.getLast?_quotes hq hend⟩
  · intro offset hfrom hto
    rw [inRemark_eq hl (by omega) (by omega)]
    cases hr : l.remark? with
    | none => rfl
    | some r =>
      have hlt := Line.stop_lt_of_remarkFrom hcut hq hr
      exact decide_eq_false (by omega)

/-! ## The string of a place -/

theorem holds_iff {offset : Nat} : q.holds offset = true ↔
    q.content.start ≤ offset ∧
      (offset < q.content.stop ∨ q.closed = false ∧ offset = q.content.stop) := by
  simp [Quoted.holds]

/-- The first string of a line that holds a place is the only one. -/
theorem find?_quotes_eq_some_iff {offset : Nat} :
    (s.quotes n).find? (·.holds offset) = some q ↔ q ∈ s.quotes n ∧ q.holds offset = true := by
  constructor
  · exact fun h => ⟨List.mem_of_find?_eq_some h, by simpa using List.find?_some h⟩
  · rintro ⟨hq, hholds⟩
    obtain ⟨before, after, hquotes⟩ := List.append_of_mem hq
    refine List.find?_eq_some_iff_append.2 ⟨hholds, before, after, hquotes, fun q' hq' => ?_⟩
    have hpairwise := s.pairwise_quotes n
    rw [hquotes, List.pairwise_append] at hpairwise
    have hlt := hpairwise.2.2 q' hq' q List.mem_cons_self
    have hstart := (holds_iff.1 hholds).1
    rw [Bool.not_eq_true', ← Bool.not_eq_true, holds_iff]
    omega

/-- The strings of each line stand in order and apart from each other, and every quote of the line
is theirs or the remark's, unless an apostrophe follows it, as in a character literal. The string of
a place is the only string of its line that touches the place; there is none if no string of the
line does, or if the place is beyond the text. -/
theorem quoteAt?_eq_some_iff (s : Source) :
    (∀ n, (s.quotes n).Pairwise fun q q' => q.content.stop < q'.content.start) ∧
    (∀ n, ∀ q ∈ s.quotes n, ∃ l, s.lines[n]? = some l ∧ q.StandsOn s l) ∧
    (∀ n l (before after : Text), s.lines[n]? = some l → before ++ '"' :: after = l.text →
      (∃ q ∈ s.quotes n, q.content.start ≤ l.start + before.size + 1 ∧
          l.start + before.size ≤ q.content.stop) ∨
        s.inRemark (l.start + before.size) = true ∨ after.head? = some '\'') ∧
    (∀ offset q, s.quoteAt? offset = some q ↔
      offset ≤ s.text.size ∧ q ∈ s.quotes (s.lineOf offset) ∧ q.content.start ≤ offset ∧
        (offset < q.content.stop ∨ q.closed = false ∧ offset = q.content.stop)) := by
  refine ⟨s.pairwise_quotes, fun n q hq => ?_, fun n l before after hl htext => ?_,
    fun offset q => ?_⟩
  · obtain ⟨l, hl, hmem⟩ := mem_quotes hq
    exact ⟨l, hl, standsOn hl hmem⟩
  · have hsize := congrArg Text.size htext
    rw [Text.size_append] at hsize
    have hstop : l.start + before.size ≤ l.extent.stop := by
      simp only [Line.extent, Interval.ofSize]
      omega
    rw [quotes_eq hl, inRemark_eq hl (Nat.le_add_right _ _) hstop]
    refine (Line.quote_of_isCut (isCut_pieces l.text) htext).imp_right (.imp_left ?_)
    rintro ⟨r, hr, hle⟩
    rw [Line.remark?, hr]
    exact decide_eq_true hle
  · rw [quoteAt?, lineAt?]
    split
    · next hle =>
      rw [← holds_iff, ← find?_quotes_eq_some_iff, quotes]
      cases s.lines[s.lineOf offset]? with
      | none => simp
      | some l => simp [hle]
    · next hlt => simp [hlt]

/-- A quote in a character literal opens no string, and no remark opens in a string. -/
example :
    let s : Source := { text := "a = \"b\\\"\"; '\"' \"c // d\r\n".toList }
    s.quotes 0 = [⟨⟨5, 8⟩, true⟩, ⟨⟨16, 22⟩, false⟩] ∧ s.quoteAt? 8 = none ∧
      s.quoteAt? 22 = some ⟨⟨16, 22⟩, false⟩ := by
  cbv

end Source

end Swatch

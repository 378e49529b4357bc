-- SUMMARY: Lines of a text put together from parts, and when documents see just those lines.
import Swatch.Document.Basic
import Swatch.Source.Context
import Mathlib.Data.List.TakeWhile

/-!
# Lines of joined texts

Two texts that are put together share one line: the last of the first text and the
first of the second one run into each other. All lines before it are lines of the
first text, and all lines behind it are lines of the second one.

A text whose only line breaks are line feeds has the same lines as a document.
-/

namespace Swatch

/-- The first number that no signed 64-bit word can hold. -/
def signedLimit : Nat := 0x8000000000000000

namespace Text

def firstPart (t : Text) : Text :=
  t.takeWhile (· ≠ '\n')

def lastPart (t : Text) : Text :=
  (firstPart t.reverse).reverse

/-- Line feeds are the only line breaks. -/
def OnlyFeeds (t : Text) : Prop :=
  ∀ c ∈ t, isLineBreak c → c = '\n'

instance (t : Text) : Decidable (OnlyFeeds t) :=
  List.decidableBAll (fun c => isLineBreak c → c = '\n') t

/-- The text takes no more bytes than a signed word can count, as every text in memory does. -/
def InMemory (t : Text) : Prop :=
  t.size < signedLimit

instance (t : Text) : Decidable (InMemory t) :=
  inferInstanceAs (Decidable (t.size < signedLimit))

theorem length_le_size (t : Text) : t.length ≤ t.size := by
  induction t with
  | nil => simp
  | cons c t ih =>
    have hc : 0 < c.utf8Size := Char.utf8Size_pos c
    simp only [List.length_cons, size_cons]
    omega

theorem count_le_size (t : Text) : t.count '\n' ≤ t.size :=
  Nat.le_trans List.count_le_length t.length_le_size

theorem OnlyFeeds.append {s t : Text} (hs : s.OnlyFeeds) (ht : t.OnlyFeeds) :
    OnlyFeeds (s ++ t) := by
  intro c hc hbreak
  rcases List.mem_append.1 hc with hc | hc
  · exact hs c hc hbreak
  · exact ht c hc hbreak

theorem OnlyFeeds.left {s t : Text} (h : OnlyFeeds (s ++ t)) : s.OnlyFeeds :=
  fun c hc => h c (List.mem_append_left t hc)

theorem OnlyFeeds.right {s t : Text} (h : OnlyFeeds (s ++ t)) : t.OnlyFeeds :=
  fun c hc => h c (List.mem_append_right s hc)

/-! ## The first and the last part -/

theorem firstPart_of_notMem {t : Text} (h : '\n' ∉ t) : firstPart t = t := by
  apply List.takeWhile_eq_self_iff.2
  intro c hc
  simpa using fun he : c = '\n' => h (he ▸ hc)

theorem firstPart_append_of_notMem {s : Text} (t : Text) (h : '\n' ∉ s) :
    firstPart (s ++ t) = s ++ firstPart t := by
  apply List.takeWhile_append_of_pos
  intro c hc
  simpa using fun he : c = '\n' => h (he ▸ hc)

/-- What stands behind the first line feed does not matter. -/
theorem firstPart_append_of_mem {s : Text} (t : Text) (h : '\n' ∈ s) :
    firstPart (s ++ t) = firstPart s := by
  have hstop : (s.takeWhile (· ≠ '\n')).length ≠ s.length := by
    intro he
    have hall := List.takeWhile_eq_self_iff.1 ((List.takeWhile_prefix _).eq_of_length he)
    simpa using hall '\n' h
  rw [firstPart, firstPart, List.takeWhile_append, if_neg hstop]

/-- A text with nothing before its first line feed is empty or starts with one. -/
theorem firstPart_eq_nil_iff {t : Text} : firstPart t = [] ↔ t = [] ∨ t.head? = some '\n' := by
  cases t with
  | nil => simp [firstPart]
  | cons c t => by_cases hc : c = '\n' <;> simp [firstPart, hc]

@[simp] theorem lastPart_nil : lastPart [] = [] := rfl

@[simp] theorem lastPart_append_feed (s : Text) : lastPart (s ++ ['\n']) = [] := by
  simp [lastPart, firstPart]

theorem lastPart_of_notMem {t : Text} (h : '\n' ∉ t) : lastPart t = t := by
  rw [lastPart, firstPart_of_notMem (by simpa using h), List.reverse_reverse]

/-- What stands before the last line feed does not matter. -/
theorem lastPart_append_of_mem (s : Text) {t : Text} (h : '\n' ∈ t) :
    lastPart (s ++ t) = lastPart t := by
  rw [lastPart, lastPart, List.reverse_append, firstPart_append_of_mem _ (by simpa using h)]

theorem lastPart_append_of_notMem (s : Text) {t : Text} (h : '\n' ∉ t) :
    lastPart (s ++ t) = lastPart s ++ t := by
  rw [lastPart, lastPart, List.reverse_append, firstPart_append_of_notMem _ (by simpa using h),
    List.reverse_append, List.reverse_reverse]

end Text

/-! ## Lines of joined texts -/

@[simp] theorem splitLines_nil : splitLines [] = [[]] := rfl

@[simp] theorem splitLines_feed (t : Text) : splitLines ('\n' :: t) = [] :: splitLines t := by
  simp [splitLines]

theorem splitLines_cons_of_ne {c : Char} (hc : c ≠ '\n') {t line : Text} {lines : List Text}
    (h : splitLines t = line :: lines) : splitLines (c :: t) = (c :: line) :: lines := by
  simp [splitLines, hc, h]

theorem exists_splitLines (t : Text) : ∃ line lines, splitLines t = line :: lines :=
  List.exists_cons_of_ne_nil (splitLines_ne_nil t)

@[simp] theorem length_splitLines (t : Text) : (splitLines t).length = t.count '\n' + 1 := by
  induction t with
  | nil => rfl
  | cons c t ih =>
    by_cases hc : c = '\n'
    · subst hc
      simp [ih]
    · obtain ⟨line, lines, h⟩ := exists_splitLines t
      rw [splitLines_cons_of_ne hc h, List.count_cons_of_ne (Ne.symm hc).symm, ← ih, h]
      rfl

/-- A line that ends in the first text is not changed by what follows. -/
theorem getElem?_splitLines_append_left (s t : Text) {n : Nat} (hn : n < s.count '\n') :
    (splitLines (s ++ t))[n]? = (splitLines s)[n]? := by
  induction s generalizing n with
  | nil => simp at hn
  | cons c s ih =>
    by_cases hc : c = '\n'
    · subst hc
      cases n with
      | zero => simp
      | succ n => simpa using ih (by simpa using hn)
    · obtain ⟨line, lines, h⟩ := exists_splitLines s
      obtain ⟨line', lines', h'⟩ := exists_splitLines (s ++ t)
      have hih := fun m hm => @ih m hm
      rw [List.count_cons_of_ne hc] at hn
      simp only [h, h'] at hih
      rw [List.cons_append, splitLines_cons_of_ne hc h, splitLines_cons_of_ne hc h']
      cases n with
      | zero => simpa using hih 0 hn
      | succ n => simpa using hih (n + 1) hn

/-- A line that starts in the second text is not changed by what precedes. -/
theorem getElem?_splitLines_append_right (s t : Text) (n : Nat) :
    (splitLines (s ++ t))[s.count '\n' + (n + 1)]? = (splitLines t)[n + 1]? := by
  induction s with
  | nil => simp
  | cons c s ih =>
    by_cases hc : c = '\n'
    · subst hc
      rw [List.cons_append, splitLines_feed, List.count_cons_self, ← ih]
      rw [show s.count '\n' + 1 + (n + 1) = s.count '\n' + (n + 1) + 1 by omega]
      rfl
    · obtain ⟨line, lines, h⟩ := exists_splitLines (s ++ t)
      rw [List.cons_append, splitLines_cons_of_ne hc h, List.count_cons_of_ne hc, ← ih, h]
      rfl

/-- The line that both texts share. -/
theorem getElem?_splitLines_append (s t : Text) :
    (splitLines (s ++ t))[s.count '\n']? = some (s.lastPart ++ t.firstPart) := by
  induction s with
  | nil =>
    induction t with
    | nil => rfl
    | cons c t ih =>
      by_cases hc : c = '\n'
      · subst hc
        rfl
      · obtain ⟨line, lines, h⟩ := exists_splitLines t
        simp only [List.nil_append, List.count_nil, h, List.getElem?_cons_zero, Option.some.injEq,
          Text.lastPart_nil] at ih
        simp [splitLines_cons_of_ne hc h, ih, Text.firstPart, hc]
  | cons c s ih =>
    obtain ⟨line, lines, h⟩ := exists_splitLines (s ++ t)
    by_cases hc : c = '\n'
    · subst hc
      by_cases hs : '\n' ∈ s
      · have hlast := Text.lastPart_append_of_mem ['\n'] hs
        simpa [← hlast] using ih
      · have hlast := Text.lastPart_append_of_notMem ['\n'] hs
        rw [Text.lastPart_of_notMem hs] at ih
        have hfeed : Text.lastPart ['\n'] = [] := rfl
        simp only [List.singleton_append, hfeed, List.nil_append] at hlast
        simpa [hlast] using ih
    · rw [List.cons_append, splitLines_cons_of_ne hc h, List.count_cons_of_ne hc]
      by_cases hs : '\n' ∈ s
      · have hlast := Text.lastPart_append_of_mem [c] hs
        obtain ⟨n, hn⟩ := Nat.exists_eq_add_one.2 (List.count_pos_iff.2 hs)
        simp only [List.singleton_append] at hlast
        rw [h, hn] at ih
        simpa [hlast, hn] using ih
      · have hzero : s.count '\n' = 0 := List.count_eq_zero.2 hs
        have hcs : '\n' ∉ c :: s := by simp [hs, Ne.symm hc]
        rw [h, hzero, Text.lastPart_of_notMem hs] at ih
        rw [Text.lastPart_of_notMem hcs, hzero]
        simpa using ih

/-! ## Lines of documents -/

/-- A line without the line feeds and carriage returns that it ends with. -/
def lineContent (line : Text) : Text :=
  (line.reverse.dropWhile fun c => c == '\n' || c == '\r').reverse

theorem lineContent_cons {c : Char} (hc : ¬isLineBreak c) (line : Text) :
    lineContent (c :: line) = c :: lineContent line := by
  have hkeep : (c == '\n' || c == '\r') = false := by
    simp only [Bool.or_eq_false_iff, beq_eq_false_iff_ne]
    constructor <;> (rintro rfl; exact hc (by decide))
  have hlast : List.dropWhile (fun c => c == '\n' || c == '\r') [c] = [c] :=
    List.dropWhile_cons_of_neg (by simp [hkeep])
  rw [lineContent, lineContent, List.reverse_cons, List.dropWhile_append, hlast]
  split
  · next h => simp [List.isEmpty_iff.1 h]
  · simp

theorem documentLines_feed (t : Text) : documentLines ('\n' :: t) = ['\n'] :: documentLines t := by
  rw [documentLines.eq_3 _ _ (by simp)]
  simp [isLineBreak]

theorem documentLines_cons_of_not {c : Char} (hc : ¬isLineBreak c) {t line : Text}
    {lines : List Text} (h : documentLines t = line :: lines) :
    documentLines (c :: t) = (c :: line) :: lines := by
  have hr : c ≠ '\r' := by
    rintro rfl
    exact hc (by decide)
  rw [documentLines.eq_3 _ _ (fun _ he => absurd he hr)]
  simp [hc, h]

theorem exists_documentLines (t : Text) : ∃ line lines, documentLines t = line :: lines :=
  List.exists_cons_of_ne_nil (documentLines_ne_nil t)

/-- Where line feeds are the only breaks, a document has the lines that line feeds cut out. -/
theorem map_lineContent_documentLines {t : Text} (h : t.OnlyFeeds) :
    (documentLines t).map lineContent = splitLines t := by
  induction t with
  | nil => rfl
  | cons c t ih =>
    have ht := ih (Text.OnlyFeeds.right (s := [c]) h)
    by_cases hc : c = '\n'
    · subst hc
      rw [documentLines_feed, splitLines_feed, List.map_cons, ht]
      rfl
    · have hbreak : ¬isLineBreak c := fun hb => hc (h c List.mem_cons_self hb)
      obtain ⟨line, lines, hl⟩ := exists_documentLines t
      rw [hl, List.map_cons] at ht
      rw [documentLines_cons_of_not hbreak hl, List.map_cons, lineContent_cons hbreak,
        splitLines_cons_of_ne hc ht.symm]

namespace Document

theorem lineAt?_eq_splitLines {d : Document} (h : d.text.OnlyFeeds) (n : Nat) :
    d.lineAt? n = (splitLines d.text)[n]? := by
  rw [← map_lineContent_documentLines h, List.getElem?_map]
  rfl

theorem lineCount_eq_count {d : Document} (h : d.text.OnlyFeeds) :
    d.lineCount = d.text.count '\n' + 1 := by
  rw [← length_splitLines, ← map_lineContent_documentLines h, List.length_map]
  rfl

end Document

end Swatch

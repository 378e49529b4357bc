-- SUMMARY: Which ignored lines keep their text when a document is reloaded with lines put in.
import Swatch.Proofs.Document.Difference
import Swatch.Proofs.Ignored.Follow
import Swatch.Session
import Mathlib.Data.Multiset.AddSub

/-!
# Reloading a document with new lines

A reload follows the one edit between the old and the new text. If whole lines were
put in, that edit is an insertion, and all lines but the one that it starts on move
with their text. The line that it starts on moves as a whole if the insertion starts
in front of it. Otherwise the insertion starts inside the line because the first new
line reads like it up to there; the ignored line then stays, and what it reads from
then on belongs to the new line.
-/

namespace Swatch.Ignored

/-! ## Lines around an insertion -/

section Insertion

variable {before text rest : Text}

/-- All lines but the one that an insertion starts on keep their text. -/
theorem getElem?_splitLines_insertion (text rest : Text) {line : Nat}
    (hline : line ≠ before.count '\n') :
    (splitLines (before ++ text ++ rest))[
        if line < before.count '\n' then line else line + text.count '\n']?
      = (splitLines (before ++ rest))[line]? := by
  split
  · next hlt =>
    rw [List.append_assoc, getElem?_splitLines_append_left _ _ hlt,
      getElem?_splitLines_append_left _ _ hlt]
  · next hge =>
    obtain ⟨n, hn⟩ := Nat.exists_eq_add_of_lt (show before.count '\n' < line by omega)
    have hmoved : line + text.count '\n' = (before ++ text).count '\n' + (n + 1) := by
      rw [List.count_append]
      omega
    rw [hmoved, show line = before.count '\n' + (n + 1) by omega,
      getElem?_splitLines_append_right, getElem?_splitLines_append_right]

/-- If an insertion starts inside a line, that line keeps its text only if the insertion breaks the
text at its very end. -/
theorem getElem?_splitLines_inside_iff (before : Text) (hfeed : '\n' ∈ text)
    (hdiffer : rest = [] ∨ rest.head? ≠ text.head?) :
    (splitLines (before ++ text ++ rest))[before.count '\n']?
        = (splitLines (before ++ rest))[before.count '\n']?
      ↔ rest = [] ∧ text.head? = some '\n' := by
  rw [List.append_assoc, getElem?_splitLines_append, getElem?_splitLines_append,
    Text.firstPart_append_of_mem rest hfeed, Option.some.injEq, List.append_cancel_left_eq]
  constructor
  · intro hparts
    rcases hdiffer with rfl | hhead
    · have hnil : text.firstPart = [] := hparts
      exact ⟨rfl, (Text.firstPart_eq_nil_iff.1 hnil).resolve_left (List.ne_nil_of_mem hfeed)⟩
    · cases rest with
      | nil =>
        have hnil : text.firstPart = [] := hparts
        exact ⟨rfl, (Text.firstPart_eq_nil_iff.1 hnil).resolve_left (List.ne_nil_of_mem hfeed)⟩
      | cons c rest =>
        obtain ⟨d, text, rfl⟩ := List.exists_cons_of_ne_nil (List.ne_nil_of_mem hfeed)
        have hne : c ≠ d := by simpa using hhead
        by_cases hc : c = '\n' <;> by_cases hd : d = '\n' <;>
          simp_all [Text.firstPart]
  · rintro ⟨rfl, hhead⟩
    exact Text.firstPart_eq_nil_iff.2 (.inr hhead)

/-- If an insertion of whole lines starts in front of a line, that line keeps its text. -/
theorem getElem?_splitLines_start (rest : Text) (hbefore : before.lastPart = [])
    (hend : Text.lastPart (before ++ text) = []) :
    (splitLines (before ++ text ++ rest))[before.count '\n' + text.count '\n']?
      = (splitLines (before ++ rest))[before.count '\n']? := by
  rw [← List.count_append, getElem?_splitLines_append, getElem?_splitLines_append, hend, hbefore]

end Insertion

/-! ## All ignored lines -/

/-- If the texts of all numbers but one agree, all together agree if and only if the text of that
one does, or it does not occur. -/
theorem perm_map_iff {β : Type} {f g : Nat → β} {lines : List Nat} (line : Nat)
    (hnodup : lines.Nodup) (h : ∀ n ∈ lines, n ≠ line → f n = g n) :
    (lines.map f).Perm (lines.map g) ↔ line ∉ lines ∨ f line = g line := by
  by_cases hmem : line ∈ lines
  · have hrest : (lines.erase line).map f = (lines.erase line).map g := by
      apply List.map_congr_left
      intro n hn
      rw [hnodup.mem_erase_iff] at hn
      exact h n hn.2 hn.1
    have hf := (List.perm_cons_erase hmem).map f
    have hg := (List.perm_cons_erase hmem).map g
    rw [List.map_cons, hrest] at hf
    rw [List.map_cons] at hg
    have hcons : (lines.map f).Perm (lines.map g) ↔
        (f line :: (lines.erase line).map g).Perm (g line :: (lines.erase line).map g) :=
      ⟨fun hp => (hf.symm.trans hp).trans hg, fun hp => (hf.trans hp).trans hg.symm⟩
    rw [hcons, ← Multiset.coe_eq_coe, ← Multiset.cons_coe, ← Multiset.cons_coe,
      Multiset.cons_inj_left]
    simp [hmem]
  · have hsame : lines.map f = lines.map g :=
      List.map_congr_left fun n hn => h n hn fun he => hmem (he ▸ hn)
    simp [hmem, hsame]

/-- The ignored lines of a document after an insertion of line feeds. -/
theorem linesOf_moveAll_insertion (r : Registry) (key : DocumentKey) {p : Position} {text : Text}
    (hfeed : '\n' ∈ text) (hword : ∀ n ∈ r.linesOf key, n + text.count '\n' < signedLimit) :
    (r.moveAll key [⟨p, p, text⟩]).1.linesOf key
      = (r.linesOf key).map fun n =>
          if n < p.line ∨ n = p.line ∧ p.column ≠ 0 then n else n + text.count '\n' := by
  rw [Registry.linesOf_moveAll, lastFirst, List.mergeSort_singleton, ← List.filterMap_eq_map]
  apply List.filterMap_congr
  intro n hn
  simp [moveLines, moveLine_insertion hfeed (hword n hn)]

/-! ## Reloading -/

/-- A reload follows the one edit that leads to the new text. -/
theorem reload_of_between? {s : Session} {d : Document} {new : Text} {e : Edit}
    (h : Edit.between? d.text new = some e) (now : Nat) :
    s.reload now d new
      = (some (e, (s.registry.moveAll d.key [e]).2),
          { s with registry := (s.registry.moveAll d.key [e]).1 }, d.replaceText new) := by
  have hflag (b : Bool) : (Registry.Reply.flag b == .flag true) = b := by cases b <;> rfl
  rw [Session.reload, h]
  simp [Session.perform, Registry.perform, hflag]

/-- The texts of the ignored lines of a document, read from a text. -/
def lineTexts (r : Registry) (key : DocumentKey) (t : Text) : List (Option Text) :=
  (r.linesOf key).map fun n => (splitLines t)[n]?

/-- After an insertion of line feeds, the ignored lines read the texts that they read before if and
only if the insertion starts in front of a line, or on a line that is not ignored, or breaks the
text at its very end. -/
theorem lineTexts_moveAll_insertion {r : Registry} {key : DocumentKey} {before text rest : Text}
    (hfeed : '\n' ∈ text) (hword : ∀ n ∈ r.linesOf key, n + text.count '\n' < signedLimit)
    (hnodup : (r.linesOf key).Nodup) (hdiffer : rest = [] ∨ rest.head? ≠ text.head?)
    (hend : before.lastPart = [] → Text.lastPart (before ++ text) = []) :
    (lineTexts (r.moveAll key [⟨.after before, .after before, text⟩]).1 key
        (before ++ text ++ rest)).Perm (lineTexts r key (before ++ rest))
      ↔ (Position.after before).column = 0 ∨ before.count '\n' ∉ r.linesOf key ∨
        rest = [] ∧ text.head? = some '\n' := by
  have hcolumn : (Position.after before).column = 0 ↔ before.lastPart = [] := by
    rw [Position.after_column, List.length_eq_zero_iff]
  rw [lineTexts, lineTexts, linesOf_moveAll_insertion r key hfeed hword, List.map_map,
    perm_map_iff (before.count '\n') hnodup]
  · simp only [Function.comp_apply, Position.after_line, Nat.lt_irrefl, true_and, false_or]
    by_cases hstart : (Position.after before).column = 0
    · have hlast := hcolumn.1 hstart
      have hsame := getElem?_splitLines_start rest hlast (hend hlast)
      simp only [hstart, ne_eq, not_true_eq_false, if_false, hsame, or_true, true_or]
    · have hsame := getElem?_splitLines_inside_iff before hfeed hdiffer
      simp only [hstart, ne_eq, not_false_eq_true, if_true, hsame, false_or]
  · intro n _ hne
    have hsame := getElem?_splitLines_insertion text rest hne
    simpa [hne] using hsame

/-- After a reload with whole lines put in, the ignored lines read the texts that they read before
if and only if the edit that the reload follows starts in front of a line, or on a line that is not
ignored, or breaks the text at its very end. -/
theorem reload_keeps_texts_iff (s : Session) (now : Nat) (d : Document) (hfeeds : d.text.OnlyFeeds)
    (k : Nat) (lines : List Text) (hlines : lines ≠ [])
    (hmem : (insertLines d.text k lines).InMemory) (hnodup : (s.registry.linesOf d.key).Nodup)
    (hbelow : ∀ n ∈ s.registry.linesOf d.key, n < d.lineCount) :
    (∃ e touched s',
      s.reload now d (insertLines d.text k lines)
          = (some (e, touched), s', d.replaceText (insertLines d.text k lines)) ∧
        ((lineTexts s'.registry d.key (insertLines d.text k lines)).Perm
            (lineTexts s.registry d.key d.text)
          ↔ e.start.column = 0 ∨ e.start.line ∉ s.registry.linesOf d.key ∨
            e.start = .after d.text ∧ e.text.head? = some '\n')) ∧
    (∀ n, d.lineAt? n = (splitLines d.text)[n]?) ∧
    ((∀ line ∈ lines, line.OnlyFeeds) → ∀ n,
      (d.replaceText (insertLines d.text k lines)).lineAt? n
        = (splitLines (insertLines d.text k lines))[n]?) := by
  have hcount := Document.lineCount_eq_count hfeeds
  obtain ⟨before, text, rest, hold, hnew, hfeed, hdiffer, hend, hbetween⟩ :=
    Edit.between?_insertLines d.text k hlines
  have hword : ∀ n ∈ s.registry.linesOf d.key, n + text.count '\n' < signedLimit := by
    intro n hn
    have hline := hbelow n hn
    have hsize := (insertLines d.text k lines).count_le_size
    unfold Text.InMemory at hmem
    rw [hcount, hold] at hline
    simp only [hnew, List.count_append] at hline hsize hmem
    omega
  refine ⟨⟨_, _, _, reload_of_between? hbetween now, ?_⟩, ?_, ?_⟩
  · have hkept := lineTexts_moveAll_insertion hfeed hword hnodup hdiffer hend
    have hbreak : rest = [] ↔ Position.after before = .after d.text := by
      constructor
      · rintro rfl
        rw [hold, List.append_nil]
      · intro hafter
        by_contra hrest
        refine Position.not_after_append_le hrest (s := before) ?_
        rw [← hold, ← hafter]
        exact Position.le_refl _
    rw [← hnew, ← hold, hbreak] at hkept
    exact hkept
  · exact fun n => Document.lineAt?_eq_splitLines hfeeds n
  · intro hfeeds' n
    have hnew' := insertLines_onlyFeeds hfeeds (k := k) hfeeds'
    exact Document.lineAt?_eq_splitLines (d := d.replaceText _) hnew' n

/-- A line put above the second of two lines that are not indented moves its entry down: the edit
starts in front of that line. -/
theorem reload_keeps_texts_unindented :
    let d : Document := { key := ⟨['/', 'p']⟩, text := ['a', '\n', 'b'] }
    let s : Session := { registry := ⟨[⟨['/', 'p'], 1, ['b'], 7⟩]⟩ }
    (lineTexts (s.reload 9 d (insertLines d.text 1 [['x']])).2.1.registry d.key
      ['a', '\n', 'x', '\n', 'b']).Perm [some ['b']] := by
  intro d s
  obtain ⟨⟨e, touched, s', hreload, hiff⟩, -, -⟩ := reload_keeps_texts_iff s 9 d (by decide) 1
    [['x']] (by decide) (by decide) (by decide) (by decide)
  have hedit : Edit.between? d.text (insertLines d.text 1 [['x']])
      = some ⟨⟨1, 0⟩, ⟨1, 0⟩, ['x', '\n']⟩ := by decide
  have hstart : e.start.column = 0 := by
    have hfirst := congrArg Prod.fst hreload
    rw [reload_of_between? hedit, Option.some.injEq, Prod.mk.injEq] at hfirst
    rw [← hfirst.1]
  rw [hreload]
  exact hiff.2 (.inl hstart)

/-- A line put between two indented lines leaves the entry of the second one behind: both lines
start alike, so the edit starts inside the line, and the entry ends on the new line. -/
theorem reload_loses_indented_text :
    let d : Document := { key := ⟨['/', 'p']⟩, text := [' ', 'a', '\n', ' ', 'b', '\n'] }
    let s : Session := { registry := ⟨[⟨['/', 'p'], 1, [' ', 'b'], 7⟩]⟩ }
    let new := insertLines d.text 1 [[' ', 'x']]
    d.text.OnlyFeeds ∧ new = [' ', 'a', '\n', ' ', 'x', '\n', ' ', 'b', '\n'] ∧
      lineTexts s.registry d.key d.text = [some [' ', 'b']] ∧
      lineTexts (s.reload 9 d new).2.1.registry d.key new = [some [' ', 'x']] ∧
      ¬(lineTexts (s.reload 9 d new).2.1.registry d.key new).Perm
        (lineTexts s.registry d.key d.text) := by
  intro d s new
  have hedit : Edit.between? d.text new = some ⟨⟨1, 1⟩, ⟨1, 1⟩, ['x', '\n', ' ']⟩ := by decide
  have hafter : lineTexts (s.reload 9 d new).2.1.registry d.key new = [some [' ', 'x']] := by
    rw [reload_of_between? hedit, lineTexts, linesOf_moveAll_insertion _ _ (by decide) (by decide)]
    decide
  have hbefore : lineTexts s.registry d.key d.text = [some [' ', 'b']] := by decide
  refine ⟨by decide, by decide, hbefore, hafter, ?_⟩
  rw [hafter, hbefore]
  decide

end Swatch.Ignored

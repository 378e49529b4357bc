-- SUMMARY: Reading a plain word that a colon or the end of its line follows.
import Swatch.Proofs.Yaml.Block

/-!
# Reading words

A plain scalar goes on over blanks and breaks as long as the next line is deep enough. A
word is therefore read as a scalar of its own in two places: in front of a colon, and at
the end of a line if the next line is not deeper than the block. In the second case the
indentation of that line has been passed as well.
-/

namespace Swatch.Yaml

/-- A word ends in front of a gap, and in front of a colon with a gap behind it. -/
theorem plainWord?_append {w : Text} {c : Char} {rest : Text} (hw : ∀ d ∈ w, isGapChar d = false)
    (hlast : w.getLast? ≠ some ':') (hc : isGapChar c ∨ c = ':' ∧ atGap rest) :
    plainWord? false (w ++ c :: rest) = some (w, c :: rest) := by
  induction w with
  | nil =>
    have hstop : (isGapChar c || (c == ':' && atGap rest)) = true := by
      rcases hc with hgap | ⟨rfl, hgap⟩ <;> simp [hgap]
    rw [List.nil_append, plainWord?, if_pos hstop]
  | cons d w ih =>
    have hgap : isGapChar d = false := hw d List.mem_cons_self
    have hcolon : (d == ':' && atGap (w ++ c :: rest)) = false := by
      cases w with
      | nil =>
        have hd : d ≠ ':' := by simpa using hlast
        simp [hd]
      | cons e w =>
        have he : isGapChar e = false := hw e (by simp)
        simp [atGap, he]
    have hrest : plainWord? false (w ++ c :: rest) = some (w, c :: rest) := by
      refine ih (fun e he => hw e (List.mem_cons_of_mem d he)) ?_
      cases w with
      | nil => simp
      | cons e w => simpa [List.getLast?_cons_cons] using hlast
    rw [List.cons_append, plainWord?, hgap, hcolon, hrest]
    rfl

theorem Word.plainWord? (w : Word) {c : Char} {rest : Text}
    (hc : isGapChar c ∨ c = ':' ∧ atGap rest) :
    plainWord? false (w.text ++ c :: rest) = some (w.text, c :: rest) :=
  plainWord?_append (fun _ => w.not_isGapChar) w.ends hc

theorem startsWord_ne_hash {c : Char} (h : startsWord c) : c ≠ '#' := by
  rintro rfl
  exact absurd h (by decide)

/-- The word that a plain scalar starts with; `next` is the gap behind it. -/
theorem Word.plain?_eq (w : Word) (indent fuel : Nat) {c : Char} {rest : Text}
    (hc : isGapChar c ∨ c = ':' ∧ atGap rest) :
    plain? false indent (fuel + 1) [] (w.text ++ c :: rest) =
      let next := (c :: rest).takeWhile isGapChar
      let rest := (c :: rest).drop next.length
      if next.isEmpty then some ⟨w.text, false, rest⟩
      else if tabIndents indent none next then none
      else if (columnAfter? next).any (· < indent) then some ⟨w.text, true, rest⟩
      else (plain? false indent fuel next rest).map fun more =>
        { more with text := w.text ++ more.text } := by
  obtain ⟨d, t, hw, hd⟩ := w.exists_cons
  have hhash : d ≠ '#' := startsWord_ne_hash hd
  have hword := w.plainWord? hc
  rw [hw] at hword ⊢
  rw [plain?]
  simp only [hword]
  simp [columnAfter?, hhash, foldGap, breaksOf]

/-- In front of a colon only the word is read. -/
theorem Word.plain?_name (w : Word) (indent fuel : Nat) {rest : Text} (hrest : atGap rest) :
    plain? false indent (fuel + 1) [] (w.text ++ ':' :: rest)
      = some ⟨w.text, false, ':' :: rest⟩ := by
  rw [w.plain?_eq indent fuel (.inr ⟨rfl, hrest⟩)]
  simp [isGapChar, isBlankChar, isBreak]

/-! ## The end of a line -/

/-- The gap in front of a word is its indentation. -/
theorem Indented.takeWhile_isGapChar {most : Nat} {t : Text} (h : Indented most t) :
    t.takeWhile isGapChar = List.replicate (indentOf t) ' ' := by
  have hspaces : ∀ c ∈ List.replicate (indentOf t) ' ', isGapChar c := by
    intro c hc
    obtain rfl := (List.mem_replicate.1 hc).2
    rfl
  have hbody : (bodyOf t).takeWhile isGapChar = [] := by
    have hstarts := h.starts
    cases hb : bodyOf t with
    | nil => rfl
    | cons c rest =>
      have hc : isGapChar c = false := by
        rw [hb] at hstarts
        simp only [List.head?_cons, Option.all_some, startsWord, Bool.and_eq_true] at hstarts
        simpa using hstarts.1.2
      rw [List.takeWhile_cons_of_neg (by simp [hc])]
  conv => lhs; rw [← replicate_indentOf_append t]
  rw [List.takeWhile_append_of_pos hspaces, hbody, List.append_nil]

theorem tabIndents_replicate (indent : Nat) (column : Option Nat) (n : Nat) :
    tabIndents indent column (List.replicate n ' ') = false := by
  induction n generalizing column with
  | zero => rfl
  | succ n ih => simp [List.replicate_succ, tabIndents, ih, isBreak]

theorem columnAfter?_feed (n : Nat) : columnAfter? ('\n' :: List.replicate n ' ') = some n := by
  have hspaces : ∀ c ∈ List.replicate n ' ', (!isBreak c) = true := by
    intro c hc
    obtain rfl := (List.mem_replicate.1 hc).2
    rfl
  have hfeed : isBreak '\n' = true := rfl
  rw [columnAfter?, List.any_cons, hfeed, Bool.true_or, if_pos rfl, List.reverse_cons,
    List.reverse_replicate, List.takeWhile_append_of_pos hspaces]
  simp [hfeed]

/-- At the end of a line the word is read, and the indentation of the next line is passed. -/
theorem Word.plain?_value (w : Word) {indent most : Nat} (fuel : Nat) {t : Text}
    (ht : Indented most t) (hlt : most < indent) :
    plain? false indent (fuel + 1) [] (w.text ++ '\n' :: t) = some ⟨w.text, true, bodyOf t⟩ := by
  have hnext : ('\n' :: t).takeWhile isGapChar = '\n' :: List.replicate (indentOf t) ' ' := by
    rw [List.takeWhile_cons_of_pos (by rfl), ht.takeWhile_isGapChar]
  have hrest : ('\n' :: t).drop ('\n' :: List.replicate (indentOf t) ' ').length = bodyOf t := by
    rw [List.length_cons, List.drop_succ_cons, List.length_replicate]
    exact (congrArg (List.drop (indentOf t)) (replicate_indentOf_append t)).symm.trans
      (List.drop_left' List.length_replicate)
  have htabs : tabIndents indent none ('\n' :: List.replicate (indentOf t) ' ') = false :=
    tabIndents_replicate indent (some 0) _
  have hcolumn : (some (indentOf t)).any (· < indent) = true := by
    simpa using Nat.lt_of_le_of_lt ht.indent_le hlt
  rw [w.plain?_eq indent fuel (.inl rfl)]
  simp only [hnext, hrest, htabs, columnAfter?_feed, hcolumn]
  simp

end Swatch.Yaml

-- SUMMARY: Texts that no lexer tells apart have the same lines, strings and remarks.
import Swatch.Proofs.Source.Call

/-!
# Alike texts

The lexer of lines, the search for block comments and the cut into lines look for a few
characters only, and count the bytes of all others. Two texts are alike if they agree in
these characters and in the widths of all characters. They are cut into pieces of the same
kinds and widths, so their lines, strings, remarks and block comments are at the same
offsets.
-/

namespace Swatch

/-- The characters that end lines, and those that mark strings, character literals and comments. -/
def lexical : List Char :=
  ['\n', '\r', '"', '\'', '\\', '/', '*']

/-- Two characters that no lexer tells apart. -/
structure Alike (c c' : Char) : Prop where
  size_eq : c'.utf8Size = c.utf8Size
  eq_iff : ∀ m ∈ lexical, (c' = m ↔ c = m)

theorem Alike.refl (c : Char) : Alike c c :=
  ⟨rfl, fun _ _ => Iff.rfl⟩

theorem Alike.symm {c c' : Char} (h : Alike c c') : Alike c' c :=
  ⟨h.size_eq.symm, fun m hm => (h.eq_iff m hm).symm⟩

/-- A lexical character is alike to itself only. -/
theorem Alike.eq_of_mem {c c' : Char} (h : Alike c c') (hc : c ∈ lexical) : c' = c :=
  (h.eq_iff c hc).2 rfl

/-- Two texts that no lexer tells apart. -/
abbrev Text.Alike : Text → Text → Prop :=
  List.Forall₂ Swatch.Alike

namespace Text.Alike

variable {t t' : Text}

theorem symm (h : Text.Alike t t') : Text.Alike t' t :=
  h.flip.imp fun _ _ => Swatch.Alike.symm

theorem size_eq (h : Text.Alike t t') : t'.size = t.size := by
  induction h with
  | nil => rfl
  | cons hc _ ih => rw [size_cons, size_cons, hc.size_eq, ih]

theorem charsBefore_eq (h : Text.Alike t t') (offset : Nat) :
    t'.charsBefore offset = t.charsBefore offset := by
  induction h generalizing offset with
  | nil => rfl
  | cons hc _ ih => rw [charsBefore, charsBefore, hc.size_eq, ih]

theorem count_eq (h : Text.Alike t t') {m : Char} (hm : m ∈ lexical) : t'.count m = t.count m := by
  induction h with
  | nil => rfl
  | cons hc _ ih => simp only [List.count_cons, beq_iff_eq, hc.eq_iff m hm, ih]

theorem head?_eq_iff (h : Text.Alike t t') {m : Char} (hm : m ∈ lexical) :
    t'.head? = some m ↔ t.head? = some m := by
  cases h with
  | nil => exact Iff.rfl
  | cons hc _ => simpa using hc.eq_iff m hm

theorem getLast?_eq_iff (h : Text.Alike t t') {m : Char} (hm : m ∈ lexical) :
    t'.getLast? = some m ↔ t.getLast? = some m := by
  rw [← List.head?_reverse, ← List.head?_reverse]
  exact head?_eq_iff (List.rel_reverse h) hm

theorem countPair_eq (h : Text.Alike t t') {a b : Char} (ha : a ∈ lexical) (hb : b ∈ lexical) :
    t'.countPair a b = t.countPair a b := by
  induction h with
  | nil => rfl
  | cons hc htail ih =>
    cases htail with
    | nil => rfl
    | cons hd _ => simp only [countPair, hc.eq_iff a ha, hd.eq_iff b hb, ih]

theorem splitAt? (h : Text.Alike t t') (offset : Nat) :
    Option.Rel (fun p p' => Text.Alike p.1 p'.1) (t.splitAt? offset) (t'.splitAt? offset) := by
  induction h generalizing offset with
  | nil =>
    cases offset with
    | zero => exact .some .nil
    | succ n => exact .none
  | @cons c c' t t' hc htail ih =>
    cases offset with
    | zero => exact .some .nil
    | succ n =>
      rw [Text.splitAt?, Text.splitAt?, hc.size_eq]
      split
      · have hcut := ih (n + 1 - c.utf8Size)
        generalize Text.splitAt? t (n + 1 - c.utf8Size) = cut at hcut ⊢
        generalize Text.splitAt? t' (n + 1 - c.utf8Size) = cut' at hcut ⊢
        cases hcut with
        | none => exact .none
        | some hleft => exact .some (.cons hc hleft)
      · exact .none

end Text.Alike

/-! ## Pieces -/

/-- A character of a string that neither closes it nor guards another one. -/
theorem quotedContent_pass {c : Char} {rest : Text} (hquote : c ≠ '"')
    (hguard : c = '\\' → rest = []) :
    quotedContent (c :: rest) = (c :: (quotedContent rest).1, (quotedContent rest).2) := by
  rw [quotedContent]
  · exact hquote
  · rintro d more rfl rfl
    cases hguard rfl

theorem Text.Alike.quotedContent {t t' : Text} (h : Text.Alike t t') :
    Text.Alike (Swatch.quotedContent t).1 (Swatch.quotedContent t').1 ∧
      Option.Rel Text.Alike (Swatch.quotedContent t).2 (Swatch.quotedContent t').2 := by
  fun_induction Swatch.quotedContent t generalizing t' with
  | case1 =>
    cases h
    exact ⟨.nil, .none⟩
  | case2 rest =>
    cases h with
    | cons hc hrest =>
      obtain rfl := hc.eq_of_mem (by decide)
      exact ⟨.nil, .some hrest⟩
  | case3 c rest content after heq ih =>
    cases h with
    | cons hguard htail =>
      obtain rfl := hguard.eq_of_mem (by decide)
      cases htail with
      | cons hc hrest =>
        obtain ⟨hcontent, hafter⟩ := ih hrest
        rw [heq] at hcontent hafter
        rw [Swatch.quotedContent]
        exact ⟨.cons hguard (.cons hc hcontent), hafter⟩
  | case4 c rest hquote hguard content after heq ih =>
    cases h with
    | cons hc hrest =>
      obtain ⟨hcontent, hafter⟩ := ih hrest
      rw [heq] at hcontent hafter
      rw [quotedContent_pass]
      · exact ⟨.cons hc hcontent, hafter⟩
      · rwa [ne_eq, hc.eq_iff _ (by decide)]
      · intro hc'
        obtain rfl := (hc.eq_iff _ (by decide)).1 hc'
        cases hrest with
        | nil => rfl
        | cons => exact absurd rfl (hguard _ _ rfl)

/-- A character of one byte between apostrophes, in front of what follows it. Behind a backslash,
the second apostrophe is the character if there is a third one. -/
inductive IsCharacterLiteral (after : Text) : Text → Prop
  | guarded {c : Char} (hone : c.utf8Size = 1) : IsCharacterLiteral after ['\'', '\\', c, '\'']
  | plain {c : Char} (hone : c.utf8Size = 1) (hguard : c = '\\' → after.head? ≠ some '\'') :
    IsCharacterLiteral after ['\'', c, '\'']

theorem characterLiteral?_eq_some_iff {t literal after : Text} :
    characterLiteral? t = some (literal, after) ↔
      t = literal ++ after ∧ IsCharacterLiteral after literal := by
  constructor
  · intro h
    refine ⟨characterLiteral?_append h, ?_⟩
    fun_cases characterLiteral? t with
    | case1 c rest hone =>
      rw [characterLiteral?, if_pos hone] at h
      cases h
      exact .guarded hone
    | case2 c rest hwide =>
      rw [characterLiteral?, if_neg hwide] at h
      cases h
    | case3 c rest hguard hone =>
      rw [characterLiteral?.eq_2 _ _ hguard, if_pos hone] at h
      cases h
      refine .plain hone fun hc hhead => ?_
      obtain ⟨more, hmore⟩ := List.head?_eq_some_iff.1 hhead
      exact hguard more hc hmore
    | case4 c rest hguard hwide =>
      rw [characterLiteral?.eq_2 _ _ hguard, if_neg hwide] at h
      cases h
    | case5 t hguarded hplain =>
      rw [characterLiteral?.eq_3 _ hguarded hplain] at h
      cases h
  · rintro ⟨rfl, hliteral⟩
    cases hliteral with
    | guarded hone => exact if_pos hone
    | plain hone hguard =>
      rw [List.cons_append, List.cons_append, List.cons_append, List.nil_append,
        characterLiteral?.eq_2, if_pos hone]
      rintro more rfl rfl
      exact hguard rfl rfl

/-- Alike texts start with alike character literals. -/
theorem Text.Alike.exists_characterLiteral? {t t' literal after : Text} (h : Text.Alike t t')
    (hliteral : characterLiteral? t = some (literal, after)) :
    ∃ literal' after', characterLiteral? t' = some (literal', after') ∧
      Text.Alike literal literal' ∧ Text.Alike after after' := by
  simp only [characterLiteral?_eq_some_iff] at hliteral ⊢
  obtain ⟨rfl, hliteral⟩ := hliteral
  cases hliteral with
  | guarded hone =>
    rcases h with _ | ⟨ho, _ | ⟨hg, _ | ⟨hc, _ | ⟨hq, hafter⟩⟩⟩⟩
    obtain rfl := ho.eq_of_mem (by decide)
    obtain rfl := hg.eq_of_mem (by decide)
    obtain rfl := hq.eq_of_mem (by decide)
    exact ⟨_, _, ⟨rfl, .guarded (hc.size_eq.trans hone)⟩,
      .cons ho (.cons hg (.cons hc (.cons hq .nil))), hafter⟩
  | plain hone hguard =>
    rcases h with _ | ⟨ho, _ | ⟨hc, _ | ⟨hq, hafter⟩⟩⟩
    obtain rfl := ho.eq_of_mem (by decide)
    obtain rfl := hq.eq_of_mem (by decide)
    refine ⟨_, _, ⟨rfl, .plain (hc.size_eq.trans hone) fun hc' => ?_⟩,
      .cons ho (.cons hc (.cons hq .nil)), hafter⟩
    rw [ne_eq, Text.Alike.head?_eq_iff hafter (by decide)]
    exact hguard ((hc.eq_iff _ (by decide)).1 hc')

/-- Two pieces of one kind and of the same width. -/
inductive Piece.Alike : Piece → Piece → Prop
  | quoted {content content' : Text} (h : Text.Alike content content') (closed : Bool) :
    Piece.Alike (.quoted content closed) (.quoted content' closed)
  | character {literal literal' : Text} (h : Text.Alike literal literal') :
    Piece.Alike (.character literal) (.character literal')
  | remark {text text' : Text} (h : Text.Alike text text') :
    Piece.Alike (.remark text) (.remark text')
  | code {c c' : Char} (h : Swatch.Alike c c') : Piece.Alike (.code c) (.code c')

theorem Piece.Alike.text {p p' : Piece} (h : p.Alike p') : Text.Alike p.text p'.text := by
  cases h with
  | quoted h closed =>
    exact .cons (.refl _) (List.rel_append h (by cases closed <;> simp [Swatch.Alike.refl]))
  | character h => exact h
  | remark h => exact h
  | code h => exact .cons h .nil

theorem pieces_closed {rest content after : Text}
    (h : quotedContent rest = (content, some after)) :
    pieces ('"' :: rest) = .quoted content true :: pieces after := by
  rw [pieces]
  split <;> simp_all

theorem pieces_unclosed {rest content : Text} (h : quotedContent rest = (content, none)) :
    pieces ('"' :: rest) = [.quoted content false] := by
  rw [pieces]
  split <;> simp_all

theorem pieces_remark (rest : Text) :
    pieces ('/' :: '/' :: rest) = [.remark ('/' :: '/' :: rest)] := by
  rw [pieces]

theorem pieces_character {c : Char} {rest literal after : Text}
    (h : characterLiteral? (c :: rest) = some (literal, after)) :
    pieces (c :: rest) = .character literal :: pieces after := by
  obtain rfl : c = '\'' := by
    obtain ⟨hc, hliteral⟩ := characterLiteral?_eq_some_iff.1 h
    cases hliteral <;> exact (List.cons.inj hc).1
  rw [pieces]
  · split <;> simp_all
  · decide
  · simp

theorem pieces_code {c : Char} {rest : Text} (hquote : c ≠ '"')
    (hremark : c = '/' → rest.head? ≠ some '/') (h : characterLiteral? (c :: rest) = none) :
    pieces (c :: rest) = .code c :: pieces rest := by
  rw [pieces]
  · split <;> simp_all
  · exact hquote
  · rintro more rfl rfl
    exact hremark rfl rfl

/-- Alike texts are cut into alike pieces. -/
theorem Text.Alike.pieces {t t' : Text} (h : Text.Alike t t') :
    List.Forall₂ Piece.Alike (Swatch.pieces t) (Swatch.pieces t') := by
  fun_induction Swatch.pieces t generalizing t' with
  | case1 =>
    cases h
    rw [Swatch.pieces]
    exact .nil
  | case2 rest content after heq ih =>
    cases h with
    | @cons _ c' _ rest' hc hrest =>
      obtain rfl := hc.eq_of_mem (by decide)
      obtain ⟨hcontent, hafter⟩ := Text.Alike.quotedContent hrest
      rcases heq' : Swatch.quotedContent rest' with ⟨content', after'⟩
      rw [heq, heq'] at hcontent hafter
      cases hafter with
      | some hafter =>
        rw [pieces_closed heq']
        exact .cons (.quoted hcontent true) (ih hafter)
  | case3 rest content heq =>
    cases h with
    | @cons _ c' _ rest' hc hrest =>
      obtain rfl := hc.eq_of_mem (by decide)
      obtain ⟨hcontent, hafter⟩ := Text.Alike.quotedContent hrest
      rcases heq' : Swatch.quotedContent rest' with ⟨content', after'⟩
      rw [heq, heq'] at hcontent hafter
      cases hafter with
      | none =>
        rw [pieces_unclosed heq']
        exact .cons (.quoted hcontent false) .nil
  | case4 rest =>
    rcases h with _ | ⟨hc, _ | ⟨hd, hrest⟩⟩
    obtain rfl := hc.eq_of_mem (by decide)
    obtain rfl := hd.eq_of_mem (by decide)
    rw [pieces_remark]
    exact .cons (.remark (.cons hc (.cons hd hrest))) .nil
  | case5 c rest _ _ literal after heq ih =>
    obtain ⟨literal', after', heq', hliteral, hafter⟩ := h.exists_characterLiteral? heq
    cases h with
    | cons hc hrest =>
      rw [pieces_character heq']
      exact .cons (.character hliteral) (ih hafter)
  | case6 c rest hquote hremark heq ih =>
    cases h with
    | @cons _ c' _ rest' hc hrest =>
      rw [pieces_code]
      · exact .cons (.code hc) (ih hrest)
      · rwa [ne_eq, hc.eq_iff _ (by decide)]
      · intro hslash hslash'
        rw [hc.eq_iff _ (by decide)] at hslash
        rw [Text.Alike.head?_eq_iff hrest (by decide), List.head?_eq_some_iff] at hslash'
        obtain ⟨more, rfl⟩ := hslash'
        exact hremark more hslash rfl
      · rw [Option.eq_none_iff_forall_ne_some]
        rintro ⟨literal', after'⟩ hliteral'
        obtain ⟨literal, after, hliteral, -⟩ :=
          Text.Alike.exists_characterLiteral? (.symm (.cons hc hrest)) hliteral'
        simp [heq] at hliteral

/-! ## Lines -/

namespace Line

/-- Two lines that start together and whose texts no lexer tells apart. -/
structure Alike (l l' : Line) : Prop where
  start_eq : l'.start = l.start
  text : Text.Alike l.text l'.text

theorem quotedFrom_eq {ps ps' : List Piece} (h : List.Forall₂ Piece.Alike ps ps') (place : Nat) :
    quotedFrom place ps' = quotedFrom place ps := by
  induction h generalizing place with
  | nil => rfl
  | cons hp _ ih =>
    have hsize := hp.text.size_eq
    cases hp with
    | quoted h closed => simp only [quotedFrom, hsize, ih, h.size_eq]
    | character h => simp only [quotedFrom, hsize, ih]
    | remark h => simp only [quotedFrom, hsize, ih]
    | code h => simp only [quotedFrom, hsize, ih]

theorem remarkFrom_eq {ps ps' : List Piece} (h : List.Forall₂ Piece.Alike ps ps') (place : Nat) :
    remarkFrom place ps' = remarkFrom place ps := by
  induction h generalizing place with
  | nil => rfl
  | cons hp _ ih =>
    have hsize := hp.text.size_eq
    cases hp with
    | quoted h closed => simp only [remarkFrom, hsize, ih]
    | character h => simp only [remarkFrom, hsize, ih]
    | remark h => rfl
    | code h => simp only [remarkFrom, hsize, ih]

namespace Alike

variable {l l' : Line}

theorem quotes_eq (h : l.Alike l') : l'.quotes = l.quotes := by
  rw [quotes, quotes, h.start_eq, quotedFrom_eq h.text.pieces]

theorem remark?_eq (h : l.Alike l') : l'.remark? = l.remark? := by
  rw [remark?, remark?, h.start_eq, remarkFrom_eq h.text.pieces]

theorem hides_eq (h : l.Alike l') : l'.hides = l.hides := by
  funext offset
  rw [hides, hides, h.quotes_eq, h.remark?_eq, extent, extent, h.start_eq, h.text.size_eq]

end Alike

end Line

namespace Source

variable {s s' : Source}

theorem lineOf_eq_of_alike (h : Text.Alike s.text s'.text) (offset : Nat) :
    s'.lineOf offset = s.lineOf offset := by
  rw [lineOf_eq_count, lineOf_eq_count, h.charsBefore_eq]
  exact Text.Alike.count_eq (List.forall₂_take _ h) (by decide)

theorem inBlockComment_eq_of_alike (h : Text.Alike s.text s'.text) (offset : Nat) :
    s'.inBlockComment offset = s.inBlockComment offset := by
  have hcut := h.splitAt? offset
  unfold inBlockComment
  generalize s.text.splitAt? offset = cut at hcut ⊢
  generalize s'.text.splitAt? offset = cut' at hcut ⊢
  cases hcut with
  | none => rfl
  | some hbefore =>
    simp only
    rw [hbefore.countPair_eq (by decide) (by decide), hbefore.countPair_eq (by decide) (by decide)]

end Source

end Swatch

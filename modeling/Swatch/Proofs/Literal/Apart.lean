-- SUMMARY: Tokens that share no offset, and the runs of text that codes and braced colors govern.
import Swatch.Proofs.Literal.Token
import Mathlib.Data.List.Pairwise

/-!
# Tokens and runs that keep apart

A token that starts inside another one shares its end with it. This rules out that two
tokens of different patterns overlap: a braced token and a tilde code start with a
character that the other does not have, the mark of a marked token is part of no number
list and of no braced token, no list starts inside a word, and a number in braces runs
up to the closing brace, where no separator stands.

A run stands behind its code, and nothing that stops it starts inside it. So no code
starts in a run of a braced color and no braced color in a run of a code, and since the
codes and braced colors are apart themselves, so are their runs.
-/

namespace Swatch

/-! ## Tokens that keep apart -/

namespace Pattern

variable {p q : Pattern} {base : Nat} {t : Text} {o o' : Occurrence}

/-- A token that starts inside another one starts with a character of it. -/
theorem Finds.head_mem (ho : p.Finds base t o) (ho' : q.Finds base t o')
    (hle : o.offset ≤ o'.offset) (hlt : o'.offset < o.extent.stop) {c : Char}
    (hc : o'.token.head? = some c) : c ∈ o.token := by
  obtain ⟨mid, shared, htoken, hne, hrest, -⟩ := ho.standsIn.overlap ho'.standsIn hle hlt
  obtain ⟨d, more, rfl⟩ := List.exists_cons_of_ne_nil hne
  obtain ⟨e, token, he⟩ := List.exists_cons_of_ne_nil ho'.token_ne_nil
  rw [he] at hc hrest
  have hd : d = c := by
    have hhead := congrArg List.head? hrest
    simp only [List.cons_append, List.head?_cons] at hhead hc
    exact Option.some.inj (hhead.trans hc)
  rw [htoken, hd]
  simp

/-- The second character of a token that starts inside another one is a character of that one, or
stands right behind it. -/
theorem Finds.second_mem (ho : p.Finds base t o) (ho' : q.Finds base t o')
    (hle : o.offset ≤ o'.offset) (hlt : o'.offset < o.extent.stop) {c d : Char} {more : Text}
    (htoken' : o'.token = c :: d :: more) :
    (o.token.getLast? = some c ∧ o.after.head? = some d) ∨ d ∈ o.token := by
  obtain ⟨mid, shared, htoken, hne, hrest, -⟩ := ho.standsIn.overlap ho'.standsIn hle hlt
  rw [htoken'] at hrest
  match shared with
  | [] => exact absurd rfl hne
  | [e] =>
    simp only [List.cons_append, List.nil_append, List.cons.injEq] at hrest
    exact .inl ⟨by simp [htoken, hrest.1], by simp [hrest.2]⟩
  | e :: f :: shared =>
    simp only [List.cons_append, List.cons.injEq] at hrest
    exact .inr (by simp [htoken, hrest.2.1])

/-- Where tokens do not start inside each other, the tokens of two places share no offset. -/
theorem IsSeparated.disjoint (hp : p.IsSeparated) (ho : p.Finds base t o)
    (ho' : p.Finds base t o') (hne : o ≠ o') : o.extent.Disjoint o'.extent := by
  have hsymm : Std.Symm fun o o' : Occurrence => o.extent.Disjoint o'.extent :=
    ⟨fun _ _ hapart => hapart.symm⟩
  have hpairwise := (p.pairwise_occurrences base t).imp fun {o o'} hle =>
    Interval.disjoint_of_le (i := o.extent) (j := o'.extent) hle
  exact hpairwise.forall (hp.mem_occurrences_iff.2 ho) (hp.mem_occurrences_iff.2 ho') hne

end Pattern

theorem Braced.IsToken.head?_eq {token : Text} (h : IsToken token) : token.head? = some '{' := by
  obtain ⟨digits, rfl, -, -⟩ := h
  rfl

theorem Braced.IsToken.getLast?_eq {token : Text} (h : IsToken token) :
    token.getLast? = some '}' := by
  obtain ⟨digits, rfl, -, -⟩ := h
  simp [List.getLast?_cons]

section Apart

open Pattern (Finds)
open Swatch.Interval (disjoint_of_order)

variable {base : Nat} {t : Text} {o o' : Occurrence}

theorem disjoint_code_braced (ho : Finds GameText.token base t o)
    (ho' : Finds Braced.token base t o') : o.extent.Disjoint o'.extent := by
  obtain ⟨hhead, hbrace⟩ := GameText.ensures_token.finds ho
  have hbraced := Braced.ensures_token.finds ho'
  refine disjoint_of_order (fun hle => Nat.le_of_not_lt fun hlt => ?_)
    fun hle => Nat.le_of_not_lt fun hlt => ?_
  · exact hbrace (ho.head_mem ho' hle hlt hbraced.head?_eq)
  · exact absurd (hbraced.isHexDigit_of_mem (ho'.head_mem ho hle hlt hhead)) (by decide)

theorem disjoint_marked_braced (ho : Finds Hex.token base t o)
    (ho' : Finds Braced.token base t o') : o.extent.Disjoint o'.extent := by
  have hmarked := Hex.ensures_token.finds ho
  have hbraced := Braced.ensures_token.finds ho'
  refine disjoint_of_order (fun hle => Nat.le_of_not_lt fun hlt => ?_)
    fun hle => Nat.le_of_not_lt fun hlt => ?_
  · exact absurd (hmarked.isTokenChar_of_mem (ho.head_mem ho' hle hlt hbraced.head?_eq)) (by decide)
  · obtain ⟨x, body, htoken, hx, -⟩ := hmarked.shape
    rcases ho'.second_mem ho hle hlt htoken with ⟨hlast, -⟩ | hmem
    · exact absurd (hlast.symm.trans hbraced.getLast?_eq) (by decide)
    · have hx' := hbraced.isHexDigit_of_mem hmem
      rcases hx with rfl | rfl <;> exact absurd hx' (by decide)

theorem disjoint_tuple_marked (ho : Finds Tuple.token base t o)
    (ho' : Finds Hex.token base t o') : o.extent.Disjoint o'.extent := by
  have htuple := Tuple.ensures_token.finds ho
  have hmarked := Hex.ensures_token.finds ho'
  obtain ⟨x, body, htoken', hx, -⟩ := hmarked.shape
  have hnot : ¬ (isDecimalDigit x ∨ Tuple.isSeparator x) := by
    rcases hx with rfl | rfl <;> decide
  refine disjoint_of_order (fun hle => Nat.le_of_not_lt fun hlt => ?_)
    fun hle => Nat.le_of_not_lt fun hlt => ?_
  · rcases ho.second_mem ho' hle hlt htoken' with ⟨-, hafter⟩ | hmem
    · have hends := htuple.ends
      simp [startsWithWord, hafter, isWordChar_of_isMark hx] at hends
    · exact hnot (htuple.chars x hmem)
  · obtain ⟨mid, shared, hmid, hne, hrest, hbefore⟩ := ho'.standsIn.overlap ho.standsIn hle hlt
    rcases List.eq_nil_or_concat mid with rfl | ⟨start, c, rfl⟩
    · -- The two start together, so the mark would be part of the list.
      obtain ⟨digits, separator, more, htoken, hdigits, -⟩ := htuple.shape
      obtain ⟨d, digits, rfl⟩ := List.exists_cons_of_ne_nil hdigits
      obtain ⟨e, more', he⟩ : ∃ e more', digits ++ separator :: more = e :: more' :=
        List.exists_cons_of_ne_nil (by simp)
      rw [List.cons_append, he] at htoken
      rw [List.nil_append] at hmid
      rw [← hmid, htoken', htoken] at hrest
      simp only [List.cons_append, List.cons.injEq] at hrest
      exact hnot (htuple.chars x (by simp [htoken, hrest.2.1]))
    · -- Behind a character of the marked token no list may start.
      have hc := hmarked.isTokenChar_of_mem (c := c) (by simp [hmid])
      have hstarts := htuple.starts
      simp [hbefore, endsInWord, isWordChar_of_isTokenChar hc] at hstarts

theorem disjoint_tuple_braced (ho : Finds Tuple.token base t o)
    (ho' : Finds Braced.token base t o') : o.extent.Disjoint o'.extent := by
  have htuple := Tuple.ensures_token.finds ho
  have hbraced := Braced.ensures_token.finds ho'
  refine disjoint_of_order (fun hle => Nat.le_of_not_lt fun hlt => ?_)
    fun hle => Nat.le_of_not_lt fun hlt => ?_
  · exact absurd (htuple.chars _ (ho.head_mem ho' hle hlt hbraced.head?_eq)) (by decide)
  · obtain ⟨mid, shared, hmid, hne, hrest, -⟩ := ho'.standsIn.overlap ho.standsIn hle hlt
    obtain ⟨digits, separator, more, htoken, -, hdigits, hseparator⟩ := htuple.shape
    have hlast : '}' ∈ shared := by
      have hgetLast := hbraced.getLast?_eq
      rw [hmid, List.getLast?_append] at hgetLast
      cases hshared : shared.getLast? with
      | none => exact absurd (List.getLast?_eq_none_iff.1 hshared) hne
      | some c =>
        rw [hshared, Option.some_or] at hgetLast
        exact List.mem_of_getLast? (hshared.trans hgetLast)
    have hnot : '}' ∉ digits := fun hmem => absurd (hdigits _ hmem) (by decide)
    -- A number in braces runs up to the closing brace, where a separator should stand.
    rw [htoken, List.append_assoc] at hrest
    rcases List.append_eq_append_iff.1 hrest with ⟨more', hdigits', -⟩ | ⟨more', hshared, hrest'⟩
    · exact hnot (by simp [hdigits', hlast])
    · cases more' with
      | nil =>
        rw [List.append_nil] at hshared
        exact hnot (hshared ▸ hlast)
      | cons c more' =>
        simp only [List.cons_append, List.cons.injEq] at hrest'
        have hmem := hbraced.isHexDigit_of_mem (c := separator) (by simp [hmid, hshared, hrest'.1])
        simp only [Tuple.isSeparator, isSpaceOrTab, Bool.or_eq_true, beq_iff_eq] at hseparator
        rcases hseparator with (rfl | rfl) | rfl <;> exact absurd hmem (by decide)

end Apart

/-! ## Literals -/

/-- Literals that are tokens of a pattern and stand one behind the other. -/
structure AreTokens (p : Pattern) (base : Nat) (t : Text) (literals : List Literal) : Prop where
  finds : ∀ l ∈ literals, ∃ o, p.Finds base t o ∧ l.extent = o.extent
  pairwise : literals.Pairwise fun l l' => l.extent.stop ≤ l'.extent.start

section AreTokens

variable {p q : Pattern} {base : Nat} {t : Text} {literals literals' : List Literal}

theorem areTokens_filterMap {f : Occurrence → Option Literal}
    (hf : ∀ o l, f o = some l → l.extent = o.extent) :
    AreTokens p base t ((p.occurrences base t).filterMap f) where
  finds l hl := by
    obtain ⟨o, ho, hl⟩ := List.mem_filterMap.1 hl
    exact ⟨o, Pattern.finds_of_mem ho, hf o l hl⟩
  pairwise := by
    refine List.pairwise_filterMap.2 ((p.pairwise_occurrences base t).imp ?_)
    intro o o' hle l hl l' hl'
    rw [hf o l hl, hf o' l' hl']
    exact hle

theorem AreTokens.filter (h : AreTokens p base t literals) (keep : Literal → Bool) :
    AreTokens p base t (literals.filter keep) where
  finds l hl := h.finds l (List.mem_filter.1 hl).1
  pairwise := h.pairwise.filter keep

theorem AreTokens.pairwise_disjoint (h : AreTokens p base t literals) :
    literals.Pairwise fun l l' => l.extent.Disjoint l'.extent :=
  h.pairwise.imp Interval.disjoint_of_le

theorem AreTokens.disjoint (h : AreTokens p base t literals) (h' : AreTokens q base t literals')
    (hapart : ∀ {o o'}, p.Finds base t o → q.Finds base t o' → o.extent.Disjoint o'.extent) :
    ∀ l ∈ literals, ∀ l' ∈ literals', l.extent.Disjoint l'.extent := by
  intro l hl l' hl'
  obtain ⟨o, ho, hextent⟩ := h.finds l hl
  obtain ⟨o', ho', hextent'⟩ := h'.finds l' hl'
  rw [hextent, hextent']
  exact hapart ho ho'

end AreTokens

/-- Literals that are not empty and stand one behind the other. -/
structure InOrder (literals : List Literal) : Prop where
  start_lt_stop : ∀ l ∈ literals, l.extent.start < l.extent.stop
  pairwise : literals.Pairwise fun l l' => l.extent.stop ≤ l'.extent.start

theorem AreTokens.inOrder {p : Pattern} {base : Nat} {t : Text} {literals : List Literal}
    (h : AreTokens p base t literals) : InOrder literals where
  start_lt_stop l hl := by
    obtain ⟨o, ho, hextent⟩ := h.finds l hl
    rw [hextent]
    exact ho.start_lt_stop
  pairwise := h.pairwise

/-- Two literals of the list share no offset. -/
theorem InOrder.disjoint {literals : List Literal} (h : InOrder literals) {l l' : Literal}
    (hl : l ∈ literals) (hl' : l' ∈ literals) (hne : l ≠ l') : l.extent.Disjoint l'.extent := by
  have hsymm : Std.Symm fun l l' : Literal => l.extent.Disjoint l'.extent :=
    ⟨fun _ _ hapart => hapart.symm⟩
  exact (h.pairwise.imp Interval.disjoint_of_le).forall hl hl' hne

/-- One literal stands in each place. -/
theorem InOrder.filter_eq_singleton {literals : List Literal} (h : InOrder literals) {l : Literal}
    (hl : l ∈ literals) {select : Literal → Bool} (hselect : select l)
    (hmeets : ∀ l' ∈ literals, select l' → ¬ l'.extent.Disjoint l.extent) :
    literals.filter select = [l] := by
  have hsame {l' : Literal} (hl' : l' ∈ literals.filter select) : l' = l := by
    obtain ⟨hl', hselect'⟩ := List.mem_filter.1 hl'
    by_contra hne
    exact hmeets l' hl' hselect' (h.disjoint hl' hl hne)
  have hnodup : (literals.filter select).Nodup := by
    refine List.Nodup.filter select (h.pairwise.imp_of_mem fun {l₁ l₂} hl₁ _ hle heq => ?_)
    have hlt := h.start_lt_stop l₁ hl₁
    rw [← heq] at hle
    omega
  have hmem : l ∈ literals.filter select := List.mem_filter.2 ⟨hl, hselect⟩
  refine List.perm_singleton.1
    ((List.perm_ext_iff_of_nodup hnodup (List.nodup_singleton l)).2 fun l' => ?_)
  rw [List.mem_singleton]
  exact ⟨hsame, fun heq => heq ▸ hmem⟩

theorem InOrder.filter_extent {literals : List Literal} (h : InOrder literals) {l : Literal}
    (hl : l ∈ literals) : literals.filter (fun l' => l'.extent = l.extent) = [l] := by
  have hlt := h.start_lt_stop l hl
  refine h.filter_eq_singleton hl (by simp) fun l' _ hselect hapart => ?_
  rw [of_decide_eq_true hselect] at hapart
  exact hapart l.extent.start ⟨Nat.le_refl _, hlt⟩ ⟨Nat.le_refl _, hlt⟩

/-- The literal that a marked token is, if it has six or eight digits. -/
def Hex.literal? (o : Occurrence) : Option Literal := do
  let (spelling, color) ← read? o.token
  return .ofOccurrence o spelling color

/-- The literal that a braced token is. -/
def Braced.literal? (o : Occurrence) : Option Literal := do
  let color ← read? o.token
  return .ofOccurrence o .braced color

/-- The literal that a tuple is, if its numbers are small enough. -/
def Tuple.literal? (o : Occurrence) : Option Literal := do
  let color ← read? o.token
  return .ofOccurrence o .rgbTuple color

/-- The literal that a tilde code is, if its letter names a color. -/
def GameText.literal? (o : Occurrence) : Option Literal := do
  let (letter, level) ← letterAndSteps? o.token
  let hue ← hue? letter
  return .ofOccurrence o .gameText (hue.shade level)

theorem Hex.literal?_extent {o : Occurrence} {l : Literal} (h : literal? o = some l) :
    l.extent = o.extent := by
  obtain ⟨read, -, h⟩ := Option.bind_eq_some_iff.1 h
  rw [← Option.some.inj h]
  rfl

theorem Braced.literal?_extent {o : Occurrence} {l : Literal} (h : literal? o = some l) :
    l.extent = o.extent := by
  obtain ⟨color, -, h⟩ := Option.bind_eq_some_iff.1 h
  rw [← Option.some.inj h]
  rfl

theorem Tuple.literal?_extent {o : Occurrence} {l : Literal} (h : literal? o = some l) :
    l.extent = o.extent := by
  obtain ⟨color, -, h⟩ := Option.bind_eq_some_iff.1 h
  rw [← Option.some.inj h]
  rfl

theorem GameText.literal?_extent {o : Occurrence} {l : Literal} (h : literal? o = some l) :
    l.extent = o.extent := by
  obtain ⟨_, -, h⟩ := Option.bind_eq_some_iff.1 h
  obtain ⟨_, -, h⟩ := Option.bind_eq_some_iff.1 h
  rw [← Option.some.inj h]
  rfl

theorem Hex.literals_eq (base : Nat) (t : Text) :
    literals base t = (token.occurrences base t).filterMap literal? := rfl

theorem Braced.literals_eq (base : Nat) (t : Text) :
    literals base t = (token.occurrences base t).filterMap literal? := rfl

theorem Tuple.literals_eq (base : Nat) (t : Text) :
    literals base t = (token.occurrences base t).filterMap fun o =>
      if isGlued o.before o.after then none else literal? o := rfl

theorem GameText.literals_eq (base : Nat) (t : Text) :
    literals base t = (token.occurrences base t).filterMap literal? := by
  rw [literals, codes, List.map_filterMap]
  refine List.filterMap_congr fun o _ => ?_
  unfold literal?
  cases letterAndSteps? o.token with
  | none => rfl
  | some parts => cases hhue : hue? parts.1 <;> simp [hhue, Code.color]

theorem Hex.areTokens_literals (base : Nat) (t : Text) :
    AreTokens token base t (literals base t) :=
  literals_eq base t ▸ areTokens_filterMap fun _ _ => literal?_extent

theorem Braced.areTokens_literals (base : Nat) (t : Text) :
    AreTokens token base t (literals base t) :=
  literals_eq base t ▸ areTokens_filterMap fun _ _ => literal?_extent

theorem Tuple.areTokens_literals (base : Nat) (t : Text) :
    AreTokens token base t (literals base t) := by
  rw [literals_eq]
  refine areTokens_filterMap fun o l hl => ?_
  split at hl
  · cases hl
  · exact literal?_extent hl

theorem GameText.areTokens_literals (base : Nat) (t : Text) :
    AreTokens token base t (literals base t) :=
  literals_eq base t ▸ areTokens_filterMap fun _ _ => literal?_extent

/-! ## Runs -/

/-- Nothing that stops a run starts in a part of a text, which goes on with `rest`. -/
def Clear (stop : Text → Bool) (part rest : Text) : Prop :=
  ∀ skipped more, part = skipped ++ more → more ≠ [] → stop (more ++ rest) = false

theorem clear_nil (stop : Text → Bool) (rest : Text) : Clear stop [] rest := by
  intro skipped more hpart hne
  exact absurd (List.append_eq_nil_iff.1 hpart.symm).2 hne

theorem Clear.cons {stop : Text → Bool} {c : Char} {part rest : Text}
    (hc : stop (c :: (part ++ rest)) = false) (h : Clear stop part rest) :
    Clear stop (c :: part) rest := by
  intro skipped more hpart hne
  cases skipped with
  | nil =>
    obtain rfl : c :: part = more := hpart
    exact hc
  | cons d skipped =>
    simp only [List.cons_append, List.cons.injEq] at hpart
    exact h skipped more hpart.2 hne

/-- A run stands directly behind a token, and nothing that stops it starts in it. -/
structure Occurrence.Governs (o : Occurrence) (stop : Text → Bool) (run : Interval) : Prop where
  exists_part : ∃ part rest, o.after = part ++ rest ∧ run = .ofSize o.extent.stop part.size ∧
    Clear stop part rest

namespace Occurrence.Governs

variable {p q : Pattern} {base : Nat} {t : Text} {o o' : Occurrence} {stop : Text → Bool}
  {run : Interval}

theorem start_eq (h : o.Governs stop run) : run.start = o.extent.stop := by
  obtain ⟨part, rest, -, rfl, -⟩ := h.exists_part
  rfl

theorem stop_le (h : o.Governs stop run) (ho : p.Finds base t o) : run.stop ≤ base + t.size := by
  obtain ⟨part, rest, hafter, rfl, -⟩ := h.exists_part
  have hstop := ho.stop_add_after
  rw [hafter, Text.size_append] at hstop
  simp only [Interval.ofSize]
  omega

/-- A run ends before the next token that stops it. -/
theorem stop_le_offset (h : o.Governs stop run) (ho : p.Finds base t o) (ho' : q.Finds base t o')
    (hstop : stop (o'.token ++ o'.after)) (hle : o.extent.stop ≤ o'.offset) :
    run.stop ≤ o'.offset := by
  obtain ⟨part, rest, hafter, rfl, hclear⟩ := h.exists_part
  refine Nat.le_of_not_lt fun hlt => ?_
  simp only [Interval.ofSize] at hlt
  have hstart := ho.start_lt_stop
  obtain ⟨mid, hmid, -, hoffset⟩ := ho.standsIn.exists_middle ho'.standsIn (by omega)
  have hextent : o.extent.stop = o.offset + o.token.size := rfl
  obtain ⟨skipped, rfl, hskipped⟩ := Text.exists_middle hmid (by omega)
  rw [Text.size_append] at hoffset
  rw [hafter] at hskipped
  obtain ⟨more, hpart, hmore⟩ := Text.exists_middle hskipped.symm (by omega)
  have hne : more ≠ [] := by
    rintro rfl
    rw [List.append_nil] at hpart
    rw [hpart] at hlt
    omega
  have hnot := hclear skipped more hpart hne
  rw [← hmore] at hnot
  exact absurd (hstop.symm.trans hnot) (by decide)

end Occurrence.Governs

theorem upTo_spec (stop : Text → Bool) (t : Text) :
    ∃ rest, t = t.upTo stop ++ rest ∧ Clear stop (t.upTo stop) rest := by
  induction t with
  | nil => exact ⟨[], rfl, clear_nil stop []⟩
  | cons c t ih =>
    obtain ⟨rest, ht, hclear⟩ := ih
    by_cases hc : stop (c :: t)
    · rw [Text.upTo, if_pos hc]
      exact ⟨c :: t, rfl, clear_nil stop _⟩
    · rw [Text.upTo, if_neg hc]
      refine ⟨rest, congrArg (c :: ·) ht, Clear.cons ?_ hclear⟩
      rw [← ht]
      simpa using hc

namespace GameText

theorem runText_spec (limit : Nat) (t : Text) :
    ∃ rest, t = runText limit t ++ rest ∧ (runText limit t).size ≤ limit ∧
      Clear Braced.heads (runText limit t) rest := by
  induction t generalizing limit with
  | nil => exact ⟨[], rfl, Nat.zero_le _, clear_nil _ []⟩
  | cons c t ih =>
    obtain ⟨rest, ht, hsize, hclear⟩ := ih (limit - c.utf8Size)
    rw [runText]
    split
    · exact ⟨c :: t, rfl, Nat.zero_le _, clear_nil _ _⟩
    · next hgo =>
      simp only [Bool.or_eq_true, decide_eq_true_eq, not_or, Nat.not_lt] at hgo
      refine ⟨rest, congrArg (c :: ·) ht, ?_, Clear.cons ?_ hclear⟩
      · rw [Text.size_cons]
        omega
      · rw [← ht]
        simpa using hgo.2

theorem governs_runText (limit : Nat) (o : Occurrence) :
    o.Governs Braced.heads (.ofSize o.extent.stop (runText limit o.after).size) := by
  obtain ⟨rest, hafter, -, hclear⟩ := runText_spec limit o.after
  exact ⟨_, rest, hafter, rfl, hclear⟩

theorem size_runText_le (limit : Nat) (t : Text) : (runText limit t).size ≤ limit := by
  obtain ⟨-, -, hsize, -⟩ := runText_spec limit t
  exact hsize

theorem heads_of_finds {base : Nat} {t : Text} {o : Occurrence} (ho : Pattern.Finds token base t o) :
    heads (o.token ++ o.after) := by
  obtain ⟨n, hn, -⟩ := ho.found
  exact (Option.ite_none_right_eq_some.1 hn).1

/-! ### Behind tilde codes -/

/-- Codes of a text that stand one behind the other. -/
structure AreCodes (base : Nat) (t : Text) (codes : List Code) : Prop where
  finds : ∀ c ∈ codes, Pattern.Finds token base t c.occurrence
  pairwise : codes.Pairwise fun c c' => c.occurrence.extent.stop ≤ c'.occurrence.offset

theorem areCodes_codes (base : Nat) (t : Text) : AreCodes base t (codes base t) where
  finds c h := by
    obtain ⟨o, ho, hc⟩ := List.mem_filterMap.1 h
    simp only [Option.bind_eq_bind, Option.bind_eq_some_iff, Option.pure_def, Option.some.injEq] at hc
    obtain ⟨-, -, -, -, rfl⟩ := hc
    exact Pattern.finds_of_mem ho
  pairwise := by
    refine List.pairwise_filterMap.2 ((token.pairwise_occurrences base t).imp ?_)
    intro o o' hle c hc c' hc'
    simp only [Option.bind_eq_bind, Option.bind_eq_some_iff, Option.pure_def, Option.some.injEq]
      at hc hc'
    obtain ⟨-, -, -, -, rfl⟩ := hc
    obtain ⟨-, -, -, -, rfl⟩ := hc'
    exact hle

section AreCodes

variable {base : Nat} {t : Text} {first : Code} {codes : List Code}

theorem AreCodes.tail (h : AreCodes base t (first :: codes)) : AreCodes base t codes :=
  ⟨(List.forall_mem_cons.1 h.finds).2, (List.pairwise_cons.1 h.pairwise).2⟩

/-- The first code starts before any code of the list ends. -/
theorem AreCodes.offset_le_stop (h : AreCodes base t (first :: codes)) {c : Code}
    (hc : c ∈ first :: codes) : first.occurrence.offset ≤ c.occurrence.extent.stop := by
  have hstart := (h.finds first List.mem_cons_self).start_lt_stop
  have hstart' := (h.finds c hc).start_lt_stop
  rcases List.mem_cons.1 hc with rfl | hc
  · omega
  · have hle := (List.pairwise_cons.1 h.pairwise).1 c hc
    omega

theorem mem_runsAfter {r : Run} (h : r ∈ runsAfter codes) :
    ∃ c ∈ codes, c.occurrence.Governs Braced.heads r.extent := by
  induction codes with
  | nil => cases h
  | cons c codes ih =>
    rcases List.mem_cons.1 h with rfl | h
    · exact ⟨c, List.mem_cons_self, governs_runText _ _⟩
    · obtain ⟨c', hc', hgoverns⟩ := ih h
      exact ⟨c', List.mem_cons_of_mem c hc', hgoverns⟩

/-- A run ends where the next code starts, at the latest. -/
theorem AreCodes.pairwise_runsAfter (h : AreCodes base t codes) :
    (runsAfter codes).Pairwise fun r r' => r.extent.stop ≤ r'.extent.start := by
  induction codes with
  | nil => exact .nil
  | cons c codes ih =>
    refine List.pairwise_cons.2 ⟨fun r hr => ?_, ih h.tail⟩
    obtain ⟨c', hc', hgoverns⟩ := mem_runsAfter hr
    cases codes with
    | nil => cases hc'
    | cons next codes =>
      have hsize := size_runText_le (next.occurrence.offset - c.occurrence.extent.stop)
        c.occurrence.after
      have hnext := (List.pairwise_cons.1 h.pairwise).1 next List.mem_cons_self
      have hlater := h.tail.offset_le_stop hc'
      rw [hgoverns.start_eq]
      simp only [Run.extent, Interval.ofSize]
      omega

end AreCodes

theorem mem_runs {base : Nat} {t : Text} {r : Run} (h : r ∈ runs base t) (hhue : r.hue.isSome) :
    ∃ o, Pattern.Finds token base t o ∧ o.Governs Braced.heads r.extent := by
  rcases List.mem_cons.1 (List.mem_filter.1 h).1 with rfl | h
  · cases hhue
  · obtain ⟨c, hc, hgoverns⟩ := mem_runsAfter h
    exact ⟨c.occurrence, (areCodes_codes base t).finds c hc, hgoverns⟩

/-- The runs of a text stand one behind the other. -/
theorem pairwise_runs (base : Nat) (t : Text) :
    (runs base t).Pairwise fun r r' => r.extent.stop ≤ r'.extent.start := by
  have hcodes := areCodes_codes base t
  refine List.Pairwise.filter _ (List.pairwise_cons.2 ⟨fun r hr => ?_, hcodes.pairwise_runsAfter⟩)
  obtain ⟨c, hc, hgoverns⟩ := mem_runsAfter hr
  obtain ⟨first, more, heq⟩ := List.exists_cons_of_ne_nil (List.ne_nil_of_mem hc)
  rw [heq] at hcodes hc
  have hsize := size_runText_le (first.occurrence.offset - base) t
  have hbase := (hcodes.finds first List.mem_cons_self).base_le
  have hlater := hcodes.offset_le_stop hc
  rw [hgoverns.start_eq]
  simp only [Run.extent, Interval.ofSize, heq]
  omega

end GameText

/-! ### Behind braced colors -/

namespace Inline

theorem heads_of_finds {base : Nat} {t : Text} {o : Occurrence}
    (ho : Pattern.Finds Braced.token base t o) : Braced.heads (o.token ++ o.after) := by
  obtain ⟨n, hn, -⟩ := ho.found
  exact (Option.ite_none_right_eq_some.1 hn).1

theorem extent_of_ofOccurrence? {o : Occurrence} {r : Run} (h : Run.ofOccurrence? o = some r) :
    o.Governs stops r.extent ∧ r.code.extent = o.extent := by
  obtain ⟨color, -, hr⟩ := Option.bind_eq_some_iff.1 h
  obtain rfl := Option.some.inj hr
  obtain ⟨rest, hafter, hclear⟩ := upTo_spec stops o.after
  exact ⟨⟨_, rest, hafter, rfl, hclear⟩, rfl⟩

theorem mem_runs {base : Nat} {t : Text} {r : Run} (h : r ∈ runs base t) :
    ∃ o, Pattern.Finds Braced.token base t o ∧ o.Governs stops r.extent ∧
      r.code.extent = o.extent := by
  obtain ⟨o, ho, hr⟩ := List.mem_filterMap.1 h
  exact ⟨o, Pattern.finds_of_mem ho, extent_of_ofOccurrence? hr⟩

/-- The runs of a text stand one behind the other. -/
theorem pairwise_runs (base : Nat) (t : Text) :
    (runs base t).Pairwise fun r r' => r.extent.stop ≤ r'.extent.start := by
  refine List.pairwise_filterMap.2 ((Braced.token.pairwise_occurrences base t).imp_of_mem ?_)
  intro o o' ho ho' hle r hr r' hr'
  have hfinds := Pattern.finds_of_mem ho
  have hfinds' := Pattern.finds_of_mem ho'
  obtain ⟨hgoverns, -⟩ := extent_of_ofOccurrence? hr
  obtain ⟨hgoverns', -⟩ := extent_of_ofOccurrence? hr'
  have hstops : stops (o'.token ++ o'.after) := by simp [stops, heads_of_finds hfinds']
  have hstop := hgoverns.stop_le_offset hfinds hfinds' hstops hle
  rw [hgoverns'.start_eq]
  exact Nat.le_trans hstop (Nat.le_of_lt hfinds'.start_lt_stop)

end Inline

/-! ### Runs of both kinds -/

/-- A run behind a tilde code and a run behind a braced color share no offset. -/
theorem disjoint_runs {base : Nat} {t : Text} {code braced : Occurrence} {run run' : Interval}
    (hcode : Pattern.Finds GameText.token base t code)
    (hbraced : Pattern.Finds Braced.token base t braced)
    (hrun : code.Governs Braced.heads run) (hrun' : braced.Governs Inline.stops run') :
    run.Disjoint run' := by
  have hstart := hcode.start_lt_stop
  have hstart' := hbraced.start_lt_stop
  have hapart := disjoint_code_braced hcode hbraced
  rcases Nat.le_total code.offset braced.offset with hle | hle
  · -- The braced color comes later, so it ends the run behind the code.
    have hbetween := hapart.stop_le hstart' hle
    have hstop := hrun.stop_le_offset hcode hbraced (Inline.heads_of_finds hbraced) hbetween
    refine Interval.disjoint_of_le ?_
    rw [hrun'.start_eq]
    exact Nat.le_trans hstop (Nat.le_of_lt hstart')
  · have hbetween := hapart.symm.stop_le hstart hle
    have hstops : Inline.stops (code.token ++ code.after) := by
      simp [Inline.stops, GameText.heads_of_finds hcode]
    have hstop := hrun'.stop_le_offset hbraced hcode hstops hbetween
    refine (Interval.disjoint_of_le ?_).symm
    rw [hrun.start_eq]
    exact Nat.le_trans hstop (Nat.le_of_lt hstart)

end Swatch

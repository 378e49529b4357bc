-- SUMMARY: What the occurrences of a pattern are, and how they lie in a part of a text.
import Swatch.Proofs.Text.Cut
import Swatch.Text.Occurrence

/-!
# Occurrences in texts and in their parts

Every occurrence is a place of the text at which the pattern finds its token, and the
occurrences stand one behind the other. A place at which a token is found is an
occurrence unless it lies inside an earlier one. So where a token never starts inside
another one, every such place is an occurrence.

A pattern that does not look beyond the end of a line finds the same in some lines as in
the whole text: the occurrences in the text are those before the lines, those in the
lines, and those behind them.
-/

namespace Swatch

/-! ## Places of tokens -/

/-- The token of an occurrence stands at its place in a text that starts at `base`. -/
structure Occurrence.StandsIn (o : Occurrence) (base : Nat) (t : Text) : Prop where
  text_eq : o.before.reverse ++ (o.token ++ o.after) = t
  offset_eq : o.offset = base + o.before.size

/-- A pattern finds the token of an occurrence at its place in a text that starts at `base`. -/
structure Pattern.Finds (p : Pattern) (base : Nat) (t : Text) (o : Occurrence) : Prop where
  text_eq : o.before.reverse ++ (o.token ++ o.after) = t
  offset_eq : o.offset = base + o.before.size
  token_ne_nil : o.token ≠ []
  found : ∃ n, p o.before (o.token ++ o.after) = some n ∧
    (o.token ++ o.after).take (n + 1) = o.token

namespace Occurrence

/-- The occurrence in a text that goes on to the left, nearest character first, and to the right. -/
def widen (o : Occurrence) (left right : Text) : Occurrence :=
  { o with before := o.before ++ left, after := o.after ++ right }

@[simp] theorem widen_token (o : Occurrence) (left right : Text) :
    (o.widen left right).token = o.token := rfl

@[simp] theorem widen_offset (o : Occurrence) (left right : Text) :
    (o.widen left right).offset = o.offset := rfl

@[simp] theorem widen_extent (o : Occurrence) (left right : Text) :
    (o.widen left right).extent = o.extent := rfl

@[simp] theorem widen_widen (o : Occurrence) (left right left' right' : Text) :
    (o.widen left right).widen left' right' = o.widen (left ++ left') (right ++ right') := by
  simp [widen]

namespace StandsIn

variable {base : Nat} {t : Text} {o o' : Occurrence}

/-- What stands at a place goes on to what stands at a later one. -/
theorem exists_middle (ho : o.StandsIn base t) (ho' : o'.StandsIn base t)
    (hle : o.offset ≤ o'.offset) :
    ∃ mid, o.token ++ o.after = mid ++ (o'.token ++ o'.after) ∧
      o'.before = mid.reverse ++ o.before ∧ o'.offset = o.offset + mid.size := by
  have htext := ho.text_eq.trans ho'.text_eq.symm
  have hoffset := ho.offset_eq
  have hoffset' := ho'.offset_eq
  obtain ⟨mid, hbefore, hrest⟩ := Text.exists_middle htext (by simp only [Text.size_reverse]; omega)
  have hbefore' : o'.before = mid.reverse ++ o.before := by
    simpa using congrArg List.reverse hbefore
  refine ⟨mid, hrest, hbefore', ?_⟩
  rw [hoffset', hbefore', Text.size_append, Text.size_reverse]
  omega

/-- What stands before a place tells the place. -/
theorem offset_eq_of_before_eq (ho : o.StandsIn base t) (ho' : o'.StandsIn base t)
    (hbefore : o.before = o'.before) : o.offset = o'.offset := by
  rw [ho.offset_eq, ho'.offset_eq, hbefore]

theorem eq_of_token_eq (ho : o.StandsIn base t) (ho' : o'.StandsIn base t)
    (hbefore : o.before = o'.before) (htoken : o.token = o'.token) : o = o' := by
  have hoffset := ho.offset_eq_of_before_eq ho' hbefore
  have htext := ho.text_eq.trans ho'.text_eq.symm
  rw [hbefore, htoken] at htext
  have hafter := List.append_cancel_left (List.append_cancel_left htext)
  cases o
  cases o'
  simp_all

/-- If a token starts inside another one, the two share the end of the other one. -/
theorem overlap (ho : o.StandsIn base t) (ho' : o'.StandsIn base t)
    (hle : o.offset ≤ o'.offset) (hlt : o'.offset < o.extent.stop) :
    ∃ mid shared, o.token = mid ++ shared ∧ shared ≠ [] ∧
      shared ++ o.after = o'.token ++ o'.after ∧ o'.before = mid.reverse ++ o.before := by
  obtain ⟨mid, hrest, hbefore, hoffset⟩ := ho.exists_middle ho' hle
  have hwide : mid.size < o.token.size := by
    simp only [Occurrence.extent, Interval.ofSize] at hlt
    omega
  obtain ⟨shared, htoken, hshared⟩ := Text.exists_middle hrest.symm (Nat.le_of_lt hwide)
  refine ⟨mid, shared, htoken, ?_, hshared.symm, hbefore⟩
  rintro rfl
  rw [List.append_nil] at htoken
  exact Nat.lt_irrefl _ (htoken ▸ hwide)

end StandsIn

end Occurrence

namespace Pattern

section Finds

variable {p : Pattern} {base : Nat} {t : Text} {o : Occurrence}

theorem Finds.start_lt_stop (ho : p.Finds base t o) : o.offset < o.extent.stop :=
  Nat.lt_add_of_pos_right (Text.size_pos_iff.2 ho.token_ne_nil)

theorem Finds.base_le (ho : p.Finds base t o) : base ≤ o.offset := by
  rw [ho.offset_eq]
  exact Nat.le_add_right _ _

theorem Finds.stop_add_after (ho : p.Finds base t o) :
    o.extent.stop + o.after.size = base + t.size := by
  have hsize := congrArg Text.size ho.text_eq
  have hoffset := ho.offset_eq
  simp only [Text.size_append, Text.size_reverse] at hsize
  simp only [Occurrence.extent, Interval.ofSize]
  omega

theorem Finds.standsIn (ho : p.Finds base t o) : o.StandsIn base t :=
  ⟨ho.text_eq, ho.offset_eq⟩

end Finds

/-! ## Occurrences -/

section Occurrences

variable {p : Pattern}

/-- Each occurrence is found somewhere behind what has been read. -/
theorem mem_occurrencesFrom {before : Text} {offset : Nat} {t : Text} {o : Occurrence}
    (h : o ∈ p.occurrencesFrom before offset t) :
    ∃ skipped, skipped ++ (o.token ++ o.after) = t ∧ o.before = skipped.reverse ++ before ∧
      o.offset = offset + skipped.size ∧ o.token ≠ [] ∧
      ∃ n, p o.before (o.token ++ o.after) = some n ∧
        (o.token ++ o.after).take (n + 1) = o.token := by
  fun_induction occurrencesFrom p before offset t with
  | case1 => cases h
  | case2 before offset c rest _ ih =>
    obtain ⟨skipped, htext, hbefore, hoffset, hfound⟩ := ih h
    refine ⟨c :: skipped, by simp [htext], by simp [hbefore], ?_, hfound⟩
    rw [hoffset, Text.size_cons, Nat.add_assoc]
  | case3 before offset c rest n hn token ih =>
    have htoken : token ++ rest.drop n = c :: rest := by
      simp [token, List.take_append_drop]
    rcases List.mem_cons.1 h with rfl | h
    · refine ⟨[], htoken, rfl, rfl, List.cons_ne_nil _ _, n, ?_⟩
      dsimp only
      rw [htoken]
      exact ⟨hn, rfl⟩
    · obtain ⟨skipped, htext, hbefore, hoffset, hfound⟩ := ih h
      refine ⟨token ++ skipped, ?_, by simp [hbefore], ?_, hfound⟩
      · rw [List.append_assoc, htext, htoken]
      · rw [hoffset, Text.size_append, Nat.add_assoc]

theorem finds_of_mem {base : Nat} {t : Text} {o : Occurrence} (h : o ∈ p.occurrences base t) :
    p.Finds base t o := by
  obtain ⟨skipped, htext, hbefore, hoffset, hne, hfound⟩ := mem_occurrencesFrom h
  rw [List.append_nil] at hbefore
  have hskipped : skipped = o.before.reverse := by rw [hbefore, List.reverse_reverse]
  subst hskipped
  exact ⟨htext, by simpa using hoffset, hne, hfound⟩

/-- Occurrences stand one behind the other. -/
theorem pairwise_occurrences (p : Pattern) (base : Nat) (t : Text) :
    (p.occurrences base t).Pairwise fun o o' => o.extent.stop ≤ o'.offset := by
  rw [occurrences]
  fun_induction occurrencesFrom p [] base t with
  | case1 => exact .nil
  | case2 _ _ _ _ _ ih => exact ih
  | case3 before offset c rest n _ token ih =>
    refine List.pairwise_cons.2 ⟨fun o ho => ?_, ih⟩
    obtain ⟨skipped, -, -, hoffset, -⟩ := mem_occurrencesFrom ho
    rw [hoffset]
    exact Nat.le_add_right _ _

/-- A place at which a token is found is an occurrence, or it lies inside an earlier one. -/
theorem mem_occurrencesFrom_or_inside (before : Text) (offset : Nat) {t token after : Text} {n : Nat}
    (hne : token ≠ []) (htoken : (token ++ after).take (n + 1) = token) :
    ∀ skipped, skipped ++ (token ++ after) = t →
      p (skipped.reverse ++ before) (token ++ after) = some n →
      ⟨skipped.reverse ++ before, token, after, offset + skipped.size⟩
          ∈ p.occurrencesFrom before offset t ∨
        ∃ o ∈ p.occurrencesFrom before offset t,
          o.offset < offset + skipped.size ∧ offset + skipped.size < o.extent.stop := by
  fun_induction occurrencesFrom p before offset t with
  | case1 =>
    intro skipped ht
    simp [hne] at ht
  | case2 before offset c rest hnone ih =>
    intro skipped ht hn
    cases skipped with
    | nil =>
      rw [List.nil_append] at ht
      rw [ht] at hn
      cases hnone.symm.trans hn
    | cons d skipped =>
      simp only [List.cons_append, List.cons.injEq] at ht
      obtain ⟨rfl, ht⟩ := ht
      have hfound := ih skipped ht (by simpa using hn)
      simpa [Nat.add_assoc] using hfound
  | case3 before offset c rest m hm first ih =>
    intro skipped ht hn
    have hfirst : first ++ rest.drop m = skipped ++ (token ++ after) := by
      rw [ht]
      exact congrArg (c :: ·) (List.take_append_drop m rest)
    rcases Nat.lt_or_ge m skipped.length with hbehind | hinside
    · -- The place is behind the first token.
      have hlength : first.length ≤ skipped.length := by
        simp only [first, List.length_cons, List.length_take]
        omega
      obtain ⟨more, rfl⟩ := List.prefix_of_prefix_length_le (List.prefix_append first _)
        (hfirst ▸ List.prefix_append skipped _) hlength
      rw [List.append_assoc] at hfirst
      have hfound := ih more (List.append_cancel_left hfirst).symm (by simpa using hn)
      refine hfound.imp (fun hmem => List.mem_cons_of_mem _ ?_) fun ⟨o, ho, hplace⟩ =>
        ⟨o, List.mem_cons_of_mem _ ho, ?_⟩
      · simpa [Nat.add_assoc] using hmem
      · simpa [Nat.add_assoc] using hplace
    · cases skipped with
      | nil =>
        rw [List.nil_append] at ht
        rw [ht] at hn
        have hsame : m = n := Option.some.inj (hm.symm.trans hn)
        subst hsame
        have htoken' : token = first := by
          rw [← htoken, ht]
          rfl
        subst htoken'
        rw [List.append_cancel_left hfirst]
        exact .inl List.mem_cons_self
      | cons d skipped =>
        -- The place is inside the first token.
        have hlength : (d :: skipped).length < first.length := by
          have htotal := congrArg List.length ht
          have htoken' := List.length_pos_iff.2 hne
          simp only [first, List.length_cons, List.length_take, List.length_append] at *
          omega
        obtain ⟨shared, hshared⟩ := List.prefix_of_prefix_length_le
          (hfirst ▸ List.prefix_append (d :: skipped) _) (List.prefix_append first _)
          (Nat.le_of_lt hlength)
        have hsize : 0 < Text.size shared := by
          refine Text.size_pos_iff.2 fun hnil => ?_
          rw [hnil, List.append_nil] at hshared
          exact Nat.lt_irrefl _ (hshared ▸ hlength)
        refine .inr ⟨_, List.mem_cons_self, ?_, ?_⟩
        · exact Nat.lt_add_of_pos_right (Text.size_pos_iff.2 (List.cons_ne_nil _ _))
        · simp only [Occurrence.extent, Interval.ofSize]
          rw [← hshared, Text.size_append]
          omega

theorem Finds.mem_or_inside {base : Nat} {t : Text} {o : Occurrence} (ho : p.Finds base t o) :
    o ∈ p.occurrences base t ∨
      ∃ o' ∈ p.occurrences base t, o'.offset < o.offset ∧ o.offset < o'.extent.stop := by
  obtain ⟨n, hn, htoken⟩ := ho.found
  have hfound := mem_occurrencesFrom_or_inside [] base ho.token_ne_nil htoken o.before.reverse
    ho.text_eq (by simpa using hn)
  simpa [occurrences, ← ho.offset_eq] using hfound

/-- A token never starts inside another one. -/
def IsSeparated (p : Pattern) : Prop :=
  ∀ before skipped rest n, skipped ≠ [] → p before (skipped ++ rest) = some n →
    skipped.length ≤ n → p (skipped.reverse ++ before) rest = none

/-- Where tokens do not start inside each other, each place at which a token is found is an
occurrence. -/
theorem IsSeparated.mem_occurrences_iff (hp : p.IsSeparated) {base : Nat} {t : Text}
    {o : Occurrence} : o ∈ p.occurrences base t ↔ p.Finds base t o := by
  constructor
  · exact finds_of_mem
  · intro ho
    refine ho.mem_or_inside.resolve_right ?_
    rintro ⟨o', ho', hlt, hinside⟩
    have hfinds := finds_of_mem ho'
    obtain ⟨mid, shared, htoken, hne, hrest, hbefore⟩ :=
      hfinds.standsIn.overlap ho.standsIn (Nat.le_of_lt hlt) hinside
    have hmid : mid ≠ [] := by
      rintro rfl
      have hoffset := ho.standsIn.offset_eq_of_before_eq hfinds.standsIn hbefore
      omega
    obtain ⟨n, hn, -⟩ := ho.found
    obtain ⟨n', hn', htake⟩ := hfinds.found
    rw [htoken, List.append_assoc, hrest] at hn'
    have hlength : mid.length ≤ n' := by
      have htaken := congrArg List.length htake
      simp only [List.length_take, htoken, List.length_append] at htaken
      have hshared := List.length_pos_iff.2 hne
      omega
    have hnone := hp o'.before mid (o.token ++ o.after) n' hmid hn' hlength
    rw [hbefore] at hn
    cases hnone.symm.trans hn

end Occurrences

/-! ## Lines -/

/-- The characters that end a line of a source text. -/
def endsLine (c : Char) : Bool :=
  c == '\n' || c == '\r'

/-- A pattern that does not look beyond the ends of a line. -/
structure IsLocal (p : Pattern) : Prop where
  left : ∀ {c}, endsLine c → ∀ before beyond t, p (before ++ c :: beyond) t = p before t
  right : ∀ {c}, endsLine c → ∀ before t beyond, p before (t ++ c :: beyond) = p before t
  fits : ∀ {before t n}, p before t = some n → n < t.length

section Local

variable {p : Pattern}

theorem IsLocal.occurrencesFrom_left (hp : p.IsLocal) {c : Char} (hc : endsLine c)
    (before beyond : Text) (offset : Nat) (t : Text) :
    p.occurrencesFrom (before ++ c :: beyond) offset t
      = (p.occurrencesFrom before offset t).map (·.widen (c :: beyond) []) := by
  fun_induction occurrencesFrom p before offset t with
  | case1 => simp [occurrencesFrom]
  | case2 before offset d rest hnone ih =>
    rw [occurrencesFrom, hp.left hc, hnone]
    exact ih
  | case3 before offset d rest n hn token ih =>
    rw [occurrencesFrom, hp.left hc, hn, List.map_cons, ← ih, List.append_assoc]
    simp [Occurrence.widen, token]

theorem IsLocal.occurrencesFrom_append (hp : p.IsLocal) {c : Char} (hc : endsLine c)
    (before : Text) (offset : Nat) (t beyond : Text) :
    p.occurrencesFrom before offset (t ++ c :: beyond)
      = (p.occurrencesFrom before offset t).map (·.widen [] (c :: beyond))
        ++ p.occurrencesFrom (c :: (t.reverse ++ before)) (offset + t.size + c.utf8Size) beyond := by
  fun_induction occurrencesFrom p before offset t with
  | case1 before offset =>
    have hnone : p before (c :: beyond) = none := by
      rw [← List.nil_append (c :: beyond), hp.right hc]
      exact Option.eq_none_iff_forall_ne_some.2 fun n hn => absurd (hp.fits hn) (Nat.not_lt_zero n)
    simp [occurrencesFrom, hnone]
  | case2 before offset d rest hnone ih =>
    rw [List.cons_append, occurrencesFrom, ← List.cons_append, hp.right hc, hnone]
    simp only [ih]
    simp [Nat.add_assoc]
  | case3 before offset d rest n hn token ih =>
    have hfits : n ≤ rest.length := Nat.le_of_lt_succ (hp.fits hn)
    rw [List.cons_append, occurrencesFrom, ← List.cons_append, hp.right hc, hn]
    simp only [List.take_append_of_le_length hfits, List.drop_append_of_le_length hfits]
    have hsize : token.size + Text.size (rest.drop n) = Text.size (d :: rest) := by
      rw [← Text.size_append]
      simp [token]
    have hread : (rest.drop n).reverse ++ (token.reverse ++ before) = (d :: rest).reverse ++ before := by
      rw [← List.append_assoc, ← List.reverse_append]
      simp [token]
    rw [ih, hread, Nat.add_assoc offset, hsize]
    simp [Occurrence.widen, token]

/-- What follows a line does not change the occurrences in it. -/
theorem IsLocal.occurrences_append (hp : p.IsLocal) (base : Nat) (lines : Text) {after : Text}
    (hafter : after = [] ∨ after.head? = some '\n') :
    ∃ below, p.occurrences base (lines ++ after)
        = (p.occurrences base lines).map (·.widen [] after) ++ below ∧
      ∀ o ∈ below, base + lines.size < o.offset := by
  cases after with
  | nil => exact ⟨[], by simp [Occurrence.widen], by simp⟩
  | cons c rest =>
    obtain rfl : c = '\n' := by simpa using hafter
    refine ⟨_, hp.occurrencesFrom_append rfl [] base lines rest, fun o ho => ?_⟩
    obtain ⟨skipped, -, -, hoffset, -⟩ := mem_occurrencesFrom ho
    have hfeed : '\n'.utf8Size = 1 := rfl
    omega

/-- What precedes a line does not change the occurrences behind it. -/
theorem IsLocal.occurrences_behind (hp : p.IsLocal) {before : Text} (t : Text)
    (hbefore : before = [] ∨ before.getLast? = some '\n') :
    ∃ above, p.occurrences 0 (before ++ t)
        = above ++ (p.occurrences before.size t).map (·.widen before.reverse []) ∧
      ∀ o ∈ above, o.offset < before.size := by
  rcases hbefore with rfl | hlast
  · exact ⟨[], by simp [Occurrence.widen], by simp⟩
  · obtain ⟨start, rfl⟩ := List.getLast?_eq_some_iff.1 hlast
    have hsplit := hp.occurrencesFrom_append (c := '\n') rfl [] 0 start t
    have hleft := hp.occurrencesFrom_left (c := '\n') rfl [] start.reverse
      (0 + Text.size start + '\n'.utf8Size) t
    rw [List.nil_append] at hleft
    rw [List.append_nil, hleft] at hsplit
    refine ⟨(p.occurrences 0 start).map (·.widen [] ('\n' :: t)), ?_, ?_⟩
    · simpa [occurrences] using hsplit
    · intro o ho
      obtain ⟨o, hmem, rfl⟩ := List.mem_map.1 ho
      have hfinds := finds_of_mem hmem
      have hstart := hfinds.start_lt_stop
      have hstop := hfinds.stop_add_after
      simp only [Occurrence.widen_offset, Text.size_append, Text.size_cons]
      omega

/-- The occurrences in some lines are those of the whole text that start there. -/
theorem IsLocal.occurrences_lines (hp : p.IsLocal) (lines : Text) {before after : Text}
    (hbefore : before = [] ∨ before.getLast? = some '\n')
    (hafter : after = [] ∨ after.head? = some '\n') :
    ∃ above below, p.occurrences 0 (before ++ (lines ++ after))
        = above ++ (p.occurrences before.size lines).map (·.widen before.reverse after) ++ below ∧
      (∀ o ∈ above, o.offset < before.size) ∧
      ∀ o ∈ below, before.size + lines.size < o.offset := by
  obtain ⟨above, habove, hlow⟩ := hp.occurrences_behind (lines ++ after) hbefore
  obtain ⟨below, hbelow, hhigh⟩ := hp.occurrences_append before.size lines hafter
  refine ⟨above, below.map (·.widen before.reverse []), ?_, hlow, ?_⟩
  · simp [habove, hbelow, Function.comp_def]
  · intro o ho
    obtain ⟨o, hmem, rfl⟩ := List.mem_map.1 ho
    exact hhigh o hmem

end Local

end Pattern

end Swatch

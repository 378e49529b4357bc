-- SUMMARY: A stream of lines of a block is cut into the tokens that the block stands for.
import Swatch.Proofs.Yaml.Levels
import Swatch.Proofs.Yaml.Scalar

/-!
# Streams of blocks

Two tokens make a key: the word in front of the colon is read as a scalar first, and the
colon puts the key in front of it, with the start of a block if the key is deeper than the
block around it. Behind the colon stands a word, or the lines of a deeper block.

Whatever has been read, the scanner is at the start of a line again. The blocks that are
left open by then are left when the next line or the end of the stream tells how deep it is.
-/

namespace Swatch.Yaml

namespace Scanner

variable {s s' s'' : Scanner}

/-! ## Gaps -/

/-- Characters that are no gap between tokens and start no comment. -/
def stops (c : Char) : Bool :=
  !isGapChar c && c != '#' && c != byteOrderMark

theorem stops_of_startsWord {c : Char} (h : startsWord c) : stops c := by
  have hhash := startsWord_ne_hash h
  simp only [startsWord, Bool.and_eq_true] at h
  simp [stops, h.1.2, h.2, hhash]

/-- The scanner behind the gap that it stands in front of. -/
def ready (s : Scanner) : Scanner :=
  skipGap (s.rest.length + 1) s

theorem skipGap_eq_self (fuel : Nat) (h : s.rest.head?.all stops) : skipGap fuel s = s := by
  cases fuel with
  | zero => rfl
  | succ fuel =>
    cases hrest : s.rest with
    | nil => simp [skipGap, hrest]
    | cons c t =>
      have hc : stops c := by simpa [hrest] using h
      simp only [stops, isGapChar, isBlankChar, Bool.and_eq_true, Bool.not_eq_true',
        Bool.or_eq_false_iff, bne_iff_ne] at hc
      simp [skipGap, hrest, passesBy, hc]

theorem ready_eq_self (h : s.rest.head?.all stops) : s.ready = s :=
  skipGap_eq_self _ h

/-! ## Moving -/

theorem moveTo_append (passed : Text) {rest : Text} (h : s.rest = passed ++ rest) :
    s.moveTo rest =
      { s with
        rest
        offset := s.offset + passed.length
        line := (placeAfter s.line s.column passed).1
        column := (placeAfter s.line s.column passed).2 } := by
  have hpassed : s.rest.take (s.rest.length - rest.length) = passed := by
    rw [h, List.length_append, Nat.add_sub_cancel, List.take_left]
  simp only [moveTo, hpassed]

theorem placeAfter_of_not_isBreak (line column : Nat) {t : Text} (h : ∀ c ∈ t, isBreak c = false) :
    placeAfter line column t = (line, column + t.length) := by
  fun_induction placeAfter line column t with
  | case1 => rfl
  | case2 line column t _ => exact absurd (h '\r' (by simp)) (by decide)
  | case3 line column c t _ hbreak _ => exact absurd (h c List.mem_cons_self) (by simp [hbreak])
  | case4 line column c t _ _ ih =>
    rw [ih fun d hd => h d (List.mem_cons_of_mem c hd), List.length_cons]
    congr 1
    omega

/-- Behind a line feed counting starts again. -/
theorem placeAfter_feed (line column : Nat) {t : Text} (h : ∀ c ∈ t, isBreak c = false)
    (rest : Text) : placeAfter line column (t ++ '\n' :: rest) = placeAfter (line + 1) 0 rest := by
  have hreturn (c : Char) (hc : isBreak c = false) : c ≠ '\r' := by
    rintro rfl
    exact absurd hc (by decide)
  induction t generalizing column with
  | nil => rw [List.nil_append, placeAfter.eq_3 _ _ _ _ (by simp), if_pos (by rfl)]
  | cons c t ih =>
    have hc : isBreak c = false := h c List.mem_cons_self
    rw [List.cons_append, placeAfter.eq_3 _ _ _ _ fun _ he => absurd he (hreturn c hc),
      if_neg (by simp [hc]), ih (column + 1) fun d hd => h d (List.mem_cons_of_mem c hd)]

theorem placeAfter_spaces (line column n : Nat) :
    placeAfter line column (List.replicate n ' ') = (line, column + n) := by
  rw [placeAfter_of_not_isBreak line column, List.length_replicate]
  intro c hc
  obtain rfl := (List.mem_replicate.1 hc).2
  rfl

theorem advance_one {c : Char} {rest : Text} (h : s.rest = c :: rest) (hc : isBreak c = false) :
    s.advance 1 = { s with rest, offset := s.offset + 1, column := s.column + 1 } := by
  have hdrop : s.rest.drop 1 = rest := by rw [h]; rfl
  rw [advance, hdrop, moveTo_append [c] h,
    placeAfter_of_not_isBreak s.line s.column (by simpa using hc)]
  rfl

/-- Spaces are passed one by one. -/
theorem skipGap_spaces {n fuel : Nat} {body : Text} (hrest : s.rest = List.replicate n ' ' ++ body)
    (hbody : body.head?.all stops) (hfuel : n ≤ fuel) :
    skipGap fuel s = { s with rest := body, offset := s.offset + n, column := s.column + n } := by
  induction n generalizing fuel s with
  | zero =>
    have hself : { s with rest := body, offset := s.offset + 0, column := s.column + 0 } = s := by
      rw [← show s.rest = body by simpa using hrest]
      rfl
    rw [hself]
    exact skipGap_eq_self fuel (by rwa [hrest])
  | succ n ih =>
    obtain ⟨fuel, rfl⟩ := Nat.exists_eq_add_one.2 (Nat.lt_of_lt_of_le (Nat.succ_pos n) hfuel)
    have hspace : s.rest = ' ' :: (List.replicate n ' ' ++ body) := hrest
    rw [skipGap, hspace]
    simp only [passesBy, beq_self_eq_true, Bool.true_or, if_true]
    rw [advance_one hspace (by rfl), ih rfl (Nat.le_of_succ_le_succ hfuel)]
    simp only [Scanner.mk.injEq, true_and, and_true]
    omega

/-- Behind the break of a line a key may start again. -/
theorem skipGap_feed {fuel : Nat} {t : Text} (hrest : s.rest = '\n' :: t)
    (houter : s.outerKeys = []) :
    skipGap (fuel + 1) s = skipGap fuel
      { s with
        rest := t
        offset := s.offset + 1
        line := s.line + 1
        column := 0
        keyAllowed := true } := by
  have hpass : s.passesBy '\n' = false := by simp [passesBy, byteOrderMark]
  have hbreak : isBreak '\n' = true := by decide
  have hmove := moveTo_append ['\n'] hrest
  have hplace : placeAfter s.line s.column ['\n'] = (s.line + 1, 0) :=
    placeAfter_feed (t := []) _ _ (by simp) []
  rw [hplace] at hmove
  rw [skipGap, hrest]
  simp [hpass, hbreak, dropBreak, hmove, inFlow_eq_false, houter]

/-! ## Reading on -/

/-- Reading from the first scanner leads to the second. Each token takes a character at least. -/
def Reaches (s s' : Scanner) : Prop :=
  ∃ n, n + s'.rest.length ≤ s.rest.length ∧ ∀ fuel, finish? (fuel + n) s = finish? fuel s'

theorem Reaches.refl (s : Scanner) : s.Reaches s :=
  ⟨0, by simp, fun _ => rfl⟩

theorem Reaches.trans (h : s.Reaches s') (h' : s'.Reaches s'') : s.Reaches s'' := by
  obtain ⟨n, hn, hread⟩ := h
  obtain ⟨m, hm, hread'⟩ := h'
  refine ⟨m + n, by omega, fun fuel => ?_⟩
  rw [← Nat.add_assoc, hread, hread']

/-- The key places that are kept can still be used. -/
structure Fresh (s : Scanner) : Prop where
  outerKeys : s.outerKeys = []
  key : ∀ k, s.key = some k → KeyPlace.isStale s k = false

theorem Fresh.freshKeys?_eq (h : s.Fresh) : s.freshKeys? = some s := by
  obtain ⟨rest, offset, line, column, tokens, indent, outer, allowed, key, outerKeys⟩ := s
  obtain rfl : outerKeys = [] := h.outerKeys
  cases key with
  | none => rfl
  | some k => simp [freshKeys?, freshKey?, h.key k rfl]

theorem fresh_of_key_eq_none (houter : s.outerKeys = []) (hkey : s.key = none) : s.Fresh :=
  ⟨houter, by simp [hkey]⟩

/-- One token is read. -/
theorem Reaches.token {c : Char} {t : Text} (hfresh : s.ready.Fresh) (hrest : s.ready.rest = c :: t)
    (hnext : (s.ready.withLevels (s.ready.levels.leave s.ready.column)).next? c t = some s')
    (hlt : s'.rest.length < s.rest.length) : s.Reaches s' := by
  refine ⟨1, by omega, fun fuel => ?_⟩
  have hready : skipGap (s.rest.length + 1) s = s.ready := rfl
  rw [finish?, hready, hfresh.freshKeys?_eq]
  simp [hrest, unroll_eq _ hfresh.outerKeys, hnext]

/-- No block is left where none is deep enough. -/
theorem next?_stay {c : Char} {t : Text} (h : s.levels.indent ≤ s.column) :
    (s.withLevels (s.levels.leave s.column)).next? c t = s.next? c t := by
  rw [Levels.leave_eq_self h, withLevels_levels]

/-! ## Words -/

theorem startsWithThree_of_ne {c d : Char} (h : d ≠ c) (t : Text) :
    startsWithThree c (d :: t) = false := by
  cases t with
  | nil => rfl
  | cons e t => cases t <;> simp [startsWithThree, h]

/-- Where a word can start, a plain scalar is read, unless the line ends the document. -/
theorem next?_word {c : Char} {t : Text} (hc : startsWord c) (houter : s.outerKeys = [])
    (hdots : s.column = 0 → startsWithThree '.' (c :: t) = false) :
    s.next? c t = s.plainScalar? := by
  have hflow : s.inFlow = false := inFlow_eq_false houter
  have hend : (s.column == 0 && startsWithThree '.' (c :: t)) = false := by
    by_cases h : s.column = 0 <;> simp [h, hdots]
  simp only [startsWord, Bool.and_eq_true, Bool.not_eq_true'] at hc
  have hplain : startsPlain s.inFlow c t = true := by simp [startsPlain, hc.1.1, hc.1.2]
  have hmark : isIndicator c = false := hc.1.1
  simp only [isIndicator, String.reduceToList, List.contains_cons, List.contains_nil, Bool.or_false,
    Bool.or_eq_false_iff, beq_eq_false_iff_ne] at hmark
  have hdash : startsWithThree '-' (c :: t) = false := startsWithThree_of_ne hmark.1 t
  simp [next?, hend, hdash, hplain, hmark]

/-- In front of the colon of a key there are no three dots that end the document. -/
theorem Word.startsWithThree_name (w : Word) (rest : Text) :
    startsWithThree '.' (w.text ++ ':' :: rest) = false := by
  have hgap (c : Char) (hc : c ∈ w.text) : isGapChar c = false := w.not_isGapChar hc
  match hw : w.text with
  | [] => exact startsWithThree_of_ne (by decide) rest
  | [a] => cases rest <;> simp [startsWithThree]
  | [a, b] => simp [startsWithThree]
  | [a, b, c] => simp [startsWithThree, atGap, isGapChar, isBlankChar, isBreak]
  | a :: b :: c :: d :: t =>
    have hd : isGapChar d = false := hgap d (by simp [hw])
    simp [startsWithThree, atGap, hd]

/-! ## Keys -/

/-- Outside of brackets, the scanner is in front of a line that starts with a key or is the last. -/
structure AtLine (s : Scanner) (t : Text) : Prop where
  rest : s.ready.rest = bodyOf t
  column : s.ready.column = indentOf t
  key : s.ready.key = none
  outerKeys : s.ready.outerKeys = []
  keyAllowed : s.ready.keyAllowed = true
  levels : s.ready.levels = s.levels
  length_le : (bodyOf t).length ≤ s.rest.length

/-- The scanner is behind the word of a key and in front of its colon. The place of the word is
kept; in front of the word the levels were those given. -/
structure BehindName (s : Scanner) (column : Nat) (name : Token) (rest : Text) (l : Levels) :
    Prop where
  rest : s.rest = ':' :: rest
  column_le : column ≤ s.column
  outerKeys : s.outerKeys = []
  key : ∃ k, s.key = some k ∧ KeyPlace.isStale s k = false ∧ k.column = column ∧
    k.tokens = l.tokens.length
  levels : s.levels = l.add [name]

/-- The scanner has passed the colon of a key that starts in a column. -/
structure BehindColon (s : Scanner) (column : Nat) (rest : Text) (l : Levels) : Prop where
  rest : s.rest = rest
  column_lt : column < s.column
  key : s.key = none
  outerKeys : s.outerKeys = []
  keyAllowed : s.keyAllowed = false
  levels : s.levels = l

/-- The place of a scanner, kept as one where a key may start. -/
def keyPlace (s : Scanner) : KeyPlace where
  required := s.indent == s.column
  tokens := s.tokens.size
  offset := s.offset
  line := s.line
  column := s.column

/-- A word in front of a colon is read as a scalar, and its place is kept as that of a key. -/
theorem plainScalar?_name {name : Word} {rest : Text} (hrest : s.rest = name.text ++ ':' :: rest)
    (hgap : atGap rest) (houter : s.outerKeys = []) (hkey : s.key = none)
    (hallowed : s.keyAllowed = true) :
    s.plainScalar? = some
      { s with
        rest := ':' :: rest
        offset := s.offset + name.text.length
        column := s.column + name.text.length
        tokens := s.tokens.push name.token
        keyAllowed := false
        key := some s.keyPlace } := by
  have hflow : s.inFlow = false := inFlow_eq_false houter
  have hplain := name.plain?_name (s.indent + 1).toNat s.rest.length hgap
  rw [← hrest] at hplain
  have hsave : s.saveKey? = some { s with key := some s.keyPlace } := by
    simp [saveKey?, dropKey?, hallowed, hkey, inFlow_eq_false, houter, keyPlace]
  have hmove := moveTo_append (s := { s with key := some s.keyPlace }) name.text hrest
  rw [placeAfter_of_not_isBreak _ _ fun c => name.not_isBreak] at hmove
  simp [plainScalar?, content?, hflow, hplain, hsave, hmove, emit, Word.token]

/-- The word of a key is read, outside of all blocks that are deeper. -/
theorem AtLine.reaches_word {column : Nat} {name : Word} {rest : Text}
    (hs : s.AtLine (List.replicate column ' ' ++ (name.text ++ ':' :: rest))) (hgap : atGap rest) :
    ∃ s', s.Reaches s' ∧ s'.BehindName column name.token rest (s.levels.leave column) := by
  obtain ⟨hrest, hcolumn, hkey, houter, hallowed, hlevels, hlength⟩ := hs
  rw [bodyOf_word] at hrest hlength
  rw [indentOf_word] at hcolumn
  obtain ⟨c, t, hname, hc⟩ := name.exists_cons
  have hfresh : s.ready.Fresh := fresh_of_key_eq_none houter hkey
  have hdots : startsWithThree '.' (c :: (t ++ ':' :: rest)) = false := by
    rw [← List.cons_append, ← hname]
    exact Word.startsWithThree_name name rest
  have hnext : (s.ready.withLevels (s.ready.levels.leave s.ready.column)).next? c
      (t ++ ':' :: rest) = _ :=
    (next?_word (s := s.ready.withLevels _) hc houter fun _ => hdots).trans
      (plainScalar?_name hrest hgap houter hkey hallowed)
  have hlt : (':' :: rest).length < s.rest.length := by
    rw [hname] at hlength
    simp only [List.length_append, List.length_cons] at hlength ⊢
    omega
  refine ⟨_, .token hfresh (hrest.trans (by rw [hname]; rfl)) hnext hlt, ?_⟩
  have hshort := name.length_le
  rw [hlevels, hcolumn]
  refine ⟨rfl, ?_, houter, ⟨_, rfl, ?_, hcolumn, ?_⟩, ?_⟩
  · exact hcolumn ▸ Nat.le_add_right _ _
  · simp [KeyPlace.isStale, keyPlace, withLevels, hshort]
  · simp [keyPlace, withLevels]
  · simp [Scanner.levels, withLevels, Levels.add]

/-- The key and the block that it may open are put in front of the last token. -/
theorem roll_key {ts : List Token} {name : Token} (houter : s.outerKeys = [])
    (htokens : s.tokens.toList = ts ++ [name]) (column : Nat) :
    { s with tokens := s.tokens.insertIdxIfInBounds ts.length .key }.roll column ts.length .blockMap
      = s.withLevels (((⟨s.indent, s.outer, ts⟩ : Levels).enter column).add [.key, name]) := by
  have hinsert (t : Token) (more : List Token) :
      (ts ++ more).insertIdx ts.length t = ts ++ t :: more := by
    clear htokens
    induction ts with
    | nil => rfl
    | cons x ts ih => exact congrArg (x :: ·) ih
  have harray : s.tokens = (ts ++ [name]).toArray := by rw [← htokens]
  rw [roll, harray]
  simp only [List.insertIdxIfInBounds_toArray, hinsert, inFlow, houter]
  by_cases hle : (column : Int) ≤ s.indent
  · simp [hle, Levels.enter, Levels.add, withLevels, houter]
  · simp [hle, Levels.enter, Levels.add, withLevels, houter]

/-- A colon behind the word of a key puts the key in front of it, in a block of its column. -/
theorem BehindName.value?_eq {column : Nat} {name : Token} {rest : Text} {l : Levels}
    (hs : s.BehindName column name rest l) :
    s.value? = some
      { s.withLevels ((l.enter column).add [.key, name, .value]) with
        rest
        offset := s.offset + 1
        column := s.column + 1
        keyAllowed := false
        key := none } := by
  obtain ⟨hrest, -, houter, ⟨k, hkey, -, hcolumn, hk⟩, hlevels⟩ := hs
  have hl : l = ⟨s.indent, s.outer, l.tokens⟩ := by
    have hindent : s.indent = l.indent := congrArg Levels.indent hlevels
    have houter : s.outer = l.outer := congrArg Levels.outer hlevels
    rw [hindent, houter]
  have htokens : s.tokens.toList = l.tokens ++ [name] := congrArg Levels.tokens hlevels
  have hmove (l : Levels) : (s.withLevels l).advance 1 = _ := advance_one hrest (by rfl)
  unfold value?
  split
  · next k' hk' =>
    obtain rfl : k = k' := Option.some.inj (hkey.symm.trans hk')
    dsimp only
    rw [hk, hcolumn, roll_key houter htokens, ← hl, hmove]
    simp [emit, withLevels, Levels.add]
  · next hnone => simp [hnone] at hkey

theorem next?_colon {rest : Text} (hgap : atGap rest) :
    s.next? ':' rest = s.value? := by
  have hdash : startsWithThree '-' (':' :: rest) = false := startsWithThree_of_ne (by decide) rest
  have hdots : startsWithThree '.' (':' :: rest) = false := startsWithThree_of_ne (by decide) rest
  simp [next?, hdash, hdots, hgap]

/-- The colon behind the word of a key is read. -/
theorem BehindName.reaches_colon {column : Nat} {name : Token} {rest : Text} {l : Levels}
    (hs : s.BehindName column name rest l) (hgap : atGap rest) (hindent : l.indent ≤ column) :
    ∃ s', s.Reaches s' ∧
      s'.BehindColon column rest ((l.enter column).add [.key, name, .value]) := by
  have hready : s.ready = s := ready_eq_self (by rw [hs.rest]; rfl)
  have hfresh : s.Fresh := by
    obtain ⟨k, hkey, hstale, -⟩ := hs.key
    exact ⟨hs.outerKeys, fun k' hk' => Option.some.inj (hkey.symm.trans hk') ▸ hstale⟩
  have hle : s.levels.indent ≤ s.column := by
    rw [hs.levels]
    exact Int.le_trans hindent (Int.ofNat_le.2 hs.column_le)
  have hnext := ((next?_stay hle).trans (next?_colon hgap)).trans hs.value?_eq
  refine ⟨_, .token (by rwa [hready]) (by rw [hready, hs.rest]) (by rwa [hready]) ?_, ?_⟩
  · simp [hs.rest]
  · exact ⟨rfl, Nat.lt_succ_of_le hs.column_le, rfl, hs.outerKeys, rfl, rfl⟩

/-! ## Values -/

theorem stops_bodyOf {most : Nat} {t : Text} (ht : Indented most t) :
    (bodyOf t).head?.all stops := by
  have hstarts := ht.starts
  cases h : bodyOf t with
  | nil => rfl
  | cons c rest =>
    rw [h] at hstarts
    simpa using stops_of_startsWord (by simpa using hstarts)

/-- Where the spaces of a line have been passed, nothing is passed any more. -/
theorem AtLine.of_rest {most : Nat} {t : Text} (ht : Indented most t) (hrest : s.rest = bodyOf t)
    (hcolumn : s.column = indentOf t) (hkey : s.key = none) (houter : s.outerKeys = [])
    (hallowed : s.keyAllowed = true) : s.AtLine t := by
  have hready : s.ready = s := ready_eq_self (hrest ▸ stops_bodyOf ht)
  have hlength : (bodyOf t).length ≤ s.rest.length := by rw [hrest]
  constructor
  case length_le => exact hlength
  all_goals rw [hready]
  all_goals assumption

/-- The spaces of a line are passed. -/
theorem skipGap_indented {most fuel : Nat} {t : Text} (ht : Indented most t) (hrest : s.rest = t)
    (hfuel : indentOf t ≤ fuel) :
    skipGap fuel s =
      { s with
        rest := bodyOf t
        offset := s.offset + indentOf t
        column := s.column + indentOf t } :=
  skipGap_spaces (by rw [hrest, replicate_indentOf_append]) (stops_bodyOf ht) hfuel

/-- A word at the end of a line is read as a scalar, with the spaces of the next line. -/
theorem plainScalar?_value {value : Word} {column : Nat} {t : Text}
    (hrest : s.rest = value.text ++ '\n' :: t) (ht : Indented column t)
    (hindent : s.indent = column) (houter : s.outerKeys = []) (hallowed : s.keyAllowed = false) :
    s.plainScalar? = some
      { s with
        rest := bodyOf t
        offset := s.offset + (value.text ++ '\n' :: List.replicate (indentOf t) ' ').length
        line := s.line + 1
        column := indentOf t
        tokens := s.tokens.push value.token
        keyAllowed := true } := by
  have hflow : s.inFlow = false := inFlow_eq_false houter
  have hlt : column < (s.indent + 1).toNat := by omega
  have hplain := value.plain?_value s.rest.length ht hlt
  rw [← hrest] at hplain
  have hpassed : s.rest = (value.text ++ '\n' :: List.replicate (indentOf t) ' ') ++ bodyOf t := by
    rw [hrest, List.append_assoc, List.cons_append, replicate_indentOf_append]
  have hmove := moveTo_append _ hpassed
  rw [placeAfter_feed _ _ (fun c => value.not_isBreak), placeAfter_spaces] at hmove
  simp [plainScalar?, content?, saveKey?, hflow, hallowed, hplain, hmove, emit, Word.token]

theorem BehindColon.ready_space {column : Nat} {t : Text} {l : Levels}
    (hs : s.BehindColon column (' ' :: t) l) (ht : t.head?.all stops) :
    s.ready.BehindColon column t l := by
  have hready : s.ready = { s with rest := t, offset := s.offset + 1, column := s.column + 1 } :=
    skipGap_spaces (n := 1) hs.rest ht (by omega)
  rw [hready]
  exact ⟨rfl, Nat.lt_succ_of_lt hs.column_lt, hs.key, hs.outerKeys, hs.keyAllowed, hs.levels⟩

/-- The word behind the colon of a key is read, if the next line is not deeper than the key. -/
theorem BehindColon.reaches_value {column : Nat} {value : Word} {t : Text} {l : Levels}
    (hs : s.BehindColon column (' ' :: (value.text ++ '\n' :: t)) l) (ht : Indented column t)
    (hindent : l.indent = column) :
    ∃ s', s.Reaches s' ∧ s'.AtLine t ∧ s'.levels = l.add [value.token] := by
  obtain ⟨c, rest, hvalue, hc⟩ := value.exists_cons
  obtain ⟨hrest, hcolumn, hkey, houter, hallowed, hlevels⟩ :=
    hs.ready_space (by simpa [hvalue] using stops_of_startsWord hc)
  have hfresh : s.ready.Fresh := fresh_of_key_eq_none houter hkey
  have hle : s.ready.levels.indent ≤ s.ready.column := by
    rw [hlevels, hindent]
    exact Int.ofNat_le.2 (Nat.le_of_lt hcolumn)
  have hscalar := plainScalar?_value hrest ht ((congrArg Levels.indent hlevels).trans hindent)
    houter hallowed
  have hnext : s.ready.next? c (rest ++ '\n' :: t) = _ :=
    (next?_word hc houter fun h => absurd h (by omega)).trans hscalar
  have hlt : (bodyOf t).length < s.rest.length := by
    have hbody := length_bodyOf_le t
    simp only [hs.rest, List.length_cons, List.length_append]
    omega
  refine ⟨_, .token hfresh (hrest.trans (by rw [hvalue]; rfl)) ((next?_stay hle).trans hnext) hlt,
    .of_rest ht rfl rfl hkey houter rfl, ?_⟩
  rw [← hlevels]
  simp [Scanner.levels, Levels.add]

/-- Behind a colon at the end of its line is the start of the next line. -/
theorem BehindColon.atLine {column most : Nat} {t : Text} {l : Levels}
    (hs : s.BehindColon column ('\n' :: t) l) (ht : Indented most t) : s.AtLine t := by
  obtain ⟨hrest, -, hkey, houter, -, -⟩ := hs
  have hready : s.ready =
      { s with
        rest := bodyOf t
        offset := s.offset + 1 + indentOf t
        line := s.line + 1
        column := 0 + indentOf t
        keyAllowed := true } := by
    rw [Scanner.ready, hrest, List.length_cons, skipGap_feed hrest houter]
    exact skipGap_indented ht rfl (Nat.le_succ_of_le (indentOf_le_length t))
  constructor
  case length_le =>
    rw [hrest]
    exact Nat.le_succ_of_le (length_bodyOf_le t)
  all_goals rw [hready]
  case column => exact Nat.zero_add _
  case key => exact hkey
  case outerKeys => exact houter
  case levels => rfl

/-- A scanner starts at the start of a line. -/
theorem atLine_start {most : Nat} {t : Text} (ht : Indented most t) :
    AtLine { rest := t } t := by
  have hready : ready { rest := t } =
      { rest := bodyOf t, offset := 0 + indentOf t, column := 0 + indentOf t } :=
    skipGap_indented ht rfl (Nat.le_succ_of_le (indentOf_le_length t))
  constructor
  case length_le => exact length_bodyOf_le t
  all_goals rw [hready]
  case column => exact Nat.zero_add _
  case levels => rfl

/-! ## Blocks -/

/-- A key is read with its colon; it starts a map if its column is deeper than the block. -/
theorem AtLine.reaches_key {column : Nat} {name : Word} {rest : Text}
    (hs : s.AtLine (List.replicate column ' ' ++ (name.text ++ ':' :: rest))) (hgap : atGap rest)
    (hindent : (s.levels.leave column).indent ≤ column) :
    ∃ s', s.Reaches s' ∧ s'.BehindColon column rest
      ((s.levels.leave column).fill column [.key, name.token, .value]) := by
  obtain ⟨s₁, hword, hname⟩ := hs.reaches_word hgap
  obtain ⟨s₂, hcolon, hs₂⟩ := hname.reaches_colon hgap hindent
  exact ⟨s₂, hword.trans hcolon, hs₂⟩

/-- The lines of a block are read as its tokens, but for what closes the maps still open. -/
theorem AtLine.reaches_block (b : Block) {column : Nat} {t : Text} (ht : Indented column t)
    (hs : s.AtLine (b.write column ++ t)) (hindent : (s.levels.leave column).indent ≤ column) :
    ∃ s', s.Reaches s' ∧ s'.AtLine t ∧
      s'.levels.leave column = (s.levels.leave column).fill column b.tokens := by
  -- Which maps are open behind some lines does not matter, only what is left of them in the column.
  induction b generalizing s column t with
  | nil => exact ⟨s, .refl s, hs, rfl⟩
  | entry name value more ih =>
    have hmore : Indented column (more.write column ++ t) := ht.write more
    simp only [Block.write, List.append_assoc, List.cons_append] at hs
    obtain ⟨s₁, hkey, hs₁⟩ := hs.reaches_key (by rfl) hindent
    have hfill := Levels.fill_cons_indent hindent
    obtain ⟨s₂, hvalue, hs₂, hlevels₂⟩ := hs₁.reaches_value hmore (hfill _ _)
    rw [Levels.add_fill_cons] at hlevels₂
    have hle : s₂.levels.indent ≤ column := by rw [hlevels₂]; exact Int.le_of_eq (hfill _ _)
    have hstay : s₂.levels.leave column = s₂.levels := Levels.leave_eq_self hle
    obtain ⟨s₃, hrest, hs₃, hlevels₃⟩ := ih ht hs₂ (by rwa [hstay])
    refine ⟨s₃, (hkey.trans hvalue).trans hrest, hs₃, ?_⟩
    rw [hlevels₃, hstay, hlevels₂]
    exact Levels.fill_fill_cons _ _ _ _ _
  | nested name below more ihBelow ihMore =>
    have hmore : Indented column (more.write column ++ t) := ht.write more
    have hbelow : Indented (column + 2) (more.write column ++ t) :=
      hmore.mono (Nat.le_add_right _ _)
    simp only [Block.write, List.append_assoc, List.cons_append] at hs
    obtain ⟨s₁, hkey, hs₁⟩ := hs.reaches_key (by rfl) hindent
    have hfill := Levels.fill_cons_indent hindent
    have hle₁ : s₁.levels.indent ≤ column := by
      rw [hs₁.levels]
      exact Int.le_of_eq (hfill _ _)
    -- The map below is left open by its last line, and closed by the line that comes next.
    have hdeep : s₁.levels.indent ≤ (column + 2 : Nat) := by omega
    have hstay₁ : s₁.levels.leave (column + 2 : Nat) = s₁.levels := Levels.leave_eq_self hdeep
    obtain ⟨s₂, hlines, hs₂, hlevels₂⟩ :=
      ihBelow hbelow (hs₁.atLine (hbelow.write below)) (by rwa [hstay₁])
    have hleave : s₂.levels.leave column = s₁.levels.add (Block.enclose below.tokens) := by
      have hcolumn : (column : Int) ≤ (column + 2 : Nat) := by omega
      rw [← Levels.leave_leave hcolumn, hlevels₂, hstay₁, Levels.leave_fill hle₁ (by omega)]
    obtain ⟨s₃, hrest, hs₃, hlevels₃⟩ := ihMore ht hs₂ (by rwa [hleave])
    refine ⟨s₃, (hkey.trans hlines).trans hrest, hs₃, ?_⟩
    rw [hlevels₃, hleave, hs₁.levels, Levels.add_fill_cons]
    exact Levels.fill_fill_cons _ _ _ _ _

/-- At the end of a stream all maps are closed. -/
theorem AtLine.finish?_eq (hs : s.AtLine []) (fuel : Nat) :
    finish? (fuel + 1) s = some ((s.levels.leave (-1)).tokens ++ [.streamEnd]) := by
  have hfresh : s.ready.Fresh := fresh_of_key_eq_none hs.outerKeys hs.key
  have hready : skipGap (s.rest.length + 1) s = s.ready := rfl
  have hrest : s.ready.rest = [] := hs.rest
  rw [finish?, hready, hfresh.freshKeys?_eq]
  simp [hrest, unroll_eq _ hs.outerKeys, hs.levels, withLevels, dropKey?, hs.key, emit]

end Scanner

/-- A block is read as its tokens. -/
theorem tokens?_write (b : Block) :
    tokens? (b.write 0) = some (Block.enclose b.tokens ++ [.streamEnd]) := by
  have hindented : Indented 0 (b.write 0 ++ []) := (Indented.nil 0).write b
  let start : Levels := ⟨-1, [], []⟩
  have hstart : ({ rest := b.write 0 ++ [] } : Scanner).levels.leave (0 : Nat) = start := rfl
  obtain ⟨s, ⟨n, hn, hread⟩, hs, hlevels⟩ :=
    (Scanner.atLine_start hindented).reaches_block b (.nil 0) (by rw [hstart]; decide)
  have hleave : s.levels.leave (-1) = start.add (Block.enclose b.tokens) := by
    have hcolumn : (-1 : Int) ≤ (0 : Nat) := by decide
    rw [← Levels.leave_leave hcolumn, hlevels, hstart, Levels.leave_fill (by decide) (by decide)]
  rw [List.append_nil] at hn hread
  have hle : n ≤ (b.write 0).length := Nat.le_of_add_right_le hn
  obtain ⟨fuel, hfuel⟩ : ∃ fuel, (b.write 0).length + 1 = fuel + 1 + n :=
    ⟨(b.write 0).length - n, by omega⟩
  rw [tokens?, if_pos (b.isAllowed_write 0), hfuel, hread, hs.finish?_eq, hleave]
  rfl

end Swatch.Yaml

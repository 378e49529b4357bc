-- SUMMARY: Every spelling of a color reads back as the color, and no text can be read in two ways.
import Swatch.Literal.Tuple
import Swatch.Proofs.Literal.Colorless
import Swatch.Proofs.Literal.Hexadecimal
import Swatch.Proofs.Literal.NumberList

/-!
# Spellings of a color

A text is read by five grammars in turn. What a grammar accepts looks different from what
the others accept: a brace or a tilde in front, a comma somewhere, nothing but digits, or a
letter behind the first digit. So a text tells the one grammar that may accept it, and any
search through all of them comes to what this grammar reads.

Each spelling that is offered for a color is accepted by its own grammar and gives the color
back, as far as the spelling has its alpha channel.
-/

namespace Swatch

/-! ## Packed words -/

/-- A byte that is shifted inside a word loses nothing. -/
theorem toNat_shiftLeft_byte (b : UInt8) {n : UInt32} (hn : n.toNat ≤ 24) :
    (b.toUInt32 <<< n).toNat = 2 ^ n.toNat * b.toNat := by
  have hb := b.toNat_lt
  have hwide : 2 ^ n.toNat ≤ 2 ^ 24 := Nat.pow_le_pow_right (by decide) hn
  have hsmall : b.toNat * 2 ^ n.toNat < 2 ^ 32 := by
    calc b.toNat * 2 ^ n.toNat ≤ b.toNat * 2 ^ 24 := Nat.mul_le_mul_left _ hwide
      _ < 2 ^ 32 := by omega
  have hshift : n.toNat % 32 = n.toNat := Nat.mod_eq_of_lt (by omega)
  rw [UInt32.toNat_shiftLeft, UInt8.toNat_toUInt32, hshift, Nat.shiftLeft_eq,
    Nat.mod_eq_of_lt hsmall, Nat.mul_comm]

namespace Color

variable (c : Color)

/-- The channels of a packed word do not overlap, so they add up. -/
theorem toNat_toArgb : c.toArgb.toNat
    = 2 ^ 24 * c.alpha.toNat + (2 ^ 16 * c.red.toNat + (2 ^ 8 * c.green.toNat + c.blue.toNat)) := by
  have hred := c.red.toNat_lt
  have hgreen := c.green.toNat_lt
  have hblue := c.blue.toNat_lt
  have hword : c.toArgb.toNat = 2 ^ 24 * c.alpha.toNat ||| 2 ^ 16 * c.red.toNat
      ||| 2 ^ 8 * c.green.toNat ||| c.blue.toNat := by
    simp only [toArgb, UInt32.toNat_or, UInt8.toNat_toUInt32]
    rw [toNat_shiftLeft_byte _ (by decide), toNat_shiftLeft_byte _ (by decide),
      toNat_shiftLeft_byte _ (by decide)]
    rfl
  rw [hword, Nat.or_assoc, Nat.or_assoc, ← Nat.two_pow_add_eq_or_of_lt hblue,
    ← Nat.two_pow_add_eq_or_of_lt (show 2 ^ 8 * c.green.toNat + c.blue.toNat < 2 ^ 16 by omega),
    ← Nat.two_pow_add_eq_or_of_lt (by omega)]

/-- Unpacking undoes packing. -/
theorem ofArgb_toArgb : ofArgb c.toArgb = c := by
  have hred := c.red.toNat_lt
  have hgreen := c.green.toNat_lt
  have hblue := c.blue.toNat_lt
  have halpha := c.alpha.toNat_lt
  have hword := c.toNat_toArgb
  have hshift {n : UInt32} (hn : n.toNat < 32) :
      (c.toArgb >>> n).toNat = c.toArgb.toNat / 2 ^ n.toNat := by
    rw [UInt32.toNat_shiftRight, Nat.mod_eq_of_lt hn, Nat.shiftRight_eq_div_pow]
  have h24 : (c.toArgb >>> 24).toNat = c.toArgb.toNat / 2 ^ 24 := hshift (by decide)
  have h16 : (c.toArgb >>> 16).toNat = c.toArgb.toNat / 2 ^ 16 := hshift (by decide)
  have h8 : (c.toArgb >>> 8).toNat = c.toArgb.toNat / 2 ^ 8 := hshift (by decide)
  -- Each channel is the lowest byte of the word that is shifted down to it.
  have hbyte {word : UInt32} {b : UInt8} (h : word.toNat % 2 ^ 8 = b.toNat) : word.toUInt8 = b := by
    rw [← UInt8.toNat_inj, UInt32.toNat_toUInt8, h]
  have hchannels : (c.toArgb >>> 24).toUInt8 = c.alpha ∧ (c.toArgb >>> 16).toUInt8 = c.red ∧
      (c.toArgb >>> 8).toUInt8 = c.green ∧ c.toArgb.toUInt8 = c.blue := by
    refine ⟨hbyte ?_, hbyte ?_, hbyte ?_, hbyte ?_⟩ <;> omega
  obtain ⟨halpha, hred, hgreen, hblue⟩ := hchannels
  rw [ofArgb, halpha, hred, hgreen, hblue]

end Color

/-! ## What a text that is read looks like -/

section Looks

variable {t : Text}

/-- Behind the mark of a literal stands no comma. -/
theorem Hex.exists_mark_of_read? (h : (read? t).isSome) :
    ∃ x digits, t = '0' :: x :: digits ∧ isMark x ∧ ',' ∉ digits := by
  have hdigits {digits : Text} (h : ∀ d ∈ digits, isHexDigit d) : ',' ∉ digits :=
    fun hmem => absurd (h ',' hmem) (by decide)
  rcases isSome_read?_iff.1 h with hform | hmarks
  · obtain ⟨x, digits, rfl, hx, -, hhex⟩ := hform
    exact ⟨x, digits, rfl, hx, hdigits hhex⟩
  · obtain ⟨x, y, digits, rfl, hx, hy, -, hhex⟩ := hmarks
    refine ⟨x, '0' :: y :: digits, rfl, hx, ?_⟩
    rcases hy with rfl | rfl <;> simpa using hdigits hhex

theorem Braced.exists_head_of_read? (h : (read? t).isSome) : ∃ rest, t = '{' :: rest := by
  unfold read? digits? at h
  split at h
  · next rest => exact ⟨rest, rfl⟩
  · cases h

theorem Decimal.isDigit_of_read? (h : (read? t).isSome) : ∀ c ∈ t, c.isDigit := by
  rw [read?, Option.isSome_map] at h
  obtain ⟨n, hn⟩ := Option.isSome_iff_exists.1 h
  exact (Text.isDigit_of_decimalBelow? hn).2

namespace Tuple

/-- A character that is no comma is in a part between commas. -/
theorem exists_part {c : Char} (hc : c ∈ t) (hcomma : c ≠ ',') : ∃ part ∈ parts t, c ∈ part := by
  fun_induction parts t with
  | case1 => cases hc
  | case2 t ih =>
    obtain ⟨part, hpart, hmem⟩ := ih ((List.mem_cons.1 hc).resolve_left hcomma)
    exact ⟨part, List.mem_cons_of_mem _ hpart, hmem⟩
  | case3 d t hd part more hparts ih =>
    rcases List.mem_cons.1 hc with rfl | hc
    · exact ⟨c :: part, List.mem_cons_self, List.mem_cons_self⟩
    · obtain ⟨part', hpart, hmem⟩ := ih hc
      rw [hparts] at hpart
      rcases List.mem_cons.1 hpart with rfl | hpart
      · exact ⟨d :: part', List.mem_cons_self, List.mem_cons_of_mem d hmem⟩
      · exact ⟨part', List.mem_cons_of_mem _ hpart, hmem⟩
  | case4 d t hd hparts ih =>
    rcases List.mem_cons.1 hc with rfl | hc
    · exact ⟨[c], List.mem_cons_self, List.mem_cons_self⟩
    · obtain ⟨part, hpart, -⟩ := ih hc
      rw [hparts] at hpart
      cases hpart

/-- Every part of a tuple is one of its numbers. -/
theorem channels_of_mapM {parts : List Text} {channels : List UInt8}
    (h : parts.mapM channel? = some channels) :
    channels.length = parts.length ∧ ∀ part ∈ parts, ∃ b, channel? part = some b := by
  induction parts generalizing channels with
  | nil =>
    obtain rfl : [] = channels := Option.some.inj h
    simp
  | cons part parts ih =>
    simp only [List.mapM_cons, Option.bind_eq_bind, Option.bind_eq_some_iff, Option.pure_def,
      Option.some.injEq] at h
    obtain ⟨b, hb, rest, hrest, rfl⟩ := h
    obtain ⟨hlength, hparts⟩ := ih hrest
    exact ⟨by simp [hlength], List.forall_mem_cons.2 ⟨⟨b, hb⟩, hparts⟩⟩

/-- A number of a tuple is made of digits, with blanks around them. -/
theorem isDigit_of_channel? {part : Text} {b : UInt8} (h : channel? part = some b) {c : Char}
    (hc : c ∈ part) : isBlank c ∨ c.isDigit := by
  obtain ⟨n, hn, -⟩ := Option.map_eq_some_iff.1 h
  cases hblank : isBlank c with
  | true => exact .inl rfl
  | false => exact .inr ((Text.isDigit_of_decimalBelow? hn).2 c (Text.mem_trim hc hblank))

/-- A tuple has commas, and everything between them is a digit or a blank. -/
theorem chars_of_read? (h : (read? t).isSome) :
    ',' ∈ t ∧ ∀ c ∈ t, c ≠ ',' → isBlank c ∨ c.isDigit := by
  obtain ⟨channels, hchannels, hmany⟩ :
      ∃ channels, (parts t).mapM channel? = some channels ∧ 3 ≤ channels.length := by
    unfold read? at h
    split at h
    · next heq => exact ⟨_, heq, by simp⟩
    · next heq => exact ⟨_, heq, by simp⟩
    · cases h
  obtain ⟨hlength, hparts⟩ := channels_of_mapM hchannels
  constructor
  · by_contra hnot
    rw [parts_of_notMem hnot, List.length_singleton] at hlength
    omega
  · intro c hc hne
    obtain ⟨part, hpart, hmem⟩ := exists_part hc hne
    obtain ⟨b, hb⟩ := hparts part hpart
    exact isDigit_of_channel? hb hmem

end Tuple

theorem GameText.exists_head_of_read? (h : (read? t).isSome) : ∃ rest, t = '~' :: rest := by
  obtain ⟨l, rest, hliterals, hwhole⟩ :
      ∃ l rest, literals 0 t = l :: rest ∧ l.raw.size = t.size := by
    unfold read? at h
    split at h
    · next l rest heq =>
      split at h
      · next hsize => exact ⟨l, rest, heq, hsize⟩
      · cases h
    · cases h
  have hl : l ∈ literals 0 t := hliterals ▸ List.mem_cons_self
  rw [literals_eq] at hl
  obtain ⟨o, ho, hliteral⟩ := List.mem_filterMap.1 hl
  have ho := Pattern.finds_of_mem ho
  obtain ⟨letter, steps, htoken, -⟩ := exists_letter ho
  have hraw : l.raw = o.token := by
    obtain ⟨_, -, hliteral⟩ := Option.bind_eq_some_iff.1 hliteral
    obtain ⟨_, -, hliteral⟩ := Option.bind_eq_some_iff.1 hliteral
    rw [← Option.some.inj hliteral]
    rfl
  -- The token is as long as the text, so nothing stands in front of it.
  have hbefore : o.before = [] := by
    have hsize := congrArg Text.size ho.text_eq
    rw [Text.size_append, Text.size_append, Text.size_reverse, ← hwhole, hraw] at hsize
    exact Text.size_eq_zero_iff.1 (by omega)
  refine ⟨letter :: '~' :: (steps ++ o.after), ?_⟩
  rw [← ho.text_eq, hbefore, htoken]
  rfl

end Looks

/-! ## Grammars -/

/-- The ways to read a text as a color. -/
inductive Grammar where
  /-- Digits behind a mark, with an alpha channel or without. -/
  | hex
  | braced
  | decimal
  | tuple
  | gameText
  deriving DecidableEq, Repr

namespace Grammar

/-- The spelling and the color of a text that a grammar accepts. -/
def read? : Grammar → Text → Option (Spelling × Color)
  | .hex, t => Hex.read? t
  | .braced, t => (Braced.read? t).map (Spelling.braced, ·)
  | .decimal, t => (Decimal.read? t).map (Spelling.decimal, ·)
  | .tuple, t => (Tuple.read? t).map (Spelling.rgbTuple, ·)
  | .gameText, t => (GameText.read? t).map (Spelling.gameText, ·)

/-- The one grammar that may accept a text. -/
def ofText : Text → Grammar
  | '{' :: _ => .braced
  | '~' :: _ => .gameText
  | t => if ',' ∈ t then .tuple else if t.all Char.isDigit then .decimal else .hex

theorem ofText_of_isDigit {t : Text} (hdigits : ∀ c ∈ t, c.isDigit) : ofText t = .decimal := by
  have hcomma : ',' ∉ t := fun hmem => absurd (hdigits ',' hmem) (by decide)
  unfold ofText
  split
  · exact absurd (hdigits '{' List.mem_cons_self) (by decide)
  · exact absurd (hdigits '~' List.mem_cons_self) (by decide)
  · rw [if_neg hcomma, if_pos (List.all_eq_true.2 hdigits)]

/-- A text that a grammar accepts tells this grammar. -/
theorem ofText_of_isSome_read? {g : Grammar} {t : Text} (h : (g.read? t).isSome) : ofText t = g := by
  cases g with
  | hex =>
    obtain ⟨x, digits, rfl, rfl | rfl, hcomma⟩ := Hex.exists_mark_of_read? h
    · simp [ofText, hcomma]
    · simp [ofText, hcomma]
  | braced =>
    rw [read?, Option.isSome_map] at h
    obtain ⟨rest, rfl⟩ := Braced.exists_head_of_read? h
    rfl
  | decimal =>
    rw [read?, Option.isSome_map] at h
    exact ofText_of_isDigit (Decimal.isDigit_of_read? h)
  | tuple =>
    rw [read?, Option.isSome_map] at h
    obtain ⟨hcomma, hchars⟩ := Tuple.chars_of_read? h
    unfold ofText
    split
    · exact absurd (hchars '{' List.mem_cons_self (by decide)) (by decide)
    · exact absurd (hchars '~' List.mem_cons_self (by decide)) (by decide)
    · rw [if_pos hcomma]
  | gameText =>
    rw [read?, Option.isSome_map] at h
    obtain ⟨rest, rfl⟩ := GameText.exists_head_of_read? h
    rfl

theorem read?_eq_none {g : Grammar} {t : Text} (h : ofText t ≠ g) : g.read? t = none :=
  Option.not_isSome_iff_eq_none.1 fun hsome => h (ofText_of_isSome_read? hsome)

/-- Any search through all grammars comes to what the grammar of the text reads. -/
theorem findSome?_read? {order : List Grammar} (hall : ∀ g, g ∈ order) (t : Text) :
    order.findSome? (·.read? t) = (ofText t).read? t := by
  cases hfound : order.findSome? (·.read? t) with
  | none =>
    have hnone := List.findSome?_eq_none_iff.1 hfound (ofText t) (hall _)
    exact hnone.symm
  | some found =>
    obtain ⟨g, -, hread⟩ := List.exists_of_findSome?_eq_some hfound
    rw [ofText_of_isSome_read? (Option.isSome_of_eq_some hread), hread]

end Grammar

namespace Color

/-- Digits alone are neither a tuple nor a code, so nothing is lost by not trying these. -/
theorem read?_decimal_orElse (t : Text) :
    (if t.decimal?.isSome then Grammar.decimal.read? t
      else (Grammar.tuple.read? t <|> Grammar.gameText.read? t))
      = (Grammar.decimal.read? t <|> Grammar.tuple.read? t <|> Grammar.gameText.read? t) := by
  cases hdecimal : t.decimal? with
  | none =>
    have hnone : Grammar.decimal.read? t = none := by
      simp [Grammar.read?, Decimal.read?, Text.decimalBelow?, hdecimal]
    rw [hnone]
    rfl
  | some n =>
    have hgrammar := Grammar.ofText_of_isDigit (Text.isDigit_of_decimal? hdecimal).2
    have htuple : Grammar.tuple.read? t = none := Grammar.read?_eq_none (by simp [hgrammar])
    have hcode : Grammar.gameText.read? t = none := Grammar.read?_eq_none (by simp [hgrammar])
    rw [htuple, hcode]
    cases Grammar.decimal.read? t <;> rfl

/-- The grammars are tried one after the other. -/
theorem readExact?_eq_findSome? (t : Text) :
    readExact? t
      = [Grammar.hex, .braced, .decimal, .tuple, .gameText].findSome? (·.read? t) := by
  have hcons (g : Grammar) (grammars : List Grammar) :
      (g :: grammars).findSome? (·.read? t) = (g.read? t <|> grammars.findSome? (·.read? t)) := by
    rw [List.findSome?_cons]
    cases g.read? t <;> rfl
  have hlast (found : Option (Spelling × Color)) : (found <|> none) = found := by
    cases found <;> rfl
  rw [hcons, hcons, hcons, hcons, hcons, List.findSome?_nil, hlast, ← read?_decimal_orElse]
  rfl

theorem readExact?_eq (t : Text) : readExact? t = (Grammar.ofText t).read? t := by
  rw [readExact?_eq_findSome?]
  apply Grammar.findSome?_read?
  intro g
  cases g <;> decide

/-- What a grammar reads is read with blanks around it. -/
theorem read?_of_grammar {g : Grammar} {t : Text} {found : Spelling × Color}
    (hread : g.read? t = some found) (htrimmed : t.IsTrimmed) {lead trail : Text}
    (hlead : ∀ c ∈ lead, isBlank c) (htrail : ∀ c ∈ trail, isBlank c) :
    read? (lead ++ t ++ trail) = some found := by
  rw [read?, List.append_assoc, htrimmed.trim_append hlead htrail, readExact?_eq,
    Grammar.ofText_of_isSome_read? (Option.isSome_of_eq_some hread), hread]

/-! ## Spellings -/

section Spelled

variable (c : Color)

/-! ### Behind a mark and in braces -/

theorem isHexDigit_of_mem_rgbaDigits {d : Char} (hd : d ∈ c.rgbaDigits) : isHexDigit d :=
  (digits_of_ofDigits? c.ofDigits?_rgbaDigits).1 d hd

theorem isHexDigit_of_mem_rgbDigits {d : Char} (hd : d ∈ c.rgbDigits) : isHexDigit d :=
  (digits_of_ofDigits? c.ofDigits?_rgbDigits).1 d hd

/-- Digits between other characters that are no blanks. -/
theorem isTrimmed_hexDigits {front digits back : Text} (hne : front ≠ [])
    (hfront : ∀ d ∈ front, isBlank d = false) (hdigits : ∀ d ∈ digits, isHexDigit d)
    (hback : ∀ d ∈ back, isBlank d = false) : Text.IsTrimmed (front ++ digits ++ back) := by
  apply Text.IsTrimmed.of_forall
  · simp [hne]
  · intro d hd
    rcases List.mem_append.1 hd with hd | hd
    · rcases List.mem_append.1 hd with hd | hd
      · exact hfront d hd
      · exact isBlank_of_isAlphanum (isAlphanum_of_isHexDigit (hdigits d hd))
    · exact hback d hd

theorem isTrimmed_marked {digits : Text} (hdigits : ∀ d ∈ digits, isHexDigit d) :
    Text.IsTrimmed ('0' :: 'x' :: digits) := by
  have hmark : ∀ d ∈ ['0', 'x'], isBlank d = false := by simp [isBlank]
  have htrimmed : Text.IsTrimmed (['0', 'x'] ++ digits ++ []) :=
    isTrimmed_hexDigits (List.cons_ne_nil _ _) hmark hdigits (by simp)
  rwa [List.append_nil] at htrimmed

theorem isTrimmed_toBraced : c.toBraced.IsTrimmed := by
  have hopen : ∀ d ∈ ['{'], isBlank d = false := by simp [isBlank]
  have hclose : ∀ d ∈ ['}'], isBlank d = false := by simp [isBlank]
  have htrimmed : Text.IsTrimmed (['{'] ++ c.rgbDigits ++ ['}']) :=
    isTrimmed_hexDigits (List.cons_ne_nil _ _) hopen
      (fun _ => c.isHexDigit_of_mem_rgbDigits) hclose
  exact htrimmed

theorem hex_toHexAlpha : Hex.read? c.toHexAlpha = some (.hexAlpha, c) := by
  have hdigits := fun d (hd : d ∈ c.rgbaDigits) => c.isHexDigit_of_mem_rgbaDigits hd
  refine Hex.read?_eq_some_iff.2
    ⟨'x', c.rgbaDigits, .inl rfl, rfl, .inl ⟨size_of_isHexDigit hdigits, rfl⟩, ?_⟩
  rw [stripMark_of_isHexDigit hdigits, ofDigits?_rgbaDigits]

theorem hex_toHex : Hex.read? c.toHex = some (.hexNoAlpha, c.solidify) := by
  have hdigits := fun d (hd : d ∈ c.rgbDigits) => c.isHexDigit_of_mem_rgbDigits hd
  refine Hex.read?_eq_some_iff.2
    ⟨'x', c.rgbDigits, .inl rfl, rfl, .inr ⟨size_of_isHexDigit hdigits, rfl⟩, ?_⟩
  rw [stripMark_of_isHexDigit hdigits, ofDigits?_rgbDigits]

theorem braced_toBraced : Braced.read? c.toBraced = some c.solidify := by
  have hdigits := fun d (hd : d ∈ c.rgbDigits) => c.isHexDigit_of_mem_rgbDigits hd
  have hsize : Text.size c.rgbDigits = 6 := size_of_isHexDigit hdigits
  simp [Braced.read?, Braced.digits?, toBraced, hsize, ofHex?, stripMark_of_isHexDigit hdigits,
    ofDigits?_rgbDigits]

/-! ### In decimal -/

theorem decimal_toDecimal : Decimal.read? c.toDecimal = some c := by
  rw [Decimal.read?, toDecimal, Text.decimalBelow?_ofNat c.toArgb.toNat_lt_size, Option.map_some,
    UInt32.ofNat_toNat, ofArgb_toArgb]

theorem channel?_ofNat (b : UInt8) {lead : Text} (hlead : ∀ d ∈ lead, isBlank d) :
    Tuple.channel? (lead ++ Text.ofNat b.toNat) = some b := by
  have htrim : Text.trim (lead ++ (Text.ofNat b.toNat ++ [])) = Text.ofNat b.toNat :=
    (Text.isTrimmed_ofNat b.toNat).trim_append hlead (by simp)
  rw [List.append_nil] at htrim
  rw [Tuple.channel?, htrim, Text.decimalBelow?_ofNat b.toNat_lt_size, Option.map_some,
    UInt8.ofNat_toNat]

theorem parts_toTuple : Tuple.parts c.toTuple
    = [[] ++ Text.ofNat c.red.toNat, [' '] ++ Text.ofNat c.green.toNat,
      [' '] ++ Text.ofNat c.blue.toNat] := by
  have hcomma (b : UInt8) (lead : Text) (hlead : ',' ∉ lead) : ',' ∉ lead ++ Text.ofNat b.toNat := by
    rw [List.mem_append]
    rintro (hmem | hmem)
    · exact hlead hmem
    · exact absurd (Text.isDigit_of_mem_ofNat hmem) (by decide)
  have htext : c.toTuple = ([] ++ Text.ofNat c.red.toNat) ++ ',' ::
      (([' '] ++ Text.ofNat c.green.toNat) ++ ',' :: ([' '] ++ Text.ofNat c.blue.toNat)) := by
    simp [toTuple]
  rw [htext, Tuple.parts_append_comma (hcomma _ _ (by simp)),
    Tuple.parts_append_comma (hcomma _ _ (by simp)), Tuple.parts_of_notMem (hcomma _ _ (by simp))]

theorem tuple_toTuple : Tuple.read? c.toTuple = some c.solidify := by
  have hspace : ∀ d ∈ [' '], isBlank d := List.forall_mem_singleton.2 (by decide)
  rw [Tuple.read?, parts_toTuple, List.mapM_cons, List.mapM_cons, List.mapM_cons, List.mapM_nil,
    channel?_ofNat c.red (by simp), channel?_ofNat c.green hspace, channel?_ofNat c.blue hspace]
  rfl

theorem isTrimmed_toTuple : c.toTuple.IsTrimmed := by
  have happend := (Text.isTrimmed_ofNat c.red.toNat).append
    ([',', ' '] ++ Text.ofNat c.green.toNat ++ [',', ' ']) (Text.isTrimmed_ofNat c.blue.toNat)
  simpa [toTuple] using happend

end Spelled

/-- Every spelling of a color, with blanks around it, is read as what it is and gives the color
back; a spelling without an alpha channel gives the solid color. No text is accepted by two
grammars, so it does not matter in which order they are tried. -/
theorem spelled_reads_back (c : Color) {lead trail : Text} (hlead : ∀ d ∈ lead, isBlank d)
    (htrail : ∀ d ∈ trail, isBlank d) :
    (read? (lead ++ c.toHexAlpha ++ trail) = some (.hexAlpha, c) ∧
      read? (lead ++ c.toHex ++ trail) = some (.hexNoAlpha, c.solidify) ∧
      read? (lead ++ c.toBraced ++ trail) = some (.braced, c.solidify) ∧
      read? (lead ++ c.toDecimal ++ trail) = some (.decimal, c) ∧
      read? (lead ++ c.toTuple ++ trail) = some (.rgbTuple, c.solidify) ∧
      ofHex? c.display = some c) ∧
    ∀ t : Text,
      (∀ g g' : Grammar, (g.read? t.trim).isSome → (g'.read? t.trim).isSome → g = g') ∧
      ∀ order : List Grammar, (∀ g, g ∈ order) → order.findSome? (·.read? t.trim) = read? t := by
  have hpadded {g : Grammar} {t : Text} {found : Spelling × Color} (hread : g.read? t = some found)
      (htrimmed : t.IsTrimmed) : read? (lead ++ t ++ trail) = some found :=
    read?_of_grammar hread htrimmed hlead htrail
  refine ⟨⟨?_, ?_, ?_, ?_, ?_, ?_⟩, fun t => ⟨?_, ?_⟩⟩
  · have htrimmed := isTrimmed_marked fun _ => c.isHexDigit_of_mem_rgbaDigits
    exact hpadded (g := .hex) c.hex_toHexAlpha htrimmed
  · have htrimmed := isTrimmed_marked fun _ => c.isHexDigit_of_mem_rgbDigits
    exact hpadded (g := .hex) c.hex_toHex htrimmed
  · have hread : Grammar.braced.read? c.toBraced = some (.braced, c.solidify) := by
      rw [Grammar.read?, braced_toBraced, Option.map_some]
    exact hpadded hread c.isTrimmed_toBraced
  · have hread : Grammar.decimal.read? c.toDecimal = some (.decimal, c) := by
      rw [Grammar.read?, decimal_toDecimal, Option.map_some]
    exact hpadded hread (Text.isTrimmed_ofNat _)
  · have hread : Grammar.tuple.read? c.toTuple = some (.rgbTuple, c.solidify) := by
      rw [Grammar.read?, tuple_toTuple, Option.map_some]
    exact hpadded hread c.isTrimmed_toTuple
  · exact c.ofDigits?_rgbaDigits
  · intro g g' hg hg'
    rw [← Grammar.ofText_of_isSome_read? hg, Grammar.ofText_of_isSome_read? hg']
  · intro order hall
    rw [Grammar.findSome?_read? hall, read?, readExact?_eq]

/-- A color that is not solid, with a tab in front and a line end behind: the hexadecimal spelling
has its alpha channel and the tuple has not, even if the grammars are tried backwards. -/
theorem spelled_reads_back_translucent :
    let c : Color := ⟨0x12, 0xAB, 0, 0x7F⟩
    let lead : Text := ['\t']
    let trail : Text := ['\r', '\n']
    let backwards : List Grammar := [.gameText, .tuple, .decimal, .braced, .hex]
    (∀ d ∈ lead, isBlank d) ∧ (∀ d ∈ trail, isBlank d) ∧ (∀ g, g ∈ backwards) ∧
      read? "\t0x12AB007F\r\n".toList = some (.hexAlpha, c) ∧
      read? "\t18, 171, 0\r\n".toList = some (.rgbTuple, c.solidify) ∧
      backwards.findSome? (·.read? "18, 171, 0".toList) = some (.rgbTuple, c.solidify) := by
  intro c lead trail backwards
  have hlead : ∀ d ∈ lead, isBlank d := List.all_eq_true.1 (by decide +kernel)
  have htrail : ∀ d ∈ trail, isBlank d := List.all_eq_true.1 (by decide +kernel)
  have hall : ∀ g, g ∈ backwards := by
    intro g
    cases g <;> decide
  obtain ⟨⟨hhex, -, -, -, htuple, -⟩, horder⟩ := spelled_reads_back c hlead htrail
  have hwritten : lead ++ c.toHexAlpha ++ trail = "\t0x12AB007F\r\n".toList := by decide +kernel
  have hwritten' : lead ++ c.toTuple ++ trail = "\t18, 171, 0\r\n".toList := by decide +kernel
  have htrimmed : "18, 171, 0".toList = Text.trim (lead ++ c.toTuple ++ trail) := by decide +kernel
  refine ⟨hlead, htrail, hall, ?_, ?_, ?_⟩
  · rw [← hwritten]
    exact hhex
  · rw [← hwritten']
    exact htuple
  · rw [htrimmed, (horder _).2 backwards hall]
    exact htuple

end Color

end Swatch

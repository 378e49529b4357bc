-- SUMMARY: A lexer that goes over the bytes of a line finds the strings and the remark of the line.
import Swatch.Proofs.Offsets.Reading
import Swatch.Proofs.Source.Quotes

/-!
# Lexing a line by bytes

The lexer keeps an offset into the bytes of a line and goes on by fixed steps: two bytes
behind a backslash inside a string, three or four at a character literal, one elsewhere.
A step may end inside a wide character. The bytes of such a character are passed one by
one until the next character starts, so the lexer is back at a character before it finds
anything, and it finds the strings and the remark of the pieces of the line.
-/

namespace Swatch

namespace Offsets

/-! ## The lexer -/

/-- What the lexer finds on a line, in offsets from the start of the line. -/
structure Lexed where
  /-- Where strings open, and where they are closed. -/
  strings : List (Nat × Option Nat) := []
  /-- Where the remark opens. -/
  remark? : Option Nat := none

/-- The closing quote of a string whose content goes on at the offset `j`. -/
def closingQuote? (bytes : List UInt8) (j : Nat) : Option Nat :=
  if h : j < bytes.length then
    if bytes[j] = ascii '\\' then closingQuote? bytes (j + 2)
    else if bytes[j] = ascii '"' then some j
    else closingQuote? bytes (j + 1)
  else none
  termination_by bytes.length - j

theorem le_of_closingQuote? {bytes : List UInt8} {j c : Nat}
    (h : closingQuote? bytes j = some c) : j ≤ c := by
  fun_induction closingQuote? bytes j with
  | case1 j _ _ ih => exact Nat.le_trans (Nat.le_add_right j 2) (ih h)
  | case2 j => exact Nat.le_of_eq (Option.some.inj h)
  | case3 j _ _ _ ih => exact Nat.le_trans (Nat.le_add_right j 1) (ih h)
  | case4 => cases h

/-- How far the lexer goes on at the apostrophe at `i`: past a character literal if one starts. -/
def apostropheWidth (bytes : List UInt8) (i : Nat) : Nat :=
  if bytes[i + 1]? = some (ascii '\\') ∧ bytes[i + 3]? = some (ascii '\'') then 4
  else if bytes[i + 2]? = some (ascii '\'') then 3
  else 1

theorem apostropheWidth_pos (bytes : List UInt8) (i : Nat) : 0 < apostropheWidth bytes i := by
  unfold apostropheWidth
  split
  · exact Nat.succ_pos 3
  · split <;> exact Nat.succ_pos _

/-- The strings and the remark from the offset `i` on. -/
def lexFrom (bytes : List UInt8) (i : Nat) : Lexed :=
  if h : i < bytes.length then
    if bytes[i] = ascii '"' then
      let close := closingQuote? bytes (i + 1)
      let rest := lexFrom bytes ((close.map (· + 1)).getD bytes.length)
      { rest with strings := (i, close) :: rest.strings }
    else if bytes[i] = ascii '\'' then lexFrom bytes (i + apostropheWidth bytes i)
    else if bytes[i] = ascii '/' ∧ bytes[i + 1]? = some (ascii '/') then { remark? := some i }
    else lexFrom bytes (i + 1)
  else {}
  termination_by bytes.length - i
  decreasing_by
    · cases hclose : closingQuote? bytes (i + 1) with
      | none => simp only [Option.map_none, Option.getD_none]; omega
      | some c =>
        have hle := le_of_closingQuote? hclose
        simp only [Option.map_some, Option.getD_some]
        omega
    · have hpos := apostropheWidth_pos bytes i
      omega
    · omega

/-- The strings and the remark of a line. -/
def lex (line : Text) : Lexed :=
  lexFrom line.bytes 0

/-- The strings that are found on a line of `width` bytes that starts at an offset. A string that
is not closed takes the rest of the line. -/
def Lexed.quotes (lexed : Lexed) (start width : Nat) : List Quoted :=
  lexed.strings.map fun s => ⟨⟨start + s.1 + 1, start + s.2.getD width⟩, s.2.isSome⟩

/-! ## Single steps -/

section Steps

variable {bytes : List UInt8} {i : Nat} {b : UInt8}

theorem closingQuote?_of_getElem? (h : bytes[i]? = some b) :
    closingQuote? bytes i =
      if b = ascii '\\' then closingQuote? bytes (i + 2)
      else if b = ascii '"' then some i
      else closingQuote? bytes (i + 1) := by
  obtain ⟨hi, rfl⟩ := List.getElem?_eq_some_iff.1 h
  rw [closingQuote?, dif_pos hi]

theorem closingQuote?_of_le (h : bytes.length ≤ i) : closingQuote? bytes i = none := by
  rw [closingQuote?, dif_neg (Nat.not_lt_of_le h)]

theorem lexFrom_of_getElem? (h : bytes[i]? = some b) :
    lexFrom bytes i =
      if b = ascii '"' then
        let close := closingQuote? bytes (i + 1)
        let rest := lexFrom bytes ((close.map (· + 1)).getD bytes.length)
        { rest with strings := (i, close) :: rest.strings }
      else if b = ascii '\'' then lexFrom bytes (i + apostropheWidth bytes i)
      else if b = ascii '/' ∧ bytes[i + 1]? = some (ascii '/') then { remark? := some i }
      else lexFrom bytes (i + 1) := by
  obtain ⟨hi, rfl⟩ := List.getElem?_eq_some_iff.1 h
  rw [lexFrom, dif_pos hi]

theorem lexFrom_of_le (h : bytes.length ≤ i) : lexFrom bytes i = {} := by
  rw [lexFrom, dif_neg (Nat.not_lt_of_le h)]

/-- What goes on over bytes beyond ASCII one by one goes on to the end of their character. -/
theorem pass_wide {α : Type} {f : Nat → α} {c : Char} (hc : 128 ≤ c.toNat) (left right : Text)
    (hf : ∀ j b, (Text.bytes (left ++ c :: right))[j]? = some b → 128 ≤ b.toNat → f j = f (j + 1))
    {k : Nat} (hk : k ≤ c.utf8Size) : f (left.size + k) = f (Text.size (left ++ [c])) := by
  obtain ⟨n, hn⟩ := Nat.exists_eq_add_of_le hk
  have hsize : Text.size (left ++ [c]) = left.size + c.utf8Size := by simp
  rw [hsize]
  induction n generalizing k with
  | zero => rw [hn, Nat.add_zero]
  | succ n ih =>
    obtain ⟨b, hb, hle⟩ := Text.exists_getElem?_bytes_wide hc left right (k := k) (by omega)
    rw [hf _ b hb hle, Nat.add_assoc]
    exact ih (by omega) (by omega)

end Steps

/-! ## Strings -/

/-- Any character but a backslash and a quote is passed. -/
theorem closingQuote?_pass {c : Char} (hguard : c ≠ '\\') (hquote : c ≠ '"') (left right : Text) :
    closingQuote? (Text.bytes (left ++ c :: right)) left.size
      = closingQuote? (Text.bytes (left ++ c :: right)) (Text.size (left ++ [c])) := by
  rcases Nat.lt_or_ge c.toNat 128 with hc | hc
  · rw [closingQuote?_of_getElem? (Text.getElem?_bytes_ascii hc left right),
      if_neg (mt (Text.ascii_inj hc (by decide)).1 hguard),
      if_neg (mt (Text.ascii_inj hc (by decide)).1 hquote)]
    simp [Text.utf8Size_eq_one_iff.2 hc]
  · refine pass_wide hc left right (fun j b hb hle => ?_) (Nat.zero_le _)
    rw [closingQuote?_of_getElem? hb, if_neg (Text.ne_ascii_of_le hle (by decide)),
      if_neg (Text.ne_ascii_of_le hle (by decide))]

/-- A backslash takes the character behind it along. -/
theorem closingQuote?_guarded (c : Char) (left right : Text) :
    closingQuote? (Text.bytes (left ++ '\\' :: c :: right)) left.size
      = closingQuote? (Text.bytes (left ++ '\\' :: c :: right))
        (Text.size (left ++ ['\\', c])) := by
  have hwidth : '\\'.utf8Size = 1 := rfl
  rw [closingQuote?_of_getElem? (Text.getElem?_bytes_ascii (by decide) left (c :: right)),
    if_pos rfl]
  rcases Nat.lt_or_ge c.toNat 128 with hc | hc
  · simp [Text.utf8Size_eq_one_iff.2 hc, hwidth]
  · have htext : left ++ '\\' :: c :: right = (left ++ ['\\']) ++ c :: right := by simp
    have hpass := pass_wide (f := closingQuote? (Text.bytes (left ++ '\\' :: c :: right))) hc
      (left ++ ['\\']) right (k := 1) ?_ (Char.utf8Size_pos c)
    · simpa [hwidth, Nat.add_assoc] using hpass
    · intro j b hb hle
      rw [← htext] at hb
      rw [closingQuote?_of_getElem? hb, if_neg (Text.ne_ascii_of_le hle (by decide)),
        if_neg (Text.ne_ascii_of_le hle (by decide))]

/-- The closing quote is found right behind the content of the string. -/
theorem closingQuote?_eq (left right : Text) :
    closingQuote? (Text.bytes (left ++ right)) left.size
      = (quotedContent right).2.map fun _ => left.size + (quotedContent right).1.size := by
  fun_induction quotedContent right generalizing left with
  | case1 =>
    rw [closingQuote?_of_le (by simp)]
    rfl
  | case2 rest =>
    rw [closingQuote?_of_getElem? (Text.getElem?_bytes_ascii (by decide) left rest),
      if_neg (by decide), if_pos rfl]
    rfl
  | case3 c rest content after heq ih =>
    have htext : left ++ '\\' :: c :: rest = (left ++ ['\\', c]) ++ rest := by simp
    rw [closingQuote?_guarded, htext, ih, heq]
    simp [Nat.add_assoc]
  | case4 c rest hquote hguard content after heq ih =>
    have htext : left ++ c :: rest = (left ++ [c]) ++ rest := by simp
    by_cases hc : c = '\\'
    · -- A backslash at the end of the line guards nothing.
      subst hc
      cases rest with
      | nil =>
        obtain ⟨rfl, rfl⟩ : content = [] ∧ after = none := by
          simpa [quotedContent, eq_comm] using heq
        have hwidth : '\\'.utf8Size = 1 := rfl
        rw [closingQuote?_of_getElem? (Text.getElem?_bytes_ascii (by decide) left []), if_pos rfl,
          closingQuote?_of_le (by simp [hwidth])]
        rfl
      | cons d rest => exact absurd rfl (hguard d rest rfl)
    · rw [closingQuote?_pass hc hquote, htext, ih, heq]
      simp [Nat.add_assoc]

/-! ## Character literals -/

/-- A guarded character literal, told by the bytes behind its apostrophe. -/
theorem guardedLiteral_iff {t : Text} :
    t.bytes[0]? = some (ascii '\\') ∧ t.bytes[2]? = some (ascii '\'') ↔
      ∃ c rest, t = '\\' :: c :: '\'' :: rest ∧ c.utf8Size = 1 := by
  rw [Text.getElem?_bytes_zero_iff (by decide), List.head?_eq_some_iff]
  constructor
  · rintro ⟨⟨t, rfl⟩, hclose⟩
    rw [Text.getElem?_bytes_cons_ascii (by decide) t 1, Text.getElem?_bytes_one_iff (by decide)]
      at hclose
    obtain ⟨c, rest, rfl, hc⟩ := hclose
    exact ⟨c, rest, rfl, hc⟩
  · rintro ⟨c, rest, rfl, hc⟩
    refine ⟨⟨_, rfl⟩, ?_⟩
    rw [Text.getElem?_bytes_cons_ascii (by decide) _ 1, Text.getElem?_bytes_one_iff (by decide)]
    exact ⟨c, rest, rfl, hc⟩

/-- The step of the lexer at an apostrophe is as wide as the character literal there. -/
theorem apostropheWidth_eq (left right : Text) :
    apostropheWidth (Text.bytes (left ++ '\'' :: right)) left.size
      = ((characterLiteral? ('\'' :: right)).map (·.1.size)).getD 1 := by
  have hbyte (k : Nat) : (Text.bytes (left ++ '\'' :: right))[left.size + (k + 1)]?
      = right.bytes[k]? := by
    rw [Text.getElem?_bytes_append, Text.getElem?_bytes_cons_ascii (by decide)]
  have hquote : '\''.utf8Size = 1 := rfl
  have hguard : '\\'.utf8Size = 1 := rfl
  rw [apostropheWidth, hbyte 0, hbyte 1, hbyte 2]
  by_cases hfour : right.bytes[0]? = some (ascii '\\') ∧ right.bytes[2]? = some (ascii '\'')
  · obtain ⟨c, rest, rfl, hc⟩ := guardedLiteral_iff.1 hfour
    rw [if_pos hfour]
    simp [characterLiteral?, hc, hquote, hguard]
  · rw [if_neg hfour]
    rw [guardedLiteral_iff] at hfour
    by_cases hthree : right.bytes[1]? = some (ascii '\'')
    · rw [if_pos hthree]
      obtain ⟨c, rest, rfl, hc⟩ := (Text.getElem?_bytes_one_iff (by decide)).1 hthree
      clear hbyte
      unfold characterLiteral?
      split <;> grind [Text.size_cons, Text.size_nil]
    · rw [if_neg hthree]
      rw [Text.getElem?_bytes_one_iff (by decide)] at hthree
      unfold characterLiteral?
      split <;> grind

theorem characterLiteral?_of_ne {c : Char} (hc : c ≠ '\'') (rest : Text) :
    characterLiteral? (c :: rest) = none := by
  unfold characterLiteral?
  split <;> grind

/-! ## Lines -/

/-- Any character that opens neither a string nor a literal nor a remark is passed. -/
theorem lexFrom_pass {c : Char} {rest : Text} (hquote : c ≠ '"')
    (hremark : ∀ more, c = '/' → rest ≠ '/' :: more)
    (hliteral : characterLiteral? (c :: rest) = none) (left : Text) :
    lexFrom (Text.bytes (left ++ c :: rest)) left.size
      = lexFrom (Text.bytes (left ++ c :: rest)) (Text.size (left ++ [c])) := by
  rcases Nat.lt_or_ge c.toNat 128 with hc | hc
  · have hsize := Text.utf8Size_eq_one_iff.2 hc
    have hbehind : (Text.bytes (left ++ c :: rest))[left.size + 1]? = rest.bytes[0]? := by
      rw [Text.getElem?_bytes_append, Text.getElem?_bytes_cons_ascii hc rest 0]
    rw [lexFrom_of_getElem? (Text.getElem?_bytes_ascii hc left rest), hbehind,
      if_neg (mt (Text.ascii_inj hc (by decide)).1 hquote)]
    split
    · next happ =>
      obtain rfl := (Text.ascii_inj hc (by decide)).1 happ
      rw [apostropheWidth_eq, hliteral]
      simp [hsize]
    · rw [if_neg]
      · simp [hsize]
      · rintro ⟨hslash, hslash'⟩
        obtain rfl := (Text.ascii_inj hc (by decide)).1 hslash
        obtain ⟨more, rfl⟩ := List.head?_eq_some_iff.1
          ((Text.getElem?_bytes_zero_iff (by decide)).1 hslash')
        exact hremark more rfl rfl
  · refine pass_wide hc left rest (fun j b hb hle => ?_) (Nat.zero_le _)
    rw [lexFrom_of_getElem? hb, if_neg (Text.ne_ascii_of_le hle (by decide)),
      if_neg (Text.ne_ascii_of_le hle (by decide)),
      if_neg fun h => Text.ne_ascii_of_le hle (by decide) h.1]

/-- A closed string is passed up to its closing quote. -/
theorem lexFrom_closed {rest content after : Text}
    (hcontent : quotedContent rest = (content, some after)) (left : Text) :
    lexFrom (Text.bytes (left ++ '"' :: rest)) left.size =
      let rest := lexFrom (Text.bytes (left ++ '"' :: rest))
        (left.size + (Piece.quoted content true).text.size)
      { rest with strings := (left.size, some (left.size + 1 + content.size)) :: rest.strings } := by
  have hquote : '"'.utf8Size = 1 := rfl
  have hclose : closingQuote? (Text.bytes (left ++ '"' :: rest)) (left.size + 1)
      = some (left.size + 1 + content.size) := by
    have hclose := closingQuote?_eq (left ++ ['"']) rest
    rw [hcontent] at hclose
    simpa [hquote] using hclose
  have hnext : left.size + 1 + content.size + 1
      = left.size + (Piece.quoted content true).text.size := by
    simp [Piece.text, hquote]
    omega
  rw [lexFrom_of_getElem? (Text.getElem?_bytes_ascii (by decide) left rest), if_pos rfl, hclose]
  simp only [Option.map_some, Option.getD_some, hnext]

/-- A string that is not closed takes the rest of the line. -/
theorem lexFrom_unclosed {rest content : Text} (hcontent : quotedContent rest = (content, none))
    (left : Text) :
    lexFrom (Text.bytes (left ++ '"' :: rest)) left.size = { strings := [(left.size, none)] } := by
  have hclose : closingQuote? (Text.bytes (left ++ '"' :: rest)) (left.size + 1) = none := by
    have hclose := closingQuote?_eq (left ++ ['"']) rest
    have hquote : '"'.utf8Size = 1 := rfl
    rw [hcontent] at hclose
    simpa [hquote] using hclose
  rw [lexFrom_of_getElem? (Text.getElem?_bytes_ascii (by decide) left rest), if_pos rfl, hclose]
  simp only [Option.map_none, Option.getD_none, lexFrom_of_le (Nat.le_refl _)]

theorem lexFrom_remark (left rest : Text) :
    lexFrom (Text.bytes (left ++ '/' :: '/' :: rest)) left.size = { remark? := some left.size } := by
  have hslash : (Text.bytes (left ++ '/' :: '/' :: rest))[left.size + 1]? = some (ascii '/') := by
    rw [Text.getElem?_bytes_append, Text.getElem?_bytes_cons_ascii (by decide) _ 0]
    exact (Text.getElem?_bytes_zero_iff (by decide)).2 rfl
  rw [lexFrom_of_getElem? (Text.getElem?_bytes_ascii (by decide) left _), if_neg (by decide),
    if_neg (by decide), if_pos ⟨rfl, hslash⟩]

/-- A character literal is passed. -/
theorem lexFrom_character {c : Char} {rest literal after : Text}
    (hliteral : characterLiteral? (c :: rest) = some (literal, after)) (left : Text) :
    lexFrom (Text.bytes (left ++ c :: rest)) left.size
      = lexFrom (Text.bytes (left ++ c :: rest)) (left.size + literal.size) := by
  obtain rfl : c = '\'' := Decidable.byContradiction fun hc => by
    rw [characterLiteral?_of_ne hc] at hliteral
    cases hliteral
  rw [lexFrom_of_getElem? (Text.getElem?_bytes_ascii (by decide) left rest), if_neg (by decide),
    if_pos rfl, apostropheWidth_eq, hliteral, Option.map_some, Option.getD_some]

/-- What the lexer finds from an offset on, on a line of `width` bytes that starts at `start`, are
the strings and the remark of some pieces. -/
structure Lexed.Agrees (lexed : Lexed) (start width offset : Nat) (ps : List Piece) : Prop where
  quotes_eq : lexed.quotes start width = Line.quotedFrom (start + offset) ps
  remark_eq : lexed.remark?.map (start + ·) = Line.remarkFrom (start + offset) ps

namespace Lexed.Agrees

variable {rest : Lexed} {start width offset : Nat} {ps : List Piece}

theorem quoted {content : Text}
    (h : rest.Agrees start width (offset + (Piece.quoted content true).text.size) ps) :
    Lexed.Agrees { rest with strings := (offset, some (offset + 1 + content.size)) :: rest.strings }
      start width offset (.quoted content true :: ps) where
  quotes_eq := by
    have hstop : start + (offset + 1 + content.size) = start + offset + 1 + content.size := by
      omega
    have hrest := h.quotes_eq
    rw [← Nat.add_assoc] at hrest
    simp only [Line.quotedFrom, ← hrest, Lexed.quotes, List.map_cons, Option.getD_some,
      Option.isSome_some, hstop, Interval.ofSize]
  remark_eq := by
    have hrest := h.remark_eq
    rw [← Nat.add_assoc] at hrest
    exact hrest

/-- A piece that is neither a string nor a remark is passed. -/
theorem plain {p : Piece} (hcode : p.isCode)
    (h : rest.Agrees start width (offset + p.text.size) ps) :
    rest.Agrees start width offset (p :: ps) := by
  obtain ⟨hquotes, hremark⟩ := h
  rw [← Nat.add_assoc] at hquotes hremark
  cases p with
  | quoted content closed => cases hcode
  | remark text => cases hcode
  | character literal => exact ⟨hquotes, hremark⟩
  | code c => exact ⟨hquotes, hremark⟩

end Lexed.Agrees

/-- The lexer finds the strings and the remark of the pieces that are left of a line. -/
theorem lexFrom_agrees (start : Nat) (left right : Text) :
    (lexFrom (Text.bytes (left ++ right)) left.size).Agrees start (Text.size (left ++ right))
      left.size (pieces right) := by
  fun_induction pieces right generalizing left with
  | case1 =>
    rw [lexFrom_of_le (by simp)]
    exact ⟨rfl, rfl⟩
  | case2 rest content after heq ih =>
    have htext : left ++ '"' :: rest = left ++ (Piece.quoted content true).text ++ after := by
      have happend := quotedContent_append rest
      rw [heq] at happend
      simp [Piece.text, happend]
    rw [lexFrom_closed heq, htext]
    have hrest := ih (left ++ (Piece.quoted content true).text)
    rw [Text.size_append left] at hrest
    exact hrest.quoted
  | case3 rest content heq =>
    have hrest : rest = content := by
      have happend := quotedContent_append rest
      rwa [heq, List.append_nil] at happend
    have hstop : start + Text.size (left ++ '"' :: rest) = start + left.size + 1 + content.size := by
      have hquote : '"'.utf8Size = 1 := rfl
      simp only [Text.size_append, Text.size_cons, hquote, hrest]
      omega
    rw [lexFrom_unclosed heq]
    refine ⟨?_, rfl⟩
    simp only [Lexed.quotes, Line.quotedFrom, List.map_cons, List.map_nil, Option.getD_none,
      Option.isSome_none, hstop, Interval.ofSize]
  | case4 rest =>
    rw [lexFrom_remark]
    exact ⟨rfl, rfl⟩
  | case5 c rest _ _ literal after heq ih =>
    have htext : left ++ c :: rest = (left ++ literal) ++ after := by
      rw [characterLiteral?_append heq, List.append_assoc]
    rw [lexFrom_character heq, htext]
    have hrest := ih (left ++ literal)
    rw [Text.size_append left] at hrest
    exact Lexed.Agrees.plain rfl hrest
  | case6 c rest hquote hremark heq ih =>
    have htext : left ++ c :: rest = (left ++ [c]) ++ rest := by simp
    rw [lexFrom_pass hquote hremark heq, htext]
    have hrest := ih (left ++ [c])
    rw [Text.size_append left] at hrest ⊢
    exact Lexed.Agrees.plain rfl hrest

/-- The strings of a line. -/
theorem lex_quotes (l : Line) : (lex l.text).quotes l.start l.text.size = l.quotes :=
  (lexFrom_agrees l.start [] l.text).quotes_eq

/-- The remark of a line. -/
theorem lex_remark? (l : Line) : (lex l.text).remark?.map (l.start + ·) = l.remark? :=
  (lexFrom_agrees l.start [] l.text).remark_eq

end Offsets

end Swatch

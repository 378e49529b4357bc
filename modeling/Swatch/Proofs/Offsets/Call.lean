-- SUMMARY: A backward scan over the bytes of a line finds the call that encloses a place.
import Swatch.Proofs.Offsets.Lexer
import Swatch.Proofs.Literal.Token

/-!
# The enclosing call by bytes

The scan marks the bytes of a line that belong to strings and to the remark and passes
them over. It goes backwards byte by byte and looks for parentheses, so it passes the
bytes of wide characters one by one as well. The name in front of an opening parenthesis
is made of ASCII characters, so it starts between characters wherever the bytes of names
stop.
-/

namespace Swatch

namespace Offsets

/-! ## Hidden bytes -/

/-- Set the flags over an interval. -/
def fill (flags : List Bool) (i : Interval) : Reading (List Bool) :=
  if i.start ≤ i.stop ∧ i.stop ≤ flags.length then
    .ok (flags.take i.start ++ List.replicate (i.stop - i.start) true ++ flags.drop i.stop)
  else .error i

/-- For each byte of a line, whether it belongs to a string or to the remark. -/
def hiddenBytes (line : Text) : Reading (List Bool) := do
  let lexed := lex line
  let flags ← lexed.strings.foldlM
    (fun flags s => fill flags ⟨s.1, (s.2.map (· + 1)).getD line.size⟩)
    (List.replicate line.size false)
  lexed.remark?.elim (.ok flags) fun c => fill flags ⟨c, flags.length⟩

/-- For each byte of a line's pieces, whether it is none of the code. -/
def hiddenIn (ps : List Piece) : List Bool :=
  ps.flatMap fun p => List.replicate p.text.size (!p.isCode)

/-- The bytes of a string with its quotes. -/
def withQuotes (q : Quoted) : Interval :=
  ⟨q.content.start - 1, q.content.stop + (if q.closed then 1 else 0)⟩

theorem fill_append (flags : List Bool) (m n : Nat) :
    fill (flags ++ List.replicate (m + n) false) ⟨flags.length, flags.length + m⟩
      = .ok ((flags ++ List.replicate m true) ++ List.replicate n false) := by
  rw [fill, if_pos (by simp), List.take_left, List.drop_append]
  simp

/-- Hiding the bytes of the pieces that are left of a line, behind flags that are set already. -/
def HidesRest (flags : List Bool) (ps : List Piece) : Prop :=
  (((Line.quotedFrom flags.length ps).map withQuotes).foldlM fill
      (flags ++ List.replicate (Text.size (ps.flatMap Piece.text)) false) >>= fun hidden =>
    (Line.remarkFrom flags.length ps).elim (.ok hidden) fun c => fill hidden ⟨c, hidden.length⟩)
    = .ok (flags ++ hiddenIn ps)

theorem HidesRest.cons {flags : List Bool} {p : Piece} {ps : List Piece}
    (hp : ∀ text, p ≠ .remark text)
    (h : HidesRest (flags ++ List.replicate p.text.size (!p.isCode)) ps) :
    HidesRest flags (p :: ps) := by
  have hsize : Text.size ((p :: ps).flatMap Piece.text)
      = p.text.size + Text.size (ps.flatMap Piece.text) := by simp
  have hhidden : flags ++ hiddenIn (p :: ps)
      = (flags ++ List.replicate p.text.size (!p.isCode)) ++ hiddenIn ps := by simp [hiddenIn]
  rw [HidesRest, List.length_append, List.length_replicate] at h
  rw [HidesRest, hsize, hhidden, ← h]
  cases p with
  | quoted content closed =>
    have houter : withQuotes ⟨.ofSize (flags.length + 1) content.size, closed⟩
        = ⟨flags.length, flags.length + (Piece.quoted content closed).text.size⟩ := by
      have hquote : '"'.utf8Size = 1 := rfl
      cases closed <;> simp [withQuotes, Interval.ofSize, Piece.text, hquote, Nat.add_assoc]
    simp only [Line.quotedFrom, Line.remarkFrom, List.map_cons, List.foldlM_cons, houter,
      fill_append, Reading.ok_bind, Piece.isCode, Bool.not_false]
  | character literal =>
    simp only [Line.quotedFrom, Line.remarkFrom, Piece.isCode, Bool.not_true, List.append_assoc,
      List.replicate_append_replicate]
  | remark text => exact absurd rfl (hp text)
  | code c =>
    simp only [Line.quotedFrom, Line.remarkFrom, Piece.isCode, Bool.not_true, List.append_assoc,
      List.replicate_append_replicate]

theorem hidesRest_pieces (flags : List Bool) (right : Text) : HidesRest flags (pieces right) := by
  fun_induction pieces right generalizing flags with
  | case1 => simp [HidesRest, Line.quotedFrom, Line.remarkFrom, hiddenIn]
  | case2 rest content after heq ih => exact (ih _).cons fun _ heq' => Piece.noConfusion heq'
  | case3 rest content heq =>
    refine HidesRest.cons (fun _ heq => Piece.noConfusion heq) ?_
    simp [HidesRest, Line.quotedFrom, Line.remarkFrom, hiddenIn]
  | case4 rest =>
    -- The remark hides what is left of the line.
    have hfill := fill_append flags (Text.size ('/' :: '/' :: rest)) 0
    rw [List.replicate_zero, List.append_nil, Nat.add_zero] at hfill
    simp only [HidesRest, Line.quotedFrom, Line.remarkFrom, hiddenIn, List.flatMap_singleton,
      Piece.text, Piece.isCode, Bool.not_false, List.map_nil, List.foldlM_nil, Option.elim_some,
      Reading.pure_eq_ok, Reading.ok_bind, List.length_append, List.length_replicate]
    exact hfill
  | case5 c rest _ _ literal after heq ih => exact (ih _).cons fun _ heq' => Piece.noConfusion heq'
  | case6 c rest hquote hremark heq ih => exact (ih _).cons fun _ heq' => Piece.noConfusion heq'

/-- No flag is set beyond the line. -/
theorem hiddenBytes_eq (line : Text) : hiddenBytes line = .ok (hiddenIn (pieces line)) := by
  have hquotes : (lex line).quotes 0 line.size = Line.quotedFrom 0 (pieces line) :=
    lex_quotes ⟨0, line⟩
  have hremark : (lex line).remark?.map (0 + ·) = Line.remarkFrom 0 (pieces line) :=
    lex_remark? ⟨0, line⟩
  have houter (s : Nat × Option Nat) : withQuotes ⟨⟨s.1 + 1, s.2.getD line.size⟩, s.2.isSome⟩
      = ⟨s.1, (s.2.map (· + 1)).getD line.size⟩ := by
    cases hs : s.2 <;> simp [withQuotes]
  have hrest := hidesRest_pieces [] line
  rw [HidesRest, List.length_nil, ← hquotes, ← hremark, pieces_flatMap_text] at hrest
  simpa [Lexed.quotes, houter, hiddenBytes, List.foldlM_map] using hrest

/-! ## Names -/

def isNameByte (b : UInt8) : Bool :=
  decide (b.toNat < 128) && isNameChar (Char.ofNat b.toNat)

/-- Where the bytes of a name start that ends at an offset. -/
def nameStart (t : Text) : Nat → Reading Nat
  | 0 => .ok 0
  | n + 1 => do
    let b ← Reading.byte t n
    if isNameByte b then nameStart t n else return n + 1

/-- The name in front of the parenthesis at an offset of a line. -/
def nameBefore? (line : Text) (paren : Nat) : Reading (Option Text) := do
  let head := Text.trimEnd (← Reading.part line ⟨0, paren⟩)
  let start ← nameStart head head.size
  let name ← Reading.part head ⟨start, head.size⟩
  return if name.head?.all Char.isDigit then none else some name

theorem toNat_lt_of_isNameChar {c : Char} (h : isNameChar c) : c.toNat < 128 := by
  simp only [isNameChar, Bool.or_eq_true, beq_iff_eq] at h
  rcases h with (h | rfl) | rfl
  · exact toNat_lt_of_isAlphanum h
  · decide
  · decide

theorem isNameByte_ascii {c : Char} (hc : c.toNat < 128) : isNameByte (ascii c) = isNameChar c := by
  rw [isNameByte, Text.toNat_ascii hc, decide_eq_true hc, Bool.true_and, Char.ofNat_toNat]

theorem isNameByte_of_le {b : UInt8} (hb : 128 ≤ b.toNat) : isNameByte b = false := by
  rw [isNameByte, decide_eq_false (Nat.not_lt_of_le hb), Bool.false_and]

/-- A name starts behind the last character that is not part of names. -/
theorem nameStart_eq {front name : Text} (hname : ∀ c ∈ name, isNameChar c)
    (hfront : ∀ c, front.getLast? = some c → isNameChar c = false) (rest : Text) :
    nameStart (front ++ (name ++ rest)) (Text.size (front ++ name)) = .ok front.size := by
  induction name using List.reverseRecOn generalizing rest with
  | nil =>
    rcases List.eq_nil_or_concat' front with rfl | ⟨start, d, rfl⟩
    · rfl
    · have hd := hfront d (by simp)
      obtain ⟨b, hb, hlast⟩ := Text.exists_last_byte start d rest
      have hnot : isNameByte b = false := by
        rcases hlast with ⟨hascii, rfl⟩ | ⟨-, hwide⟩
        · rw [isNameByte_ascii hascii, hd]
        · exact isNameByte_of_le hwide
      have hpos := Char.utf8Size_pos d
      have hsize : Text.size (start ++ [d]) = Text.size start + (d.utf8Size - 1) + 1 := by
        simp only [Text.size_append, Text.size_cons, Text.size_nil]
        omega
      have htext : start ++ [d] ++ ([] ++ rest) = start ++ d :: rest := by simp
      rw [List.append_nil, htext, hsize, nameStart, hb, Reading.ok_bind, hnot]
      rfl
  | append_singleton name c ih =>
    have hc := toNat_lt_of_isNameChar (hname c (by simp))
    have hsize : Text.size (front ++ (name ++ [c])) = Text.size (front ++ name) + 1 := by
      simp [Text.utf8Size_eq_one_iff.2 hc, Nat.add_assoc]
    have htext : front ++ (name ++ [c] ++ rest) = front ++ name ++ c :: rest := by simp
    have hbyte : Reading.byte (front ++ name ++ c :: rest) (Text.size (front ++ name))
        = .ok (ascii c) :=
      Reading.byte_eq_ok_iff.2 (Text.getElem?_bytes_ascii hc (front ++ name) rest)
    rw [htext, hsize, nameStart, hbyte, Reading.ok_bind, isNameByte_ascii hc,
      if_pos (hname c (by simp)),
      List.append_assoc]
    exact ih (fun d hd => hname d (by simp [hd])) (c :: rest)

/-- The name is cut out between characters. -/
theorem nameBefore?_eq (left rest : Text) :
    nameBefore? (left ++ rest) left.size = .ok (trailingName? left.reverse) := by
  have hpart : Reading.part (left ++ rest) ⟨0, left.size⟩ = .ok left := by
    simpa using Reading.part_append [] left rest
  let before := left.reverse.dropWhile isBlank
  let front := (before.dropWhile isNameChar).reverse
  let name := (before.takeWhile isNameChar).reverse
  have hhead : left.trimEnd = front ++ name := by
    simp only [front, name, ← List.reverse_append, List.takeWhile_append_dropWhile]
    rfl
  have hname : ∀ c ∈ name, isNameChar c := fun c hc =>
    List.mem_takeWhile_imp (List.mem_reverse.1 hc)
  have hfront : ∀ c, front.getLast? = some c → isNameChar c = false := by
    intro c hc
    rw [List.getLast?_reverse] at hc
    have hnot := List.head?_dropWhile_not isNameChar before
    rw [hc] at hnot
    exact hnot
  have hstart := nameStart_eq hname hfront []
  have hcut := Reading.part_append front name []
  rw [List.append_nil, ← Text.size_append] at hcut
  rw [List.append_nil] at hstart
  have htrailing : trailingName? left.reverse
      = if name.head?.all Char.isDigit then none else some name := by
    rw [trailingName?]
    split
    · next hnil => simp [name, before, hnil]
    · next c more hcons => simp [name, before, hcons]
  simp only [nameBefore?, hpart, Reading.ok_bind, hhead, hstart, hcut, Reading.pure_eq_ok,
    htrailing]

/-! ## The scan -/

def flag (flags : List Bool) (i : Nat) : Reading Bool :=
  flags[i]?.elim (.error (.ofSize i 1)) .ok

/-- The function whose parenthesis encloses the place `i` of a line, with so many closing
parentheses still to be matched. -/
def callBefore? (line : Text) (hidden : List Bool) : (depth i : Nat) → Reading (Option Text)
  | _, 0 => .ok none
  | depth, i + 1 => do
    if ← flag hidden i then callBefore? line hidden depth i
    else
      let b ← Reading.byte line i
      if b = ascii ')' then callBefore? line hidden (depth + 1) i
      else if b = ascii '(' then
        if 0 < depth then callBefore? line hidden (depth - 1) i
        else
          let name ← nameBefore? line i
          let callee := name.filter fun name => !nonCallWords.any (·.toList == name)
          if callee.isSome then return callee else callBefore? line hidden depth i
      else callBefore? line hidden depth i

/-- The function whose argument list holds an offset of the text that is on the line. -/
def enclosingCallOn? (l : Line) (offset : Nat) : Reading (Option Text) := do
  let hidden ← hiddenBytes l.text
  let place ← Reading.distance l.start offset
  callBefore? l.text hidden 0 (min place l.text.size)

/-- What the search does at a cell, which is a parenthesis of the code or passed. -/
theorem enclosingCall?_cons (x : Char × Bool) (depth : Nat) (before : List (Char × Bool)) :
    enclosingCall? depth (x :: before) =
      if x = (')', true) then enclosingCall? (depth + 1) before
      else if x = ('(', true) then
        if 0 < depth then enclosingCall? (depth - 1) before
        else if (callee? (before.map Prod.fst)).isSome then callee? (before.map Prod.fst)
        else enclosingCall? depth before
      else enclosingCall? depth before := by
  split
  · next hclose => rw [hclose, enclosingCall?]
  · next hclose =>
    split
    · next hopen =>
      rw [hopen]
      cases depth with
      | zero => cases hcallee : callee? (before.map Prod.fst) <;> simp [enclosingCall?, hcallee]
      | succ depth => simp [enclosingCall?]
    · next hopen =>
      obtain ⟨c, code⟩ := x
      rw [enclosingCall?] <;> grind

/-- For each byte of some cells, whether it is hidden. -/
def hiddenCells (cells : List (Char × Bool)) : List Bool :=
  cells.flatMap fun x => List.replicate x.1.utf8Size (!x.2)

theorem length_hiddenCells (cells : List (Char × Bool)) :
    (hiddenCells cells).length = Text.size (cells.map Prod.fst) := by
  induction cells with
  | nil => rfl
  | cons x cells ih => simpa [hiddenCells] using ih

theorem flag_hiddenCells (left : List (Char × Bool)) (x : Char × Bool)
    (right : List (Char × Bool)) {k : Nat} (hk : k < x.1.utf8Size) :
    flag (hiddenCells (left ++ x :: right)) (Text.size (left.map Prod.fst) + k) = .ok (!x.2) := by
  have hflag : (hiddenCells (left ++ x :: right))[Text.size (left.map Prod.fst) + k]?
      = some (!x.2) := by
    have hcells : hiddenCells (left ++ x :: right)
        = hiddenCells left ++ (List.replicate x.1.utf8Size (!x.2) ++ hiddenCells right) := by
      simp [hiddenCells]
    rw [hcells, ← length_hiddenCells, List.getElem?_append_right (Nat.le_add_right _ _),
      Nat.add_sub_cancel_left, List.getElem?_append_left (by simpa using hk),
      List.getElem?_replicate_of_lt hk]
  rw [flag, hflag]
  rfl

/-- What the scan does at a byte of a cell, which is the byte of a parenthesis of the code or is
passed. -/
theorem callBefore?_succ (start : List (Char × Bool)) (x : Char × Bool)
    (right : List (Char × Bool)) {k : Nat} (hk : k < x.1.utf8Size) (depth : Nat) :
    callBefore? ((start ++ x :: right).map Prod.fst) (hiddenCells (start ++ x :: right)) depth
        (Text.size (start.map Prod.fst) + k + 1) =
      let scan depth := callBefore? ((start ++ x :: right).map Prod.fst)
        (hiddenCells (start ++ x :: right)) depth (Text.size (start.map Prod.fst) + k)
      let callee := callee? (start.reverse.map Prod.fst)
      if x = (')', true) then scan (depth + 1)
      else if x = ('(', true) then
        if 0 < depth then scan (depth - 1) else if callee.isSome then .ok callee else scan depth
      else scan depth := by
  have htext : (start ++ x :: right).map Prod.fst
      = start.map Prod.fst ++ x.1 :: right.map Prod.fst := by simp
  have hcell (c : Char) (code : Bool) : x = (c, code) ↔ x.1 = c ∧ x.2 = code := Prod.ext_iff
  rw [callBefore?, flag_hiddenCells start x right hk, Reading.ok_bind]
  cases hcode : x.2 with
  | false => simp [hcell, hcode]
  | true =>
    simp only [hcell, hcode, and_true, Bool.not_true, Bool.false_eq_true, if_false]
    rcases Nat.lt_or_ge x.1.toNat 128 with hascii | hwide
    · obtain rfl : k = 0 := by
        have hsize := Text.utf8Size_eq_one_iff.2 hascii
        omega
      have hbyte : Reading.byte (start.map Prod.fst ++ x.1 :: right.map Prod.fst)
          (Text.size (start.map Prod.fst) + 0) = .ok (ascii x.1) :=
        Reading.byte_eq_ok_iff.2 (Text.getElem?_bytes_ascii hascii _ _)
      rw [htext, hbyte, Reading.ok_bind]
      simp only [Text.ascii_inj hascii (by decide : ')'.toNat < 128),
        Text.ascii_inj hascii (by decide : '('.toNat < 128)]
      split
      · rfl
      · split
        · split
          · rfl
          · next hopen _ =>
            rw [hopen, Nat.add_zero, nameBefore?_eq, Reading.ok_bind, List.map_reverse]
            rfl
        · rfl
    · obtain ⟨b, hb, hle⟩ := Text.exists_getElem?_bytes_wide hwide (start.map Prod.fst)
        (right.map Prod.fst) hk
      have hwide (c : Char) (hc : c.toNat < 128) : x.1 ≠ c := by
        rintro rfl
        omega
      rw [htext, Reading.byte_eq_ok_iff.2 hb, Reading.ok_bind,
        if_neg (Text.ne_ascii_of_le hle (by decide)), if_neg (Text.ne_ascii_of_le hle (by decide)),
        if_neg (hwide _ (by decide)), if_neg (hwide _ (by decide))]

/-- The cells `left` of a line are those that start before the offset `i`. -/
structure StartBefore (left : List (Char × Bool)) (i : Nat) : Prop where
  le_size : i ≤ Text.size (left.map Prod.fst)
  last_lt : ∀ start x, left = start ++ [x] → Text.size (start.map Prod.fst) < i

/-- The scan goes over the characters that start before a place, nearest first. -/
theorem callBefore?_eq {left : List (Char × Bool)} {i : Nat} (h : StartBefore left i)
    (right : List (Char × Bool)) (depth : Nat) :
    callBefore? ((left ++ right).map Prod.fst) (hiddenCells (left ++ right)) depth i
      = .ok (enclosingCall? depth left.reverse) := by
  induction i generalizing left right depth with
  | zero =>
    rcases List.eq_nil_or_concat' left with rfl | ⟨start, x, rfl⟩
    · rfl
    · exact absurd (h.last_lt start x rfl) (Nat.not_lt_zero _)
  | succ i ih =>
    rcases List.eq_nil_or_concat' left with rfl | ⟨start, x, rfl⟩
    · exact absurd h.le_size (Nat.not_succ_le_zero i)
    · obtain ⟨k, rfl⟩ := Nat.exists_eq_add_of_le (Nat.le_of_lt_succ (h.last_lt start x rfl))
      have hle := h.le_size
      rw [List.map_append, Text.size_append, List.map_singleton, Text.size_cons, Text.size_nil]
        at hle
      have hcells : start ++ [x] ++ right = start ++ x :: right := by simp
      rw [hcells, callBefore?_succ start x right (by omega)]
      rcases Nat.eq_zero_or_pos k with rfl | hpos
      · -- In front of its first byte the character no longer starts before the place.
        have hstart : StartBefore start (Text.size (start.map Prod.fst) + 0) := by
          refine ⟨Nat.le_refl _, fun start' y hstart => ?_⟩
          have hpos := Char.utf8Size_pos y.1
          rw [hstart, List.map_append, Text.size_append, List.map_singleton, Text.size_cons]
          omega
        simp only [ih hstart, List.reverse_append, List.reverse_singleton, List.singleton_append,
          enclosingCall?_cons, apply_ite Except.ok]
      · -- A character with more than one byte is no parenthesis.
        have hmore : StartBefore (start ++ [x]) (Text.size (start.map Prod.fst) + k) := by
          refine ⟨?_, fun start' y hstart => ?_⟩
          · rw [List.map_append, Text.size_append, List.map_singleton, Text.size_cons]
            omega
          · obtain ⟨rfl, -⟩ := List.append_inj' hstart rfl
            omega
        have hwide (c : Char) (hc : c.utf8Size = 1) : x ≠ (c, true) := by
          rintro rfl
          dsimp only at hle
          omega
        have hrest := ih hmore right depth
        rw [List.reverse_append, List.reverse_singleton, List.singleton_append,
          enclosingCall?_cons] at hrest ⊢
        rw [if_neg (hwide _ rfl), if_neg (hwide _ rfl)] at hrest ⊢
        rw [if_neg (hwide _ rfl), if_neg (hwide _ rfl), ← hcells]
        exact hrest

/-- The cells that start before an offset are those that the scan goes over. -/
theorem exists_cellsBefore (offset place : Nat) (t : Text) :
    ∃ left right, t = left ++ right ∧ left.length = Line.cellsBefore.go offset place t ∧
      min (offset - place) t.size ≤ left.size ∧
      ∀ start c, left = start ++ [c] → Text.size start < min (offset - place) t.size := by
  induction t generalizing place with
  | nil => exact ⟨[], [], rfl, rfl, by simp, by simp⟩
  | cons c t ih =>
    rw [Line.cellsBefore.go]
    split
    · next hlt =>
      obtain ⟨left, right, rfl, hlength, hle, hlast⟩ := ih (place + c.utf8Size)
      refine ⟨c :: left, right, rfl, by simp [hlength], ?_, fun start d hstart => ?_⟩
      · simp only [Text.size_cons] at hle ⊢
        omega
      · have hpos := Char.utf8Size_pos c
        cases start with
        | nil =>
          simp only [Text.size_nil, Text.size_cons]
          omega
        | cons e start =>
          simp only [List.cons_append, List.cons.injEq] at hstart
          obtain ⟨rfl, rfl⟩ := hstart
          have hlt' := hlast start d rfl
          simp only [Text.size_cons] at hlt' ⊢
          omega
    · next hge =>
      have hzero : offset - place = 0 := by omega
      exact ⟨[], c :: t, rfl, rfl, by simp [hzero], by simp⟩

theorem hiddenCells_cells (l : Line) : hiddenCells l.cells = hiddenIn (pieces l.text) := by
  have hpiece (t : Text) (code : Bool) :
      (t.map (·, code)).flatMap (fun x => List.replicate x.1.utf8Size (!x.2))
        = List.replicate t.size (!code) := by
    induction t with
    | nil => rfl
    | cons c t ih => simp [ih]
  rw [hiddenCells, Line.cells, List.flatMap_assoc, hiddenIn]
  simp only [hpiece]

/-- An offset behind the start of a line has the enclosing call that the cells before it tell. -/
theorem enclosingCallOn?_eq {l : Line} {offset : Nat} (h : l.start ≤ offset) :
    enclosingCallOn? l offset = .ok (enclosingCall? 0 (l.cellsBefore offset)) := by
  obtain ⟨left, right, htext, hlength, hle, hlast⟩ := exists_cellsBefore offset l.start l.text
  have hleft : (l.cells.take left.length).map Prod.fst = left := by
    rw [List.map_take, Line.map_fst_cells, htext, List.take_left]
  have hstart : StartBefore (l.cells.take left.length) (min (offset - l.start) l.text.size) := by
    refine ⟨by rwa [hleft], fun start x hconcat => hlast _ x.1 ?_⟩
    rw [← hleft, hconcat, List.map_append, List.map_singleton]
  have hscan := callBefore?_eq hstart (l.cells.drop left.length) 0
  rw [List.take_append_drop, Line.map_fst_cells, hiddenCells_cells] at hscan
  rw [enclosingCallOn?, hiddenBytes_eq, Reading.ok_bind, Reading.distance_of_le h, Reading.ok_bind,
    Line.cellsBefore, ← hlength]
  exact hscan

end Offsets

end Swatch

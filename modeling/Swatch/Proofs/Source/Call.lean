-- SUMMARY: The backward search for the enclosing call finds the topmost named parenthesis of a forward parser.
import Swatch.Proofs.Literal.Token
import Swatch.Proofs.Source.Quotes

/-!
# The enclosing call by a stack

A line is read from left to right with a stack of the parentheses that are open: an
opening parenthesis is pushed, a closing one pops the topmost one, if there is any. The
bytes of strings and of the remark are skipped.

The search for the enclosing call reads the same line from right to left and counts the
closing parentheses that are not matched yet. Read this way, the stack of the cells that
are left is known, and the count says how many of its parentheses are closed by what has
been read. So what the search answers is the first name on the stack below them.
-/

namespace Swatch

/-! ## Skipped bytes -/

/-- The bytes of a string with its quotes; one that is not closed takes its line up to `stop`. -/
def Quoted.outer (q : Quoted) (stop : Nat) : Interval :=
  ⟨q.content.start - 1, if q.closed then q.content.stop + 1 else stop⟩

namespace Line

/-- A byte belongs to a string among pieces that start at `place` and end at `stop`, or to the
remark among them. -/
def hidesFrom (stop place : Nat) (ps : List Piece) (offset : Nat) : Bool :=
  (quotedFrom place ps).any (fun q => decide (offset ∈ q.outer stop)) ||
    (remarkFrom place ps).any (· ≤ offset)

/-- A byte belongs to a string of the line, with its quotes, or to its remark. -/
def hides (l : Line) (offset : Nat) : Bool :=
  l.quotes.any (fun q => decide (offset ∈ q.outer l.extent.stop)) || l.remark?.any (· ≤ offset)

theorem le_of_remarkFrom {place r : Nat} {ps : List Piece} (h : remarkFrom place ps = some r) :
    place ≤ r := by
  fun_induction remarkFrom place ps with
  | case1 => cases h
  | case2 place text ps => exact Nat.le_of_eq (Option.some.inj h)
  | case3 place p ps _ ih => exact Nat.le_trans (Nat.le_add_right _ _) (ih h)

/-- Pieces hide nothing in front of them. -/
theorem hidesFrom_of_lt {stop place offset : Nat} (ps : List Piece) (h : offset < place) :
    hidesFrom stop place ps offset = false := by
  rw [hidesFrom, Bool.or_eq_false_iff, List.any_eq_false]
  constructor
  · intro q hq hmem
    obtain ⟨hstart, -⟩ := (quotedFrom_spec place ps).2 q hq
    have hle := (Interval.mem_iff.1 (of_decide_eq_true hmem)).1
    simp only [Quoted.outer] at hle
    omega
  · cases hr : remarkFrom place ps with
    | none => rfl
    | some r =>
      have hle := le_of_remarkFrom hr
      exact decide_eq_false (by omega)

/-- A piece hides its own bytes, unless it is code, and no others. -/
theorem hidesFrom_cons {p : Piece} {ps : List Piece} (hremark : ∀ text, p ≠ .remark text)
    (hopen : ∀ content, p = .quoted content false → ps = []) {place offset : Nat}
    (hle : place ≤ offset) :
    hidesFrom (place + Text.size ((p :: ps).flatMap Piece.text)) place (p :: ps) offset
      = if offset < place + p.text.size then !p.isCode
        else hidesFrom (place + Text.size ((p :: ps).flatMap Piece.text)) (place + p.text.size) ps
          offset := by
  have hrest (h : offset < place + p.text.size) :
      hidesFrom (place + Text.size ((p :: ps).flatMap Piece.text)) (place + p.text.size) ps offset
        = false := hidesFrom_of_lt ps h
  cases p with
  | remark text => exact absurd rfl (hremark text)
  | character literal =>
    split
    · next hlt => exact hrest hlt
    · rfl
  | code c =>
    split
    · next hlt => exact hrest hlt
    · rfl
  | quoted content closed =>
    have houter : Quoted.outer ⟨.ofSize (place + 1) content.size, closed⟩
        (place + Text.size ((Piece.quoted content closed :: ps).flatMap Piece.text))
          = ⟨place, place + (Piece.quoted content closed).text.size⟩ := by
      have hquote : '"'.utf8Size = 1 := rfl
      cases closed with
      | true => simp [Quoted.outer, Interval.ofSize, Piece.text, hquote]; omega
      | false =>
        obtain rfl := hopen content rfl
        simp [Quoted.outer, Interval.ofSize]
    have hfirst : decide (offset ∈ (⟨place, place + (Piece.quoted content closed).text.size⟩ : Interval))
        = decide (offset < place + (Piece.quoted content closed).text.size) := by
      simp [Interval.mem_iff, hle]
    rw [hidesFrom, quotedFrom, List.any_cons, houter, hfirst, Bool.or_assoc]
    split
    · next hlt => rw [decide_eq_true hlt]; rfl
    · next hge => rw [decide_eq_false hge]; rfl

/-- The characters of a text that starts at `place`, each with whether it is visible. -/
def marked (hidden : Nat → Bool) : (place : Nat) → Text → List (Char × Bool)
  | _, [] => []
  | place, c :: t => (c, !hidden place) :: marked hidden (place + c.utf8Size) t

theorem marked_append (hidden : Nat → Bool) (place : Nat) (s t : Text) :
    marked hidden place (s ++ t) = marked hidden place s ++ marked hidden (place + s.size) t := by
  induction s generalizing place with
  | nil => rfl
  | cons c s ih => simp [marked, ih, Nat.add_assoc]

theorem marked_congr {hidden hidden' : Nat → Bool} {place : Nat} {t : Text}
    (h : ∀ offset, place ≤ offset → offset < place + t.size → hidden offset = hidden' offset) :
    marked hidden place t = marked hidden' place t := by
  induction t generalizing place with
  | nil => rfl
  | cons c t ih =>
    have hpos := Char.utf8Size_pos c
    rw [Text.size_cons] at h
    rw [marked, marked, h place (Nat.le_refl _) (by omega),
      ih fun offset hle hlt => h offset (by omega) (by omega)]

theorem marked_const (b : Bool) (place : Nat) (t : Text) :
    marked (fun _ => b) place t = t.map (·, !b) := by
  induction t generalizing place with
  | nil => rfl
  | cons c t ih => rw [marked, ih, List.map_cons]

/-- The cells of pieces are the characters that no string and no remark among them hides. -/
def CellsMarked (place : Nat) (ps : List Piece) : Prop :=
  ps.flatMap (fun p => p.text.map (·, p.isCode))
    = marked (hidesFrom (place + Text.size (ps.flatMap Piece.text)) place ps) place
        (ps.flatMap Piece.text)

theorem CellsMarked.cons {p : Piece} {ps : List Piece} {place : Nat}
    (hremark : ∀ text, p ≠ .remark text) (hopen : ∀ content, p = .quoted content false → ps = [])
    (h : CellsMarked (place + p.text.size) ps) : CellsMarked place (p :: ps) := by
  have hsize : Text.size ((p :: ps).flatMap Piece.text)
      = p.text.size + Text.size (ps.flatMap Piece.text) := by simp
  have hcons {offset : Nat} (hle : place ≤ offset) := hidesFrom_cons hremark hopen hle
  rw [hsize, ← Nat.add_assoc] at hcons
  have hfirst : marked (hidesFrom (place + p.text.size + Text.size (ps.flatMap Piece.text)) place
      (p :: ps)) place p.text = p.text.map (·, p.isCode) := by
    have hown : marked (hidesFrom (place + p.text.size + Text.size (ps.flatMap Piece.text)) place
        (p :: ps)) place p.text = marked (fun _ => !p.isCode) place p.text :=
      marked_congr fun offset hle hlt => by rw [hcons hle, if_pos hlt]
    rw [hown, marked_const, Bool.not_not]
  have hrest : marked (hidesFrom (place + p.text.size + Text.size (ps.flatMap Piece.text)) place
      (p :: ps)) (place + p.text.size) (ps.flatMap Piece.text)
        = ps.flatMap (fun p => p.text.map (·, p.isCode)) := by
    rw [h]
    refine marked_congr fun offset hle _ => ?_
    rw [hcons (Nat.le_trans (Nat.le_add_right _ _) hle), if_neg (Nat.not_lt_of_le hle)]
  rw [CellsMarked, hsize, ← Nat.add_assoc, List.flatMap_cons, List.flatMap_cons, marked_append,
    hfirst, hrest]

theorem cellsMarked_pieces (place : Nat) (t : Text) : CellsMarked place (pieces t) := by
  fun_induction pieces t generalizing place with
  | case1 => rfl
  | case2 rest content after heq ih => exact (ih _).cons (by simp) (by simp)
  | case3 rest content heq =>
    refine CellsMarked.cons (by simp) (fun _ _ => rfl) ?_
    rfl
  | case4 rest =>
    -- The remark hides all of its bytes.
    have hremark : marked (hidesFrom (place + Text.size ('/' :: '/' :: rest)) place
        [.remark ('/' :: '/' :: rest)]) place ('/' :: '/' :: rest)
          = marked (fun _ => true) place ('/' :: '/' :: rest) :=
      marked_congr fun offset hle _ => by simp [hidesFrom, quotedFrom, remarkFrom, hle]
    rw [marked_const] at hremark
    simp only [CellsMarked, List.flatMap_singleton, Piece.text, Piece.isCode]
    exact hremark.symm
  | case5 c rest _ _ literal after heq ih => exact (ih _).cons (by simp) (by simp)
  | case6 c rest _ _ heq ih => exact (ih _).cons (by simp) (by simp)

theorem cells_eq (l : Line) : l.cells = marked l.hides l.start l.text := by
  have hcells := cellsMarked_pieces l.start l.text
  rw [CellsMarked, pieces_flatMap_text] at hcells
  exact hcells

/-! ## Open parentheses -/

/-- The parentheses that are open behind a text that starts at `place`, the innermost one first,
given those that are open in front of it. Nothing that is hidden counts, and nothing from `stop`
on. -/
def openFrom (hidden : Nat → Bool) (stop : Nat) : (place : Nat) → (stack : List Nat) → Text → List Nat
  | _, stack, [] => stack
  | place, stack, c :: t =>
    let stack :=
      if hidden place || decide (stop ≤ place) then stack
      else if c = '(' then place :: stack
      else if c = ')' then stack.tail
      else stack
    openFrom hidden stop (place + c.utf8Size) stack t

/-- The offsets of the parentheses of a line that are open at an offset, the innermost one first. -/
def openParens (l : Line) (offset : Nat) : List Nat :=
  openFrom l.hides offset l.start [] l.text

end Line

/-- The open parentheses behind some cells, nearest first, each told by the cells in front of it. -/
def openCells : List (Char × Bool) → List (List (Char × Bool))
  | [] => []
  | x :: before =>
    if x = ('(', true) then before :: openCells before
    else if x = (')', true) then (openCells before).tail
    else openCells before

/-- In front of an open parenthesis stand the cells that tell it. -/
theorem exists_of_mem_openCells {cells before : List (Char × Bool)} (h : before ∈ openCells cells) :
    ∃ more, cells = more ++ ('(', true) :: before := by
  induction cells with
  | nil => cases h
  | cons x cells ih =>
    have hrest (h : before ∈ openCells cells) :
        ∃ more, x :: cells = more ++ ('(', true) :: before := by
      obtain ⟨more, hmore⟩ := ih h
      exact ⟨x :: more, by rw [hmore, List.cons_append]⟩
    rw [openCells] at h
    split at h
    · next hx =>
      rcases List.mem_cons.1 h with rfl | h
      · exact ⟨[], by rw [hx, List.nil_append]⟩
      · exact hrest h
    · split at h
      · exact hrest (List.mem_of_mem_tail h)
      · exact hrest h

/-- The search passes as many open parentheses as there are closing ones to be matched, and answers
with the first name among the others. -/
theorem enclosingCall?_eq_findSome? (depth : Nat) (cells : List (Char × Bool)) :
    enclosingCall? depth cells
      = ((openCells cells).drop depth).findSome? fun before => callee? (before.map Prod.fst) := by
  fun_induction enclosingCall? depth cells with
  | case1 depth => simp [openCells]
  | case2 depth before ih => simp [openCells, ih]
  | case3 depth before ih => simp [openCells, ih]
  | case4 before name hname => simp [openCells, hname]
  | case5 before hname ih => simp [openCells, hname, ih]
  | case6 depth x before hclose hopen hopen' ih =>
    have hx : x ≠ ('(', true) := by
      cases depth with
      | zero => exact fun hx => hopen' rfl hx
      | succ depth => exact fun hx => hopen depth rfl hx
    rw [ih, openCells, if_neg hx, if_neg hclose]

namespace Line

/-- From `stop` on nothing counts. -/
theorem openFrom_of_le (hidden : Nat → Bool) {stop place : Nat} (h : stop ≤ place)
    (stack : List Nat) (t : Text) : openFrom hidden stop place stack t = stack := by
  induction t generalizing place with
  | nil => rfl
  | cons c t ih =>
    rw [openFrom, decide_eq_true h, Bool.or_true, if_pos rfl]
    exact ih (Nat.le_trans h (Nat.le_add_right _ _))

/-- Reading on from some cells, the parser keeps the open parentheses of all cells on its stack. -/
theorem openFrom_eq (hidden : Nat → Bool) (stop start : Nat) {place : Nat}
    (before : List (Char × Bool)) (hplace : place = start + Text.size (before.map Prod.fst))
    (t : Text) :
    openFrom hidden stop place
        ((openCells before).map fun cells => start + Text.size (cells.map Prod.fst)) t
      = (openCells (((marked hidden place t).take (cellsBefore.go stop place t)).reverse
          ++ before)).map fun cells => start + Text.size (cells.map Prod.fst) := by
  induction t generalizing place before with
  | nil => simp [openFrom, marked]
  | cons c t ih =>
    rcases Nat.lt_or_ge place stop with hlt | hge
    · have hstack : (if hidden place || decide (stop ≤ place) then
            (openCells before).map fun cells => start + Text.size (cells.map Prod.fst)
          else if c = '(' then
            place :: (openCells before).map fun cells => start + Text.size (cells.map Prod.fst)
          else if c = ')' then
            ((openCells before).map fun cells => start + Text.size (cells.map Prod.fst)).tail
          else (openCells before).map fun cells => start + Text.size (cells.map Prod.fst))
          = (openCells ((c, !hidden place) :: before)).map
            fun cells => start + Text.size (cells.map Prod.fst) := by
        rw [decide_eq_false (Nat.not_le_of_lt hlt), Bool.or_false, openCells]
        cases hidden place with
        | true => simp
        | false =>
          by_cases hopen : c = '('
          · simp [hopen, hplace]
          · by_cases hclose : c = ')' <;> simp [hopen, hclose]
      rw [openFrom, hstack, ih ((c, !hidden place) :: before) (by simp [hplace]; omega),
        cellsBefore.go, if_pos hlt, marked, List.take_succ_cons, List.reverse_cons,
        List.append_assoc, List.singleton_append]
    · rw [openFrom_of_le hidden hge, cellsBefore.go, if_neg (Nat.not_lt_of_le hge), List.take_zero,
        List.reverse_nil, List.nil_append]

/-- The open parentheses of a line are those of the cells in front of the offset. -/
theorem openParens_eq (l : Line) (offset : Nat) :
    l.openParens offset
      = (openCells (l.cellsBefore offset)).map
          fun cells => l.start + Text.size (cells.map Prod.fst) := by
  have hopen := openFrom_eq l.hides offset l.start [] (Nat.add_zero _).symm l.text
  rw [← cells_eq, List.append_nil] at hopen
  exact hopen

end Line

/-! ## Names -/

/-- A text ends in the name of a function that is called, behind which blanks may follow. The name
is as long as it can be. -/
structure EndsInCall (t name : Text) : Prop where
  exists_parts : ∃ front blanks, t = front ++ (name ++ blanks) ∧
    front.getLast?.any isNameChar = false ∧ ∀ c ∈ blanks, isBlank c
  isNameChar_of_mem : ∀ c ∈ name, isNameChar c
  starts : name.head?.any (fun c => !c.isDigit)
  notMem : name ∉ nonCallWords.map String.toList

theorem isBlank_of_isNameChar {c : Char} (h : isNameChar c) : isBlank c = false := by
  simp only [isNameChar, Bool.or_eq_true, beq_iff_eq] at h
  rcases h with (h | rfl) | rfl
  · exact isBlank_of_isAlphanum h
  · decide
  · decide

/-- What stands before a parenthesis, nearest character first, starts with blanks, then with the
name. -/
theorem trailingName?_eq_some_iff {before name : Text} :
    trailingName? before = some name ↔
      ((before.dropWhile isBlank).takeWhile isNameChar).reverse = name ∧
        name.head?.any fun c => !c.isDigit := by
  rw [trailingName?]
  split
  · next hnil =>
    rw [hnil]
    constructor
    · intro h
      cases h
    · rintro ⟨rfl, h⟩
      cases h
  · next c more hcons =>
    rw [hcons]
    split
    · next hdigit =>
      constructor
      · intro h
        cases h
      · rintro ⟨rfl, h⟩
        simp [hdigit] at h
    · next hdigit =>
      constructor
      · intro h
        obtain rfl := Option.some.inj h
        exact ⟨rfl, by simpa using hdigit⟩
      · rintro ⟨rfl, -⟩
        rfl

theorem callee?_eq_some_iff {before name : Text} :
    callee? before = some name ↔ EndsInCall before.reverse name := by
  have hword : (!nonCallWords.any (·.toList == name)) = true
      ↔ name ∉ nonCallWords.map String.toList := by
    simp
  rw [callee?, Option.filter_eq_some_iff, trailingName?_eq_some_iff, hword]
  constructor
  · rintro ⟨⟨rfl, hstarts⟩, hnotMem⟩
    let behind := before.dropWhile isBlank
    refine ⟨⟨(behind.dropWhile isNameChar).reverse, (before.takeWhile isBlank).reverse, ?_, ?_, ?_⟩,
      fun c hc => ?_, hstarts, hnotMem⟩
    · rw [← List.reverse_append, ← List.reverse_append, List.append_assoc,
        List.takeWhile_append_dropWhile, List.takeWhile_append_dropWhile]
    · rw [List.getLast?_reverse]
      have hnot := List.head?_dropWhile_not isNameChar behind
      cases hhead : (behind.dropWhile isNameChar).head? with
      | none => rfl
      | some c => simpa [hhead] using hnot
    · exact fun c hc => List.mem_takeWhile_imp (List.mem_reverse.1 hc)
    · exact List.mem_takeWhile_imp (List.mem_reverse.1 hc)
  · rintro ⟨⟨front, blanks, htext, hfront, hblanks⟩, hname, hstarts, hnotMem⟩
    have hbefore : before = blanks.reverse ++ (name.reverse ++ front.reverse) := by
      rw [← List.reverse_append, ← List.reverse_append, List.append_assoc, ← htext,
        List.reverse_reverse]
    -- The name is not empty and has no blanks, so the blanks end in front of it.
    have hdrop : before.dropWhile isBlank = name.reverse ++ front.reverse := by
      rw [hbefore, List.dropWhile_append_of_pos (by simpa using hblanks)]
      rcases List.eq_nil_or_concat' name with rfl | ⟨start, c, rfl⟩
      · cases hstarts
      · have hc := isBlank_of_isNameChar (hname c (by simp))
        rw [List.reverse_append, List.reverse_singleton, List.singleton_append, List.cons_append,
          List.dropWhile_cons_of_neg (by simp [hc])]
    have htake : (name.reverse ++ front.reverse).takeWhile isNameChar = name.reverse :=
      takeWhile_append_of_head (fun c hc => hname c (List.mem_reverse.1 hc))
        (by rwa [List.head?_reverse])
    exact ⟨⟨by rw [hdrop, htake, List.reverse_reverse], hstarts⟩, hnotMem⟩

/-- A parenthesis of a line, told by its offset, follows the name of a function. -/
def Line.CallsAt (l : Line) (paren : Nat) (name : Text) : Prop :=
  ∃ before after, l.text = before ++ '(' :: after ∧ l.start + before.size = paren ∧
    EndsInCall before name

/-- What stands in front of a parenthesis tells which function is called there. -/
theorem Line.callsAt_iff_endsInCall {l : Line} {before after : Text}
    (h : l.text = before ++ '(' :: after) {name : Text} :
    l.CallsAt (l.start + before.size) name ↔ EndsInCall before name := by
  constructor
  · rintro ⟨before', after', htext, hsize, hends⟩
    obtain ⟨rfl, -⟩ := Text.append_inj_of_size (htext.symm.trans h) (by omega)
    exact hends
  · exact fun hends => ⟨before, after, h, rfl, hends⟩

/-- At an open parenthesis the function is called whose name the search reads. -/
theorem Line.callsAt_iff {l : Line} {cells : List (Char × Bool)} {offset : Nat}
    (h : cells ∈ openCells (l.cellsBefore offset)) {name : Text} :
    l.CallsAt (l.start + Text.size (cells.map Prod.fst)) name
      ↔ callee? (cells.map Prod.fst) = some name := by
  obtain ⟨more, hmore⟩ := exists_of_mem_openCells h
  obtain ⟨beyond, htext⟩ : ∃ beyond,
      l.text = (cells.map Prod.fst).reverse ++ '(' :: beyond := by
    have hcells := List.take_append_drop (cellsBefore.go offset l.start l.text) l.cells
    rw [← List.reverse_reverse (l.cells.take _)] at hcells
    rw [cellsBefore] at hmore
    have hline := congrArg (List.map Prod.fst) hcells
    rw [hmore, map_fst_cells] at hline
    exact ⟨_, by simpa using hline.symm⟩
  rw [callee?_eq_some_iff, ← callsAt_iff_endsInCall htext, Text.size_reverse]

/-- The search answers with the first name on the stack. -/
theorem Line.enclosingCall?_eq_some_iff {l : Line} {offset : Nat} {name : Text} :
    enclosingCall? 0 (l.cellsBefore offset) = some name ↔
      ∃ inner paren outer, l.openParens offset = inner ++ paren :: outer ∧
        l.CallsAt paren name ∧ ∀ p ∈ inner, ∀ name, ¬ l.CallsAt p name := by
  rw [enclosingCall?_eq_findSome?, List.drop_zero, List.findSome?_eq_some_iff, openParens_eq]
  have hnone {cells : List (Char × Bool)} (h : cells ∈ openCells (l.cellsBefore offset)) :
      callee? (cells.map Prod.fst) = none
        ↔ ∀ name, ¬ l.CallsAt (l.start + Text.size (cells.map Prod.fst)) name := by
    simp only [callsAt_iff h, Option.eq_none_iff_forall_ne_some, ne_eq]
  constructor
  · rintro ⟨inner, cells, outer, hstack, hname, hinner⟩
    have hmem {c : List (Char × Bool)} (hc : c ∈ inner ++ cells :: outer) :
        c ∈ openCells (l.cellsBefore offset) := hstack ▸ hc
    refine ⟨_, _, _, by rw [hstack, List.map_append, List.map_cons],
      (callsAt_iff (hmem (by simp))).2 hname, fun p hp => ?_⟩
    obtain ⟨c, hc, rfl⟩ := List.mem_map.1 hp
    exact (hnone (hmem (by simp [hc]))).1 (hinner c hc)
  · rintro ⟨inner, paren, outer, hstack, hcalls, hinner⟩
    obtain ⟨inner, rest, hcells, rfl, hrest⟩ := List.map_eq_append_iff.1 hstack
    obtain ⟨cells, outer, rfl, rfl, -⟩ := List.map_eq_cons_iff.1 hrest
    have hmem {c : List (Char × Bool)} (hc : c ∈ inner ++ cells :: outer) :
        c ∈ openCells (l.cellsBefore offset) := hcells ▸ hc
    refine ⟨inner, cells, outer, hcells, (callsAt_iff (hmem (by simp))).1 hcalls, fun c hc => ?_⟩
    exact (hnone (hmem (by simp [hc]))).2 (hinner _ (List.mem_map_of_mem hc))

/-- The call that encloses a place is the one at the innermost open parenthesis that follows the
name of a function: a parser that reads the line of the place up to the place has this parenthesis
on its stack, and none above it follows a name. Places beyond the text are in no call. -/
theorem Source.enclosingCall?_topmost (s : Source) (offset : Nat) :
    ∃ l, s.lines[s.lineOf offset]? = some l ∧ ∀ name,
      (s.enclosingCall? offset = some name ↔ offset ≤ s.text.size ∧
        ∃ inner paren outer, l.openParens offset = inner ++ paren :: outer ∧
          l.CallsAt paren name ∧ ∀ p ∈ inner, ∀ name, ¬ l.CallsAt p name) := by
  obtain ⟨l, hl⟩ : ∃ l, s.lines[s.lineOf offset]? = some l :=
    ⟨_, List.getElem?_eq_getElem (s.lineOf_lt_lineCount offset)⟩
  refine ⟨l, hl, fun name => ?_⟩
  rw [Source.enclosingCall?, lineAt?]
  split
  · next hle =>
    rw [hl, Option.bind_some, Line.enclosingCall?_eq_some_iff]
    simp [hle]
  · next hgt => simp [hgt]

/-- The parenthesis in the string is skipped, and the surplus one at the start of the line closes
nothing. -/
example : Line.openParens ⟨0, ") f(\"(\", if (g(1), 2".toList⟩ 20 = [12, 3] := by decide +kernel

end Swatch

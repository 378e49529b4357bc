-- SUMMARY: Which parentheses inside of quotes the enclosing call depends on.
import Swatch.Proofs.Source.Alike
import Swatch.Proofs.Source.Argument

/-!
# Blotted parentheses

A parenthesis in a string, in a character literal or behind `//` is quoted. To see on which
of them the enclosing call depends, some are blotted: replaced by a letter. Blotting moves
no line and no quote. It changes no name in front of a parenthesis of the code either, as a
closing mark stands between them.

A blotted parenthesis is one that the stack of open parentheses skips. Those in strings
and behind `//` are skipped anyway, but those in character literals are not: they count as
code, so the enclosing call depends on them.
-/

namespace Swatch

/-! ## Blotted texts -/

def isParen (c : Char) : Bool :=
  c == '(' || c == ')'

/-- A text that starts at `place`, with the letter a for some of its parentheses. -/
def Text.blot (chosen : Nat → Bool) : (place : Nat) → Text → Text
  | _, [] => []
  | place, c :: t =>
    (if chosen place && isParen c then 'a' else c) :: blot chosen (place + c.utf8Size) t

/-- No lexer looks for parentheses or for the letter. -/
theorem alike_blotted (b : Bool) (c : Char) : Alike c (if b && isParen c then 'a' else c) := by
  split
  · next h =>
    simp only [isParen, Bool.and_eq_true, Bool.or_eq_true, beq_iff_eq] at h
    rcases h.2 with rfl | rfl <;> exact ⟨rfl, by simp [lexical]⟩
  · exact .refl c

namespace Text

variable {chosen : Nat → Bool}

theorem alike_blot (chosen : Nat → Bool) (place : Nat) (t : Text) :
    t.Alike (t.blot chosen place) := by
  induction t generalizing place with
  | nil => exact .nil
  | cons c t ih => exact .cons (alike_blotted _ c) (ih _)

theorem blot_append (place : Nat) (s t : Text) :
    (s ++ t).blot chosen place = s.blot chosen place ++ t.blot chosen (place + s.size) := by
  induction s generalizing place with
  | nil => rfl
  | cons c s ih =>
    rw [List.cons_append, blot, ih, blot, List.cons_append, size_cons, Nat.add_assoc]

theorem blot_congr {chosen' : Nat → Bool} {place : Nat} {t : Text}
    (h : ∀ offset, place ≤ offset → offset < place + t.size → chosen offset = chosen' offset) :
    t.blot chosen place = t.blot chosen' place := by
  induction t generalizing place with
  | nil => rfl
  | cons c t ih =>
    have hpos := Char.utf8Size_pos c
    rw [size_cons] at h
    rw [blot, blot, h place (Nat.le_refl _) (by omega),
      ih fun offset hle hlt => h offset (by omega) (by omega)]

end Text

/-! ## Quoted bytes -/

namespace Line

/-- The character literals among pieces that start at an offset. -/
def charactersFrom (offset : Nat) : List Piece → List Interval
  | [] => []
  | p :: ps =>
    let rest := charactersFrom (offset + p.text.size) ps
    match p with
    | .character literal => .ofSize offset literal.size :: rest
    | _ => rest

/-- A byte belongs to a character literal of the line. -/
def isCharacter (l : Line) (offset : Nat) : Bool :=
  (charactersFrom l.start (pieces l.text)).any fun i => decide (offset ∈ i)

/-- A byte belongs to a string of the line, to a character literal or to its remark. -/
def isQuoted (l : Line) (offset : Nat) : Bool :=
  l.hides offset || l.isCharacter offset

/-- A line with the letter a for some of its parentheses. -/
def blot (l : Line) (chosen : Nat → Bool) : Line :=
  ⟨l.start, l.text.blot chosen l.start⟩

theorem blot_start (l : Line) (chosen : Nat → Bool) : (l.blot chosen).start = l.start := rfl

theorem alike_blot (l : Line) (chosen : Nat → Bool) : l.Alike (l.blot chosen) :=
  ⟨rfl, Text.alike_blot _ _ _⟩

end Line

namespace Source

/-- A byte belongs to a string, to a character literal or to a remark. -/
def isQuoted (s : Source) (offset : Nat) : Bool :=
  (s.lineAt? offset).any (·.isQuoted offset)

/-- A source with the letter a for some of its parentheses, none of which is code. -/
def blot (s : Source) (chosen : Nat → Bool) : Source where
  text := s.text.blot (fun offset => chosen offset && s.isQuoted offset) 0

theorem text_blot (s : Source) (chosen : Nat → Bool) :
    (s.blot chosen).text = s.text.blot (fun offset => chosen offset && s.isQuoted offset) 0 := rfl

theorem alike_blot (s : Source) (chosen : Nat → Bool) : s.text.Alike (s.blot chosen).text :=
  Text.alike_blot _ _ _

theorem stripReturn_blot (chosen : Nat → Bool) (place : Nat) (t : Text) :
    stripReturn (t.blot chosen place) = (stripReturn t).blot chosen place := by
  have hlast := (Text.alike_blot chosen place t).getLast?_eq_iff (m := '\r') (by decide)
  unfold stripReturn
  split
  · next hret =>
    obtain ⟨start, rfl⟩ := List.getLast?_eq_some_iff.1 (hlast.1 hret)
    rw [if_pos (by simp), Text.blot_append, Text.blot, Text.blot, List.dropLast_concat,
      List.dropLast_concat]
  · next hret => rw [if_neg (mt hlast.2 hret)]

/-- The lines of a blotted source are its lines, blotted. -/
theorem lineAt?_blot (s : Source) (chosen : Nat → Bool) (offset : Nat) :
    (s.blot chosen).lineAt? offset
      = (s.lineAt? offset).map fun l => l.blot fun o => chosen o && l.isQuoted o := by
  have halike := s.alike_blot chosen
  have hbound := s.lineOf_lt_lineCount offset
  rw [lineCount_eq_count] at hbound
  obtain ⟨before, line, after, hlines, hfeed, hcount⟩ :=
    exists_hasLines s.text (Nat.le_of_lt_succ hbound)
  have hl := getElem?_lines hlines hfeed
  let quoted := fun offset => chosen offset && s.isQuoted offset
  have hlines' : (s.blot chosen).text.HasLines (before.blot quoted 0)
      (line.blot quoted before.size) (after.blot quoted (before.size + line.size)) := by
    refine ⟨?_, hlines.before_ends.imp ?_ ?_, hlines.after_starts.imp ?_ ?_⟩
    · rw [text_blot, ← hlines.text_eq, Text.blot_append, Text.blot_append, Nat.zero_add]
    · rintro rfl
      rfl
    · exact ((Text.alike_blot _ _ _).getLast?_eq_iff (by decide)).2
    · rintro rfl
      rfl
    · exact ((Text.alike_blot _ _ _).head?_eq_iff (by decide)).2
  have hfeed' : '\n' ∉ line.blot quoted before.size := by
    rw [← List.count_eq_zero, (Text.alike_blot _ _ _).count_eq (by decide)]
    exact List.count_eq_zero.2 hfeed
  have hl' := getElem?_lines hlines' hfeed'
  rw [(Text.alike_blot _ _ _).count_eq (by decide), (Text.alike_blot _ _ _).size_eq,
    stripReturn_blot] at hl'
  rw [lineAt?, lineAt?, lineOf_eq_of_alike halike, halike.size_eq, ← hcount, hl', hl]
  split
  · next hle =>
    rw [Option.map_some, Line.blot, Text.blot_congr]
    intro o hstart hstop
    have hstrip := stripReturn_size_le line
    have hsize := congrArg Text.size hlines.text_eq
    simp only [Text.size_append] at hsize
    have hline : s.lineOf o = before.count '\n' := lineOf_eq hl hstart (Nat.le_of_lt hstop)
    have hquoted : s.isQuoted o = Line.isQuoted ⟨before.size, stripReturn line⟩ o := by
      rw [isQuoted, lineAt?, if_pos (by omega), hline, hl, Option.any_some]
    exact congrArg (chosen o && ·) hquoted
  · rfl

end Source

/-! ## Skipped parentheses -/

namespace Line

/-- The stack skips blotted parentheses. -/
theorem openFrom_blot (hidden chosen : Nat → Bool) (stop place : Nat) (stack : List Nat)
    (t : Text) : openFrom hidden stop place stack (t.blot chosen place)
      = openFrom (fun offset => hidden offset || chosen offset) stop place stack t := by
  induction t generalizing place stack with
  | nil => rfl
  | cons c t ih =>
    rw [Text.blot, openFrom, openFrom, (alike_blotted _ c).size_eq, ih]
    congr 1
    cases hchosen : chosen place with
    | false => simp
    | true =>
      by_cases hc : c = '(' ∨ c = ')'
      · have hparen : isParen c = true := by simpa [isParen] using hc
        simp [hparen]
      · have hparen : isParen c = false := by simpa [isParen] using hc
        obtain ⟨hopen, hclose⟩ := not_or.1 hc
        simp [hparen, hopen, hclose]

/-- On the stack are the offsets of opening parentheses that are not hidden. -/
theorem mem_openFrom {hidden : Nat → Bool} {stop place : Nat} {stack : List Nat} {t : Text}
    {paren : Nat} (h : paren ∈ openFrom hidden stop place stack t) :
    paren ∈ stack ∨ ∃ before after, t = before ++ '(' :: after ∧ place + before.size = paren ∧
      hidden paren = false := by
  induction t generalizing place stack with
  | nil => exact .inl h
  | cons c t ih =>
    rcases ih h with hmem | ⟨before, after, rfl, hsize, hvisible⟩
    · split at hmem
      · exact .inl hmem
      · next hread =>
        split at hmem
        · next hopen =>
          rcases List.mem_cons.1 hmem with rfl | hmem
          · obtain ⟨hvisible, -⟩ := by simpa using hread
            exact .inr ⟨[], t, by rw [hopen, List.nil_append], Nat.add_zero _, hvisible⟩
          · exact .inl hmem
        · split at hmem
          · exact .inl (List.mem_of_mem_tail hmem)
          · exact .inl hmem
    · exact .inr ⟨c :: before, after, rfl, by rw [Text.size_cons]; omega, hvisible⟩

end Line

/-! ## Names in front of parentheses -/

/-- Two texts, given with their last characters first, behind which the same names end. -/
def EndsAlike (front front' : Text) : Prop :=
  ∀ more, trailingName? (more ++ front') = trailingName? (more ++ front)

theorem EndsAlike.append {front front' : Text} (h : EndsAlike front front') (more : Text) :
    EndsAlike (more ++ front) (more ++ front') := fun before => by
  rw [← List.append_assoc, ← List.append_assoc, h]

/-- A character that ends a search for a name, and is not blotted. -/
def isStop (c : Char) : Bool :=
  !(isBlank c || isNameChar c || isParen c)

theorem isStop_iff {c : Char} :
    isStop c ↔ isBlank c = false ∧ isNameChar c = false ∧ isParen c = false := by
  simp [isStop, and_assoc]

theorem EndsAlike.of_stop {c : Char} (hc : isStop c) (front front' : Text) :
    EndsAlike (c :: front) (c :: front') := fun before => by
  obtain ⟨hblank, hname, -⟩ := isStop_iff.1 hc
  have hend (front : Text) :
      ((before ++ c :: front).dropWhile isBlank).takeWhile isNameChar
        = (before.dropWhile isBlank).takeWhile isNameChar := by
    rw [dropWhile_append_stop hblank, takeWhile_append_stop hname]
  rw [trailingName?, trailingName?, hend, hend]

namespace Line

theorem le_of_mem_charactersFrom {place : Nat} {ps : List Piece} {i : Interval}
    (h : i ∈ charactersFrom place ps) : place ≤ i.start := by
  induction ps generalizing place with
  | nil => cases h
  | cons p ps ih =>
    have hrest (h : i ∈ charactersFrom (place + p.text.size) ps) : place ≤ i.start :=
      Nat.le_trans (Nat.le_add_right _ _) (ih h)
    cases p with
    | character literal =>
      rcases List.mem_cons.1 h with rfl | h
      · exact Nat.le_refl _
      · exact hrest h
    | quoted content closed => exact hrest h
    | remark text => exact hrest h
    | code c => exact hrest h

theorem any_charactersFrom_of_lt {place offset : Nat} (ps : List Piece) (h : offset < place) :
    ((charactersFrom place ps).any fun i => decide (offset ∈ i)) = false := by
  rw [List.any_eq_false]
  intro i hi hmem
  have hle := le_of_mem_charactersFrom hi
  have hstart := (Interval.mem_iff.1 (of_decide_eq_true hmem)).1
  omega

/-- A byte is quoted among pieces that start at `place` and end at `stop`. -/
def quotedAmong (stop place : Nat) (ps : List Piece) (offset : Nat) : Bool :=
  hidesFrom stop place ps offset || (charactersFrom place ps).any fun i => decide (offset ∈ i)

/-- Behind a piece, the pieces that follow it tell what is quoted. -/
theorem quotedAmong_cons {p : Piece} {ps : List Piece} (hremark : ∀ text, p ≠ .remark text)
    (hopen : ∀ content, p = .quoted content false → ps = []) {stop place offset : Nat}
    (hstop : stop = place + Text.size ((p :: ps).flatMap Piece.text))
    (hle : place + p.text.size ≤ offset) :
    quotedAmong stop place (p :: ps) offset = quotedAmong stop (place + p.text.size) ps offset := by
  rw [quotedAmong, quotedAmong, hstop, hidesFrom_cons hremark hopen (by omega),
    if_neg (Nat.not_lt_of_le hle)]
  congr 1
  cases p with
  | character literal =>
    have hbehind : offset ∉ Interval.ofSize place literal.size := fun hmem =>
      absurd (Interval.mem_iff.1 hmem).2 (Nat.not_lt_of_le hle)
    rw [charactersFrom, List.any_cons, decide_eq_false hbehind, Bool.false_or]
  | quoted content closed => rfl
  | remark text => rfl
  | code c => rfl

end Line

/-- Behind a text, the same names end whether it is blotted or not. -/
def Text.KeepsEnds (chosen : Nat → Bool) (place : Nat) (t : Text) : Prop :=
  ∀ front front', EndsAlike front front' →
    EndsAlike (t.reverse ++ front) ((t.blot chosen place).reverse ++ front')

namespace Text.KeepsEnds

variable {chosen : Nat → Bool} {place : Nat} {s t : Text}

theorem nil : KeepsEnds chosen place [] := fun _ _ h => h

theorem append (hs : KeepsEnds chosen place s) (ht : KeepsEnds chosen (place + s.size) t) :
    KeepsEnds chosen place (s ++ t) := fun front front' h => by
  rw [blot_append, List.reverse_append, List.reverse_append, List.append_assoc, List.append_assoc]
  exact ht _ _ (hs _ _ h)

/-- What is not blotted is the same. -/
theorem of_not_chosen {c : Char} (h : chosen place = false) : KeepsEnds chosen place [c] :=
  fun _ _ hfront => by
    rw [blot, h, Bool.false_and]
    exact hfront.append [c]

/-- Blotted characters do not count in front of a character that ends the search for a name. -/
theorem of_stop {c : Char} (hc : isStop c) (hlast : t.getLast? = some c) :
    KeepsEnds chosen place t := fun front front' _ => by
  obtain ⟨start, rfl⟩ := List.getLast?_eq_some_iff.1 hlast
  obtain ⟨-, -, hkept⟩ := isStop_iff.1 hc
  rw [blot_append, blot, blot, hkept, Bool.and_false, List.reverse_append, List.reverse_append]
  exact .of_stop hc _ _

end Text.KeepsEnds

/-- A parenthesis in a character literal stands behind the apostrophe or behind the backslash. -/
theorem IsCharacterLiteral.keepsEnds {after before more : Text}
    (h : IsCharacterLiteral after (before ++ '(' :: more)) (chosen : Nat → Bool) (place : Nat) :
    before.KeepsEnds chosen place := by
  generalize hliteral : before ++ '(' :: more = literal at h
  cases h with
  | guarded =>
    rcases before with _ | ⟨d, _ | ⟨e, _ | ⟨f, _ | ⟨g, before⟩⟩⟩⟩ <;> simp at hliteral
    obtain ⟨-, rfl, -⟩ := hliteral
    exact .of_stop (c := '\\') (by decide) rfl
  | plain =>
    rcases before with _ | ⟨d, _ | ⟨e, _ | ⟨f, before⟩⟩⟩ <;> simp at hliteral
    obtain ⟨rfl, -⟩ := hliteral
    exact .of_stop (c := '\'') (by decide) rfl

namespace Line

variable {chosen : Nat → Bool} {stop place : Nat}

/-- In front of each parenthesis that is not hidden, the same names end. -/
def NamesKept (chosen : Nat → Bool) (stop place : Nat) (ps : List Piece) : Prop :=
  ∀ before after : Text, ps.flatMap Piece.text = before ++ '(' :: after →
    hidesFrom stop place ps (place + before.size) = false → before.KeepsEnds chosen place

theorem NamesKept.cons {p : Piece} {ps : List Piece} (hremark : ∀ text, p ≠ .remark text)
    (hopen : ∀ content, p = .quoted content false → ps = [])
    (hstop : stop = place + Text.size ((p :: ps).flatMap Piece.text))
    (hchosen : ∀ offset, place ≤ offset → chosen offset → quotedAmong stop place (p :: ps) offset)
    (hinner : p.isCode → ∀ before more : Text, p.text = before ++ '(' :: more →
      before.KeepsEnds chosen place)
    (hwhole : p.text.KeepsEnds chosen place)
    (h : stop = place + p.text.size + Text.size (ps.flatMap Piece.text) →
      (∀ offset, place + p.text.size ≤ offset → chosen offset →
        quotedAmong stop (place + p.text.size) ps offset) →
      NamesKept chosen stop (place + p.text.size) ps) :
    NamesKept chosen stop place (p :: ps) := by
  intro before after htext hvisible
  have hrest : NamesKept chosen stop (place + p.text.size) ps := by
    refine h (by simpa [Nat.add_assoc] using hstop) fun offset hle ho => ?_
    rw [← quotedAmong_cons hremark hopen hstop hle]
    exact hchosen offset (by omega) ho
  rw [hstop, hidesFrom_cons hremark hopen (Nat.le_add_right _ _), ← hstop] at hvisible
  rw [List.flatMap_cons] at htext
  split at hvisible
  · next hlt =>
    obtain ⟨mid, hp, hmid⟩ := Text.exists_middle htext.symm (by omega)
    cases mid with
    | nil =>
      rw [hp, List.append_nil] at hlt
      exact absurd hlt (Nat.lt_irrefl _)
    | cons c mid =>
      obtain ⟨rfl, -⟩ := List.cons.inj hmid
      exact hinner (by simpa using hvisible) before mid hp
  · next hge =>
    obtain ⟨mid, rfl, hmid⟩ := Text.exists_middle htext (by omega)
    rw [Text.size_append, ← Nat.add_assoc] at hvisible
    exact hwhole.append (hrest mid after hmid hvisible)

theorem namesKept_nil : NamesKept chosen stop place [] := by
  intro before after htext
  simp at htext

/-- If only quoted bytes are blotted, names in front of parentheses that are not hidden are kept. -/
theorem namesKept_pieces (place : Nat) (t : Text)
    (hstop : stop = place + Text.size ((pieces t).flatMap Piece.text))
    (hchosen : ∀ o, place ≤ o → chosen o → quotedAmong stop place (pieces t) o) :
    NamesKept chosen stop place (pieces t) := by
  fun_induction pieces t generalizing place with
  | case1 => exact namesKept_nil
  | case2 rest content after heq ih =>
    refine .cons (by simp) (by simp) hstop hchosen (by simp [Piece.isCode]) ?_ (ih _)
    refine .of_stop (c := '"') (by decide) (List.getLast?_eq_some_iff.2 ⟨'"' :: content, ?_⟩)
    rfl
  | case3 rest content heq =>
    -- Nothing is visible behind the quote.
    intro before after htext hvisible
    have hsize := congrArg Text.size htext
    rw [List.flatMap_singleton, Text.size_append, Text.size_cons] at hsize
    have hpos := Char.utf8Size_pos '('
    rw [hstop, hidesFrom_cons (by simp) (by simp) (Nat.le_add_right _ _), if_pos (by omega)]
      at hvisible
    cases hvisible
  | case4 rest =>
    intro before after htext hvisible
    simp [hidesFrom, quotedFrom, remarkFrom] at hvisible
  | case5 c rest _ _ literal after heq ih =>
    have hliteral := (characterLiteral?_eq_some_iff.1 heq).2
    refine .cons (by simp) (by simp) hstop hchosen (fun _ before more htext => ?_) ?_ (ih _)
    · rw [Piece.text] at htext
      rw [htext] at hliteral
      exact hliteral.keepsEnds chosen place
    · refine .of_stop (c := '\'') (by decide) ?_
      cases hliteral <;> rfl
  | case6 c rest hquote hremark heq ih =>
    have hcode : chosen place = false := by
      refine Bool.eq_false_iff.2 fun ho => ?_
      have hquoted := hchosen place (Nat.le_refl _) ho
      have hpos := Char.utf8Size_pos c
      have hsize : (Piece.code c).text.size = c.utf8Size := rfl
      rw [quotedAmong, hstop, hidesFrom_cons (by simp) (by simp) (Nat.le_refl _),
        if_pos (by omega)] at hquoted
      exact absurd hquoted (Bool.not_eq_true _ ▸ any_charactersFrom_of_lt (pieces rest) (by omega))
    refine .cons (by simp) (by simp) hstop hchosen (fun _ before more htext => ?_) ?_ (ih _)
    · cases before with
      | nil => exact .nil
      | cons d before => simp [Piece.text] at htext
    · exact .of_not_chosen hcode

/-! ## The enclosing call -/

/-- The call at the first parenthesis of a stack that follows the name of a function. -/
def TopCall (l : Line) (stack : List Nat) (name : Text) : Prop :=
  ∃ inner paren outer, stack = inner ++ paren :: outer ∧ l.CallsAt paren name ∧
    ∀ p ∈ inner, ∀ name, ¬ l.CallsAt p name

/-- The parentheses that are open at an offset for a reader that skips some more bytes. -/
def openParensBut (l : Line) (skipped : Nat → Bool) (offset : Nat) : List Nat :=
  openFrom (fun o => l.hides o || skipped o) offset l.start [] l.text

variable {l : Line}

theorem openParens_blot (l : Line) (chosen : Nat → Bool) (offset : Nat) :
    (l.blot chosen).openParens offset = l.openParensBut chosen offset := by
  rw [openParens, (l.alike_blot chosen).hides_eq]
  exact openFrom_blot _ _ _ _ _ _

/-- At a parenthesis that is not skipped, the same function is called. -/
theorem callsAt_blot_iff (hchosen : ∀ o, chosen o → l.isQuoted o) {offset paren : Nat}
    (hparen : paren ∈ l.openParensBut chosen offset) {name : Text} :
    (l.blot chosen).CallsAt paren name ↔ l.CallsAt paren name := by
  rcases mem_openFrom hparen with hmem | ⟨before, after, htext, rfl, hvisible⟩
  · cases hmem
  obtain ⟨hvisible, hkept⟩ := Bool.or_eq_false_iff.1 hvisible
  have htext' : (l.blot chosen).text = Text.blot chosen l.start before
      ++ '(' :: Text.blot chosen (l.start + before.size + '('.utf8Size) after := by
    rw [blot, htext, Text.blot_append, Text.blot, hkept, Bool.false_and]
    rfl
  have hkeeps : NamesKept chosen l.extent.stop l.start (pieces l.text) := by
    refine namesKept_pieces l.start l.text ?_ fun o _ ho => hchosen o ho
    rw [pieces_flatMap_text]
    rfl
  have hends := hkeeps before after (by rw [pieces_flatMap_text, htext]) hvisible
  have hname : callee? (before.blot chosen l.start).reverse = callee? before.reverse := by
    have hname := hends [] [] (fun _ => rfl) []
    simp only [List.append_nil, List.nil_append] at hname
    rw [callee?, callee?, hname]
  have hcalls : (l.blot chosen).CallsAt _ name ↔ _ := callsAt_iff_endsInCall htext'
  rw [blot_start, (Text.alike_blot chosen l.start before).size_eq] at hcalls
  rw [hcalls, callsAt_iff_endsInCall htext, ← List.reverse_reverse (before.blot chosen l.start),
    ← callee?_eq_some_iff, hname, callee?_eq_some_iff, List.reverse_reverse]

/-- In a blotted line, the search answers with the first name on the stack that skips what is
blotted. -/
theorem enclosingCall?_blot_eq_some_iff (hchosen : ∀ o, chosen o → l.isQuoted o) {offset : Nat}
    {name : Text} : enclosingCall? 0 ((l.blot chosen).cellsBefore offset) = some name ↔
      l.TopCall (l.openParensBut chosen offset) name := by
  rw [enclosingCall?_eq_some_iff, openParens_blot, TopCall]
  have hcalls {paren : Nat} (hparen : paren ∈ l.openParensBut chosen offset) (name : Text) :
      (l.blot chosen).CallsAt paren name ↔ l.CallsAt paren name := callsAt_blot_iff hchosen hparen
  constructor
  · rintro ⟨inner, paren, outer, hstack, hcall, hinner⟩
    rw [hstack] at hcalls
    exact ⟨inner, paren, outer, hstack, (hcalls (by simp) name).1 hcall,
      fun p hp name => mt (hcalls (by simp [hp]) name).2 (hinner p hp name)⟩
  · rintro ⟨inner, paren, outer, hstack, hcall, hinner⟩
    rw [hstack] at hcalls
    exact ⟨inner, paren, outer, hstack, (hcalls (by simp) name).2 hcall,
      fun p hp name => mt (hcalls (by simp [hp]) name).1 (hinner p hp name)⟩

def isParenAt (l : Line) (offset : Nat) : Bool :=
  (l.text.splitAt? (offset - l.start)).any fun (_, rest) => rest.head?.any isParen

/-- The stack depends on which parentheses in front of the offset are hidden. -/
theorem openFrom_congr {hidden hidden' : Nat → Bool} {t : Text} (stack : List Nat)
    (h : ∀ before c after, t = before ++ c :: after → isParen c →
      place + Text.size before < stop →
      hidden (place + Text.size before) = hidden' (place + Text.size before)) :
    openFrom hidden stop place stack t = openFrom hidden' stop place stack t := by
  induction t generalizing place stack with
  | nil => rfl
  | cons c t ih =>
    have hrest (stack : List Nat) :
        openFrom hidden stop (place + c.utf8Size) stack t
          = openFrom hidden' stop (place + c.utf8Size) stack t := by
      refine ih stack fun before d after ht hd hlt => ?_
      have hbefore := h (c :: before) d after (by rw [ht, List.cons_append]) hd
      rw [Text.size_cons, ← Nat.add_assoc] at hbefore
      exact hbefore hlt
    rw [openFrom, openFrom, hrest]
    congr 1
    by_cases hlt : stop ≤ place
    · simp [hlt]
    · by_cases hc : isParen c
      · have hfirst := h [] c t rfl hc (by simpa using hlt)
        rw [Text.size_nil, Nat.add_zero] at hfirst
        rw [hfirst]
      · obtain ⟨hopen, hclose⟩ : c ≠ '(' ∧ c ≠ ')' := by simpa [isParen] using hc
        simp [hopen, hclose]

/-- Skipping strings and the remark once more changes nothing. -/
theorem openParensBut_isQuoted (l : Line) (chosen : Nat → Bool) (offset : Nat) :
    l.openParensBut (fun o => chosen o && l.isQuoted o) offset
      = l.openParensBut (fun o => chosen o && l.isCharacter o) offset := by
  have hskipped : (fun o => l.hides o || (chosen o && l.isQuoted o))
      = fun o => l.hides o || (chosen o && l.isCharacter o) := by
    funext o
    rw [isQuoted]
    cases l.hides o <;> simp
  rw [openParensBut, openParensBut, hskipped]

/-- If nothing is blotted in a character literal in front of the offset, nothing more is skipped. -/
theorem openParensBut_of_not_chosen {offset : Nat}
    (h : ∀ o < offset, l.isCharacter o → l.isParenAt o → chosen o = false) :
    l.openParensBut (fun o => chosen o && l.isCharacter o) offset = l.openParens offset := by
  refine openFrom_congr [] fun before c after ht hc hlt => ?_
  cases hcharacter : l.isCharacter (l.start + before.size) with
  | false => simp [hcharacter]
  | true =>
    have hparen : l.isParenAt (l.start + before.size) := by
      rw [isParenAt, Nat.add_sub_cancel_left, ht, Text.splitAt?_append]
      exact hc
    simp [h _ hlt hcharacter hparen]

end Line

namespace Source

theorem inComment_blot (s : Source) (chosen : Nat → Bool) (offset : Nat) :
    (s.blot chosen).inComment offset = s.inComment offset := by
  have hremark : (s.blot chosen).inRemark offset = s.inRemark offset := by
    rw [inRemark, inRemark, lineAt?_blot, Option.bind_map]
    simp only [Function.comp_def, (Line.alike_blot _ _).remark?_eq]
  rw [inComment, inComment, hremark, inBlockComment_eq_of_alike (s.alike_blot chosen)]

theorem inString_blot (s : Source) (chosen : Nat → Bool) (offset : Nat) :
    (s.blot chosen).inString offset = s.inString offset := by
  rw [inString, inString, quoteAt?, quoteAt?, lineAt?_blot, Option.map_map]
  simp only [Function.comp_def, (Line.alike_blot _ _).quotes_eq]

/-- Blotted parentheses keep the enclosing call just if the stack of open parentheses has the same
name on top without those that were blotted in character literals. So they do if no parenthesis is
blotted in a character literal in front of the place. As long as they do, tuples may be shown as
colors where they could before. -/
theorem enclosingCall?_blot (s : Source) (chosen : Nat → Bool) (offset : Nat) :
    ((s.blot chosen).enclosingCall? offset = s.enclosingCall? offset ↔
      ∀ l, s.lineAt? offset = some l → ∀ name,
        (l.TopCall (l.openParensBut (fun o => chosen o && l.isCharacter o) offset) name ↔
          l.TopCall (l.openParens offset) name)) ∧
    ((∀ l, s.lineAt? offset = some l →
        ∀ o < offset, l.isCharacter o → l.isParenAt o → chosen o = false) →
      (s.blot chosen).enclosingCall? offset = s.enclosingCall? offset) ∧
    ((s.blot chosen).enclosingCall? offset = s.enclosingCall? offset →
      (s.blot chosen).admitsTuple offset = s.admitsTuple offset) := by
  have hiff : (s.blot chosen).enclosingCall? offset = s.enclosingCall? offset ↔
      ∀ l, s.lineAt? offset = some l → ∀ name,
        (l.TopCall (l.openParensBut (fun o => chosen o && l.isCharacter o) offset) name ↔
          l.TopCall (l.openParens offset) name) := by
    rw [enclosingCall?, enclosingCall?, lineAt?_blot]
    cases s.lineAt? offset with
    | none => simp
    | some l =>
      have hquoted (o : Nat) (ho : (chosen o && l.isQuoted o) = true) : l.isQuoted o :=
        (Bool.and_eq_true_iff.1 ho).2
      simp only [Option.map_some, Option.bind_some, Option.some.injEq, forall_eq']
      rw [Option.ext_iff]
      refine forall_congr' fun name => ?_
      rw [Line.enclosingCall?_blot_eq_some_iff hquoted, Line.openParensBut_isQuoted,
        Line.enclosingCall?_eq_some_iff]
      rfl
  refine ⟨hiff, fun h => hiff.2 fun l hl name => ?_, fun h => ?_⟩
  · rw [Line.openParensBut_of_not_chosen (h l hl)]
  · rw [admitsTuple, admitsTuple, inComment_blot, inString_blot, h]

/-- Two character literals whose parentheses match may be blotted together, and the parentheses of
the string and of the remark without them. -/
theorem enclosingCall?_blot_matching :
    let s : Source := { text := "f('(', ')', \")\", 2) // (".toList }
    let all : Nat → Bool := fun _ => true
    let late : Nat → Bool := (12 ≤ ·)
    (s.blot all).text = "f('a', 'a', \"a\", 2) // a".toList ∧
      (s.blot late).text = "f('(', ')', \"a\", 2) // a".toList ∧
      s.enclosingCall? 17 = some "f".toList ∧
      ∀ chosen ∈ [all, late], (s.blot chosen).enclosingCall? 17 = s.enclosingCall? 17 ∧
        (s.blot chosen).admitsTuple 17 = s.admitsTuple 17 := by
  intro s all late
  have hline : s.lineAt? 17 = some ⟨0, s.text⟩ := by decide +kernel
  obtain ⟨hall, -, htupleAll⟩ := enclosingCall?_blot s all 17
  obtain ⟨-, hlate, htupleLate⟩ := enclosingCall?_blot s late 17
  have hcallAll : (s.blot all).enclosingCall? 17 = s.enclosingCall? 17 := by
    refine hall.2 fun l hl name => ?_
    obtain rfl := Option.some.inj (hline.symm.trans hl)
    have hstack : Line.openParensBut ⟨0, s.text⟩
        (fun o => all o && Line.isCharacter ⟨0, s.text⟩ o) 17
          = Line.openParens ⟨0, s.text⟩ 17 := by decide +kernel
    rw [hstack]
  have hcallLate : (s.blot late).enclosingCall? 17 = s.enclosingCall? 17 := by
    refine hlate fun l hl => ?_
    obtain rfl := Option.some.inj (hline.symm.trans hl)
    decide +kernel
  refine ⟨by decide +kernel, by decide +kernel, by decide +kernel, fun chosen hchosen => ?_⟩
  simp only [List.mem_cons, List.not_mem_nil, or_false] at hchosen
  rcases hchosen with rfl | rfl
  · exact ⟨hcallAll, htupleAll hcallAll⟩
  · exact ⟨hcallLate, htupleLate hcallLate⟩

/-- A parenthesis in a character literal closes a call around it, so that its arguments pass for a
color, or keeps open one that is closed behind it, so that no color is shown there. -/
theorem character_paren_moves_call :
    let closing : Source := { text := "f(')', 1, 2, 3)".toList }
    let opening : Source := { text := "f('('), 1, 2, 3".toList }
    let chosen : Nat → Bool := (· == 3)
    (closing.isQuoted 3 ∧ (closing.blot chosen).text = "f('a', 1, 2, 3)".toList ∧
      closing.enclosingCall? 7 = none ∧ (closing.blot chosen).enclosingCall? 7 = some "f".toList ∧
      closing.admitsTuple 7 = true ∧ (closing.blot chosen).admitsTuple 7 = false) ∧
    (opening.isQuoted 3 ∧ (opening.blot chosen).text = "f('a'), 1, 2, 3".toList ∧
      opening.enclosingCall? 8 = some "f".toList ∧ (opening.blot chosen).enclosingCall? 8 = none ∧
      opening.admitsTuple 8 = false ∧ (opening.blot chosen).admitsTuple 8 = true) := by
  decide +kernel

end Source

end Swatch

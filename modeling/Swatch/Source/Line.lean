-- SUMMARY: One source line, cut into quoted strings, character literals, a remark and code.
import Swatch.Text.Basic
import Swatch.Text.Occurrence

/-!
# Source lines

Strings and remarks are found line by line. A line is cut into pieces whose
texts, joined, give the line back: quoted strings, character literals, plain
characters of code, and the remark that `//` opens outside a string. A string
that is not closed takes the rest of its line. Inside a string a backslash
guards the character behind it.

A character literal is a character of one byte between apostrophes, with or
without a backslash before it. Any other apostrophe is plain code.
-/

namespace Swatch

/-! ## Pieces -/

inductive Piece where
  /-- A string, without its quotes; one that is not closed ends with its line. -/
  | quoted (content : Text) (closed : Bool)
  /-- A character literal, with its apostrophes. -/
  | character (literal : Text)
  /-- A remark, from the `//` that opens it to the end of the line. -/
  | remark (text : Text)
  /-- One character of code. -/
  | code (c : Char)
  deriving DecidableEq, Repr

namespace Piece

def text : Piece → Text
  | .quoted content closed => '"' :: content ++ (if closed then ['"'] else [])
  | .character literal => literal
  | .remark text => text
  | .code c => [c]

/-- Character literals and plain characters are code; strings and remarks are not. -/
def isCode : Piece → Bool
  | .quoted _ _ => false
  | .remark _ => false
  | .character _ => true
  | .code _ => true

end Piece

/-- The content of a string behind its opening quote, and what follows the closing quote, if there
is one. -/
def quotedContent : Text → Text × Option Text
  | [] => ([], none)
  | '"' :: rest => ([], some rest)
  | '\\' :: c :: rest =>
    let (content, after) := quotedContent rest
    ('\\' :: c :: content, after)
  | c :: rest =>
    let (content, after) := quotedContent rest
    (c :: content, after)

/-- Nothing but the closing quote is lost. -/
theorem quotedContent_append (t : Text) :
    t = (quotedContent t).1 ++
      (match (quotedContent t).2 with | some after => '"' :: after | none => []) := by
  fun_induction quotedContent t with
  | case1 => rfl
  | case2 => rfl
  | case3 c rest content after heq ih => rw [heq] at ih; exact congrArg ('\\' :: c :: ·) ih
  | case4 c rest _ _ content after heq ih => rw [heq] at ih; exact congrArg (c :: ·) ih

theorem quotedContent_length {t after : Text} (h : (quotedContent t).2 = some after) :
    after.length < t.length := by
  have happ := congrArg List.length (quotedContent_append t)
  simp only [h, List.length_append, List.length_cons] at happ
  omega

/-- A character literal that a text starts with, and what follows it. -/
def characterLiteral? : Text → Option (Text × Text)
  | '\'' :: '\\' :: c :: '\'' :: rest =>
    if c.utf8Size = 1 then some (['\'', '\\', c, '\''], rest) else none
  | '\'' :: c :: '\'' :: rest =>
    if c.utf8Size = 1 then some (['\'', c, '\''], rest) else none
  | _ => none

theorem characterLiteral?_append {t literal rest : Text}
    (h : characterLiteral? t = some (literal, rest)) : t = literal ++ rest := by
  fun_cases characterLiteral? t <;> grind [characterLiteral?]

theorem characterLiteral?_length {t literal rest : Text}
    (h : characterLiteral? t = some (literal, rest)) : rest.length < t.length := by
  fun_cases characterLiteral? t <;> grind [characterLiteral?]

/-- The pieces of a line. -/
def pieces : Text → List Piece
  | [] => []
  | '"' :: rest =>
    match _h : quotedContent rest with
    | (content, some after) => .quoted content true :: pieces after
    | (content, none) => [.quoted content false]
  | '/' :: '/' :: rest => [.remark ('/' :: '/' :: rest)]
  | c :: rest =>
    match _h : characterLiteral? (c :: rest) with
    | some (literal, after) => .character literal :: pieces after
    | none => .code c :: pieces rest
  termination_by t => t.length
  decreasing_by
    · have : (quotedContent rest).2 = some after := by rw [_h]
      have := quotedContent_length this
      simp only [List.length_cons]
      omega
    · exact characterLiteral?_length _h
    · simp

/-! ## Lines -/

structure Quoted where
  /-- The bytes between the quotes. -/
  content : Interval
  /-- A closing quote stands on the same line. -/
  closed : Bool
  deriving DecidableEq, Repr

namespace Quoted

/-- An offset touches the content: inside it, or at the end of one that is not closed. -/
def holds (q : Quoted) (offset : Nat) : Bool :=
  decide (q.content.start ≤ offset) &&
    (decide (offset < q.content.stop) || (!q.closed && decide (offset = q.content.stop)))

end Quoted

/-- A line of a text, without what ends it. -/
structure Line where
  /-- The offset of the line's first byte. -/
  start : Nat
  text : Text
  deriving DecidableEq, Repr

namespace Line

/-- The bytes of a line, without what ends it. -/
def extent (l : Line) : Interval :=
  .ofSize l.start l.text.size

/-- The strings among pieces that start at an offset. -/
def quotedFrom (offset : Nat) : List Piece → List Quoted
  | [] => []
  | p :: ps =>
    let rest := quotedFrom (offset + p.text.size) ps
    match p with
    | .quoted content closed => ⟨.ofSize (offset + 1) content.size, closed⟩ :: rest
    | _ => rest

def quotes (l : Line) : List Quoted :=
  quotedFrom l.start (pieces l.text)

/-- Where the remark among pieces that start at an offset opens. -/
def remarkFrom (offset : Nat) : List Piece → Option Nat
  | [] => none
  | .remark _ :: _ => some offset
  | p :: ps => remarkFrom (offset + p.text.size) ps

/-- Where the remark of a line opens. -/
def remark? (l : Line) : Option Nat :=
  remarkFrom l.start (pieces l.text)

/-! ## The enclosing call -/

/-- The characters of a line, each with whether it is code. -/
def cells (l : Line) : List (Char × Bool) :=
  (pieces l.text).flatMap fun p => p.text.map (·, p.isCode)

/-- The cells that start before an offset, nearest first. -/
def cellsBefore (l : Line) (offset : Nat) : List (Char × Bool) :=
  (l.cells.take (go l.start l.text)).reverse
where
  go (place : Nat) : Text → Nat
    | [] => 0
    | c :: t => if place < offset then go (place + c.utf8Size) t + 1 else 0

end Line

def isNameChar (c : Char) : Bool :=
  c.isAlphanum || c == '_' || c == '@'

/-- Words that come before a parenthesis without being called. -/
def nonCallWords : List String :=
  ["if", "while", "for", "switch", "return", "sizeof", "tagof", "defined", "case", "else", "do",
   "state"]

/-- The name at the end of a text that is given with its last character first; blanks may follow
the name. A name does not start with a digit. -/
def trailingName? (before : Text) : Option Text :=
  match ((before.dropWhile isBlank).takeWhile isNameChar).reverse with
  | [] => none
  | c :: name => if c.isDigit then none else some (c :: name)

/-- The name of the function that is called with a parenthesis, given what stands before it. -/
def callee? (before : Text) : Option Text :=
  (trailingName? before).filter fun name => !nonCallWords.any (·.toList == name)

/-- The function whose parenthesis encloses a place, given the cells before it, nearest first, and
how many closing parentheses still have to be matched. A parenthesis that only groups is passed. -/
def enclosingCall? : (depth : Nat) → List (Char × Bool) → Option Text
  | _, [] => none
  | depth, (')', true) :: before => enclosingCall? (depth + 1) before
  | depth + 1, ('(', true) :: before => enclosingCall? depth before
  | 0, ('(', true) :: before =>
    match callee? (before.map Prod.fst) with
    | some name => some name
    | none => enclosingCall? 0 before
  | depth, _ :: before => enclosingCall? depth before

end Swatch

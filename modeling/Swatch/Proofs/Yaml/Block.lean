-- SUMMARY: Maps written in blocks of lines, with the tokens and the node that each stands for.
import Mathlib.Data.List.TakeWhile
import Swatch.Yaml.Node

/-!
# Maps in blocks

The plainest way to write a map is one line for each key, with the value behind the colon
or, if the value is a map itself, on deeper lines below. This is a subset of what a
document may be: keys and values are single words that need no quotes.

A block is described by its entries. It has a text for each column that it can start in,
and it stands for tokens and for a node whatever the column is.
-/

namespace Swatch.Yaml

/-! ## Words -/

/-- A plain word may start with the character: it marks nothing and is not passed by. -/
def startsWord (c : Char) : Bool :=
  !Scanner.isIndicator c && !isGapChar c && c != byteOrderMark

/-- A scalar that needs no quotes, also where a colon follows. It is short enough for a key. -/
structure Word where
  text : Text
  length_le : text.length ≤ 1024 := by decide
  solid : text.all fun c => isAllowed c && !isGapChar c := by decide
  starts : text.head?.any startsWord := by decide
  ends : text.getLast? ≠ some ':' := by decide

namespace Word

def node (w : Word) : Node :=
  .scalar w.text .plain none

def token (w : Word) : Token :=
  .scalar w.text .plain

theorem exists_cons (w : Word) : ∃ c t, w.text = c :: t ∧ startsWord c := by
  have hstarts := w.starts
  cases h : w.text with
  | nil => simp [h] at hstarts
  | cons c t => exact ⟨c, t, rfl, by simpa [h] using hstarts⟩

theorem not_isGapChar (w : Word) {c : Char} (hc : c ∈ w.text) : isGapChar c = false := by
  have hsolid := List.all_eq_true.1 w.solid c hc
  rw [Bool.and_eq_true] at hsolid
  simpa using hsolid.2

theorem not_isBreak (w : Word) {c : Char} (hc : c ∈ w.text) : isBreak c = false := by
  have hgap := w.not_isGapChar hc
  rw [isGapChar, Bool.or_eq_false_iff] at hgap
  exact hgap.2

theorem isAllowed (w : Word) {c : Char} (hc : c ∈ w.text) : isAllowed c := by
  have hsolid := List.all_eq_true.1 w.solid c hc
  rw [Bool.and_eq_true] at hsolid
  exact hsolid.1

end Word

/-! ## Blocks -/

/-- The entries of a map: keys with words, and keys with the entries of a map below them. -/
inductive Block where
  | nil
  | entry (name value : Word) (more : Block)
  | nested (name : Word) (below more : Block)

namespace Block

/-- The lines of the entries, which start in a column. -/
def write (column : Nat) : Block → Text
  | nil => []
  | entry name value more =>
    List.replicate column ' '
      ++ (name.text ++ ':' :: ' ' :: (value.text ++ '\n' :: more.write column))
  | nested name below more =>
    List.replicate column ' '
      ++ (name.text ++ ':' :: '\n' :: (below.write (column + 2) ++ more.write column))

/-- The tokens of a map with the tokens of its entries; a map without entries is left out. -/
def enclose : List Token → List Token
  | [] => []
  | ts => .blockMap :: ts ++ [.blockEnd]

/-- The tokens of the entries. -/
def tokens : Block → List Token
  | nil => []
  | entry name value more => .key :: name.token :: .value :: value.token :: more.tokens
  | nested name below more =>
    .key :: name.token :: .value :: (enclose below.tokens ++ more.tokens)

/-- The node of a map with some pairs; a map without pairs is left out. -/
def nodeOf : List (Node × Node) → Node
  | [] => .empty
  | pairs => .map pairs

def pairs : Block → List (Node × Node)
  | nil => []
  | entry name value more => (name.node, value.node) :: more.pairs
  | nested name below more => (name.node, nodeOf below.pairs) :: more.pairs

def node (b : Block) : Node :=
  nodeOf b.pairs

end Block

/-! ## Indentation -/

/-- The spaces that a text starts with. -/
def indentOf (t : Text) : Nat :=
  (t.takeWhile (· == ' ')).length

/-- What follows the spaces that a text starts with. -/
def bodyOf (t : Text) : Text :=
  t.dropWhile (· == ' ')

theorem replicate_indentOf_append (t : Text) :
    List.replicate (indentOf t) ' ' ++ bodyOf t = t := by
  have hspaces : t.takeWhile (· == ' ') = List.replicate (indentOf t) ' ' :=
    List.eq_replicate_of_mem fun c hc => by simpa using List.mem_takeWhile_imp hc
  rw [← hspaces]
  exact List.takeWhile_append_dropWhile

theorem length_bodyOf_le (t : Text) : (bodyOf t).length ≤ t.length :=
  (List.dropWhile_sublist _).length_le

theorem indentOf_le_length (t : Text) : indentOf t ≤ t.length :=
  (List.takeWhile_sublist _).length_le

/-- A text is at its end, or a word follows the spaces that it starts with, which are not
too many. -/
structure Indented (most : Nat) (t : Text) : Prop where
  indent_le : indentOf t ≤ most
  starts : (bodyOf t).head?.all startsWord

namespace Indented

theorem nil (most : Nat) : Indented most [] where
  indent_le := Nat.zero_le most
  starts := rfl

theorem mono {most more : Nat} {t : Text} (h : Indented most t) (hle : most ≤ more) :
    Indented more t where
  indent_le := Nat.le_trans h.indent_le hle
  starts := h.starts

end Indented

theorem startsWord_ne_space {c : Char} (h : startsWord c) : c ≠ ' ' := by
  rintro rfl
  exact absurd h (by decide)

theorem indentOf_word (column : Nat) (w : Word) (rest : Text) :
    indentOf (List.replicate column ' ' ++ (w.text ++ rest)) = column := by
  obtain ⟨c, t, hw, hc⟩ := w.exists_cons
  simp [indentOf, hw, startsWord_ne_space hc, List.takeWhile_append_of_pos]

theorem bodyOf_word (column : Nat) (w : Word) (rest : Text) :
    bodyOf (List.replicate column ' ' ++ (w.text ++ rest)) = w.text ++ rest := by
  obtain ⟨c, t, hw, hc⟩ := w.exists_cons
  simp [bodyOf, hw, startsWord_ne_space hc, List.dropWhile_append_of_pos]

theorem Indented.word (column : Nat) (w : Word) (rest : Text) :
    Indented column (List.replicate column ' ' ++ (w.text ++ rest)) where
  indent_le := Nat.le_of_eq (indentOf_word column w rest)
  starts := by
    obtain ⟨c, t, hw, hc⟩ := w.exists_cons
    rw [bodyOf_word, hw]
    simpa using hc

/-- The lines of a block can be put in front of any lines that are not deeper. -/
theorem Indented.write {column : Nat} {t : Text} (b : Block) (h : Indented column t) :
    Indented column (b.write column ++ t) := by
  cases b with
  | nil => exact h
  | entry name value more =>
    rw [Block.write, List.append_assoc, List.append_assoc]
    exact .word column name _
  | nested name below more =>
    rw [Block.write, List.append_assoc, List.append_assoc]
    exact .word column name _

namespace Block

/-- Nothing is written that a stream may not hold. -/
theorem isAllowed_write (b : Block) (column : Nat) : (b.write column).all isAllowed := by
  have hspaces (column : Nat) : (List.replicate column ' ').all isAllowed := by
    simp [List.all_replicate, Yaml.isAllowed]
  have hword (w : Word) : w.text.all isAllowed := List.all_eq_true.2 fun c => w.isAllowed
  induction b generalizing column with
  | nil => rfl
  | entry name value more ih =>
    simp [write, List.all_append, hspaces, hword, ih, Yaml.isAllowed]
  | nested name below more ihBelow ihMore =>
    simp [write, List.all_append, hspaces, hword, ihBelow, ihMore, Yaml.isAllowed]

end Block

end Swatch.Yaml

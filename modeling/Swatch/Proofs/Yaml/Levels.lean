-- SUMMARY: The blocks that a scanner is in, left and entered apart from everything else it knows.
import Swatch.Proofs.Yaml.Block
import Swatch.Yaml.Stream

/-!
# Levels of blocks

Of all that a scanner knows, entering and leaving blocks concerns the columns of the
blocks and the tokens only. Leaving the blocks deeper than one column and then those
deeper than a smaller one is leaving the latter at once, so blocks that are still open at
the end of some lines need not be followed: they are left by whatever comes next.
-/

namespace Swatch.Yaml

/-- The columns of the blocks, innermost first, and the tokens so far. -/
structure Levels where
  indent : Int
  outer : List Int
  tokens : List Token

namespace Levels

variable {l : Levels} {column column' : Int}

/-- Leave the blocks that are deeper than a column. -/
def leave (column : Int) (l : Levels) : Levels :=
  go l.indent l.outer l.tokens
where
  go (indent : Int) : List Int → List Token → Levels
    | [], tokens => ⟨indent, [], tokens⟩
    | outer :: more, tokens =>
      if column < indent then go outer more (tokens ++ [.blockEnd])
      else ⟨indent, outer :: more, tokens⟩

/-- Enter a block of a map at a column, unless it is open already. -/
def enter (column : Nat) (l : Levels) : Levels :=
  if (column : Int) ≤ l.indent then l
  else ⟨column, l.indent :: l.outer, l.tokens ++ [.blockMap]⟩

def add (ts : List Token) (l : Levels) : Levels :=
  { l with tokens := l.tokens ++ ts }

/-- Add the tokens of entries that start in a column. A map without entries is not entered. -/
def fill (column : Nat) (ts : List Token) (l : Levels) : Levels :=
  if ts.isEmpty then l else (l.enter column).add ts

@[simp] theorem add_indent (ts : List Token) (l : Levels) : (l.add ts).indent = l.indent := rfl

theorem add_add (ts ts' : List Token) (l : Levels) : (l.add ts).add ts' = l.add (ts ++ ts') := by
  simp [add]

@[simp] theorem fill_nil (n : Nat) (l : Levels) : l.fill n [] = l := rfl

theorem fill_cons (n : Nat) (t : Token) (ts : List Token) (l : Levels) :
    l.fill n (t :: ts) = (l.enter n).add (t :: ts) := rfl

theorem fill_cons_indent {n : Nat} (h : l.indent ≤ n) (t : Token) (ts : List Token) :
    (l.fill n (t :: ts)).indent = n := by
  rw [fill_cons, add_indent, enter]
  split
  · next hle => exact Int.le_antisymm h hle
  · rfl

/-- A map that has been entered is not entered again. -/
theorem enter_fill_cons (n : Nat) (t : Token) (ts : List Token) (l : Levels) :
    (l.fill n (t :: ts)).enter n = l.fill n (t :: ts) := by
  have hle : (n : Int) ≤ (l.fill n (t :: ts)).indent := by
    rw [fill_cons, add_indent, enter]
    split
    · next h => exact h
    · exact Int.le_refl _
  rw [enter, if_pos hle]

theorem add_fill_cons (n : Nat) (t : Token) (ts ts' : List Token) (l : Levels) :
    (l.fill n (t :: ts)).add ts' = l.fill n (t :: ts ++ ts') :=
  add_add _ _ _

theorem fill_fill_cons (n : Nat) (t : Token) (ts ts' : List Token) (l : Levels) :
    (l.fill n (t :: ts)).fill n ts' = l.fill n (t :: ts ++ ts') := by
  cases ts' with
  | nil => rw [fill_nil, List.append_nil]
  | cons t' ts' => rw [fill_cons n t' ts', enter_fill_cons, add_fill_cons]

/-- Nothing is left where no block is deep enough. -/
theorem leave_eq_self (h : l.indent ≤ column) : l.leave column = l := by
  obtain ⟨indent, outer, tokens⟩ := l
  cases outer with
  | nil => rfl
  | cons i outer => exact if_neg (Int.not_lt.2 h)

theorem leave_leave (h : column ≤ column') (l : Levels) :
    (l.leave column').leave column = l.leave column := by
  obtain ⟨indent, outer, tokens⟩ := l
  simp only [leave]
  induction outer generalizing indent tokens with
  | nil => rfl
  | cons i outer ih =>
    by_cases hlt : column' < indent
    · rw [leave.go, if_pos hlt, ih, leave.go, if_pos (Int.lt_of_le_of_lt h hlt)]
    · rw [leave.go, if_neg hlt]

/-- A map that has been filled is left with the token that closes it. -/
theorem leave_fill {n : Nat} (hindent : l.indent ≤ column) (hlt : column < n) (ts : List Token) :
    (l.fill n ts).leave column = l.add (Block.enclose ts) := by
  have hstay (ts : List Token) : (l.add ts).leave column = l.add ts := leave_eq_self hindent
  cases ts with
  | nil => simpa [Block.enclose, add] using hstay []
  | cons t ts =>
    have hnot : ¬ (n : Int) ≤ l.indent := by omega
    rw [fill_cons, enter, if_neg hnot, leave, add, leave.go, if_pos hlt]
    simpa [leave, add, Block.enclose] using hstay (Block.enclose (t :: ts))

end Levels

namespace Scanner

def levels (s : Scanner) : Levels :=
  ⟨s.indent, s.outer, s.tokens.toList⟩

/-- The scanner in other blocks and with other tokens. -/
def withLevels (s : Scanner) (l : Levels) : Scanner :=
  { s with indent := l.indent, outer := l.outer, tokens := l.tokens.toArray }

@[simp] theorem withLevels_levels (s : Scanner) : s.withLevels s.levels = s := rfl

theorem inFlow_eq_false {s : Scanner} (h : s.outerKeys = []) : s.inFlow = false := by
  rw [inFlow, h]
  rfl

/-- Outside of brackets, blocks are left as the levels say. -/
theorem unroll_eq (s : Scanner) (h : s.outerKeys = []) (column : Int) :
    s.unroll column = s.withLevels (s.levels.leave column) := by
  rw [unroll, if_neg (by simp [inFlow_eq_false h])]
  obtain ⟨rest, offset, line, col, tokens, indent, outer, allowed, key, outerKeys⟩ := s
  simp only [levels, Levels.leave]
  clear h
  induction outer generalizing indent tokens with
  | nil => rfl
  | cons i outer ih =>
    by_cases hlt : column < indent
    · rw [unroll.go, if_pos hlt, Levels.leave.go, if_pos hlt]
      have hrest := ih (tokens.push .blockEnd) i
      rw [Array.toList_push] at hrest
      exact hrest
    · rw [unroll.go, if_neg hlt, Levels.leave.go, if_neg hlt]
      rfl

end Scanner

end Swatch.Yaml

-- SUMMARY: Texts as lists of characters whose places are counted in UTF-8 bytes.

/-!
# Texts and byte intervals

A text is a list of characters. Places in it are counted in the bytes of its
UTF-8 form, so a character is as wide as `Char.utf8Size` says and some numbers
are no place at all: they point into the middle of a character. Cutting is
therefore partial (`splitAt?`, `slice?`), and `boundaryBelow` gives the place at
which a cut would be possible.

Blank characters are those with the Unicode property `White_Space`: twenty-five
characters, line breaks and the no-break spaces among them. The zero-width space
and the byte order mark are not blank.
-/

namespace Swatch

/-- A text is the list of its characters. -/
abbrev Text := List Char

namespace Text

/-- The number of bytes that a text takes in UTF-8. -/
def size : Text → Nat
  | [] => 0
  | c :: t => c.utf8Size + size t

@[simp] theorem size_nil : size [] = 0 := rfl

@[simp] theorem size_cons (c : Char) (t : Text) : size (c :: t) = c.utf8Size + size t := rfl

@[simp] theorem size_append (s t : Text) : size (s ++ t) = size s + size t := by
  induction s with
  | nil => simp
  | cons c s ih => simp [ih, Nat.add_assoc]

/-- The two parts of a text at a byte offset, if a character starts or the text ends there. -/
def splitAt? : Text → Nat → Option (Text × Text)
  | t, 0 => some ([], t)
  | [], _ + 1 => none
  | c :: t, n + 1 =>
    if c.utf8Size ≤ n + 1 then
      (splitAt? t (n + 1 - c.utf8Size)).map fun (left, right) => (c :: left, right)
    else none

/-- A cut loses nothing, and the left part is as wide as was asked for. -/
theorem splitAt?_eq_some {t left right : Text} {n : Nat}
    (h : splitAt? t n = some (left, right)) : left ++ right = t ∧ size left = n := by
  induction t generalizing n left with
  | nil =>
    cases n with
    | zero => simp_all [splitAt?]
    | succ n => simp [splitAt?] at h
  | cons c t ih =>
    cases n with
    | zero => simp_all [splitAt?]
    | succ n =>
      simp only [splitAt?] at h
      split at h
      · rename_i hc
        obtain ⟨⟨l, r⟩, hl, he⟩ := Option.map_eq_some_iff.1 h
        simp only [Prod.mk.injEq] at he
        obtain ⟨rfl, rfl⟩ := he
        obtain ⟨happ, hsize⟩ := ih hl
        exact ⟨by simp [happ], by simp [hsize]; omega⟩
      · simp at h

/-- The number of characters that end at or before a byte offset. -/
def charsBefore : Text → Nat → Nat
  | [], _ => 0
  | c :: t, n => if c.utf8Size ≤ n then charsBefore t (n - c.utf8Size) + 1 else 0

/-- The first `n` characters of a text, fewer if it is shorter, measured in bytes. -/
def sizeOfFirst (t : Text) (n : Nat) : Nat :=
  size (t.take n)

/-- The largest place at or below a byte offset at which the text can be cut. -/
def boundaryBelow (t : Text) (n : Nat) : Nat :=
  t.sizeOfFirst (t.charsBefore n)

/-- What a text starts with, up to the first suffix that `stop` accepts. -/
def upTo (stop : Text → Bool) : Text → Text
  | [] => []
  | c :: t => if stop (c :: t) then [] else c :: upTo stop t

/-- How often the character `b` comes directly after the character `a`. -/
def countPair (a b : Char) : Text → Nat
  | c :: d :: t => (if c = a ∧ d = b then 1 else 0) + countPair a b (d :: t)
  | _ => 0

end Text

/-! ## White space -/

def isBlank (c : Char) : Bool :=
  let n := c.toNat
  (0x09 ≤ n && n ≤ 0x0D) || n == 0x20 || n == 0x85 || n == 0xA0 || n == 0x1680
    || (0x2000 ≤ n && n ≤ 0x200A) || n == 0x2028 || n == 0x2029 || n == 0x202F
    || n == 0x205F || n == 0x3000

/-- Spaces and tabs, the blanks allowed around the commas of a number list. -/
def isSpaceOrTab (c : Char) : Bool :=
  c == ' ' || c == '\t'

namespace Text

def trimStart (t : Text) : Text :=
  t.dropWhile isBlank

def trimEnd (t : Text) : Text :=
  (t.reverse.dropWhile isBlank).reverse

def trim (t : Text) : Text :=
  t.trimStart.trimEnd

end Text

/-! ## Intervals -/

/-- A half-open interval of byte offsets. -/
structure Interval where
  start : Nat
  stop : Nat
  deriving DecidableEq, Repr, Inhabited

namespace Interval

/-- An interval that is reversed counts as empty. -/
def isEmpty (i : Interval) : Bool :=
  decide (i.stop ≤ i.start)

/-- The interval of `n` bytes that starts at `start`. -/
def ofSize (start n : Nat) : Interval :=
  ⟨start, start + n⟩

/-- Offsets inside the interval. -/
def Mem (i : Interval) (offset : Nat) : Prop :=
  i.start ≤ offset ∧ offset < i.stop

instance : Membership Nat Interval := ⟨Mem⟩

theorem mem_iff {i : Interval} {offset : Nat} :
    offset ∈ i ↔ i.start ≤ offset ∧ offset < i.stop := Iff.rfl

instance (i : Interval) (offset : Nat) : Decidable (offset ∈ i) :=
  inferInstanceAs (Decidable (i.start ≤ offset ∧ offset < i.stop))

/-- Intervals are ordered by where they start, then by where they stop. -/
def le (i j : Interval) : Bool :=
  decide (i.start < j.start) || (decide (i.start = j.start) && decide (i.stop ≤ j.stop))

end Interval

/-- The part of a text over an interval, if both ends are places where the text can be cut. -/
def Text.slice? (t : Text) (i : Interval) : Option Text :=
  if i.start ≤ i.stop then
    match t.splitAt? i.start with
    | some (_, rest) => (rest.splitAt? (i.stop - i.start)).map Prod.fst
    | none => none
  else none

/-- The part of a text over an interval; nothing where the text cannot be cut. -/
def Text.slice (t : Text) (i : Interval) : Text :=
  (t.slice? i).getD []

end Swatch

-- SUMMARY: Tilde codes and braced colors inside strings, and the runs of text that they color.
import Swatch.Literal.Hex

/-!
# Tilde codes

A code such as `~r~` stands inside a string, has no width of its own and colors
the text behind it. Each `~h~` directly behind a code lightens its color by one
step, up to a limit of the code. Codes are read without regard to case. The long
s (U+017F) folds to `s` as well: it shapes a code, yet it names no color.

A run is the text governed by one code. It ends at the next code that names a
color, at a braced color, at a semicolon or with the string.

Inside a string a braced color colors the text behind it as well, up to the next braced
color, the next tilde code or the end of the string.
-/

namespace Swatch.GameText

/-! ## The palette -/

/-- A code letter, its color, and how many lightening steps change that color. -/
structure Hue where
  letter : Char
  base : Color
  maxLevel : Nat

/-- The code letters that name a color. -/
def hues : List Hue :=
  [⟨'r', .solid 0xB4 0x19 0x1D, 5⟩,
   ⟨'g', .solid 0x36 0x68 0x2C, 4⟩,
   ⟨'b', .solid 0x32 0x3C 0x7F, 3⟩,
   ⟨'y', .solid 0xE2 0xC0 0x63, 2⟩,
   ⟨'p', .solid 0xA8 0x6E 0xFC, 2⟩,
   ⟨'w', .solid 0xE1 0xE1 0xE1, 1⟩,
   ⟨'s', .solid 0x96 0x96 0x96, 1⟩,
   ⟨'l', .solid 0x00 0x00 0x00, 0⟩]

/-- The hue of a code letter of either case. -/
def hue? (letter : Char) : Option Hue :=
  hues.find? fun h => h.letter == letter.toLower

/-- How many lightening steps still change the color of a code. -/
def maxLevel? (letter : Char) : Option Nat :=
  (hue? letter).map Hue.maxLevel

/-- The color of a hue after `level` lightening steps, which count up to its limit. -/
def Hue.shade (h : Hue) (level : Nat) : Color :=
  h.base.lightened (min level h.maxLevel)

/-- The color of a code with `level` lightening steps. -/
def color? (letter : Char) (level : Nat) : Option Color :=
  (hue? letter).map (·.shade level)

/-! ## Codes -/

/-- The long s, which differs from `s` by case only. -/
def longS : Char := '\u017f'

/-- The letters that shape a code. -/
def isCodeLetter (c : Char) : Bool :=
  (hue? c).isSome || c == longS

/-- How many lightening steps a text starts with. -/
def steps : Text → Nat
  | '~' :: h :: '~' :: rest => if h.toLower == 'h' then steps rest + 1 else 0
  | _ => 0

/-- A code without its lightening steps starts the text. -/
def heads : Text → Bool
  | '~' :: letter :: '~' :: _ => isCodeLetter letter
  | _ => false

/-- A code and all its lightening steps. -/
def token : Pattern :=
  fun _ t => if heads t then some (3 * steps (t.drop 3) + 2) else none

def letterAndSteps? : Text → Option (Char × Nat)
  | '~' :: letter :: '~' :: rest => some (letter, steps rest)
  | _ => none

/-- A code at its place, with the hue that it names. -/
structure Code where
  occurrence : Occurrence
  hue : Hue
  level : Nat

def Code.color (c : Code) : Color :=
  c.hue.shade c.level

/-- The codes of a text that starts at `base` and that name a color, in order. -/
def codes (base : Nat) (t : Text) : List Code :=
  (token.occurrences base t).filterMap fun o => do
    let (letter, level) ← letterAndSteps? o.token
    let hue ← hue? letter
    return ⟨o, hue, level⟩

/-- The codes as literals. -/
def literals (base : Nat) (t : Text) : List Literal :=
  (codes base t).map fun c => .ofOccurrence c.occurrence .gameText c.color

/-- A code stands somewhere in the text. -/
def bearsCode : Text → Bool
  | [] => false
  | c :: t => heads (c :: t) || bearsCode t

/-- The text is one code and nothing else. -/
def read? (t : Text) : Option Color :=
  match literals 0 t with
  | l :: _ => if l.raw.size = t.size then some l.color else none
  | [] => none

/-- The number of tildes is odd, which can crash the program that shows the text. -/
def isUnbalanced (t : Text) : Bool :=
  t.count '~' % 2 == 1

/-! ## Runs -/

/-- The text governed by one code. -/
structure Run where
  text : Text
  /-- The offset of the first byte of `text`. -/
  start : Nat
  /-- The governing hue; the text before the first code has none. -/
  hue : Option Hue
  /-- The lightening steps that count. -/
  level : Nat

namespace Run

def extent (r : Run) : Interval :=
  Interval.ofSize r.start r.text.size

/-- The color of a run, if a code governs it. -/
def color (r : Run) : Option Color :=
  r.hue.map (·.shade r.level)

end Run

/-- What a text starts with, up to `limit` bytes and short of a semicolon and of a braced color. -/
def runText : (limit : Nat) → Text → Text
  | _, [] => []
  | limit, c :: t =>
    if limit < c.utf8Size || c == ';' || Braced.heads (c :: t) then []
    else c :: runText (limit - c.utf8Size) t

/-- The runs behind the codes of a list; each ends where the next code starts at the latest. -/
def runsAfter : List Code → List Run
  | [] => []
  | c :: codes =>
    let start := c.occurrence.extent.stop
    let limit := match codes with
      | next :: _ => next.occurrence.offset - start
      | [] => c.occurrence.after.size
    ⟨runText limit c.occurrence.after, start, some c.hue, min c.level c.hue.maxLevel⟩
      :: runsAfter codes

/-- The runs of a text that starts at `base`, the uncolored one first. Empty runs are left out. -/
def runs (base : Nat) (t : Text) : List Run :=
  let codes := codes base t
  let limit := match codes with
    | first :: _ => first.occurrence.offset - base
    | [] => t.size
  (⟨runText limit t, base, none, 0⟩ :: runsAfter codes).filter fun r => !r.text.isEmpty

/-! ## Functions that show coded text -/

/-- Texts compared without regard to case, where the long s counts as `s`. -/
def foldCase (t : Text) : Text :=
  t.map fun c => if c == longS then 's' else c.toLower

/-- The functions whose string argument is shown with its codes, in lower case. -/
def showingFunctions : List String :=
  ["gametextforplayer", "gametextforall", "textdrawcreate", "textdrawsetstring",
   "playertextdrawcreate", "playertextdrawsetstring"]

/-- A function of this name shows its string argument with its codes. -/
def isShowingFunction (name : Text) : Bool :=
  showingFunctions.any fun f => f.toList == foldCase name

end Swatch.GameText

/-! ## Braced colors -/

namespace Swatch.Inline

/-- A braced color and the text that it colors, which may be empty. -/
structure Run where
  code : Literal
  extent : Interval
  deriving DecidableEq, Repr

/-- A braced color or a tilde code starts the text. -/
def stops (t : Text) : Bool :=
  Braced.heads t || GameText.heads t

/-- The run behind an occurrence of a braced color. -/
def Run.ofOccurrence? (o : Occurrence) : Option Run := do
  let color ← Braced.read? o.token
  let text := o.after.upTo stops
  return ⟨.ofOccurrence o .braced color, .ofSize o.extent.stop text.size⟩

/-- The runs of a text that starts at `base`, in order. -/
def runs (base : Nat) (t : Text) : List Run :=
  (Braced.token.occurrences base t).filterMap Run.ofOccurrence?

end Swatch.Inline

-- SUMMARY: Reading the scalars of a YAML stream: quoted, plain and in blocks.
import Swatch.Yaml.Token

/-!
# Scalars

Each reader takes a scalar from the start of a text and gives back its content and
what follows. A gap between two words on different lines is folded. A scalar in a
block keeps its lines or folds them, and its last breaks are kept, clipped to one,
or stripped.
-/

namespace Swatch.Yaml

/-! ## Quoted scalars -/

/-- The character that an escape of one letter stands for. -/
def unescape? : Char → Option Char
  | '0' => some '\x00'
  | 'a' => some '\x07'
  | 'b' => some '\x08'
  | 't' => some '\t'
  | '\t' => some '\t'
  | 'n' => some '\n'
  | 'v' => some '\x0b'
  | 'f' => some '\x0c'
  | 'r' => some '\r'
  | 'e' => some '\x1b'
  | ' ' => some ' '
  | '"' => some '"'
  | '/' => some '/'
  | '\\' => some '\\'
  | 'N' => some '\u0085'
  | '_' => some '\u00a0'
  | 'L' => some '\u2028'
  | 'P' => some '\u2029'
  | _ => none

/-- How many hexadecimal digits an escape takes. -/
def escapeDigits? : Char → Option Nat
  | 'x' => some 2
  | 'u' => some 4
  | 'U' => some 8
  | _ => none

def hexNumber? (digits : Text) : Option Nat :=
  digits.foldl (fun n c => do return 16 * (← n) + (← hexValue? c)) (some 0)

/-- The character behind a backslash, and what follows. -/
def escape? : Text → Option (Char × Text)
  | [] => none
  | c :: t =>
    match escapeDigits? c with
    | none => (unescape? c).map (·, t)
    | some n => do
      let value ← if t.length < n then none else hexNumber? (t.take n)
      if (0xD800 ≤ value ∧ value ≤ 0xDFFF) ∨ 0x10FFFF < value then none
      else return (Char.ofNat value, t.drop n)

/-- Put text in front of a scalar that has been read. -/
def prependText (text : Text) (scalar : Option (Text × Text)) : Option (Text × Text) :=
  scalar.map fun (content, rest) => (text ++ content, rest)

/-- A quoted scalar behind its opening quote. A line that starts or ends a document may not be part
of it. -/
def quoted? (quote : Char) : (fuel : Nat) → (lineStart : Bool) → Text → Option (Text × Text)
  | 0, _, _ => none
  | _ + 1, _, [] => none
  | fuel + 1, lineStart, c :: t =>
    if lineStart && startsWithMarker (c :: t) then none
    else if isGapChar c then
      let gap := (c :: t).takeWhile isGapChar
      prependText (foldGap gap)
        (quoted? quote fuel (columnAfter? gap == some 0) ((c :: t).drop gap.length))
    else if c = quote then
      match t with
      | '\'' :: rest =>
        if quote = '\'' then prependText ['\''] (quoted? quote fuel false rest) else some ([], t)
      | _ => some ([], t)
    else if c = '\\' ∧ quote = '"' then
      if t.head?.any isBreak then
        let gap := (dropBreak t).takeWhile isGapChar
        prependText (breaksOf gap)
          (quoted? quote fuel (gap.isEmpty || columnAfter? gap == some 0)
            ((dropBreak t).drop gap.length))
      else
        match escape? t with
        | some (e, rest) => prependText [e] (quoted? quote fuel false rest)
        | none => none
    else prependText [c] (quoted? quote fuel false t)

/-! ## Plain scalars -/

/-- The characters that end a plain scalar inside brackets. -/
def isFlowMark (c : Char) : Bool :=
  c == ',' || c == '[' || c == ']' || c == '{' || c == '}'

/-- A word of a plain scalar. Inside brackets a colon may not stand right before a mark. -/
def plainWord? (flow : Bool) : Text → Option (Text × Text)
  | [] => some ([], [])
  | c :: t =>
    if isGapChar c || (c == ':' && atGap t) then some ([], c :: t)
    else if flow && c == ':' && t.head?.any (fun d => isFlowMark d || d == '?') then none
    else if flow && isFlowMark c then some ([], c :: t)
    else prependText [c] (plainWord? flow t)

/-- A tab stands in the indentation that a gap ends a line with. -/
def tabIndents (indent : Nat) : (column : Option Nat) → Text → Bool
  | _, [] => false
  | column, c :: t =>
    if isBreak c then tabIndents indent (some 0) t
    else
      (c == '\t' && column.any (· < indent)) || tabIndents indent (column.map (· + 1)) t

/-- What is read of a plain scalar. -/
structure Plain where
  text : Text
  /-- The line has been left in search of more. -/
  leftLine : Bool
  rest : Text

/-- A plain scalar; `gap` is what stands before the next word. -/
def plain? (flow : Bool) (indent : Nat) : (fuel : Nat) → (gap : Text) → Text → Option Plain
  | 0, _, _ => none
  | fuel + 1, gap, t =>
    let leftLine := gap.any isBreak
    if (columnAfter? gap == some 0 && startsWithMarker t) || t.head? == some '#' then
      some ⟨[], leftLine, t⟩
    else
      match plainWord? flow t with
      | none => none
      | some ([], _) => some ⟨[], leftLine, t⟩
      | some (word, rest) =>
        let text := foldGap gap ++ word
        let next := rest.takeWhile isGapChar
        let rest := rest.drop next.length
        if next.isEmpty then some ⟨text, false, rest⟩
        else if tabIndents indent none next then none
        else if !flow && (columnAfter? next).any (· < indent) then some ⟨text, true, rest⟩
        else
          (plain? flow indent fuel next rest).map fun more =>
            { more with text := text ++ more.text }

/-! ## Scalars in blocks -/

/-- What becomes of the breaks at the end of a block. -/
inductive Chomping where
  | strip
  | clip
  | keep
  deriving DecidableEq, Repr

/-- How a block is to be read: its chomping, and how much deeper than its surroundings it is. -/
structure BlockHeader where
  chomping : Chomping := .clip
  deeper : Option Nat := none

/-- The sign that tells the chomping. -/
def chomping? : Char → Option Chomping
  | '+' => some .keep
  | '-' => some .strip
  | _ => none

/-- A sign and a digit above zero, in any order; either may be missing. -/
def blockHeader? : Text → Option (BlockHeader × Text)
  | [] => some ({}, [])
  | c :: t =>
    match chomping? c with
    | some chomping =>
      match t with
      | d :: rest =>
        if d == '0' then none
        else if d.isDigit then some (⟨chomping, some (d.toNat - '0'.toNat)⟩, rest)
        else some (⟨chomping, none⟩, t)
      | [] => some (⟨chomping, none⟩, [])
    | none =>
      if c == '0' then none
      else if c.isDigit then
        let deeper := some (c.toNat - '0'.toNat)
        match t with
        | d :: rest =>
          match chomping? d with
          | some chomping => some (⟨chomping, deeper⟩, rest)
          | none => some (⟨.clip, deeper⟩, t)
        | [] => some (⟨.clip, deeper⟩, [])
      else some ({}, c :: t)

/-- The empty lines before the next line of a block, the column at which the next line's text
starts, and the widest column seen. Spaces are skipped up to the indentation, if it is known. -/
def blockBreaks? (indent : Option Nat) :
    (fuel : Nat) → (widest : Nat) → Text → Option (Text × Nat × Nat × Text)
  | 0, _, _ => none
  | fuel + 1, widest, t =>
    let spaces := (t.takeWhile (· == ' ')).length
    let column := match indent with
      | some n => min n spaces
      | none => spaces
    let rest := t.drop column
    let widest := max widest column
    if rest.head? == some '\t' && indent.all (column < ·) then none
    else if rest.head?.any isBreak then
      (blockBreaks? indent fuel widest (dropBreak rest)).map fun (breaks, more) =>
        (breaksOf (rest.take (rest.length - (dropBreak rest).length)) ++ breaks, more)
    else some ([], column, widest, rest)

/-- What joins two lines of a block: their breaks, or a space where single lines are folded. -/
def blockJoint (folded : Bool) (lastBlank nextBlank : Bool) (lead trail : Text) : Text :=
  if folded && lead == ['\n'] && !lastBlank && !nextBlank then
    (if trail.isEmpty then [' '] else []) ++ trail
  else lead ++ trail

/-- The lines of a block at an indentation. `lead` is the break behind the last line and `trail` are
the empty lines behind it. -/
def blockLines? (folded : Bool) (chomping : Chomping) (indent : Nat) :
    (fuel : Nat) → (lastBlank : Bool) → (lead trail : Text) → (column : Nat) → Text →
    Option (Text × Text)
  | 0, _, _, _, _, _ => none
  | fuel + 1, lastBlank, lead, trail, column, t =>
    if column == indent && !t.isEmpty then
      let nextBlank := t.head?.any isBlankChar
      let line := t.takeWhile (!isBreak ·)
      let rest := t.drop line.length
      let after := dropBreak rest
      match blockBreaks? (some indent) (rest.length + 1) 0 after with
      | none => none
      | some (trail', column', _, rest') =>
        prependText (blockJoint folded lastBlank nextBlank lead trail ++ line)
          (blockLines? folded chomping indent fuel nextBlank
            (breaksOf (rest.take (rest.length - after.length))) trail' column' rest')
    else
      some (match chomping with
        | .strip => ([], t)
        | .clip => (lead, t)
        | .keep => (lead ++ trail, t))

/-- A block behind the mark that opens it, inside of surroundings that are indented by `indent`. -/
def block? (folded : Bool) (indent : Int) (t : Text) : Option (Text × Text) := do
  let (header, rest) ← blockHeader? t
  let rest := rest.dropWhile isBlankChar
  let rest := if rest.head? == some '#' then rest.dropWhile (!isBreak ·) else rest
  if !rest.head?.all isBreak then none
  else
    let rest := dropBreak rest
    let known := header.deeper.map fun n => (max indent 0).toNat + n
    let (trail, column, widest, rest) ← blockBreaks? known (rest.length + 1) 0 rest
    let indent := known.getD (max widest (max (indent + 1) 1).toNat)
    blockLines? folded header.chomping indent (rest.length + 1) false [] trail column rest

end Swatch.Yaml

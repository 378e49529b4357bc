-- SUMMARY: Cutting a YAML stream into tokens.
import Swatch.Yaml.Scalar

/-!
# Streams

A stream is cut into tokens by a scanner that keeps the columns of the blocks it
is in. A key need not be announced: when a colon is met, the scanner looks back at
the last place where a key could have started and puts the key token there. For
that it keeps one such place for each level of brackets; a place is given up when
its line ends or after 1024 characters.
-/

namespace Swatch.Yaml

/-- A place where a key may have started. -/
structure KeyPlace where
  /-- The block cannot go on with anything but a key here. -/
  required : Bool
  /-- How many tokens stand before the place. -/
  tokens : Nat
  offset : Nat
  line : Nat
  column : Nat

/-- A scanner in the middle of a stream. -/
structure Scanner where
  rest : Text
  /-- How many characters have been passed. -/
  offset : Nat := 0
  line : Nat := 0
  column : Nat := 0
  tokens : Array Token := #[]
  /-- The column of the innermost block; `-1` outside of all blocks. -/
  indent : Int := -1
  /-- The columns of the surrounding blocks. -/
  outer : List Int := []
  /-- A key may start here. -/
  keyAllowed : Bool := true
  /-- The key place of this level of brackets. -/
  key : Option KeyPlace := none
  /-- The key places of the surrounding levels. -/
  outerKeys : List (Option KeyPlace) := []

namespace Scanner

def inFlow (s : Scanner) : Bool :=
  !s.outerKeys.isEmpty

/-! ## Moving -/

/-- Line and column behind a text. -/
def placeAfter (line column : Nat) : Text → Nat × Nat
  | [] => (line, column)
  | '\r' :: '\n' :: t => placeAfter (line + 1) 0 t
  | c :: t => if isBreak c then placeAfter (line + 1) 0 t else placeAfter line (column + 1) t

/-- Go on to a later part of the stream. -/
def moveTo (s : Scanner) (rest : Text) : Scanner :=
  let passed := s.rest.take (s.rest.length - rest.length)
  let (line, column) := placeAfter s.line s.column passed
  { s with rest, offset := s.offset + passed.length, line, column }

def advance (s : Scanner) (n : Nat) : Scanner :=
  s.moveTo (s.rest.drop n)

def emit (s : Scanner) (t : Token) : Scanner :=
  { s with tokens := s.tokens.push t }

/-- A character that says nothing between two tokens: a space, a tab where no key can start, and a
byte order mark that starts a line. -/
def passesBy (s : Scanner) (c : Char) : Bool :=
  c == ' ' || (c == '\t' && (s.inFlow || !s.keyAllowed)) || (c == byteOrderMark && s.column == 0)

/-- Pass blanks, comments and breaks. Outside of brackets a break allows a key. -/
def skipGap : (fuel : Nat) → Scanner → Scanner
  | 0, s => s
  | fuel + 1, s =>
    match s.rest with
    | [] => s
    | c :: t =>
      if s.passesBy c then skipGap fuel (s.advance 1)
      else if c == '#' then skipGap fuel (s.moveTo (t.dropWhile (!isBreak ·)))
      else if isBreak c then
        let s := s.moveTo (dropBreak s.rest)
        skipGap fuel (if s.inFlow then s else { s with keyAllowed := true })
      else s

/-! ## Blocks -/

/-- Leave the blocks that are deeper than a column. -/
def unroll (column : Int) (s : Scanner) : Scanner :=
  if s.inFlow then s else go s.outer s
where
  go : List Int → Scanner → Scanner
    | [], s => s
    | outer :: more, s =>
      if column < s.indent then go more { s.emit .blockEnd with indent := outer, outer := more }
      else s

/-- Enter a block at a column, unless it is already open; its token goes behind `place` others. -/
def roll (column : Nat) (place : Nat) (t : Token) (s : Scanner) : Scanner :=
  if s.inFlow || column ≤ s.indent then s
  else
    { s with
      indent := column
      outer := s.indent :: s.outer
      tokens := s.tokens.insertIdxIfInBounds place t }

/-! ## Keys -/

/-- A key place that cannot be used any more. -/
def KeyPlace.isStale (s : Scanner) (k : KeyPlace) : Bool :=
  k.line < s.line || k.offset + 1024 < s.offset

/-- Give up a key place that cannot be used any more; one that is required must be usable. -/
def freshKey? (s : Scanner) : Option KeyPlace → Option (Option KeyPlace)
  | none => some none
  | some k =>
    if KeyPlace.isStale s k then (if k.required then none else some none) else some (some k)

/-- Give up all key places that cannot be used any more. -/
def freshKeys? (s : Scanner) : Option Scanner := do
  let key ← s.freshKey? s.key
  let outerKeys ← s.outerKeys.mapM s.freshKey?
  return { s with key, outerKeys }

/-- Give up the key place of this level, unless it is required. -/
def dropKey? (s : Scanner) : Option Scanner :=
  if s.key.any (·.required) then none else some { s with key := none }

/-- Remember this place as one where a key may start. -/
def saveKey? (s : Scanner) : Option Scanner :=
  if s.keyAllowed then do
    let s ← s.dropKey?
    return { s with
      key := some
        { required := !s.inFlow && s.indent == s.column
          tokens := s.tokens.size
          offset := s.offset
          line := s.line
          column := s.column } }
  else some s

/-! ## Tokens -/

/-- A mark of `n` characters that no key can start with; whether a key may follow. -/
def mark? (n : Nat) (t : Token) (keyFollows : Bool) (s : Scanner) : Option Scanner := do
  let s ← s.dropKey?
  return { (s.advance n).emit t with keyAllowed := keyFollows }

/-- The start or the end of a document, which leaves all blocks. -/
def document? (t : Token) (s : Scanner) : Option Scanner :=
  (s.unroll (-1)).mark? 3 t false

/-- Open a pair of brackets; it may be the start of a key. -/
def openFlow? (t : Token) (s : Scanner) : Option Scanner := do
  let s ← s.saveKey?
  let s := { s with key := none, outerKeys := s.key :: s.outerKeys, keyAllowed := true }
  return (s.advance 1).emit t

/-- Close a pair of brackets. -/
def closeFlow? (t : Token) (s : Scanner) : Option Scanner := do
  let s ← s.dropKey?
  let s := match s.outerKeys with
    | key :: outerKeys => { s with key, outerKeys }
    | [] => s
  return { (s.advance 1).emit t with keyAllowed := false }

/-- A dash, which opens a list in a block. -/
def item? (s : Scanner) : Option Scanner :=
  if s.inFlow then s.mark? 1 .blockItem true
  else if s.keyAllowed then (s.roll s.column s.tokens.size .blockList).mark? 1 .blockItem true
  else none

/-- A question mark, which announces a key. -/
def key? (s : Scanner) : Option Scanner :=
  if s.inFlow then s.mark? 1 .key false
  else if s.keyAllowed then (s.roll s.column s.tokens.size .blockMap).mark? 1 .key true
  else none

/-- A colon. The last key place, if it is still good, turns out to be a key. -/
def value? (s : Scanner) : Option Scanner :=
  match s.key with
  | some k =>
    let s := { s with tokens := s.tokens.insertIdxIfInBounds k.tokens .key }
    let s := s.roll k.column k.tokens .blockMap
    some { (s.advance 1).emit .value with key := none, keyAllowed := false }
  | none =>
    if s.inFlow then some { (s.advance 1).emit .value with keyAllowed := false }
    else if s.keyAllowed then
      let s := s.roll s.column s.tokens.size .blockMap
      some { (s.advance 1).emit .value with keyAllowed := true }
    else none

/-- A token that may start a key, with what follows it. -/
def content? (t : Token) (rest : Text) (s : Scanner) : Option Scanner := do
  let s ← s.saveKey?
  return { (s.moveTo rest).emit t with keyAllowed := false }

/-- Characters that may follow a name. -/
def endsName (c : Char) : Bool :=
  isGapChar c || c == '?' || c == ':' || c == ',' || c == ']' || c == '}' || c == '%' || c == '@'
    || c == '\x60'

/-- An anchor or an alias behind its mark. -/
def name? (make : Text → Token) (s : Scanner) : Option Scanner :=
  let name := (s.rest.drop 1).takeWhile isNameChar
  let rest := (s.rest.drop 1).drop name.length
  if name.isEmpty || !rest.head?.all endsName then none else s.content? (make name) rest

/-! ## Tags and directives -/

/-- Characters of a tag; some of them only between angle brackets. -/
def isTagChar (wide : Bool) (c : Char) : Bool :=
  isNameChar c || ";/?:@&=+$.%!~*'()".toList.contains c
    || (wide && (c == ',' || c == '[' || c == ']'))

/-- The bytes that percent signs write, and what follows. -/
def percentBytes : Text → List UInt8 × Text
  | '%' :: a :: b :: t =>
    match hexByte? a b with
    | some byte =>
      let (bytes, rest) := percentBytes t
      (byte :: bytes, rest)
    | none => ([], '%' :: a :: b :: t)
  | t => ([], t)

/-- A text in which percent signs write bytes. -/
def unpercent? : (fuel : Nat) → Text → Option Text
  | 0, t => some t
  | _ + 1, [] => some []
  | fuel + 1, c :: t =>
    if c == '%' then
      let (bytes, rest) := percentBytes (c :: t)
      if bytes.isEmpty then none
      else do
        let decoded ← String.fromUTF8? ⟨bytes.toArray⟩
        return decoded.toList ++ (← unpercent? fuel rest)
    else (unpercent? fuel t).map (c :: ·)

/-- The characters of a tag, with bytes written by percent signs, and what follows. -/
def tagText? (wide : Bool) (t : Text) : Option (Text × Text) :=
  let written := t.takeWhile (isTagChar wide)
  (unpercent? written.length written).map (·, t.drop written.length)

/-- A handle: an exclamation mark, and perhaps a name and another one. -/
def handle? : Text → Option (Text × Text)
  | '!' :: t =>
    let name := t.takeWhile isNameChar
    match t.drop name.length with
    | '!' :: rest => some ('!' :: name ++ ['!'], rest)
    | rest => some ('!' :: name, rest)
  | _ => none

/-- The handle and the rest of a tag, and what follows. -/
def tagParts? (t : Text) : Option (Text × Text × Text) :=
  match t with
  | '!' :: '<' :: t =>
    match tagText? true t with
    | some (text, '>' :: rest) => if text.isEmpty then none else some ([], text, rest)
    | _ => none
  | _ => do
    let (handle, rest) ← handle? t
    if 2 ≤ handle.length && handle.getLast? == some '!' then
      let (text, rest) ← tagText? false rest
      if text.isEmpty then none else return (handle, text, rest)
    else
      let (text, rest) ← tagText? false rest
      let text := handle.drop 1 ++ text
      return if text.isEmpty then ([], ['!'], rest) else (['!'], text, rest)

def tag? (s : Scanner) : Option Scanner := do
  let (handle, suffix, rest) ← tagParts? s.rest
  if atGap rest || (s.inFlow && rest.head? == some ',') then s.content? (.tag handle suffix) rest
  else none

def versionNumber? (t : Text) : Option (Nat × Text) :=
  let digits := t.takeWhile Char.isDigit
  if digits.isEmpty || 9 < digits.length then none
  else some (Text.decimalFrom 0 digits, t.drop digits.length)

/-- What a directive says, and what follows. -/
def directiveToken? (name : Text) (t : Text) : Option (Token × Text) :=
  let t := t.dropWhile isBlankChar
  if name = "YAML".toList then do
    let (major, rest) ← versionNumber? t
    match rest with
    | '.' :: rest =>
      let (minor, rest) ← versionNumber? rest
      return (.version major minor, rest)
    | _ => none
  else if name = "TAG".toList then do
    let (handle, rest) ← handle? t
    if handle.length ≠ 1 && handle.getLast? != some '!' then none
    else if !rest.head?.any isBlankChar then none
    else
      let (text, rest) ← tagText? true (rest.dropWhile isBlankChar)
      if text.isEmpty || !atGap rest then none else return (.tagHandle handle text, rest)
  else none

/-- A directive, which leaves all blocks and takes the whole line. -/
def directive? (s : Scanner) : Option Scanner := do
  let s ← (s.unroll (-1)).dropKey?
  let name := (s.rest.drop 1).takeWhile isNameChar
  let rest := (s.rest.drop 1).drop name.length
  if name.isEmpty || !atGap rest then none
  else
    let (t, rest) ← directiveToken? name rest
    let rest := rest.dropWhile isBlankChar
    let rest := if rest.head? == some '#' then rest.dropWhile (!isBreak ·) else rest
    if rest.head?.all isBreak then
      return { (s.moveTo (dropBreak rest)).emit t with keyAllowed := false }
    else none

/-! ## Scalars -/

def quotedScalar? (quote : Char) (s : Scanner) : Option Scanner := do
  let (text, rest) ← quoted? quote (s.rest.length + 1) false (s.rest.drop 1)
  s.content? (.scalar text .quoted) rest

/-- A scalar in a block of its own. -/
def blockScalar? (quoting : Quoting) (s : Scanner) : Option Scanner := do
  let s ← s.dropKey?
  let (text, rest) ← block? (quoting == .folded) s.indent (s.rest.drop 1)
  return { (s.moveTo rest).emit (.scalar text quoting) with keyAllowed := true }

/-- A scalar without quotes. If it went on to another line, a key may follow. -/
def plainScalar? (s : Scanner) : Option Scanner := do
  let p ← plain? s.inFlow (s.indent + 1).toNat (s.rest.length + 1) [] s.rest
  let s ← s.content? (.scalar p.text .plain) p.rest
  return { s with keyAllowed := p.leftLine }

/-- Characters that a plain scalar cannot start with. -/
def isIndicator (c : Char) : Bool :=
  "-?:,[]{}#&*!|>'\"%@\x60".toList.contains c

/-- The next character starts a plain scalar, given what follows it. -/
def startsPlain (flow : Bool) (c : Char) (t : Text) : Bool :=
  (!isIndicator c && !isGapChar c) || (c == '-' && !t.head?.any isBlankChar)
    || (!flow && (c == '?' || c == ':') && !atGap t)

/-! ## The stream -/

def next? (c : Char) (t : Text) (s : Scanner) : Option Scanner :=
  if s.column == 0 && c == '%' then s.directive?
  else if s.column == 0 && startsWithThree '-' (c :: t) then s.document? .documentStart
  else if s.column == 0 && startsWithThree '.' (c :: t) then s.document? .documentEnd
  else if c == '[' then s.openFlow? .flowListStart
  else if c == '{' then s.openFlow? .flowMapStart
  else if c == ']' then s.closeFlow? .flowListEnd
  else if c == '}' then s.closeFlow? .flowMapEnd
  else if c == ',' then s.mark? 1 .flowItem true
  else if c == '-' && atGap t then s.item?
  else if c == '?' && (s.inFlow || atGap t) then s.key?
  else if c == ':' && (s.inFlow || atGap t) then s.value?
  else if c == '*' then s.name? .alias
  else if c == '&' then s.name? .anchor
  else if c == '!' then s.tag?
  else if c == '|' && !s.inFlow then s.blockScalar? .literal
  else if c == '>' && !s.inFlow then s.blockScalar? .folded
  else if c == '\'' || c == '"' then s.quotedScalar? c
  else if startsPlain s.inFlow c t then s.plainScalar?
  else none

/-- Read the rest of the stream. -/
def finish? : (fuel : Nat) → Scanner → Option (List Token)
  | 0, _ => none
  | fuel + 1, s => do
    let s ← (skipGap (s.rest.length + 1) s).freshKeys?
    match s.rest with
    | [] => do
      let s ← (s.unroll (-1)).dropKey?
      return (s.emit .streamEnd).tokens.toList
    | c :: t => do
      let s ← (s.unroll s.column).next? c t
      finish? fuel s

end Scanner

def tokens? (t : Text) : Option (List Token) :=
  if t.all isAllowed then Scanner.finish? (t.length + 1) { rest := t } else none

end Swatch.Yaml

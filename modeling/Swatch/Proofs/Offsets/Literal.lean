-- SUMMARY: Literals read by offsets: pairs of digits cut out of tokens, neighbours out of the text.
import Swatch.Proofs.Offsets.Place
import Swatch.Proofs.Scan.Apart

/-!
# Literals by offsets

Tokens are found at offsets that are counted from the start of the text that is searched,
and their literals stand at those offsets from the start of the document. The digits of a
token are cut into pairs once all of them are known to be hexadecimal, so each pair is two
bytes wide. What stands around a number list is cut off at the two ends of its token.
-/

namespace Swatch

namespace Offsets

/-! ## Pairs of digits -/

/-- The byte that a pair of digits writes. -/
def pairByte? : Text → Option UInt8
  | [high, low] => hexByte? high low
  | _ => none

/-- The byte that the two digits at an offset write. -/
def hexPair? (digits : Text) (i : Nat) : Reading (Option UInt8) := do
  let pair ← Reading.part digits ⟨i, i + 2⟩
  return pairByte? pair

def rgb? (digits : Text) : Reading (Option Color) := do
  let red ← hexPair? digits 0
  let green ← hexPair? digits 2
  let blue ← hexPair? digits 4
  return red.bind fun r => green.bind fun g => blue.map fun b => .solid r g b

def rgba? (digits : Text) : Reading (Option Color) := do
  let red ← hexPair? digits 0
  let green ← hexPair? digits 2
  let blue ← hexPair? digits 4
  let alpha ← hexPair? digits 6
  return red.bind fun r => green.bind fun g => blue.bind fun b => alpha.map fun a => ⟨r, g, b, a⟩

/-- Read six or eight hexadecimal digits behind an optional mark. -/
def ofHex? (t : Text) : Reading (Option Color) :=
  let digits := Color.stripMark t
  if digits.all isHexDigit then
    if digits.size = 6 then rgb? digits
    else if digits.size = 8 then rgba? digits
    else .ok none
  else .ok none

/-- Two digits behind others are a pair. -/
theorem hexPair?_eq (front : Text) {high low : Char} {rest : Text}
    (h : ∀ c ∈ front ++ high :: low :: rest, isHexDigit c) :
    hexPair? (front ++ high :: low :: rest) front.length = .ok (hexByte? high low) := by
  have hsize (c : Char) (hc : c ∈ front ++ high :: low :: rest) : c.utf8Size = 1 :=
    utf8Size_of_isHexDigit (h c hc)
  have hfront : front.size = front.length := Text.size_eq_length fun c hc => hsize c (by simp [hc])
  have hpart := Reading.part_append front [high, low] rest
  rw [hfront] at hpart
  simp only [Text.size_cons, Text.size_nil, hsize high (by simp), hsize low (by simp)] at hpart
  rw [hexPair?]
  simp only [List.cons_append, List.nil_append] at hpart
  rw [hpart]
  rfl

theorem rgb?_eq {digits : Text} (h : ∀ d ∈ digits, isHexDigit d) (hlength : digits.length = 6) :
    rgb? digits = .ok (Color.ofDigits? digits) := by
  obtain ⟨r₁, r₀, g₁, g₀, b₁, b₀, rfl⟩ := Color.exists_six hlength
  have hred : hexPair? [r₁, r₀, g₁, g₀, b₁, b₀] 0 = .ok (hexByte? r₁ r₀) := hexPair?_eq [] h
  have hgreen : hexPair? [r₁, r₀, g₁, g₀, b₁, b₀] 2 = .ok (hexByte? g₁ g₀) :=
    hexPair?_eq [r₁, r₀] h
  have hblue : hexPair? [r₁, r₀, g₁, g₀, b₁, b₀] 4 = .ok (hexByte? b₁ b₀) :=
    hexPair?_eq [r₁, r₀, g₁, g₀] h
  rw [rgb?, hred, hgreen, hblue]
  simp [Color.ofDigits?, Option.map_eq_bind]

theorem rgba?_eq {digits : Text} (h : ∀ d ∈ digits, isHexDigit d) (hlength : digits.length = 8) :
    rgba? digits = .ok (Color.ofDigits? digits) := by
  obtain ⟨r₁, r₀, g₁, g₀, b₁, b₀, a₁, a₀, rfl⟩ := Color.exists_eight hlength
  have hred : hexPair? [r₁, r₀, g₁, g₀, b₁, b₀, a₁, a₀] 0 = .ok (hexByte? r₁ r₀) :=
    hexPair?_eq [] h
  have hgreen : hexPair? [r₁, r₀, g₁, g₀, b₁, b₀, a₁, a₀] 2 = .ok (hexByte? g₁ g₀) :=
    hexPair?_eq [r₁, r₀] h
  have hblue : hexPair? [r₁, r₀, g₁, g₀, b₁, b₀, a₁, a₀] 4 = .ok (hexByte? b₁ b₀) :=
    hexPair?_eq [r₁, r₀, g₁, g₀] h
  have halpha : hexPair? [r₁, r₀, g₁, g₀, b₁, b₀, a₁, a₀] 6 = .ok (hexByte? a₁ a₀) :=
    hexPair?_eq [r₁, r₀, g₁, g₀, b₁, b₀] h
  rw [rgba?, hred, hgreen, hblue, halpha]
  simp [Color.ofDigits?, Option.map_eq_bind]

theorem ofHex?_eq (t : Text) : ofHex? t = .ok (Color.ofHex? t) := by
  unfold ofHex? Color.ofHex?
  generalize Color.stripMark t = digits
  have hnone (hnot : ¬ ((∀ d ∈ digits, isHexDigit d) ∧ (digits.length = 6 ∨ digits.length = 8))) :
      Color.ofDigits? digits = none :=
    Option.not_isSome_iff_eq_none.1 (mt Color.isSome_ofDigits?_iff.1 hnot)
  by_cases hall : digits.all isHexDigit
  · have hdigits := List.all_eq_true.1 hall
    have hsize := size_of_isHexDigit hdigits
    simp only [hall, if_true, hsize]
    split
    · next hsix => exact rgb?_eq hdigits hsix
    · next hsix =>
      split
      · next height => exact rgba?_eq hdigits height
      · next height => rw [hnone fun h => h.2.elim hsix height]
  · rw [if_neg hall, hnone fun h => hall (List.all_eq_true.2 h.1)]

/-! ## Tokens -/

def markedSpelling? : Nat → Option Spelling
  | 8 => some .hexAlpha
  | 6 => some .hexNoAlpha
  | _ => none

def readMarked? (token : Text) : Reading (Option (Spelling × Color)) :=
  (Hex.digits? token).elim (.ok none) fun digits =>
    (markedSpelling? digits.size).elim (.ok none) fun spelling => do
      let color ← ofHex? digits
      return color.map (spelling, ·)

def readBraced? (token : Text) : Reading (Option Color) :=
  (Braced.digits? token).elim (.ok none) fun digits =>
    if digits.size = 6 then ofHex? digits else .ok none

/-- Read one number list, unless it is glued to what stands around it in the text. -/
def readTuple? (t : Text) (o : Occurrence) : Reading (Option Color) := do
  let before ← Reading.part t ⟨0, o.offset⟩
  let after ← Reading.part t ⟨o.extent.stop, t.size⟩
  return if Tuple.isGlued before.reverse after then none else Tuple.read? o.token

theorem readMarked?_eq (token : Text) : readMarked? token = .ok (Hex.read? token) := by
  unfold readMarked? Hex.read?
  cases Hex.digits? token with
  | none => rfl
  | some digits =>
    simp only [Option.elim_some, ofHex?_eq, Reading.ok_bind, markedSpelling?]
    split <;> simp [*, Option.map_eq_bind]

theorem readBraced?_eq (token : Text) : readBraced? token = .ok (Braced.read? token) := by
  unfold readBraced? Braced.read?
  cases Braced.digits? token with
  | none => rfl
  | some digits =>
    simp only [Option.elim_some, ofHex?_eq, ← apply_ite Except.ok]
    rfl

/-! ## Places of tokens -/

/-- The occurrence in a text that starts at `base`, told by the one in the text itself. -/
def shift (base : Nat) (o : Occurrence) : Occurrence :=
  { o with offset := base + o.offset }

theorem occurrencesFrom_shift (p : Pattern) (base : Nat) (before : Text) (offset : Nat) (t : Text) :
    p.occurrencesFrom before (base + offset) t
      = (p.occurrencesFrom before offset t).map (shift base) := by
  fun_induction Pattern.occurrencesFrom p before offset t with
  | case1 => rw [Pattern.occurrencesFrom]; rfl
  | case2 before offset c rest hnone ih =>
    rw [Pattern.occurrencesFrom, hnone]
    simpa [Nat.add_assoc] using ih
  | case3 before offset c rest n hn token ih =>
    rw [Pattern.occurrencesFrom, hn]
    simp only [List.map_cons, List.cons.injEq]
    exact ⟨rfl, by rw [Nat.add_assoc]; exact ih⟩

theorem occurrences_shift (p : Pattern) (base : Nat) (t : Text) :
    p.occurrences base t = (p.occurrences 0 t).map (shift base) :=
  occurrencesFrom_shift p base [] 0 t

section Finds

variable {p : Pattern} {t : Text} {o : Occurrence}

theorem part_before (ho : p.Finds 0 t o) : Reading.part t ⟨0, o.offset⟩ = .ok o.before.reverse := by
  have hpart := Reading.part_append [] o.before.reverse (o.token ++ o.after)
  rw [List.nil_append, ho.text_eq, Text.size_reverse, Text.size_nil, ← ho.offset_eq] at hpart
  exact hpart

theorem part_after (ho : p.Finds 0 t o) :
    Reading.part t ⟨o.extent.stop, t.size⟩ = .ok o.after := by
  have hpart := Reading.part_append (o.before.reverse ++ o.token) o.after []
  have hstop : o.extent.stop = Text.size (o.before.reverse ++ o.token) := by
    rw [Text.size_append, Text.size_reverse]
    simp [Occurrence.extent, Interval.ofSize, ho.offset_eq]
  rw [List.append_nil, List.append_assoc, ho.text_eq, ← hstop, ho.stop_add_after, Nat.zero_add]
    at hpart
  exact hpart

end Finds

/-- The literals that are read from the tokens of a text that starts at `base`. -/
def literals (p : Pattern) (read : Occurrence → Reading (Option (Spelling × Color))) (base : Nat)
    (t : Text) : Reading (List Literal) :=
  Reading.gather (fun o => do
    let found ← read o
    let literal := found.map fun f =>
      Literal.mk ⟨base + o.offset, base + o.extent.stop⟩ o.token f.1 f.2
    return literal.toList) (p.occurrences 0 t)

/-- What is read from a token does not depend on where the text starts. -/
theorem literals_eq {p : Pattern} {read : Occurrence → Reading (Option (Spelling × Color))}
    (value : Occurrence → Option (Spelling × Color)) {t : Text}
    (hread : ∀ o, p.Finds 0 t o → read o = .ok (value o))
    (hshift : ∀ base o, value (shift base o) = value o) (base : Nat) :
    literals p read base t = .ok ((p.occurrences base t).filterMap fun o =>
      (value o).map fun f => .ofOccurrence o f.1 f.2) := by
  rw [occurrences_shift, List.filterMap_map]
  refine Reading.gather_toList_ok fun o ho => ?_
  rw [hread o (Pattern.finds_of_mem ho), Reading.ok_bind, Function.comp_apply, hshift]
  simp only [Literal.ofOccurrence, Occurrence.extent, Interval.ofSize, shift, Nat.add_assoc]
  rfl

/-- The marked literals of a text that starts at `base`, in order. -/
def marked (base : Nat) (t : Text) : Reading (List Literal) :=
  literals Hex.token (fun o => readMarked? o.token) base t

/-- The braced literals of a text that starts at `base`, in order. -/
def braced (base : Nat) (t : Text) : Reading (List Literal) :=
  literals Braced.token (fun o => do return (← readBraced? o.token).map (.braced, ·)) base t

/-- The number lists of a text that starts at `base` and that stand alone, in order. -/
def tuples (base : Nat) (t : Text) : Reading (List Literal) :=
  literals Tuple.token (fun o => do return (← readTuple? t o).map (.rgbTuple, ·)) base t

theorem marked_eq (base : Nat) (t : Text) : marked base t = .ok (Hex.literals base t) := by
  rw [marked, literals_eq (fun o => Hex.read? o.token) (fun o _ => readMarked?_eq o.token)
    (fun _ _ => rfl), Hex.literals_eq]
  refine congrArg (fun f => Except.ok ((Hex.token.occurrences base t).filterMap f)) ?_
  funext o
  simp only [Hex.literal?]
  cases Hex.read? o.token <;> rfl

theorem braced_eq (base : Nat) (t : Text) : braced base t = .ok (Braced.literals base t) := by
  have hread (o : Occurrence) (_ : Braced.token.Finds 0 t o) :
      (do return (← readBraced? o.token).map (Spelling.braced, ·) : Reading _)
        = .ok ((Braced.read? o.token).map (Spelling.braced, ·)) := by
    rw [readBraced?_eq]
    rfl
  rw [braced, literals_eq _ hread (fun _ _ => rfl), Braced.literals_eq]
  refine congrArg (fun f => Except.ok ((Braced.token.occurrences base t).filterMap f)) ?_
  funext o
  simp only [Braced.literal?]
  cases Braced.read? o.token <;> rfl

theorem readTuple?_eq {t : Text} {o : Occurrence} (ho : Tuple.token.Finds 0 t o) :
    readTuple? t o
      = .ok (if Tuple.isGlued o.before o.after then none else Tuple.read? o.token) := by
  rw [readTuple?, part_before ho, Reading.ok_bind, part_after ho, Reading.ok_bind,
    List.reverse_reverse]
  rfl

theorem tuples_eq (base : Nat) (t : Text) : tuples base t = .ok (Tuple.literals base t) := by
  have hread (o : Occurrence) (ho : Tuple.token.Finds 0 t o) :
      (do return (← readTuple? t o).map (Spelling.rgbTuple, ·) : Reading _)
        = .ok ((if Tuple.isGlued o.before o.after then none else Tuple.read? o.token).map
          (Spelling.rgbTuple, ·)) := by
    rw [readTuple?_eq ho]
    rfl
  rw [tuples, literals_eq _ hread (fun _ _ => rfl), Tuple.literals_eq]
  refine congrArg (fun f => Except.ok ((Tuple.token.occurrences base t).filterMap f)) ?_
  funext o
  simp only [Tuple.literal?]
  split
  · rfl
  · cases Tuple.read? o.token <;> rfl

end Offsets

end Swatch

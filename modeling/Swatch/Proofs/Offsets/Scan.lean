-- SUMMARY: A scan that keeps offsets only: it reads nothing in vain and finds what a scan finds.
import Swatch.Proofs.Offsets.Cover
import Swatch.Proofs.Offsets.Run

/-!
# Scanning by offsets

A scan reads a document by offsets: lines from the table of line starts, strings from
lines, runs from strings, and literals from the window. Every part that it cuts out is a
reading, which a wrong offset would fail.

No reading of a scan fails. The window is made of whole lines, strings are made of whole
characters of their lines, and every other place is an offset in one of these that is
found there. So what a scan by offsets finds is what the scan of the text finds.
-/

namespace Swatch

namespace Offsets

/-! ## Strings -/

/-- The elements of a list for which a property is read. -/
def keep {α : Type} (f : α → Reading Bool) : List α → Reading (List α) :=
  Reading.gather fun x => do return if ← f x then [x] else []

theorem keep_ok {α : Type} {f : α → Reading Bool} {g : α → Bool} {l : List α}
    (h : ∀ x ∈ l, f x = .ok (g x)) : keep f l = .ok (l.filter g) := by
  rw [keep, ← List.filterMap_eq_filter]
  refine Reading.gather_toList_ok fun x hx => ?_
  rw [h x hx, Reading.ok_bind, Option.guard_apply]
  cases g x <;> rfl

def stringsIn (t : Text) (lines : LineRange) : Reading (List Quoted) := do
  let strings ← Reading.gather (quotes t) lines.toList
  return strings.filter fun q => !inBlockComment t q.content.start

theorem stringsIn_eq (s : Source) (lines : LineRange) :
    stringsIn s.text lines = .ok (s.stringsIn lines) := by
  rw [stringsIn, Reading.gather_ok fun n _ => quotes_eq s n, Reading.ok_bind]
  simp only [inBlockComment_eq]
  rfl

/-- The content of a string is cut out between characters. -/
theorem part_content {s : Source} {n : Nat} {q : Quoted} (hq : q ∈ s.quotes n) :
    Reading.part s.text q.content = .ok (s.text.slice q.content) := by
  obtain ⟨before, content, after, htext, hcontent⟩ := exists_content hq
  rw [← htext, hcontent, Reading.part_append, ← List.append_assoc, Text.slice_append]

def mark (t : Text) (paint : Paint) (extent : Interval) : Reading (List Mark) :=
  if extent.isEmpty then .ok []
  else do
    let line ← lineOf t extent.start
    return [⟨paint, extent, line⟩]

theorem mark_eq (s : Source) (paint : Paint) (extent : Interval) :
    mark s.text paint extent = .ok (s.mark? paint extent).toList := by
  unfold mark Source.mark?
  split
  · rfl
  · rw [lineOf_eq]
    rfl

/-! ## Warnings -/

def isRisky (t : Text) (q : Quoted) : Reading Bool := do
  let content ← Reading.part t q.content
  let function ← enclosingCall? t (q.content.start - 1)
  return GameText.isUnbalanced content &&
    (GameText.bearsCode content || function.any GameText.isShowingFunction)

def warnings (t : Text) (lastLine : Option Nat) : List Quoted → Reading (List Advisory)
  | [] => .ok []
  | q :: qs => do
    let risky ← isRisky t q
    let line ← lineOf t q.content.start
    if risky && lastLine != some line then
      let rest ← warnings t (some line) qs
      return .crashRisk line q.content :: rest
    else warnings t lastLine qs

theorem isRisky_eq {s : Source} {n : Nat} {q : Quoted} (hq : q ∈ s.quotes n) :
    isRisky s.text q = .ok (s.isRisky q) := by
  rw [isRisky, part_content hq, Reading.ok_bind, enclosingCall?_eq]
  rfl

theorem warnings_eq {s : Source} {strings : List Quoted} (h : ∀ q ∈ strings, ∃ n, q ∈ s.quotes n)
    (lastLine : Option Nat) :
    warnings s.text lastLine strings = .ok (s.warnings lastLine strings) := by
  induction strings generalizing lastLine with
  | nil => rfl
  | cons q strings ih =>
    obtain ⟨⟨n, hq⟩, hstrings⟩ := List.forall_mem_cons.1 h
    simp only [warnings, Source.warnings, isRisky_eq hq, Reading.ok_bind, lineOf_eq, ih hstrings]
    split <;> rfl

/-! ## Text colored by codes -/

/-- The runs behind the tilde codes of a string. -/
def codeRuns (t : Text) (q : Quoted) : Reading (List GameText.Run) := do
  let content ← Reading.part t q.content
  segments q.content.start content

def codeCover (t : Text) (q : Quoted) : Reading (List Interval) := do
  let content ← Reading.part t q.content
  let runs ← codeRuns t q
  return (GameText.literals q.content.start content).map Literal.extent
    ++ (runs.filter (·.hue.isSome)).map GameText.Run.extent

def codeMarks (t : Text) (style : Style) (q : Quoted) : Reading (List Mark) := do
  let runs ← codeRuns t q
  Reading.gather (fun r => r.color.elim (.ok []) fun color =>
    mark t ⟨color, style, .text⟩ r.extent) runs

/-- The runs behind the braced colors of a string. -/
def bracedRuns (t : Text) (q : Quoted) : Reading (List Inline.Run) := do
  let content ← Reading.part t q.content
  inlineRuns q.content.start content

def inlineCover (t : Text) (q : Quoted) : Reading (List Interval) := do
  let runs ← bracedRuns t q
  return runs.flatMap fun r => [r.code.extent, r.extent]

def inlineMarks (t : Text) (style : Style) (q : Quoted) : Reading (List Mark) := do
  let runs ← bracedRuns t q
  Reading.gather (fun r => mark t ⟨r.code.color, style, .text⟩ r.extent) runs

section Strings

variable {s : Source} {n : Nat} {q : Quoted}

theorem codeRuns_eq (hq : q ∈ s.quotes n) :
    codeRuns s.text q = .ok (GameText.runs q.content.start (s.text.slice q.content)) := by
  rw [codeRuns, part_content hq, Reading.ok_bind, segments_eq]

theorem codeCover_eq (hq : q ∈ s.quotes n) : codeCover s.text q = .ok (s.codeCover q) := by
  rw [codeCover, part_content hq, Reading.ok_bind, codeRuns_eq hq, Reading.ok_bind]
  rfl

theorem codeMarks_eq (hq : q ∈ s.quotes n) (style : Style) :
    codeMarks s.text style q = .ok (s.codeMarks style q) := by
  rw [codeMarks, codeRuns_eq hq, Reading.ok_bind]
  refine Reading.gather_toList_ok fun r _ => ?_
  cases r.color with
  | none => rfl
  | some color => exact mark_eq s _ _

theorem bracedRuns_eq (hq : q ∈ s.quotes n) :
    bracedRuns s.text q = .ok (Inline.runs q.content.start (s.text.slice q.content)) := by
  rw [bracedRuns, part_content hq, Reading.ok_bind, inlineRuns_eq]

theorem inlineCover_eq (hq : q ∈ s.quotes n) : inlineCover s.text q = .ok (s.inlineCover q) := by
  rw [inlineCover, bracedRuns_eq hq]
  rfl

theorem inlineMarks_eq (hq : q ∈ s.quotes n) (style : Style) :
    inlineMarks s.text style q = .ok (s.inlineMarks style q) := by
  rw [inlineMarks, bracedRuns_eq hq, Reading.ok_bind]
  exact Reading.gather_toList_ok fun r _ => mark_eq s _ _

end Strings

def cover (t : Text) (strings : List Quoted) : Reading Cover := do
  let codes ← Reading.gather (codeCover t) strings
  let braced ← Reading.gather (inlineCover t) strings
  let intervals ← claimAll [] (codes ++ braced)
  return ⟨intervals⟩

theorem cover_eq {s : Source} {strings : List Quoted} (h : ∀ q ∈ strings, ∃ n, q ∈ s.quotes n) :
    cover s.text strings = .ok (s.cover strings) := by
  have hcodes : Reading.gather (codeCover s.text) strings = .ok (strings.flatMap s.codeCover) :=
    Reading.gather_ok fun q hq => (h q hq).elim fun _ hq => codeCover_eq hq
  have hbraced : Reading.gather (inlineCover s.text) strings
      = .ok (strings.flatMap s.inlineCover) :=
    Reading.gather_ok fun q hq => (h q hq).elim fun _ hq => inlineCover_eq hq
  have hclaims := claimAll_eq (c := {}) Cover.isNormal_nil
    (strings.flatMap s.codeCover ++ strings.flatMap s.inlineCover)
  rw [cover, hcodes, Reading.ok_bind, hbraced, Reading.ok_bind, hclaims]
  rfl

/-! ## Strings that are colored as arguments -/

/-- The argument that a token of a part of the text is; the part starts at `base`. -/
def argument? (t : Text) (base : Nat) (o : Occurrence) : Reading (Option ColorArgument) := do
  let start := base + o.offset
  let comment ← inComment t start
  let string ← inString t start
  if comment || string then return none
  else (find? (fun c => isBlank c || c == ',') o.token).elim (.ok none) fun length => do
    let raw ← Reading.part o.token ⟨0, length⟩
    let found ← readMarked? raw
    found.elim (.ok none) fun f => do
      let function ← enclosingCall? t start
      function.elim (.ok none) fun function => do
        let line ← lineOf t start
        let strings ← quotes t line
        return (strings.find? (·.content.start == base + o.extent.stop)).map fun string =>
          ⟨⟨⟨start, start + length⟩, raw, f.1, f.2⟩, string, function⟩

/-- The literals in a part of the text that color the string argument behind them; a part that
cannot be cut out has none. -/
def colorArguments (t : Text) (window : Interval) : Reading (List ColorArgument) :=
  Reading.gather (fun o => do return (← argument? t window.start o).toList)
    (ColorArgument.token.occurrences 0 (t.slice window))

def argumentMarks (t : Text) (style : Style) (cover : Cover) (window : Interval) :
    Reading (List Mark) := do
  let arguments ← colorArguments t window
  Reading.gather (fun a =>
    if cover.meets a.string.content then .ok []
    else mark t ⟨a.literal.color, style, .text⟩ a.string.content) arguments

/-- A token of a color argument has a comma, and its literal ends there or before. -/
theorem part_lead {token : Text} (h : ColorArgument.IsToken token) :
    find? (fun c => isBlank c || c == ',') token = some (ColorArgument.lead token).size ∧
      Reading.part token ⟨0, (ColorArgument.lead token).size⟩ = .ok (ColorArgument.lead token) := by
  constructor
  · obtain ⟨x, digits, lead, trail, rfl, -⟩ := h
    rw [find?, if_pos (List.any_eq_true.2 ⟨',', by simp, by decide⟩)]
    rfl
  · have hpart := Reading.part_append [] (ColorArgument.lead token)
      (token.dropWhile fun c => !(isBlank c || c == ','))
    rwa [ColorArgument.lead, List.takeWhile_append_dropWhile, List.nil_append, Text.size_nil,
      Nat.zero_add] at hpart

theorem argument?_eq {s : Source} {base : Nat} {o : Occurrence}
    (ho : ColorArgument.IsToken o.token) :
    argument? s.text base o = .ok (ColorArgument.ofOccurrence? s (shift base o)) := by
  obtain ⟨hfind, hpart⟩ := part_lead ho
  have hoffset : (shift base o).offset = base + o.offset := rfl
  have hstop : (shift base o).extent.stop = base + o.extent.stop := Nat.add_assoc _ _ _
  simp only [argument?, ← hoffset, ← hstop, inComment_eq, inString_eq, Reading.ok_bind, hfind,
    Option.elim_some, hpart, readMarked?_eq, enclosingCall?_eq, lineOf_eq, quotes_eq,
    ColorArgument.ofOccurrence?]
  split
  · rfl
  · have hlead : (shift base o).token = o.token := rfl
    rw [hlead]
    cases Hex.read? (ColorArgument.lead o.token) with
    | none => rfl
    | some f =>
      cases s.enclosingCall? (shift base o).offset with
      | none => rfl
      | some function =>
        cases (s.quotes (s.lineOf (shift base o).offset)).find?
          (·.content.start == (shift base o).extent.stop) <;> rfl

theorem colorArguments_eq (s : Source) (window : Interval) :
    colorArguments s.text window = .ok (s.colorArguments window) := by
  rw [Source.colorArguments, occurrences_shift, List.filterMap_map]
  refine Reading.gather_toList_ok fun o ho => ?_
  rw [argument?_eq (ColorArgument.finds_iff.1 (Pattern.finds_of_mem ho)).2.2]
  rfl

theorem argumentMarks_eq (s : Source) (style : Style) (cover : Cover) (window : Interval) :
    argumentMarks s.text style cover window = .ok (s.argumentMarks style cover window) := by
  rw [argumentMarks, colorArguments_eq, Reading.ok_bind]
  refine Reading.gather_toList_ok fun a _ => ?_
  split
  · rfl
  · exact mark_eq s _ _

/-! ## Literals -/

def admitsTuple (t : Text) (offset : Nat) : Reading Bool := do
  let comment ← inComment t offset
  let string ← inString t offset
  let function ← enclosingCall? t offset
  return !(comment || string) && function.all isColorSetter

def literalMarks (t : Text) (style : Style) (window : Interval) : Reading (List Mark) := do
  let text ← Reading.part t window
  let hex ← marked window.start text
  let braces ← braced window.start text
  let shown ← keep (fun l => do return !(← inComment t l.extent.start)) (hex ++ braces)
  let lists ← tuples window.start text
  let admitted ← keep (fun l => admitsTuple t l.extent.start) lists
  Reading.gather (fun l => mark t ⟨l.color, style, .literal⟩ l.extent) (shown ++ admitted)

theorem admitsTuple_eq (s : Source) (offset : Nat) :
    admitsTuple s.text offset = .ok (s.admitsTuple offset) := by
  rw [admitsTuple, inComment_eq, Reading.ok_bind, inString_eq, Reading.ok_bind, enclosingCall?_eq]
  rfl

theorem literalMarks_eq {s : Source} {window : Interval} {text : Text}
    (hwindow : Reading.part s.text window = .ok text) (style : Style) :
    literalMarks s.text style window = .ok (s.literalMarks style window) := by
  have hslice : s.text.slice window = text := by
    rw [Text.slice, Reading.part_eq_ok_iff.1 hwindow]
    rfl
  have hshown : keep (fun l => do return !(← inComment s.text l.extent.start))
      (Hex.literals window.start text ++ Braced.literals window.start text)
      = .ok ((Hex.literals window.start text ++ Braced.literals window.start text).filter
          fun l => !s.inComment l.extent.start) :=
    keep_ok fun l _ => by rw [inComment_eq]; rfl
  have hadmitted : keep (fun l => admitsTuple s.text l.extent.start)
      (Tuple.literals window.start text)
      = .ok ((Tuple.literals window.start text).filter fun l => s.admitsTuple l.extent.start) :=
    keep_ok fun l _ => admitsTuple_eq s _
  rw [literalMarks, hwindow, Reading.ok_bind, marked_eq, Reading.ok_bind, braced_eq,
    Reading.ok_bind, hshown, Reading.ok_bind, tuples_eq, Reading.ok_bind, hadmitted,
    Reading.ok_bind]
  rw [Reading.gather_toList_ok fun l _ => mark_eq s _ _, Source.literalMarks, Source.literals,
    Source.tuples, hslice]

/-! ## Scans -/

def ofFamily (f : Family) (marks : Style → Reading (List Mark)) : Reading (List Mark) :=
  if f.enabled then marks f.style else .ok []

theorem ofFamily_ok {f : Family} {marks : Style → Reading (List Mark)}
    {found : Style → List Mark} (h : ∀ style, marks style = .ok (found style)) :
    ofFamily f marks = .ok (Scan.ofFamily f found) := by
  unfold ofFamily Scan.ofFamily
  split
  · exact h f.style
  · rfl

/-- The bytes of some lines, from the start of the first one to the end of the last one. -/
def window? (t : Text) (lines : LineRange) : Reading (Option Interval) := do
  let last ← lineRange? t lines.last
  return (lineStarts t)[lines.first]?.bind fun start => last.map fun i => ⟨start, i.stop⟩

def scan (t : Text) (lines : LineRange) (settings : Settings) : Reading Scan := do
  let window ← window? t lines
  window.elim (.ok {}) fun window => do
    let strings ← stringsIn t lines
    let advisories ← warnings t none strings
    let cover ← cover t strings
    let codes ← ofFamily settings.gameText fun style => Reading.gather (codeMarks t style) strings
    let inline ← ofFamily settings.inlineText fun style =>
      Reading.gather (inlineMarks t style) strings
    let arguments ← ofFamily settings.inlineText fun style => argumentMarks t style cover window
    let literals ← ofFamily settings.hex fun style => literalMarks t style window
    let marks := codes ++ inline ++ arguments ++ literals
    return { marks := marks.mergeSort fun m n => m.extent.le n.extent, advisories := advisories }

theorem window?_eq (s : Source) (lines : LineRange) :
    window? s.text lines = .ok (s.window? lines) := by
  rw [window?, lineRange?_eq, Reading.ok_bind, lineStarts_eq, List.getElem?_map, Source.window?]
  cases s.lines[lines.first]? <;> cases s.lines[lines.last]? <;> rfl

/-- A scan of lines that the text has reads nothing in vain. -/
theorem scan_eq {s : Source} {lines : LineRange} (hle : lines.first ≤ lines.last)
    (hlast : lines.last < s.lineCount) (settings : Settings) :
    scan s.text lines settings = .ok (Scan.ofLines s lines settings) := by
  obtain ⟨before, part, after, h⟩ := Source.exists_hasWindow hle hlast
  have hstrings (q : Quoted) (hq : q ∈ s.stringsIn lines) : ∃ n, q ∈ s.quotes n := by
    obtain ⟨n, -, -, hq, -⟩ := Source.mem_stringsIn.1 hq
    exact ⟨n, hq⟩
  have hwindow : Reading.part s.text ⟨before.size, before.size + (stripReturn part).size⟩
      = .ok (stripReturn part) := by
    obtain ⟨ret, htext, -⟩ := h.text_eq
    rw [← htext, Reading.part_append]
  have hcodes (style : Style) : Reading.gather (codeMarks s.text style) (s.stringsIn lines)
      = .ok ((s.stringsIn lines).flatMap (s.codeMarks style)) :=
    Reading.gather_ok fun q hq => (hstrings q hq).elim fun _ hq => codeMarks_eq hq style
  have hinline (style : Style) : Reading.gather (inlineMarks s.text style) (s.stringsIn lines)
      = .ok ((s.stringsIn lines).flatMap (s.inlineMarks style)) :=
    Reading.gather_ok fun q hq => (hstrings q hq).elim fun _ hq => inlineMarks_eq hq style
  rw [scan, window?_eq, Reading.ok_bind, h.window_eq, Option.elim_some]
  simp only [stringsIn_eq, warnings_eq hstrings, cover_eq hstrings, ofFamily_ok hcodes,
    ofFamily_ok hinline, ofFamily_ok fun style => argumentMarks_eq s style _ _,
    ofFamily_ok (literalMarks_eq hwindow), Reading.ok_bind]
  rw [Scan.ofLines, h.window_eq]
  rfl

end Offsets

end Swatch

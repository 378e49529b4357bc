-- SUMMARY: Runs of colored text cut out of strings by offsets, in front of what stops them.
import Swatch.Proofs.Literal.Hexadecimal
import Swatch.Proofs.Offsets.Literal

/-!
# Runs by offsets

A run starts where its code ends. It stops at the smallest of several offsets: where the
next code starts, where the first braced color or tilde code behind the run's start does,
where the first semicolon stands, or at the end of the string. Each of them is searched
for on its own, so each is found by a cut at the start of the run, and the run is cut out
once its stop is known.

What stands up to the first place that one of two conditions stops at is the shorter one
of what they stop at alone, so the smallest offset is where the run of the text stops.
-/

namespace Swatch

namespace Offsets

/-! ## The first place that stops a run -/

/-- The byte offset of the first character of a text that has a property. -/
def find? (f : Char → Bool) (t : Text) : Option Nat :=
  if t.any f then some (Text.size (t.takeWhile fun c => !f c)) else none

/-- A text starts with a character that has a property. -/
def startsWith (f : Char → Bool) (t : Text) : Bool :=
  t.head?.any f

theorem upTo_startsWith (f : Char → Bool) (t : Text) :
    t.upTo (startsWith f) = t.takeWhile fun c => !f c := by
  induction t with
  | nil => rfl
  | cons c t ih =>
    rw [Text.upTo, List.takeWhile_cons, ih]
    cases hc : f c <;> simp [startsWith, hc]

theorem find?_getD (f : Char → Bool) (t : Text) :
    (find? f t).getD t.size = (t.upTo (startsWith f)).size := by
  rw [upTo_startsWith]
  unfold find?
  split
  · rfl
  · next hnone =>
    rw [List.takeWhile_eq_self_iff.2 (by simpa using hnone)]
    rfl

/-- Two conditions stop at the first place that one of them stops at. -/
theorem size_upTo_or (f g : Text → Bool) (t : Text) :
    (t.upTo fun t => f t || g t).size = min (t.upTo f).size (t.upTo g).size := by
  induction t with
  | nil => rfl
  | cons c t ih =>
    simp only [Text.upTo]
    by_cases hf : f (c :: t) <;> by_cases hg : g (c :: t) <;>
      simp [hf, hg, ih, Nat.add_min_add_left]

/-- The first occurrence of a pattern stands at the first place that it may start at. -/
theorem head?_occurrencesFrom {p : Pattern} {heads : Text → Bool}
    (hp : ∀ before t, (p before t).isSome = heads t) (before : Text) (offset : Nat) (t : Text) :
    ((p.occurrencesFrom before offset t).head?.map (·.offset)).getD (offset + t.size)
      = offset + (t.upTo heads).size := by
  fun_induction Pattern.occurrencesFrom p before offset t with
  | case1 => rfl
  | case2 before offset c rest hnone ih =>
    have hheads : heads (c :: rest) = false := by rw [← hp before, hnone]; rfl
    simpa [Text.upTo, hheads, Nat.add_assoc] using ih
  | case3 before offset c rest n hn token ih =>
    have hheads : heads (c :: rest) = true := by rw [← hp before, hn]; rfl
    simp [Text.upTo, hheads]

theorem isSome_bracedToken (before t : Text) : (Braced.token before t).isSome = Braced.heads t := by
  unfold Braced.token
  split <;> simp [*]

theorem isSome_codeToken (before t : Text) :
    (GameText.token before t).isSome = GameText.heads t := by
  unfold GameText.token
  split <;> simp [*]

/-- The smaller one of an offset and another one that may be missing. -/
theorem elim_min {x : Option Nat} {stop total : Nat} (h : stop ≤ total) :
    x.elim stop (min stop) = min stop (x.getD total) := by
  cases x with
  | none => exact (Nat.min_eq_left h).symm
  | some n => rfl

/-! ## Behind tilde codes -/

/-- Where the run that starts at an offset stops, given where the next code starts. -/
def runEnd (content : Text) (start : Nat) (next : Option Nat) : Reading Nat := do
  let stop := next.getD content.size
  let behind ← Reading.part content ⟨start, content.size⟩
  let brace := (Braced.token.occurrences start behind).head?.map (·.offset)
  let stop := brace.elim stop (min stop)
  let semicolon := (find? (· == ';') behind).map (start + ·)
  return semicolon.elim stop (min stop)

/-- The run from one offset to another one of a content that starts at `base`, unless it is
empty. -/
def segment (content : Text) (base start stop : Nat) (hue : Option GameText.Hue) (level : Nat) :
    Reading (List GameText.Run) :=
  if start < stop then do
    let text ← Reading.part content ⟨start, stop⟩
    return [⟨text, base + start, hue, level⟩]
  else .ok []

def segmentFrom (content : Text) (base start : Nat) (next : Option Nat) (hue : Option GameText.Hue)
    (level : Nat) : Reading (List GameText.Run) := do
  let stop ← runEnd content start next
  segment content base start stop hue level

/-- The runs behind the codes of a list. -/
def segmentsAfter (content : Text) (base : Nat) : List GameText.Code → Reading (List GameText.Run)
  | [] => .ok []
  | c :: codes => do
    let here ← segmentFrom content base c.occurrence.extent.stop
      (codes.head?.map (·.occurrence.offset)) (some c.hue) (min c.level c.hue.maxLevel)
    let rest ← segmentsAfter content base codes
    return here ++ rest

def segments (base : Nat) (content : Text) : Reading (List GameText.Run) := do
  let codes := GameText.codes 0 content
  let here ← segmentFrom content base 0 (codes.head?.map (·.occurrence.offset)) none 0
  let rest ← segmentsAfter content base codes
  return here ++ rest

/-- A run reaches to where the next code starts, short of a semicolon and of a braced color. -/
theorem size_runText (mid rest : Text) :
    (GameText.runText mid.size (mid ++ rest)).size
      = min mid.size
        (Text.upTo (fun t => startsWith (· == ';') t || Braced.heads t) (mid ++ rest)).size := by
  induction mid with
  | nil =>
    cases rest with
    | nil => rfl
    | cons c rest => simp [GameText.runText, Char.utf8Size_pos c]
  | cons c mid ih =>
    have hlimit : ¬ Text.size (c :: mid) < c.utf8Size := by
      rw [Text.size_cons]
      omega
    have hrest : Text.size (c :: mid) - c.utf8Size = Text.size mid := by
      rw [Text.size_cons, Nat.add_sub_cancel_left]
    have hhead : startsWith (· == ';') (c :: (mid ++ rest)) = (c == ';') := by simp [startsWith]
    rw [List.cons_append, GameText.runText, Text.upTo, hhead, decide_eq_false hlimit, Bool.false_or,
      hrest]
    split
    · simp
    · rw [Text.size_cons, ih, Text.size_cons, Text.size_cons, Nat.add_min_add_left]

theorem runEnd_eq {left mid rest : Text} {next : Option Nat}
    (hnext : next.getD (Text.size (left ++ (mid ++ rest))) = left.size + mid.size) :
    runEnd (left ++ (mid ++ rest)) left.size next
      = .ok (left.size + (GameText.runText mid.size (mid ++ rest)).size) := by
  have htotal : Text.size (left ++ (mid ++ rest)) = left.size + Text.size (mid ++ rest) :=
    Text.size_append _ _
  have hbehind := Reading.part_append left (mid ++ rest) []
  rw [List.append_nil, ← htotal] at hbehind
  have hbrace := head?_occurrencesFrom isSome_bracedToken [] left.size (mid ++ rest)
  have hsemicolon : ((find? (· == ';') (mid ++ rest)).map (left.size + ·)).getD
      (left.size + Text.size (mid ++ rest))
      = left.size + (Text.upTo (startsWith (· == ';')) (mid ++ rest)).size := by
    rw [← find?_getD]
    cases find? (· == ';') (mid ++ rest) <;> rfl
  have hle : left.size + mid.size ≤ left.size + Text.size (mid ++ rest) := by simp
  simp only [runEnd, hbehind, Reading.ok_bind, hnext, Reading.pure_eq_ok, Except.ok.injEq]
  rw [elim_min hle, Pattern.occurrences, hbrace, elim_min (Nat.le_trans (Nat.min_le_left _ _) hle),
    hsemicolon, size_runText, size_upTo_or]
  omega

theorem segment_eq (left run rest : Text) (base : Nat) (hue : Option GameText.Hue) (level : Nat) :
    segment (left ++ (run ++ rest)) base left.size (left.size + run.size) hue level
      = .ok ([⟨run, base + left.size, hue, level⟩].filter fun r => !r.text.isEmpty) := by
  unfold segment
  split
  · next hlt =>
    have hne : run ≠ [] := Text.size_pos_iff.1 (by omega)
    rw [Reading.part_append]
    simp [hne]
  · next hge =>
    have hnil : run = [] := Text.size_eq_zero_iff.1 (by omega)
    simp [hnil]

/-- The run that starts behind some text, in front of the next code. -/
theorem segmentFrom_eq (left : Text) {mid rest : Text} {next : Option Nat}
    (hnext : next.getD (Text.size (left ++ (mid ++ rest))) = left.size + mid.size) (base : Nat)
    (hue : Option GameText.Hue) (level : Nat) :
    segmentFrom (left ++ (mid ++ rest)) base left.size next hue level
      = .ok ([⟨GameText.runText mid.size (mid ++ rest), base + left.size, hue, level⟩].filter
          fun r => !r.text.isEmpty) := by
  obtain ⟨behind, hbehind, -⟩ := GameText.runText_spec mid.size (mid ++ rest)
  rw [segmentFrom, runEnd_eq hnext, Reading.ok_bind]
  have hsegment := segment_eq left (GameText.runText mid.size (mid ++ rest)) behind base hue level
  rwa [← hbehind] at hsegment

/-- A code of a content that starts at `base`, told by the one in the content itself. -/
def shiftCode (base : Nat) (c : GameText.Code) : GameText.Code :=
  { c with occurrence := shift base c.occurrence }

theorem codes_shift (base : Nat) (t : Text) :
    GameText.codes base t = (GameText.codes 0 t).map (shiftCode base) := by
  rw [GameText.codes, occurrences_shift, List.filterMap_map, GameText.codes, List.map_filterMap]
  refine congrArg (fun f => (GameText.token.occurrences 0 t).filterMap f) ?_
  funext o
  have htoken : (shift base o).token = o.token := rfl
  simp only [Function.comp_apply, htoken]
  cases GameText.letterAndSteps? o.token with
  | none => rfl
  | some parts => cases hhue : GameText.hue? parts.1 <;> simp [hhue, shiftCode]

/-- Up to the next code, which starts at the end of some part, or up to the end of the content. -/
theorem exists_upToNext {content left behind : Text} {codes : List GameText.Code}
    (hcontent : left ++ behind = content) (hcodes : GameText.AreCodes 0 content codes)
    (hle : ∀ c ∈ codes.head?, left.size ≤ c.occurrence.offset) :
    ∃ mid rest, behind = mid ++ rest ∧
      (codes.head?.map (·.occurrence.offset)).getD content.size = left.size + mid.size ∧
      ∀ base, ((codes.map (shiftCode base)).head?.map
          fun c => c.occurrence.offset - (base + left.size)).getD behind.size = mid.size := by
  cases codes with
  | nil => exact ⟨behind, [], by simp, by simp [← hcontent], by simp⟩
  | cons c codes =>
    have hc := hcodes.finds c List.mem_cons_self
    have hoffset := hc.offset_eq
    obtain ⟨mid, hbefore, hbehind⟩ := Text.exists_middle (hcontent.trans hc.text_eq.symm) (by
      have hle := hle c rfl
      rw [Text.size_reverse]
      omega)
    have hsize := congrArg Text.size hbefore
    rw [Text.size_reverse, Text.size_append] at hsize
    refine ⟨mid, _, hbehind, ?_, fun base => ?_⟩
    · simp only [List.head?_cons, Option.map_some, Option.getD_some]
      omega
    · simp only [List.map_cons, List.head?_cons, Option.map_some, Option.getD_some, shiftCode,
        shift]
      omega

theorem runsAfter_cons (c : GameText.Code) (codes : List GameText.Code) :
    GameText.runsAfter (c :: codes) =
      ⟨GameText.runText ((codes.head?.map
          fun n => n.occurrence.offset - c.occurrence.extent.stop).getD c.occurrence.after.size)
        c.occurrence.after, c.occurrence.extent.stop, some c.hue, min c.level c.hue.maxLevel⟩
      :: GameText.runsAfter codes := by
  cases codes <;> rfl

theorem segmentsAfter_eq {content : Text} {codes : List GameText.Code}
    (h : GameText.AreCodes 0 content codes) (base : Nat) :
    segmentsAfter content base codes
      = .ok ((GameText.runsAfter (codes.map (shiftCode base))).filter
          fun r => !r.text.isEmpty) := by
  induction codes with
  | nil => rfl
  | cons c codes ih =>
    have hc := h.finds c List.mem_cons_self
    have hstop : c.occurrence.extent.stop
        = Text.size (c.occurrence.before.reverse ++ c.occurrence.token) := by
      simp [Occurrence.extent, Interval.ofSize, hc.offset_eq]
    have hcontent : c.occurrence.before.reverse ++ c.occurrence.token ++ c.occurrence.after
        = content := by
      rw [List.append_assoc, hc.text_eq]
    obtain ⟨mid, rest, hafter, hnext, hlimit⟩ := exists_upToNext hcontent h.tail (by
      intro c' hc'
      rw [← hstop]
      exact (List.pairwise_cons.1 h.pairwise).1 c' (List.mem_of_head? hc'))
    have hstop' : (shiftCode base c).occurrence.extent.stop
        = base + Text.size (c.occurrence.before.reverse ++ c.occurrence.token) := by
      simp [shiftCode, shift, Occurrence.extent, Interval.ofSize, hc.offset_eq, Nat.add_assoc]
    have hsegment := segmentFrom_eq (c.occurrence.before.reverse ++ c.occurrence.token)
      (by rw [← hafter, hcontent, hnext]) base (some c.hue) (min c.level c.hue.maxLevel)
    rw [← hafter, hcontent, ← hstop] at hsegment
    rw [segmentsAfter, hsegment, Reading.ok_bind, ih h.tail, Reading.ok_bind, List.map_cons,
      runsAfter_cons, hstop']
    have hafter' : (shiftCode base c).occurrence.after = c.occurrence.after := rfl
    rw [hafter', hlimit base, hstop]
    exact congrArg Except.ok (List.filter_append [_] _).symm

theorem runs_eq (base : Nat) (t : Text) :
    GameText.runs base t =
      (⟨GameText.runText (((GameText.codes base t).head?.map
          fun c => c.occurrence.offset - base).getD t.size) t, base, none, 0⟩
        :: GameText.runsAfter (GameText.codes base t)).filter fun r => !r.text.isEmpty := by
  unfold GameText.runs
  cases GameText.codes base t <;> rfl

/-- The first run stands in front of all codes. -/
theorem segments_eq (base : Nat) (content : Text) :
    segments base content = .ok (GameText.runs base content) := by
  have hcodes := GameText.areCodes_codes 0 content
  obtain ⟨mid, rest, hcontent, hnext, hlimit⟩ := exists_upToNext (List.nil_append content) hcodes
    fun _ _ => Nat.zero_le _
  have hsegment := segmentFrom_eq [] (by rw [← hcontent, List.nil_append, hnext]) base none 0
  have hfirst := hlimit base
  have hafter := segmentsAfter_eq hcodes base
  rw [List.nil_append, ← hcontent, Text.size_nil, Nat.add_zero] at hsegment
  rw [Text.size_nil, Nat.add_zero, ← codes_shift] at hfirst
  rw [← codes_shift] at hafter
  simp only [segments, hsegment, Reading.ok_bind, hafter]
  rw [runs_eq, hfirst]
  exact congrArg Except.ok (List.filter_append [_] _).symm

/-! ## Behind braced colors -/

/-- Where the next literal of a list starts in a content that starts at `base`, or where the content
ends. -/
def nextStart (content : Text) (base : Nat) (codes : List Literal) : Reading Nat :=
  (codes.head?.map (·.extent.start)).elim (.ok content.size) (Reading.distance base)

/-- Where the run that starts at an offset stops, given where the next color starts. -/
def inlineEnd (content : Text) (start next : Nat) : Reading Nat := do
  let behind ← Reading.part content ⟨start, content.size⟩
  let tilde := (GameText.token.occurrences start behind).head?.map (·.offset)
  return max (tilde.elim next (min next)) start

/-- The runs behind the braced colors of a list in a content that starts at `base`. -/
def inlineRunsAfter (content : Text) (base : Nat) : List Literal → Reading (List Inline.Run)
  | [] => .ok []
  | code :: codes => do
    let start ← Reading.distance base code.extent.stop
    let next ← nextStart content base codes
    let stop ← inlineEnd content start next
    let rest ← inlineRunsAfter content base codes
    return ⟨code, ⟨base + start, base + stop⟩⟩ :: rest

/-- The braced colors of a content that starts at `base`, each with its run. -/
def inlineRuns (base : Nat) (content : Text) : Reading (List Inline.Run) := do
  let codes ← braced base content
  inlineRunsAfter content base codes

/-- The literal that comes next starts where the next token does. -/
theorem head?_filterMap_literal? {occurrences : List Occurrence}
    (hcolors : ∀ o ∈ occurrences, ∃ color, Braced.read? o.token = some color) :
    (occurrences.filterMap Braced.literal?).head?.map (·.extent.start)
      = occurrences.head?.map (·.offset) := by
  cases occurrences with
  | nil => rfl
  | cons o occurrences =>
    obtain ⟨color, hcolor⟩ := hcolors o List.mem_cons_self
    simp [Braced.literal?, hcolor, Literal.ofOccurrence, Occurrence.extent, Interval.ofSize]

theorem nextStart_eq (left : Text) {base : Nat} {before : Text} {offset : Nat} {behind : Text}
    (hoffset : offset = base + left.size)
    (hcolors : ∀ o ∈ Braced.token.occurrencesFrom before offset behind,
      ∃ color, Braced.read? o.token = some color) :
    nextStart (left ++ behind) base
        ((Braced.token.occurrencesFrom before offset behind).filterMap Braced.literal?)
      = .ok (left.size + (behind.upTo Braced.heads).size) := by
  have hfirst := head?_occurrencesFrom isSome_bracedToken before offset behind
  rw [nextStart, head?_filterMap_literal? hcolors]
  cases ho : (Braced.token.occurrencesFrom before offset behind).head? with
  | none =>
    simp only [ho, Option.map_none, Option.getD_none] at hfirst
    simp only [Option.map_none, Option.elim_none, Text.size_append]
    exact congrArg Except.ok (by omega)
  | some o =>
    simp only [ho, Option.map_some, Option.getD_some] at hfirst
    rw [Option.map_some, Option.elim_some, hfirst, hoffset, Nat.add_assoc, Reading.distance_add]

theorem inlineEnd_eq (left behind : Text) :
    inlineEnd (left ++ behind) left.size (left.size + (behind.upTo Braced.heads).size)
      = .ok (left.size + (behind.upTo Inline.stops).size) := by
  have hpart := Reading.part_append left behind []
  rw [List.append_nil, ← Text.size_append] at hpart
  have htilde := head?_occurrencesFrom isSome_codeToken [] left.size behind
  have hle : left.size + (behind.upTo Braced.heads).size ≤ left.size + Text.size behind := by
    obtain ⟨rest, hrest, -⟩ := upTo_spec Braced.heads behind
    have hsize := congrArg Text.size hrest
    rw [Text.size_append] at hsize
    omega
  have hstops : (behind.upTo Inline.stops).size
      = min (behind.upTo Braced.heads).size (behind.upTo GameText.heads).size :=
    size_upTo_or Braced.heads GameText.heads behind
  simp only [inlineEnd, hpart, Reading.ok_bind, Pattern.occurrences, Reading.pure_eq_ok,
    Except.ok.injEq]
  rw [elim_min hle, htilde, hstops]
  omega

theorem inlineRunsAfter_eq (left : Text) {base : Nat} {before : Text} {offset : Nat} {t : Text}
    (hoffset : offset = base + left.size)
    (hcolors : ∀ o ∈ Braced.token.occurrencesFrom before offset t,
      ∃ color, Braced.read? o.token = some color) :
    inlineRunsAfter (left ++ t) base
        ((Braced.token.occurrencesFrom before offset t).filterMap Braced.literal?)
      = .ok ((Braced.token.occurrencesFrom before offset t).filterMap
          Inline.Run.ofOccurrence?) := by
  fun_induction Pattern.occurrencesFrom Braced.token before offset t generalizing left with
  | case1 => rfl
  | case2 before offset c rest hnone ih =>
    have hrest := ih (left ++ [c]) (by simp [hoffset, Nat.add_assoc]) hcolors
    rwa [List.append_assoc] at hrest
  | case3 before offset c rest n hn token ih =>
    obtain ⟨⟨color, hcolor⟩, hmore⟩ := List.forall_mem_cons.1 hcolors
    have hcontent : left ++ c :: rest = left ++ token ++ rest.drop n := by
      simp [token, List.take_append_drop]
    have hoffset' : offset + token.size = base + Text.size (left ++ token) := by
      rw [Text.size_append, hoffset, Nat.add_assoc]
    have hrest := ih (left ++ token) hoffset' hmore
    have hnext := nextStart_eq (left ++ token) hoffset' hmore
    have hstart : Reading.distance base (Literal.ofOccurrence ⟨before, token, rest.drop n, offset⟩
        .braced color).extent.stop = .ok (Text.size (left ++ token)) := by
      rw [← Reading.distance_add base, ← hoffset']
      rfl
    have hliteral : Braced.literal? ⟨before, token, rest.drop n, offset⟩
        = some (.ofOccurrence ⟨before, token, rest.drop n, offset⟩ .braced color) := by
      simp [Braced.literal?, hcolor]
    have hrun : Inline.Run.ofOccurrence? ⟨before, token, rest.drop n, offset⟩
        = some ⟨.ofOccurrence ⟨before, token, rest.drop n, offset⟩ .braced color,
          .ofSize (offset + token.size) (Text.upTo Inline.stops (rest.drop n)).size⟩ := by
      simp [Inline.Run.ofOccurrence?, hcolor, Occurrence.extent, Interval.ofSize]
    rw [List.filterMap_cons_some hliteral, List.filterMap_cons_some hrun, hcontent]
    simp only [inlineRunsAfter, hstart, Reading.ok_bind, hnext, inlineEnd_eq, hrest]
    rw [hoffset', Interval.ofSize, ← Nat.add_assoc]
    rfl

/-- Every braced token of a content is a color, so each is followed by the next one. -/
theorem inlineRuns_eq (base : Nat) (content : Text) :
    inlineRuns base content = .ok (Inline.runs base content) := by
  rw [inlineRuns, braced_eq, Reading.ok_bind, Braced.literals_eq, Pattern.occurrences]
  refine inlineRunsAfter_eq [] (Nat.add_zero base).symm fun o ho => ?_
  obtain ⟨c, hread, -⟩ := Braced.exists_read? (Braced.ensures_token.finds (Pattern.finds_of_mem ho))
  exact ⟨c, hread⟩

end Offsets

end Swatch

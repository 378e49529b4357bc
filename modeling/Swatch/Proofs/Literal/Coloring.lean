-- SUMMARY: Which bytes of a string each tilde code colors, and which bytes stay uncolored.
import Swatch.Proofs.Offsets.Run
import Swatch.Proofs.Text.First

/-!
# Colored bytes

A tilde code colors the bytes behind it up to the next code, unless a semicolon or a braced
color starts at one of these bytes or in front of it: what follows is colored by no code.
The bytes in front of the first code are told the same way, and they stay uncolored.

A run is cut out of the string between two of its offsets, the start of a code being one of
them, and stops short of a semicolon and of a braced color. So an offset is in a run just if it lies
between the two and nothing that stops the run starts up to it. Runs of different codes
are told apart by where they start.
-/

namespace Swatch

/-! ## What stops a run -/

/-- A braced literal starts at an offset just if six digits in braces do. -/
theorem Braced.exists_start_iff {t : Text} {offset : Nat} :
    (∃ l ∈ literals 0 t, l.extent.start = offset) ↔ t.StartsAt heads offset := by
  constructor
  · rintro ⟨l, hl, rfl⟩
    obtain ⟨o, c, hplace, htoken, -, rfl⟩ := mem_literals_iff.1 hl
    refine ⟨o.before.reverse, o.token ++ o.after, hplace.text_eq, ?_,
      heads_iff.2 ⟨o.token, htoken, List.prefix_append _ _⟩⟩
    rw [Text.size_reverse]
    exact (hplace.offset_eq.trans (Nat.zero_add _)).symm
  · rintro ⟨left, right, rfl, rfl, hheads⟩
    obtain ⟨token, htoken, after, rfl⟩ := heads_iff.1 hheads
    obtain ⟨c, hread, -⟩ := exists_read? htoken
    have hplace : Occurrence.StandsIn ⟨left.reverse, token, after, left.size⟩ 0
        (left ++ (token ++ after)) := ⟨by simp, by simp⟩
    exact ⟨_, mem_literals_iff.2 ⟨_, c, hplace, htoken, hread, rfl⟩, rfl⟩

namespace GameText

/-- A semicolon or a braced color starts at an offset of a content. -/
def StopsAt (content : Text) (offset : Nat) : Prop :=
  (∃ before after : Text, before ++ ';' :: after = content ∧ before.size = offset) ∨
    ∃ l ∈ Braced.literals 0 content, l.extent.start = offset

/-- A semicolon or a braced color starts the text. -/
def stopsRun (t : Text) : Bool :=
  Offsets.startsWith (· == ';') t || Braced.heads t

theorem startsWith_semicolon_iff {t : Text} :
    Offsets.startsWith (· == ';') t ↔ ∃ after, t = ';' :: after := by
  cases t with
  | nil => simp [Offsets.startsWith]
  | cons c t => simp [Offsets.startsWith]

theorem stopsAt_iff {content : Text} {offset : Nat} :
    StopsAt content offset ↔ content.StartsAt stopsRun offset := by
  rw [StopsAt, Braced.exists_start_iff]
  constructor
  · rintro (⟨left, after, htext, hsize⟩ | ⟨left, right, htext, hsize, hheads⟩)
    · exact ⟨left, ';' :: after, htext, hsize, by simp [stopsRun, startsWith_semicolon_iff]⟩
    · exact ⟨left, right, htext, hsize, by simp [stopsRun, hheads]⟩
  · rintro ⟨left, right, htext, hsize, hstops⟩
    rcases Bool.or_eq_true_iff.1 hstops with hsemicolon | hheads
    · obtain ⟨after, rfl⟩ := startsWith_semicolon_iff.1 hsemicolon
      exact .inl ⟨left, after, htext, hsize⟩
    · exact .inr ⟨left, right, htext, hsize, hheads⟩

instance (content : Text) (offset : Nat) : Decidable (StopsAt content offset) :=
  decidable_of_iff _ stopsAt_iff.symm

/-! ## The bytes of a run -/

/-- A run of a content that starts at `base` is what stands between two offsets of the content,
short of what stops it. -/
structure Run.Spans (r : Run) (base : Nat) (content : Text) (start limit : Nat) : Prop where
  start_eq : r.start = base + start
  exists_text : ∃ left mid rest, left ++ (mid ++ rest) = content ∧ left.size = start ∧
    start + mid.size = limit ∧ r.text = runText mid.size (mid ++ rest)

namespace Run.Spans

variable {r : Run} {base start limit : Nat} {content : Text}

theorem slice?_eq (h : r.Spans base content start limit) :
    content.slice? ⟨r.extent.start - base, r.extent.stop - base⟩ = some r.text := by
  obtain ⟨left, mid, rest, rfl, rfl, -, htext⟩ := h.exists_text
  obtain ⟨behind, hbehind, -⟩ := runText_spec mid.size (mid ++ rest)
  have hstart : r.extent.start - base = left.size := by
    simp [Run.extent, Interval.ofSize, h.start_eq]
  have hstop : r.extent.stop - base = left.size + r.text.size := by
    simp [Run.extent, Interval.ofSize, h.start_eq, Nat.add_assoc]
  rw [hstart, hstop, hbehind, ← htext, ← List.append_assoc, Text.slice?_append]

theorem mem_extent_iff (h : r.Spans base content start limit) {offset : Nat} :
    base + offset ∈ r.extent ↔ start ≤ offset ∧ offset < limit ∧
      ∀ stop, start ≤ stop → stop ≤ offset → ¬ StopsAt content stop := by
  obtain ⟨left, mid, rest, rfl, rfl, rfl, htext⟩ := h.exists_text
  have hsize : r.text.size = min mid.size ((mid ++ rest).upTo stopsRun).size :=
    htext ▸ Offsets.size_runText mid rest
  have htotal : left.size + mid.size ≤ Text.size (left ++ (mid ++ rest)) := by
    rw [Text.size_append, Text.size_append]
    omega
  have hfirst : offset < _ ↔ _ := (Text.isFirst_upTo stopsRun left (mid ++ rest)).lt_iff
  simp only [stopsAt_iff, Interval.mem_iff, Run.extent, Interval.ofSize, h.start_eq, hsize]
  constructor
  · rintro ⟨hge, hlt⟩
    exact ⟨by omega, by omega, (hfirst.1 (by omega)).2⟩
  · rintro ⟨hge, hlt, hclear⟩
    have hshort := hfirst.2 ⟨by omega, hclear⟩
    omega

end Run.Spans

/-! ## The runs of a content -/

/-- The run in front of all codes. -/
def runInFront (base : Nat) (content : Text) : Run :=
  ⟨runText (((codes base content).head?.map fun c => c.occurrence.offset - base).getD content.size)
    content, base, none, 0⟩

/-- The run behind a code, given the code that comes next. -/
def runBehind (c : Code) (next : Option Code) : Run :=
  ⟨runText ((next.map fun n => n.occurrence.offset - c.occurrence.extent.stop).getD
      c.occurrence.after.size) c.occurrence.after,
    c.occurrence.extent.stop, some c.hue, min c.level c.hue.maxLevel⟩

theorem getElem?_runsAfter (codes : List Code) (i : Nat) :
    (runsAfter codes)[i]? = codes[i]?.map fun c => runBehind c codes[i + 1]? := by
  induction codes generalizing i with
  | nil => simp [runsAfter]
  | cons c codes ih =>
    rw [Offsets.runsAfter_cons]
    cases i with
    | zero => simp [runBehind, List.head?_eq_getElem?]
    | succ i => simpa using ih i

theorem mem_runs_iff {base : Nat} {content : Text} {r : Run} :
    r ∈ runs base content ↔ r.text ≠ [] ∧ (r = runInFront base content ∨
      ∃ i c, (codes 0 content)[i]? = some c ∧ r = runBehind (Offsets.shiftCode base c)
        ((codes 0 content)[i + 1]?.map (Offsets.shiftCode base))) := by
  rw [Offsets.runs_eq, List.mem_filter, List.mem_cons, and_comm]
  refine and_congr (by simp) (or_congr_right ?_)
  rw [List.mem_iff_getElem?]
  refine exists_congr fun i => ?_
  rw [getElem?_runsAfter, Offsets.codes_shift, List.getElem?_map, List.getElem?_map, Option.map_map,
    Option.map_eq_some_iff]
  exact exists_congr fun c => and_congr_right fun _ => eq_comm

/-- Where the code at an index starts, or where the content ends if there is no such code. -/
def codeStart (content : Text) (i : Nat) : Nat :=
  ((literals 0 content)[i]?.map (·.extent.start)).getD content.size

theorem codeStart_eq (content : Text) (i : Nat) :
    codeStart content i = ((codes 0 content)[i]?.map (·.occurrence.offset)).getD content.size := by
  rw [codeStart, literals, List.getElem?_map, Option.map_map]
  rfl

theorem AreCodes.drop {base : Nat} {t : Text} {codes : List Code} (h : AreCodes base t codes)
    (n : Nat) : AreCodes base t (codes.drop n) :=
  ⟨fun c hc => h.finds c (List.mem_of_mem_drop hc), h.pairwise.drop⟩

section Codes

variable {content : Text} {i j : Nat} {c c' : Code}

theorem stop_le_offset (hi : (codes 0 content)[i]? = some c)
    (hj : (codes 0 content)[j]? = some c') (hlt : i < j) :
    c.occurrence.extent.stop ≤ c'.occurrence.offset := by
  obtain ⟨hilt, rfl⟩ := List.getElem?_eq_some_iff.1 hi
  obtain ⟨hjlt, rfl⟩ := List.getElem?_eq_some_iff.1 hj
  exact List.pairwise_iff_getElem.1 (areCodes_codes 0 content).pairwise i j hilt hjlt hlt

theorem offset_lt_stop (hi : (codes 0 content)[i]? = some c) :
    c.occurrence.offset < c.occurrence.extent.stop :=
  ((areCodes_codes 0 content).finds c (List.mem_of_getElem? hi)).start_lt_stop

/-- Codes are told apart by where they end. -/
theorem eq_of_stop_eq (hi : (codes 0 content)[i]? = some c)
    (hj : (codes 0 content)[j]? = some c')
    (hstop : c.occurrence.extent.stop = c'.occurrence.extent.stop) : i = j := by
  have hstart := offset_lt_stop hi
  have hstart' := offset_lt_stop hj
  rcases Nat.lt_trichotomy i j with hlt | heq | hlt
  · have hle := stop_le_offset hi hj hlt
    omega
  · exact heq
  · have hle := stop_le_offset hj hi hlt
    omega

theorem codeStart_le (hj : (codes 0 content)[j]? = some c) (hle : i ≤ j) :
    codeStart content i ≤ c.occurrence.offset := by
  obtain ⟨hjlt, -⟩ := List.getElem?_eq_some_iff.1 hj
  obtain ⟨first, hfirst⟩ : ∃ first, (codes 0 content)[i]? = some first :=
    ⟨_, List.getElem?_eq_getElem (Nat.lt_of_le_of_lt hle hjlt)⟩
  rw [codeStart_eq, hfirst, Option.map_some, Option.getD_some]
  rcases Nat.lt_or_eq_of_le hle with hlt | rfl
  · exact Nat.le_of_lt (Nat.lt_of_lt_of_le (offset_lt_stop hfirst) (stop_le_offset hfirst hj hlt))
  · rw [Option.some.inj (hfirst.symm.trans hj)]

theorem spans_runInFront (base : Nat) (content : Text) :
    (runInFront base content).Spans base content 0 (codeStart content 0) := by
  obtain ⟨mid, rest, hcontent, hnext, hlimit⟩ := Offsets.exists_upToNext (List.nil_append content)
    (areCodes_codes 0 content) fun _ _ => Nat.zero_le _
  have hlimit := hlimit base
  rw [Text.size_nil, Nat.add_zero, ← Offsets.codes_shift] at hlimit
  refine ⟨rfl, [], mid, rest, hcontent.symm, rfl, ?_, ?_⟩
  · rw [codeStart_eq, ← List.head?_eq_getElem?, hnext, Text.size_nil]
  · rw [runInFront, hlimit, ← hcontent]

theorem spans_runBehind (hc : (codes 0 content)[i]? = some c) (base : Nat) :
    (runBehind (Offsets.shiftCode base c)
        ((codes 0 content)[i + 1]?.map (Offsets.shiftCode base))).Spans base content
      c.occurrence.extent.stop (codeStart content (i + 1)) := by
  have hfinds := (areCodes_codes 0 content).finds c (List.mem_of_getElem? hc)
  have hcontent : c.occurrence.before.reverse ++ c.occurrence.token ++ c.occurrence.after
      = content := by
    rw [List.append_assoc, hfinds.text_eq]
  have hstop : c.occurrence.extent.stop
      = Text.size (c.occurrence.before.reverse ++ c.occurrence.token) := by
    simp [Occurrence.extent, Interval.ofSize, hfinds.offset_eq]
  have hstop' : (Offsets.shiftCode base c).occurrence.extent.stop
      = base + c.occurrence.extent.stop := Nat.add_assoc _ _ _
  obtain ⟨mid, rest, hafter, hnext, hlimit⟩ := Offsets.exists_upToNext hcontent
    ((areCodes_codes 0 content).drop (i + 1)) fun c' hc' => by
      rw [← hstop]
      exact stop_le_offset hc (List.head?_drop.symm.trans hc') (Nat.lt_succ_self i)
  have hlimit := hlimit base
  rw [← hstop, List.head?_map, List.head?_drop] at hlimit
  rw [← hstop, List.head?_drop] at hnext
  refine ⟨hstop', _, mid, rest, by rw [← hafter, hcontent], hstop.symm, ?_, ?_⟩
  · rw [codeStart_eq, hnext]
  · have hafter' : (Offsets.shiftCode base c).occurrence.after = c.occurrence.after := rfl
    rw [runBehind, hafter', hstop', hlimit, hafter]

end Codes

/-! ## Which run a byte is in -/

/-- A run of a content that starts at `base` stands right behind a literal and has its color. -/
structure Run.Follows (r : Run) (base : Nat) (l : Literal) : Prop where
  start_eq : r.start = base + l.extent.stop
  color_eq : r.color = some l.color

theorem Run.text_ne_nil {r : Run} {offset : Nat} (h : offset ∈ r.extent) : r.text ≠ [] := by
  rw [← Text.size_pos_iff]
  simp only [Interval.mem_iff, Run.extent, Interval.ofSize] at h
  omega

theorem getElem?_literals_iff {base : Nat} {t : Text} {i : Nat} {l : Literal} :
    (literals base t)[i]? = some l ↔
      ∃ c, (codes base t)[i]? = some c ∧ .ofOccurrence c.occurrence .gameText c.color = l := by
  rw [literals, List.getElem?_map, Option.map_eq_some_iff]

/-- The lightening steps beyond the limit of a hue do not count, whether a code or a run has
them. -/
theorem follows_runBehind (c : Code) (base : Nat) (next : Option Code) :
    (runBehind (Offsets.shiftCode base c) next).Follows base
      (.ofOccurrence c.occurrence .gameText c.color) where
  start_eq := Nat.add_assoc _ _ _
  color_eq := by
    simp [runBehind, Run.color, Offsets.shiftCode, Literal.ofOccurrence, Code.color, Hue.shade]

section Runs

variable {base : Nat} {content : Text} {r : Run}

/-- Every run is the one in front of all codes, or it stands behind one of them. -/
theorem spans_of_mem (hr : r ∈ runs base content) :
    (r.color = none ∧ r.Spans base content 0 (codeStart content 0)) ∨
      ∃ i l, (literals 0 content)[i]? = some l ∧ r.Follows base l ∧
        r.Spans base content l.extent.stop (codeStart content (i + 1)) := by
  rcases (mem_runs_iff.1 hr).2 with rfl | ⟨i, c, hc, rfl⟩
  · exact .inl ⟨rfl, spans_runInFront base content⟩
  · exact .inr ⟨i, _, getElem?_literals_iff.2 ⟨c, hc, rfl⟩, follows_runBehind c base _,
      spans_runBehind hc base⟩

/-- The run behind a code is the one that starts where the code ends. -/
theorem Run.Follows.spans {i : Nat} {l : Literal} (h : r.Follows base l)
    (hl : (literals 0 content)[i]? = some l) (hr : r ∈ runs base content) :
    r.Spans base content l.extent.stop (codeStart content (i + 1)) := by
  rcases spans_of_mem hr with ⟨hcolor, -⟩ | ⟨j, l', hl', hfollows, hspans⟩
  · cases hcolor.symm.trans h.color_eq
  · obtain ⟨c, hc, rfl⟩ := getElem?_literals_iff.1 hl
    obtain ⟨c', hc', rfl⟩ := getElem?_literals_iff.1 hl'
    have hstop := Nat.add_left_cancel (h.start_eq.symm.trans hfollows.start_eq)
    obtain rfl := eq_of_stop_eq hc hc' hstop
    obtain rfl := Option.some.inj (hc.symm.trans hc')
    exact hspans

/-- No byte of a code is in a run. -/
theorem not_mem_extent {l : Literal} (hr : r ∈ runs base content) (hl : l ∈ literals 0 content)
    {offset : Nat} (hmem : offset ∈ l.extent) : base + offset ∉ r.extent := by
  obtain ⟨k, hk⟩ := List.mem_iff_getElem?.1 hl
  obtain ⟨c, hc, rfl⟩ := getElem?_literals_iff.1 hk
  obtain ⟨hstart, hstop⟩ : c.occurrence.offset ≤ offset ∧ offset < c.occurrence.extent.stop := hmem
  intro hinside
  rcases spans_of_mem hr with ⟨-, hspans⟩ | ⟨i, l', hl', -, hspans⟩
  · have hlt := (hspans.mem_extent_iff.1 hinside).2.1
    have hle := codeStart_le hc (Nat.zero_le k)
    omega
  · obtain ⟨hge, hlt, -⟩ := hspans.mem_extent_iff.1 hinside
    obtain ⟨c', hc', rfl⟩ := getElem?_literals_iff.1 hl'
    have hge' : c'.occurrence.extent.stop ≤ offset := hge
    rcases Nat.lt_trichotomy k i with hbefore | rfl | hbehind
    · have hle := stop_le_offset hc hc' hbefore
      have hwide := offset_lt_stop hc'
      omega
    · obtain rfl := Option.some.inj (hc.symm.trans hc')
      omega
    · have hle : codeStart content (i + 1) ≤ c.occurrence.offset := codeStart_le hc hbehind
      omega

end Runs

/-- The runs of a content are parts of it that stand one behind the other and hold no byte of a
code. A byte has the color of a code just if it stands behind it and in front of the next one, and
no semicolon and no braced color starts between the code and the byte or at the byte. It is in the
uncolored run just if it stands in front of all codes and none of the two starts up to it. -/
theorem runs_color_bytes (base : Nat) (content : Text) :
    (∀ r ∈ runs base content, r.text ≠ [] ∧ base ≤ r.start ∧
      content.slice? ⟨r.extent.start - base, r.extent.stop - base⟩ = some r.text) ∧
    ((runs base content).Pairwise fun r r' => r.extent.stop ≤ r'.extent.start) ∧
    (∀ r ∈ runs base content, ∀ l ∈ literals 0 content, ∀ offset ∈ l.extent,
      base + offset ∉ r.extent) ∧
    (∀ r ∈ runs base content, r.color = none ∨ ∃ l ∈ literals 0 content, r.Follows base l) ∧
    (∀ i l, (literals 0 content)[i]? = some l → ∀ offset,
      (∃ r ∈ runs base content, r.Follows base l ∧ base + offset ∈ r.extent) ↔
        l.extent.stop ≤ offset ∧ offset < codeStart content (i + 1) ∧
          ∀ stop, l.extent.stop ≤ stop → stop ≤ offset → ¬ StopsAt content stop) ∧
    ∀ offset, (∃ r ∈ runs base content, r.color = none ∧ base + offset ∈ r.extent) ↔
      offset < codeStart content 0 ∧ ∀ stop, stop ≤ offset → ¬ StopsAt content stop := by
  refine ⟨fun r hr => ⟨(mem_runs_iff.1 hr).1, ?_⟩, pairwise_runs base content,
    fun r hr l hl offset hoffset => not_mem_extent hr hl hoffset, fun r hr => ?_,
    fun i l hl offset => ⟨?_, fun hoffset => ?_⟩, fun offset => ⟨?_, fun hoffset => ?_⟩⟩
  · rcases spans_of_mem hr with ⟨-, hspans⟩ | ⟨_, _, -, -, hspans⟩ <;>
      exact ⟨hspans.start_eq ▸ Nat.le_add_right base _, hspans.slice?_eq⟩
  · rcases spans_of_mem hr with ⟨hcolor, -⟩ | ⟨i, l, hl, hfollows, -⟩
    · exact .inl hcolor
    · exact .inr ⟨l, List.mem_of_getElem? hl, hfollows⟩
  · rintro ⟨r, hr, hfollows, hmem⟩
    exact (hfollows.spans hl hr).mem_extent_iff.1 hmem
  · obtain ⟨c, hc, rfl⟩ := getElem?_literals_iff.1 hl
    have hmem := (spans_runBehind hc base).mem_extent_iff.2 hoffset
    exact ⟨_, mem_runs_iff.2 ⟨Run.text_ne_nil hmem, .inr ⟨i, c, hc, rfl⟩⟩,
      follows_runBehind c base _, hmem⟩
  · rintro ⟨r, hr, hcolor, hmem⟩
    rcases spans_of_mem hr with ⟨-, hspans⟩ | ⟨_, _, -, hfollows, -⟩
    · obtain ⟨-, hlt, hclear⟩ := hspans.mem_extent_iff.1 hmem
      exact ⟨hlt, fun stop => hclear stop (Nat.zero_le stop)⟩
    · cases hcolor.symm.trans hfollows.color_eq
  · have hmem := (spans_runInFront base content).mem_extent_iff.2
      ⟨Nat.zero_le offset, hoffset.1, fun stop _ => hoffset.2 stop⟩
    exact ⟨_, mem_runs_iff.2 ⟨Run.text_ne_nil hmem, .inl rfl⟩, rfl, hmem⟩

/-- A code colors the bytes up to the semicolon and no byte behind it. -/
theorem runs_color_bytes_short_of_semicolon :
    let content : Text := "a~r~~h~bc;d~g~e".toList
    ∃ red, (literals 0 content)[0]? = some red ∧ red.extent = ⟨1, 7⟩ ∧
      (∃ r ∈ runs 5 content, r.Follows 5 red ∧ 5 + 8 ∈ r.extent) ∧
      (¬ ∃ r ∈ runs 5 content, r.Follows 5 red ∧ 5 + 10 ∈ r.extent) ∧
      ∃ r ∈ runs 5 content, r.color = none ∧ 5 + 0 ∈ r.extent := by
  intro content
  obtain ⟨red, hred, hextent⟩ := Option.map_eq_some_iff.1
    (by decide +kernel : (literals 0 content)[0]?.map (·.extent) = some ⟨1, 7⟩)
  obtain ⟨-, -, -, -, hcolored, huncolored⟩ := runs_color_bytes 5 content
  refine ⟨red, hred, hextent, (hcolored 0 red hred 8).2 ?_, fun hcolored' => ?_,
    (huncolored 0).2 ⟨by decide +kernel, ?_⟩⟩
  · rw [hextent]
    refine ⟨by decide, by decide +kernel, fun stop hge hle => ?_⟩
    obtain rfl | rfl : stop = 7 ∨ stop = 8 := by
      simp only at hge
      omega
    all_goals decide +kernel
  · have hclear := ((hcolored 0 red hred 10).1 hcolored').2.2
    rw [hextent] at hclear
    exact hclear 9 (by decide) (by decide) (by decide +kernel)
  · intro stop hle
    obtain rfl := Nat.le_zero.1 hle
    decide +kernel

end GameText

end Swatch

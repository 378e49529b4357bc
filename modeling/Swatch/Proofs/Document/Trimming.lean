-- SUMMARY: The edit between two texts is the one that trimming their bytes leads to, and it is minimal.
import Swatch.Proofs.Document.Difference
import Swatch.Proofs.Text.Bytes

/-!
# Trimming two texts

The edit between two texts can be found on their bytes: bytes that both start with are
trimmed, then bytes that both end with. Either count may stop inside a character, so each
is stepped back to an offset at which both texts can be cut. There always is one, and the
characters trimmed are those that the texts have in common.

What is left of the two texts starts and ends with different characters, unless nothing
is left of one of them.
-/

namespace Swatch

namespace Edit

/-! ## Trimming bytes -/

/-- How many bytes two lists of bytes both start with. -/
def commonLength : List UInt8 → List UInt8 → Nat
  | b :: old, c :: new => if b = c then commonLength old new + 1 else 0
  | _, _ => 0

/-- The first accepted number at or below a number, if there is one. -/
def stepBack? (accept : Nat → Bool) : Nat → Option Nat
  | 0 => if accept 0 then some 0 else none
  | n + 1 => if accept (n + 1) then some (n + 1) else stepBack? accept n

/-- The edit between two texts, found on their bytes. It fails if a step goes below zero or a text
cannot be cut. -/
def trim? (old new : Text) : Option (Option Edit) :=
  if old = new then some none
  else do
    let start ← stepBack? (fun n => old.isBoundary n && new.isBoundary n)
      (commonLength old.bytes new.bytes)
    let kept ← stepBack? (fun n => old.isBoundary (old.size - n) && new.isBoundary (new.size - n))
      (commonLength (old.bytes.drop start).reverse (new.bytes.drop start).reverse)
    let (before, _) ← old.splitAt? start
    let (upTo, _) ← old.splitAt? (old.size - kept)
    let text ← new.slice? ⟨start, new.size - kept⟩
    return some { start := .after before, stop := .after upTo, text }

theorem commonLength_le_length (old new : List UInt8) :
    commonLength old new ≤ old.length ∧ commonLength old new ≤ new.length := by
  fun_induction commonLength old new with
  | case1 old c new ih => exact ⟨Nat.succ_le_succ ih.1, Nat.succ_le_succ ih.2⟩
  | case2 b old c new hne => exact ⟨Nat.zero_le _, Nat.zero_le _⟩
  | case3 old new hnone => exact ⟨Nat.zero_le _, Nat.zero_le _⟩

theorem take_commonLength (old new : List UInt8) :
    old.take (commonLength old new) = new.take (commonLength old new) := by
  fun_induction commonLength old new with
  | case1 old c new ih => rw [List.take_succ_cons, List.take_succ_cons, ih]
  | case2 b old c new hne => rfl
  | case3 old new hnone => rfl

theorem take_eq_of_le_commonLength {old new : List UInt8} {n : Nat} (h : n ≤ commonLength old new) :
    old.take n = new.take n := by
  have htake := congrArg (List.take n) (take_commonLength old new)
  rwa [List.take_take, List.take_take, Nat.min_eq_left h] at htake

theorem length_le_commonLength (start old new : List UInt8) :
    start.length ≤ commonLength (start ++ old) (start ++ new) := by
  induction start with
  | nil => exact Nat.zero_le _
  | cons b start ih =>
    rw [List.cons_append, List.cons_append, commonLength, if_pos rfl]
    exact Nat.succ_le_succ ih

theorem stepBack?_eq_some {accept : Nat → Bool} {n m : Nat} (hm : accept m) (hle : m ≤ n)
    (hbehind : ∀ k, m < k → k ≤ n → accept k = false) : stepBack? accept n = some m := by
  induction n with
  | zero =>
    obtain rfl := Nat.le_zero.1 hle
    rw [stepBack?, if_pos hm]
  | succ n ih =>
    rcases Nat.lt_or_eq_of_le hle with hlt | rfl
    · have hskip := hbehind (n + 1) hlt (Nat.le_refl _)
      rw [stepBack?, hskip, if_neg Bool.false_ne_true]
      exact ih (Nat.le_of_lt_succ hlt) fun k hk hkn => hbehind k hk (Nat.le_succ_of_le hkn)
    · rw [stepBack?, if_pos hm]

/-! ## What is left -/

/-- Two texts do not go on with the same character. -/
def PartAtStart (s t : Text) : Prop :=
  s = [] ∨ t = [] ∨ s.head? ≠ t.head?

/-- Two texts do not end with the same character. -/
def PartAtEnd (s t : Text) : Prop :=
  s = [] ∨ t = [] ∨ s.getLast? ≠ t.getLast?

theorem PartAtStart.eq_nil {mid s t : Text} (h : PartAtStart (mid ++ s) (mid ++ t)) : mid = [] := by
  cases mid with
  | nil => rfl
  | cons c mid =>
    rcases h with hnil | hnil | hdiffer
    · cases hnil
    · cases hnil
    · exact absurd rfl hdiffer

theorem PartAtEnd.eq_nil {mid s t : Text} (h : PartAtEnd (s ++ mid) (t ++ mid)) : mid = [] := by
  obtain rfl | ⟨mid, c, rfl⟩ := List.eq_nil_or_concat mid
  · rfl
  · simp [PartAtEnd, List.getLast?_append] at h

/-- The end that two texts have in common is found in full. -/
theorem commonEnd_spec (old new : Text) :
    ∃ removed text behind, old = removed ++ behind ∧ new = text ++ behind ∧
      behind.length = commonEnd old new ∧ PartAtEnd removed text := by
  obtain ⟨⟨common, oldRest, newRest⟩, hsplit⟩ : ∃ p, splitCommon old.reverse new.reverse = p :=
    ⟨_, rfl⟩
  obtain ⟨hold, hnew, hdiffer⟩ := splitCommon_spec hsplit
  refine ⟨oldRest.reverse, newRest.reverse, common.reverse, ?_, ?_, ?_, ?_⟩
  · rw [← List.reverse_append, ← hold, List.reverse_reverse]
  · rw [← List.reverse_append, ← hnew, List.reverse_reverse]
  · rw [commonEnd, hsplit, List.length_reverse]
  · simpa [PartAtEnd] using hdiffer

/-- The edit between two different texts replaces one part by another. Nothing that stands before or
behind them could be added to either part, nor taken away from both. -/
theorem between?_spec {old new : Text} (hne : old ≠ new) :
    ∃ before removed text behind,
      old = before ++ removed ++ behind ∧ new = before ++ text ++ behind ∧
      PartAtStart (removed ++ behind) (text ++ behind) ∧ PartAtEnd removed text ∧
      between? old new = some ⟨.after before, .after (before ++ removed), text⟩ := by
  obtain ⟨⟨before, oldRest, newRest⟩, hsplit⟩ : ∃ p, splitCommon old new = p := ⟨_, rfl⟩
  obtain ⟨hold, hnew, hstart⟩ := splitCommon_spec hsplit
  obtain ⟨removed, text, behind, rfl, rfl, hlength, hend⟩ := commonEnd_spec oldRest newRest
  refine ⟨before, removed, text, behind, ?_, ?_, hstart, hend, ?_⟩
  · rw [hold, List.append_assoc]
  · rw [hnew, List.append_assoc]
  · rw [between?, if_neg hne, hsplit]
    simp [← hlength]

/-! ## Stepping back -/

/-- The bytes that two texts both start with, stepped back to a boundary of both, are those of the
characters that they both start with. -/
theorem stepBack?_start (before : Text) {s t : Text} (h : PartAtStart s t) :
    stepBack? (fun n => Text.isBoundary (before ++ s) n && Text.isBoundary (before ++ t) n)
      (commonLength (Text.bytes (before ++ s)) (Text.bytes (before ++ t))) = some before.size := by
  refine stepBack?_eq_some ?cut ?common fun k hlt hle => ?_
  case cut =>
    rw [Bool.and_eq_true, Text.isBoundary_iff, Text.isBoundary_iff]
    exact ⟨⟨before, s, rfl, rfl⟩, ⟨before, t, rfl, rfl⟩⟩
  case common =>
    rw [Text.bytes_append, Text.bytes_append, ← Text.length_bytes]
    exact length_le_commonLength _ _ _
  by_contra hboth
  rw [Bool.not_eq_false, Bool.and_eq_true] at hboth
  obtain ⟨mid, behind, rfl, hsize⟩ := Text.exists_of_isBoundary_start (Nat.le_of_lt hlt) hboth.1
  obtain ⟨mid', behind', rfl, hsize'⟩ := Text.exists_of_isBoundary_start (Nat.le_of_lt hlt) hboth.2
  -- Both texts start with the same `k` bytes, so with the same characters.
  have hbytes : Text.bytes (before ++ mid) = Text.bytes (before ++ mid') := by
    have htake := take_eq_of_le_commonLength hle
    rw [← List.append_assoc, ← List.append_assoc] at htake
    rwa [← hsize, Text.take_bytes_append, hsize, ← hsize', Text.take_bytes_append] at htake
  obtain rfl := List.append_cancel_left (Text.bytes_inj.1 hbytes)
  rw [h.eq_nil, List.append_nil] at hsize
  exact Nat.ne_of_lt hlt hsize

/-- The bytes that the rests of two texts both end with, stepped back to a boundary of both texts,
are those of the characters that the rests both end with. -/
theorem stepBack?_end (before behind : Text) {removed text : Text} (h : PartAtEnd removed text) :
    let old := before ++ (removed ++ behind)
    let new := before ++ (text ++ behind)
    stepBack? (fun n => old.isBoundary (old.size - n) && new.isBoundary (new.size - n))
      (commonLength (Text.bytes (removed ++ behind)).reverse (Text.bytes (text ++ behind)).reverse)
      = some behind.size := by
  intro old new
  refine stepBack?_eq_some ?cut ?common fun k hlt hle => ?_
  case cut =>
    have hcut (part : Text) : Text.isBoundary (before ++ (part ++ behind))
        (Text.size (before ++ (part ++ behind)) - behind.size) := by
      rw [← List.append_assoc, Text.size_append _ behind, Nat.add_sub_cancel, Text.isBoundary_iff]
      exact ⟨before ++ part, behind, rfl, rfl⟩
    rw [Bool.and_eq_true]
    exact ⟨hcut removed, hcut text⟩
  case common =>
    rw [Text.bytes_append, Text.bytes_append, List.reverse_append, List.reverse_append,
      ← Text.length_bytes, ← List.length_reverse]
    exact length_le_commonLength _ _ _
  by_contra hboth
  rw [Bool.not_eq_false, Bool.and_eq_true] at hboth
  obtain ⟨hold, hnew⟩ := commonLength_le_length
    (Text.bytes (removed ++ behind)).reverse (Text.bytes (text ++ behind)).reverse
  rw [List.length_reverse, Text.length_bytes] at hold hnew
  obtain ⟨left, mid, rfl, hsize⟩ :=
    Text.exists_of_isBoundary_end (Nat.le_of_lt hlt) (Nat.le_trans hle hold) hboth.1
  obtain ⟨left', mid', rfl, hsize'⟩ :=
    Text.exists_of_isBoundary_end (Nat.le_of_lt hlt) (Nat.le_trans hle hnew) hboth.2
  have hbytes : (Text.bytes (mid ++ behind)).reverse = (Text.bytes (mid' ++ behind)).reverse := by
    have htake := take_eq_of_le_commonLength hle
    rw [List.append_assoc, List.append_assoc] at htake
    rwa [← hsize, Text.take_reverse_bytes_append, hsize, ← hsize', Text.take_reverse_bytes_append]
      at htake
  have hmid := Text.bytes_inj.1 (List.reverse_inj.1 hbytes)
  obtain rfl := List.append_cancel_right hmid
  rw [h.eq_nil, List.nil_append] at hsize
  exact Nat.ne_of_lt hlt hsize

/-- The trimmed bytes lead to the edit between the texts. Nothing fails on the way. -/
theorem trim?_eq (old new : Text) : trim? old new = some (between? old new) := by
  by_cases hne : old = new
  · rw [trim?, between?, if_pos hne, if_pos hne]
  obtain ⟨before, removed, text, behind, hold, hnew, hstart, hend, hbetween⟩ := between?_spec hne
  rw [List.append_assoc] at hold hnew
  have hstart' := stepBack?_start before hstart
  have hend' := stepBack?_end before behind hend
  dsimp only at hend'
  rw [← hold, ← hnew] at hstart' hend'
  have hdrop : old.bytes.drop before.size = Text.bytes (removed ++ behind) := by
    rw [hold, Text.drop_bytes_append]
  have hdrop' : new.bytes.drop before.size = Text.bytes (text ++ behind) := by
    rw [hnew, Text.drop_bytes_append]
  have hcut : old.splitAt? before.size = some (before, removed ++ behind) := by
    rw [hold, Text.splitAt?_append]
  have hcut' : old.splitAt? (old.size - behind.size) = some (before ++ removed, behind) := by
    rw [hold, ← List.append_assoc, Text.size_append _ behind, Nat.add_sub_cancel,
      Text.splitAt?_append]
  have hslice : new.slice? ⟨before.size, new.size - behind.size⟩ = some text := by
    have hstop : new.size - behind.size = before.size + text.size := by
      rw [hnew, ← List.append_assoc, Text.size_append _ behind, Nat.add_sub_cancel, Text.size_append]
    rw [hstop, hnew, ← List.append_assoc, Text.slice?_append]
  rw [trim?, if_neg hne, hstart', hbetween]
  simp only [Option.bind_eq_bind, Option.bind_some, Option.pure_def, hdrop, hdrop', hend', hcut,
    hcut', hslice]

theorem between?_eq_none_iff {old new : Text} : between? old new = none ↔ old = new := by
  constructor
  · intro hnone
    by_contra hne
    obtain ⟨_, _, _, _, -, -, -, -, hsome⟩ := between?_spec hne
    rw [hnone] at hsome
    cases hsome
  · intro heq
    rw [between?, if_pos heq]

/-- Between two texts there is an edit just if they differ, and trimming their bytes finds it
without failing. It replaces a part of the old text and leads to the new one. Unless one of them is
empty, the part and what replaces it start differently and end differently. In a document with the
old text, the edit leads to the new text if all breaks of the old one are ordinary. -/
theorem between?_reconstructs (old new : Text) :
    (between? old new = none ↔ old = new) ∧
    trim? old new = some (between? old new) ∧
    (old ≠ new → ∃ e before removed behind, between? old new = some e ∧
      e.Replaces before removed ∧
      old = before ++ removed ++ behind ∧ new = before ++ e.text ++ behind ∧
      (removed ≠ [] → e.text ≠ [] →
        removed.head? ≠ e.text.head? ∧ removed.getLast? ≠ e.text.getLast?) ∧
      ∀ d : Document, d.text = old → old.OrdinaryBreaks → (d.edit e).text = new) := by
  refine ⟨between?_eq_none_iff, trim?_eq old new, fun hne => ?_⟩
  obtain ⟨before, removed, text, behind, hold, hnew, hstart, hend, hbetween⟩ := between?_spec hne
  have hreplaces : Edit.Replaces ⟨.after before, .after (before ++ removed), text⟩ before removed :=
    ⟨rfl, rfl⟩
  refine ⟨_, before, removed, behind, hbetween, hreplaces, hold, hnew, ?parts, ?document⟩
  case parts =>
    intro hremoved htext
    obtain ⟨c, removed, rfl⟩ := List.exists_cons_of_ne_nil hremoved
    obtain ⟨d, text, rfl⟩ := List.exists_cons_of_ne_nil htext
    constructor
    · simpa [PartAtStart] using hstart
    · simpa [PartAtEnd] using hend
  case document =>
    intro d hd hbreaks
    subst hd
    rw [Document.edit_text hbreaks hold hreplaces, hnew]

/-- Two characters that differ in their first byte but not in their last one, in front of a carriage
return and a line feed. -/
theorem between?_reconstructs_multibyte :
    let old : Text := "xé\r\ny".toList
    let new : Text := "xĩ\r\ny".toList
    let e : Edit := ⟨⟨0, 1⟩, ⟨0, 2⟩, ['ĩ']⟩
    let d : Document := { key := ⟨['/', 'p']⟩, text := old }
    old.bytes[1]? ≠ new.bytes[1]? ∧ old.bytes[2]? = new.bytes[2]? ∧ old ≠ new ∧
      old.OrdinaryBreaks ∧ trim? old new = some (some e) ∧ (d.edit e).text = new := by
  intro old new e d
  have hne : old ≠ new := by decide
  have hbreaks : old.OrdinaryBreaks := by decide +kernel
  have he : between? old new = some e := by decide +kernel
  obtain ⟨-, htrim, hedit⟩ := between?_reconstructs old new
  obtain ⟨e', _, _, _, he', -, -, -, -, hdocument⟩ := hedit hne
  obtain rfl : e = e' := Option.some.inj (he.symm.trans he')
  refine ⟨by decide +kernel, by decide +kernel, hne, hbreaks, ?_, hdocument d rfl hbreaks⟩
  rw [htrim, he]

end Edit

end Swatch

-- SUMMARY: Texts as UTF-8 bytes: the bytes tell the text, and they tell where it can be cut.
import Mathlib.Order.Bounds.Basic
import Swatch.Proofs.Text.Cut

/-!
# Bytes of a text

The bytes of a text in UTF-8 tell the text. They also tell where it can be cut: at its
end, and in front of each byte that a character starts with.
-/

namespace Swatch.Text

def bytes (t : Text) : List UInt8 :=
  t.flatMap String.utf8EncodeChar

@[simp] theorem bytes_nil : bytes [] = [] := rfl

@[simp] theorem bytes_cons (c : Char) (t : Text) :
    bytes (c :: t) = String.utf8EncodeChar c ++ bytes t := rfl

@[simp] theorem bytes_append (s t : Text) : bytes (s ++ t) = bytes s ++ bytes t :=
  List.flatMap_append

@[simp] theorem length_bytes (t : Text) : t.bytes.length = t.size := by
  induction t with
  | nil => rfl
  | cons c t ih => simp [ih]

theorem bytes_inj {s t : Text} : s.bytes = t.bytes ↔ s = t := by
  refine ⟨fun h => ?_, congrArg bytes⟩
  have harray : (String.ofList s).toByteArray = (String.ofList t).toByteArray := by
    rw [String.toByteArray_ofList, String.toByteArray_ofList]
    exact congrArg List.toByteArray h
  exact String.ofList_injective (String.toByteArray_inj.1 harray)

theorem take_bytes_append (s t : Text) : (bytes (s ++ t)).take s.size = s.bytes := by
  rw [bytes_append, List.take_left' (length_bytes s)]

theorem drop_bytes_append (s t : Text) : (bytes (s ++ t)).drop s.size = t.bytes := by
  rw [bytes_append, List.drop_left' (length_bytes s)]

theorem take_reverse_bytes_append (s t : Text) :
    (bytes (s ++ t)).reverse.take t.size = t.bytes.reverse := by
  rw [bytes_append, List.reverse_append, List.take_left' (by rw [List.length_reverse, length_bytes])]

/-! ## Cuts -/

/-- A byte offset is the end of the text, or a character starts there. -/
def isBoundary (t : Text) (offset : Nat) : Bool :=
  offset == t.size || t.bytes[offset]?.any fun b => decide b.IsUTF8FirstByte

/-- Behind its first character, a text has the boundaries of what follows. -/
theorem isBoundary_cons_of_le {c : Char} {offset : Nat} (h : c.utf8Size ≤ offset) (t : Text) :
    isBoundary (c :: t) offset = isBoundary t (offset - c.utf8Size) := by
  have hlength : (String.utf8EncodeChar c).length ≤ offset := by
    rwa [String.length_utf8EncodeChar]
  rw [isBoundary, isBoundary, bytes_cons, List.getElem?_append_right hlength,
    String.length_utf8EncodeChar, size_cons]
  congr 1
  rw [Bool.eq_iff_iff, beq_iff_eq, beq_iff_eq]
  omega

/-- Of the bytes of a character, only the first one is a boundary. -/
theorem isBoundary_cons_of_lt {c : Char} {offset : Nat} (h : offset < c.utf8Size) (t : Text) :
    isBoundary (c :: t) offset = decide (offset = 0) := by
  have hlength : offset < (String.utf8EncodeChar c).length := by
    rwa [String.length_utf8EncodeChar]
  have hend : (offset == c.utf8Size + t.size) = false := beq_false_of_ne (by omega)
  rw [isBoundary, bytes_cons, List.getElem?_append_left hlength, List.getElem?_eq_getElem hlength,
    size_cons, hend, Bool.false_or, Option.any_some]
  exact decide_eq_decide.2 UInt8.isUTF8FirstByte_getElem_utf8EncodeChar

theorem isBoundary_eq (t : Text) (offset : Nat) :
    t.isBoundary offset = (t.splitAt? offset).isSome := by
  fun_induction splitAt? t offset with
  | case1 t =>
    cases t with
    | nil => rfl
    | cons c t => rw [isBoundary_cons_of_lt (Char.utf8Size_pos c)]; rfl
  | case2 n => rfl
  | case3 c t n hle ih => rw [isBoundary_cons_of_le hle, ih, Option.isSome_map]
  | case4 c t n hgt => rw [isBoundary_cons_of_lt (Nat.lt_of_not_le hgt)]; rfl

/-- The boundaries of a text are where two parts of it meet. -/
theorem isBoundary_iff {t : Text} {offset : Nat} :
    t.isBoundary offset ↔ ∃ left right, left ++ right = t ∧ left.size = offset := by
  rw [isBoundary_eq, Option.isSome_iff_exists]
  constructor
  · rintro ⟨⟨left, right⟩, h⟩
    exact ⟨left, right, splitAt?_eq_some h⟩
  · rintro ⟨left, right, h⟩
    exact ⟨(left, right), splitAt?_eq_some_iff.2 h⟩

/-- Of the boundaries up to an offset, the last one. -/
theorem isGreatest_boundaryBelow (t : Text) (offset : Nat) :
    IsGreatest {b | t.isBoundary b ∧ b ≤ min offset t.size} (t.boundaryBelow offset) := by
  have hlength : (t.take (t.charsBefore offset)).length = t.charsBefore offset :=
    List.length_take_of_le (t.charsBefore_le_length offset)
  constructor
  · have hcut := List.take_append_drop (t.charsBefore offset) t
    have hsize := congrArg size hcut
    rw [size_append] at hsize
    have hle := length_le_charsBefore_iff (t.take (t.charsBefore offset))
      (t.drop (t.charsBefore offset)) offset
    rw [hcut, hlength] at hle
    exact ⟨isBoundary_iff.2 ⟨_, _, hcut, rfl⟩,
      Nat.le_min.2 ⟨hle.1 (Nat.le_refl _), Nat.le.intro hsize⟩⟩
  · rintro b ⟨hb, hle⟩
    obtain ⟨left, right, rfl, rfl⟩ := isBoundary_iff.1 hb
    have hbefore := (length_le_charsBefore_iff left right offset).2 (Nat.le_min.1 hle).1
    have hleft : sizeOfFirst (left ++ right) left.length = left.size := by
      rw [sizeOfFirst, List.take_left]
    rw [boundaryBelow, ← hleft, sizeOfFirst_le_iff (by simp)]
    exact hbefore

/-- A boundary behind what a text starts with cuts the rest in two. -/
theorem exists_of_isBoundary_start {before rest : Text} {offset : Nat} (hle : before.size ≤ offset)
    (h : isBoundary (before ++ rest) offset) :
    ∃ mid behind, rest = mid ++ behind ∧ size (before ++ mid) = offset := by
  obtain ⟨left, right, htext, hleft⟩ := isBoundary_iff.1 h
  rw [← hleft] at hle
  obtain ⟨mid, rfl, hrest⟩ := exists_middle htext.symm hle
  exact ⟨mid, right, hrest, hleft⟩

/-- A boundary in front of what a text ends with, counted from the end. -/
theorem exists_of_isBoundary_end {before rest behind : Text} {k : Nat} (hle : behind.size ≤ k)
    (hk : k ≤ size (rest ++ behind))
    (h : isBoundary (before ++ (rest ++ behind)) (size (before ++ (rest ++ behind)) - k)) :
    ∃ left mid, rest = left ++ mid ∧ size (mid ++ behind) = k := by
  rw [size_append] at h
  obtain ⟨left, right, hrest, hleft⟩ := exists_of_isBoundary_start (by omega) h
  have hsize := congrArg size hrest
  simp only [size_append] at hsize hleft hk
  have hright : size right = k := by omega
  obtain ⟨mid, rfl, rfl⟩ := exists_middle hrest.symm (by omega)
  exact ⟨left, mid, rfl, hright⟩

end Swatch.Text

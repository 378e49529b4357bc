-- SUMMARY: Reading bytes and parts of a text by offsets, where a reading in vain is a fault.
import Swatch.Proofs.Text.Bytes

/-!
# Readings by offsets

A program that keeps offsets asks a text for a byte, or for the part over an interval.
The text may have no such byte, or no cut at an end of the interval: then the reading is
in vain and the program stops. What is computed this way is a value, or the first
interval that was asked for in vain.

A byte below 128 is a character by itself, and the bytes of any wider character are 128
or more. So a program that looks for ASCII characters byte by byte never takes a part of
a wider character for one of them.
-/

namespace Swatch

/-- A computation that stops at the first interval that it reads in vain. -/
abbrev Reading := Except Interval

namespace Reading

@[simp] theorem ok_bind {α β : Type} (a : α) (f : α → Reading β) :
    ((Except.ok a : Reading α) >>= f) = f a := rfl

@[simp] theorem pure_eq_ok {α : Type} (a : α) : (pure a : Reading α) = .ok a := rfl

def part (t : Text) (i : Interval) : Reading Text :=
  (t.slice? i).elim (.error i) .ok

def byte (t : Text) (offset : Nat) : Reading UInt8 :=
  t.bytes[offset]?.elim (.error (.ofSize offset 1)) .ok

/-- How far an offset is behind another one, which must not be greater. -/
def distance (start offset : Nat) : Reading Nat :=
  if start ≤ offset then .ok (offset - start) else .error ⟨start, offset⟩

/-- What is read for each element of a list, joined. -/
def gather {α β : Type} (f : α → Reading (List β)) : List α → Reading (List β)
  | [] => .ok []
  | x :: xs => do
    let here ← f x
    let rest ← gather f xs
    return here ++ rest

theorem part_eq_ok_iff {t m : Text} {i : Interval} : part t i = .ok m ↔ t.slice? i = some m := by
  unfold part
  cases t.slice? i <;> simp

theorem part_append (l m r : Text) : part (l ++ (m ++ r)) ⟨l.size, l.size + m.size⟩ = .ok m := by
  rw [part_eq_ok_iff, ← List.append_assoc]
  exact Text.slice?_append l m r

theorem byte_eq_ok_iff {t : Text} {offset : Nat} {b : UInt8} :
    byte t offset = .ok b ↔ t.bytes[offset]? = some b := by
  unfold byte
  cases t.bytes[offset]? <;> simp

theorem distance_of_le {start offset : Nat} (h : start ≤ offset) :
    distance start offset = .ok (offset - start) :=
  if_pos h

theorem distance_add (start n : Nat) : distance start (start + n) = .ok n := by
  rw [distance_of_le (Nat.le_add_right start n), Nat.add_sub_cancel_left]

theorem gather_ok {α β : Type} {f : α → Reading (List β)} {g : α → List β} {l : List α}
    (h : ∀ x ∈ l, f x = .ok (g x)) : gather f l = .ok (l.flatMap g) := by
  induction l with
  | nil => rfl
  | cons x l ih =>
    obtain ⟨hx, hl⟩ := List.forall_mem_cons.1 h
    simp [gather, hx, ih hl]

/-- Elements for each of which one value is read at most. -/
theorem gather_toList_ok {α β : Type} {f : α → Reading (List β)} {g : α → Option β} {l : List α}
    (h : ∀ x ∈ l, f x = .ok (g x).toList) : gather f l = .ok (l.filterMap g) := by
  rw [gather_ok h]
  induction l with
  | nil => rfl
  | cons x l ih =>
    have hrest := Except.ok.inj (ih (List.forall_mem_cons.1 h).2)
    rw [List.flatMap_cons, hrest]
    cases hx : g x <;> simp [hx]

end Reading

/-! ## Bytes of characters -/

/-- The byte of an ASCII character. -/
def ascii (c : Char) : UInt8 :=
  c.val.toUInt8

namespace Text

theorem utf8EncodeChar_ascii {c : Char} (hc : c.toNat < 128) :
    String.utf8EncodeChar c = [ascii c] := by
  have hval : c.val.toNat ≤ 127 := Nat.le_of_lt_succ hc
  rw [String.utf8EncodeChar, if_pos hval]
  rfl

theorem utf8Size_eq_one_iff {c : Char} : c.utf8Size = 1 ↔ c.toNat < 128 := by
  rw [Char.utf8Size_eq_one_iff, UInt32.le_iff_toNat_le]
  exact Nat.lt_succ_iff.symm

/-- All bytes of a character beyond ASCII are. -/
theorem le_of_mem_utf8EncodeChar {c : Char} (hc : 128 ≤ c.toNat) {b : UInt8}
    (hb : b ∈ String.utf8EncodeChar c) : 128 ≤ b.toNat := by
  have hval : ¬ c.val.toNat ≤ 127 := Nat.not_le_of_lt hc
  rw [String.utf8EncodeChar, if_neg hval] at hb
  split at hb
  · simp only [List.mem_cons, List.not_mem_nil, or_false] at hb
    rcases hb with rfl | rfl <;> simp only [UInt8.toNat_ofNat'] <;> omega
  · split at hb
    · simp only [List.mem_cons, List.not_mem_nil, or_false] at hb
      rcases hb with rfl | rfl | rfl <;> simp only [UInt8.toNat_ofNat'] <;> omega
    · simp only [List.mem_cons, List.not_mem_nil, or_false] at hb
      rcases hb with rfl | rfl | rfl | rfl <;> simp only [UInt8.toNat_ofNat'] <;> omega

theorem toNat_ascii {c : Char} (hc : c.toNat < 128) : (ascii c).toNat = c.toNat := by
  have hval : c.val.toNat < 128 := hc
  rw [ascii, UInt32.toNat_toUInt8]
  exact Nat.mod_eq_of_lt (by omega)

theorem ascii_inj {c d : Char} (hc : c.toNat < 128) (hd : d.toNat < 128) :
    ascii c = ascii d ↔ c = d := by
  refine ⟨fun h => ?_, congrArg ascii⟩
  have hnat := congrArg UInt8.toNat h
  rw [toNat_ascii hc, toNat_ascii hd] at hnat
  exact Char.toNat_inj.1 hnat

/-- Behind a part of a text, its bytes are those of what follows. -/
theorem getElem?_bytes_append (left right : Text) (k : Nat) :
    (bytes (left ++ right))[left.size + k]? = (bytes right)[k]? := by
  rw [bytes_append, List.getElem?_append_right (by rw [length_bytes]; exact Nat.le_add_right _ _),
    length_bytes, Nat.add_sub_cancel_left]

theorem getElem?_bytes_ascii {c : Char} (hc : c.toNat < 128) (left right : Text) :
    (bytes (left ++ c :: right))[left.size]? = some (ascii c) := by
  have hhead := getElem?_bytes_append left (c :: right) 0
  rw [Nat.add_zero] at hhead
  rw [hhead, bytes_cons, utf8EncodeChar_ascii hc]
  rfl

/-- Behind an ASCII character, the bytes of a text are those of what follows. -/
theorem getElem?_bytes_cons_ascii {c : Char} (hc : c.toNat < 128) (right : Text) (k : Nat) :
    (bytes (c :: right))[k + 1]? = (bytes right)[k]? := by
  rw [bytes_cons, utf8EncodeChar_ascii hc]
  rfl

/-- Each byte of a character beyond ASCII is beyond it. -/
theorem exists_getElem?_bytes_wide {c : Char} (hc : 128 ≤ c.toNat) (left right : Text) {k : Nat}
    (hk : k < c.utf8Size) :
    ∃ b, (bytes (left ++ c :: right))[left.size + k]? = some b ∧ 128 ≤ b.toNat := by
  have hlength : k < (String.utf8EncodeChar c).length := by rwa [String.length_utf8EncodeChar]
  refine ⟨(String.utf8EncodeChar c)[k], ?_, le_of_mem_utf8EncodeChar hc (List.getElem_mem hlength)⟩
  rw [getElem?_bytes_append, bytes_cons, List.getElem?_append_left hlength,
    List.getElem?_eq_getElem hlength]

theorem ne_ascii_of_le {b : UInt8} (hb : 128 ≤ b.toNat) {c : Char} (hc : c.toNat < 128) :
    b ≠ ascii c := by
  rintro rfl
  rw [toNat_ascii hc] at hb
  omega

/-- The last byte of a character is the character or beyond ASCII. -/
theorem exists_last_byte (left : Text) (c : Char) (right : Text) :
    ∃ b, Reading.byte (left ++ c :: right) (left.size + (c.utf8Size - 1)) = .ok b ∧
      ((c.toNat < 128 ∧ b = ascii c) ∨ (128 ≤ c.toNat ∧ 128 ≤ b.toNat)) := by
  have hpos := Char.utf8Size_pos c
  rcases Nat.lt_or_ge c.toNat 128 with hc | hc
  · refine ⟨ascii c, Reading.byte_eq_ok_iff.2 ?_, .inl ⟨hc, rfl⟩⟩
    rw [utf8Size_eq_one_iff.2 hc]
    exact getElem?_bytes_ascii hc left right
  · obtain ⟨b, hb, hle⟩ := exists_getElem?_bytes_wide hc left right (k := c.utf8Size - 1) (by omega)
    exact ⟨b, Reading.byte_eq_ok_iff.2 hb, .inr ⟨hc, hle⟩⟩

/-- A text starts with the byte of an ASCII character just if it starts with the character. -/
theorem getElem?_bytes_zero_iff {c : Char} (hc : c.toNat < 128) {t : Text} :
    t.bytes[0]? = some (ascii c) ↔ t.head? = some c := by
  cases t with
  | nil => simp
  | cons d t =>
    rcases Nat.lt_or_ge d.toNat 128 with hd | hd
    · rw [bytes_cons, utf8EncodeChar_ascii hd]
      simpa using ascii_inj hd hc
    · obtain ⟨b, hb, hle⟩ := exists_getElem?_bytes_wide hd [] t (Char.utf8Size_pos d)
      rw [List.nil_append, size_nil, Nat.add_zero] at hb
      have hne := ne_ascii_of_le hle hc
      have hd : d ≠ c := by
        rintro rfl
        omega
      rw [hb]
      simp [hne, hd]

/-- The byte of an ASCII character at the offset one is a character behind an ASCII character. -/
theorem getElem?_bytes_one_iff {d : Char} (hd : d.toNat < 128) {t : Text} :
    t.bytes[1]? = some (ascii d) ↔ ∃ c rest, t = c :: d :: rest ∧ c.utf8Size = 1 := by
  cases t with
  | nil => simp
  | cons c t =>
    rcases Nat.lt_or_ge c.toNat 128 with hc | hc
    · rw [getElem?_bytes_cons_ascii hc t 0, getElem?_bytes_zero_iff hd, List.head?_eq_some_iff]
      simp only [List.cons.injEq, utf8Size_eq_one_iff]
      constructor
      · rintro ⟨rest, rfl⟩
        exact ⟨c, rest, ⟨rfl, rfl⟩, hc⟩
      · rintro ⟨c', rest, ⟨rfl, rfl⟩, -⟩
        exact ⟨rest, rfl⟩
    · have hsize : c.utf8Size ≠ 1 := mt utf8Size_eq_one_iff.1 (Nat.not_lt_of_le hc)
      have hpos := Char.utf8Size_pos c
      obtain ⟨b, hb, hle⟩ := exists_getElem?_bytes_wide hc [] t (k := 1) (by omega)
      rw [List.nil_append, size_nil, Nat.zero_add] at hb
      rw [hb, Option.some.injEq, iff_false_left (ne_ascii_of_le hle hd)]
      rintro ⟨c', rest, heq, hone⟩
      exact hsize ((List.cons.inj heq).1 ▸ hone)

end Text

end Swatch

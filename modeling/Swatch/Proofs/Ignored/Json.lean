-- SUMMARY: Ignored lines that are written as JSON are read again.
import Swatch.Ignored.Json
import Swatch.Proofs.Json.RoundTrip
import Mathlib.Data.List.Basic

/-!
# Ignored lines in JSON, there and back

Entries are written with all their fields, and what is written is read again: paths and
contents of any characters, and all lines and times that are 64-bit words. What is read
holds nothing but words.
-/

namespace Swatch.Ignored

open Json (Value)

/-- The line and the time are 64-bit words. -/
structure Entry.IsWord (e : Entry) : Prop where
  line_lt : e.line < UInt64.size
  timestamp_lt : e.timestamp < UInt64.size

namespace Entry

variable {e : Entry}

theorem toJson_plain (e : Entry) : e.toJson.Plain := by
  refine .object fun f hf => ?_
  simp only [List.mem_cons, List.not_mem_nil, or_false] at hf
  obtain rfl | rfl | rfl | rfl := hf
  · exact .text _
  · exact .ofNat _
  · exact .text _
  · exact .ofNat _

/-- An entry that was written is read again. -/
theorem ofJson?_toJson (h : e.IsWord) : ofJson? e.toJson = some e := by
  have hfields : e.toJson.fields? fieldNames = some
      [("path".toList, .text e.path), ("line".toList, .ofNat e.line),
        ("content".toList, .text e.content), ("timestamp".toList, .ofNat e.timestamp)] := rfl
  have hline := Json.word?_ofNat h.line_lt
  have htime := Json.word?_ofNat h.timestamp_lt
  rw [ofJson?, hfields]
  simp [fieldValue?, readField?, hline, htime, Value.text?]

theorem word?_lt {v : Value} {n : Nat} (h : v.word? = some n) : n < UInt64.size := by
  cases v with
  | number written => simpa using (Option.filter_eq_some_iff.1 h).2
  | _ => cases h

theorem readField?_timestamp_lt {fields : List (Text × Value)} {n : Nat}
    (h : readField? "timestamp" 0 Value.word? fields = some n) : n < UInt64.size := by
  simp only [readField?, Option.bind_eq_bind, Option.bind_eq_some_iff] at h
  obtain ⟨value?, -, h⟩ := h
  cases value? with
  | none =>
    obtain rfl := Option.some.inj h
    decide
  | some v => exact word?_lt h

/-- What is read holds words. -/
theorem isWord_of_ofJson? {v : Value} (h : ofJson? v = some e) : e.IsWord := by
  simp only [ofJson?, Option.bind_eq_bind, Option.bind_eq_some_iff] at h
  obtain ⟨_, -, _, -, _, -, _, -, line, ⟨_, -, hline⟩, _, -, timestamp, htime, he⟩ := h
  obtain rfl := Option.some.inj he
  exact ⟨word?_lt hline, readField?_timestamp_lt htime⟩

end Entry

theorem mapM_ofJson?_toJson {entries : List Entry} (h : ∀ e ∈ entries, e.IsWord) :
    (entries.map Entry.toJson).mapM Entry.ofJson? = some entries := by
  induction entries with
  | nil => rfl
  | cons e entries ih =>
    obtain ⟨he, h⟩ := List.forall_mem_cons.1 h
    rw [List.map_cons, List.mapM_cons, Entry.ofJson?_toJson he, ih h]
    rfl

/-- Entries that were written are read again. -/
theorem read?_render {entries : List Entry} (h : ∀ e ∈ entries, e.IsWord) :
    read? (render entries) = some entries := by
  have hplain : (Value.list (entries.map Entry.toJson)).Plain := by
    refine .list fun v hv => ?_
    obtain ⟨e, -, rfl⟩ := List.mem_map.1 hv
    exact e.toJson_plain
  rw [read?, render, hplain.read?_indent]
  exact mapM_ofJson?_toJson h

theorem isWord_of_mapM_ofJson? {values : List Value} {entries : List Entry}
    (h : values.mapM Entry.ofJson? = some entries) : ∀ e ∈ entries, e.IsWord := by
  induction values generalizing entries with
  | nil =>
    obtain rfl := Option.some.inj h
    simp
  | cons v values ih =>
    simp only [List.mapM_cons, Option.bind_eq_bind, Option.bind_eq_some_iff] at h
    obtain ⟨e, he, rest, hrest, h⟩ := h
    obtain rfl := Option.some.inj h
    exact List.forall_mem_cons.2 ⟨Entry.isWord_of_ofJson? he, ih hrest⟩

/-- What is read holds words. -/
theorem isWord_of_read? {t : Text} {entries : List Entry} (h : read? t = some entries) :
    ∀ e ∈ entries, e.IsWord := by
  simp only [read?, Option.bind_eq_bind, Option.bind_eq_some_iff] at h
  obtain ⟨_, -, _, -, h⟩ := h
  exact isWord_of_mapM_ofJson? h

end Swatch.Ignored

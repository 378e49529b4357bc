-- SUMMARY: Settings that have been saved are the settings that are loaded.
import Swatch.Proofs.Files.Making
import Swatch.Proofs.Settings.Partial

/-!
# Saved settings

What is written names every setting, so no default counts when it is read, not even the one
of a family that is named in part. A failed reading would not be noticed, since it gives the
defaults. Therefore it is said first that reading works, and then what is loaded.

The numbers have to be 64-bit words: other numbers can be written but not read. Whether saving
works does not depend on the settings, only on what stands on the way to the file.
-/

namespace Swatch

open Swatch.Path (IsName ofNames)
open Yaml (Block Word)

/-- A part that names everything about a family. -/
def Family.part (f : Family) : FamilyPart where
  enabled := some f.enabled
  style := some f.style

namespace Settings

variable {s : Settings} {p : Path} {time : Nat} {tree tree' : FileTree}

/-- The numbers of settings have 64 bits. -/
structure IsWord (s : Settings) : Prop where
  maxDecorations : s.maxDecorations < UInt64.size
  viewportBuffer : s.viewportBuffer < UInt64.size
  debounceMs : s.debounceMs < UInt64.size

/-- A part that names everything. -/
def part (s : Settings) : SettingsPart where
  hex := some s.hex.part
  gameText := some s.gameText.part
  inlineText := some s.inlineText.part
  maxDecorations := some s.maxDecorations
  viewportBuffer := some s.viewportBuffer
  debounceMs := some s.debounceMs

/-- Where everything is named, no default counts. -/
theorem loaded_part (s : Settings) : s.part.loaded = s := rfl

theorem IsWord.part (h : s.IsWord) : s.part.IsWord where
  maxDecorations _ hn := Option.some.inj hn ▸ h.maxDecorations
  viewportBuffer _ hn := Option.some.inj hn ▸ h.viewportBuffer
  debounceMs _ hn := Option.some.inj hn ▸ h.debounceMs

/-! ## Writing -/

theorem text_ofBool (b : Bool) : (Word.ofBool b).text = (if b then "true" else "false").toList := by
  cases b <;> rfl

theorem text_ofStyle (s : Style) : (Word.ofStyle s).text = s.settingName.toList := by
  cases s <;> rfl

theorem text_ofUInt64 {n : Nat} (hn : n < UInt64.size) :
    (Word.ofUInt64 (.ofNat n)).text = Text.ofNat n :=
  congrArg Text.ofNat (UInt64.toNat_ofNat_of_lt' hn)

theorem write_entry (key : String) {name value : Word} {t : Text} (hkey : name.text = key.toList)
    (ht : value.text = t) (column : Nat) (more : Block) :
    (Block.entry name value more).write column
      = List.replicate column ' ' ++ (fieldLine key t ++ more.write column) := by
  simp [Block.write, fieldLine, hkey, ht]

theorem write_family (key : String) {name : Word} (hkey : name.text = key.toList) (f : Family)
    (more : Block) :
    (Block.nested name f.part.block more).write 0 = familyLines key f ++ more.write 0 := by
  have hblock : f.part.block = .entry { text := "enabled".toList } (.ofBool f.enabled)
      (.entry { text := "style".toList } (.ofStyle f.style) .nil) := rfl
  rw [Block.write, hblock, write_entry "enabled" rfl (text_ofBool f.enabled),
    write_entry "style" rfl (text_ofStyle f.style), hkey, familyLines]
  simp [Block.write]

/-- Saved settings are the lines that name all of them. -/
theorem IsWord.write_part (h : s.IsWord) : s.part.block.write 0 = s.render := by
  have hblock : s.part.block =
      .nested { text := "hex".toList } s.hex.part.block
        (.nested { text := "game_text".toList } s.gameText.part.block
          (.nested { text := "inline_text".toList } s.inlineText.part.block
            (.entry { text := "max_decorations".toList } (.ofUInt64 (.ofNat s.maxDecorations))
              (.entry { text := "viewport_buffer".toList } (.ofUInt64 (.ofNat s.viewportBuffer))
                (.entry { text := "debounce_ms".toList } (.ofUInt64 (.ofNat s.debounceMs))
                  .nil))))) := rfl
  rw [hblock, write_family "hex" rfl, write_family "game_text" rfl, write_family "inline_text" rfl,
    write_entry "max_decorations" rfl (text_ofUInt64 h.maxDecorations),
    write_entry "viewport_buffer" rfl (text_ofUInt64 h.viewportBuffer),
    write_entry "debounce_ms" rfl (text_ofUInt64 h.debounceMs), render]
  simp [Block.write]

/-- Saved settings are read, and nothing of them is lost. -/
theorem IsWord.read?_render (h : s.IsWord) : read? s.render = some s := by
  rw [read?, ← h.write_part, Yaml.Node.read?_write, Option.bind_some,
    h.part.gives_block.settings?_eq, loaded_part]

/-! ## Files -/

/-- Saving makes the directory of a file, if it is in one, and then writes to the file. -/
theorem runOn_saveTo (s : Settings) (p : Path) (time : Nat) (tree : FileTree) :
    (s.saveTo p).runOn time tree =
      match p.parent?.elim (.ok tree) tree.makeDirectories with
      | .error e => (.error (.makeSettingsDirectory e), tree)
      | .ok made =>
        match made.writeText p s.render with
        | .error e => (.error (.writeSettings p e), made)
        | .ok written => (.ok (), written) := by
  cases hparent : p.parent? with
  | none =>
    simp only [saveTo, hparent, bind, pure, Script.bind, Script.write, Script.runOn, Option.elim]
    cases tree.writeText p s.render <;> rfl
  | some directory =>
    simp only [saveTo, hparent, bind, Script.bind, Script.makeDirs, Script.runOn, Option.elim]
    cases tree.makeDirectories directory with
    | error e => rfl
    | ok made =>
      simp only [FileTree.attempt, Script.write, Script.bind, Script.runOn]
      cases made.writeText p s.render <;> rfl

/-- Where saving has worked, the file holds what was written. -/
theorem readText_of_saveTo (h : (s.saveTo p).runOn time tree = (.ok (), tree')) :
    tree'.readText p = .ok s.render := by
  rw [runOn_saveTo] at h
  cases hmade : p.parent?.elim (.ok tree) tree.makeDirectories with
  | error e => simp [hmade] at h
  | ok made =>
    cases hwritten : made.writeText p s.render with
    | error e => simp [hmade, hwritten] at h
    | ok written =>
      obtain rfl : written = tree' := by simpa [hmade, hwritten] using h
      exact FileTree.readText_writeText hwritten

/-- Saving works unless a file stands where a directory is needed, or a directory where the file is
to be. -/
theorem exists_saveTo_iff {directory : List Text} {name : Text} (s : Settings) (time : Nat)
    (hdirectory : ∀ name ∈ directory, IsName name) (hname : IsName name) :
    (∃ tree', (s.saveTo (ofNames (directory ++ [name]))).runOn time tree = (.ok (), tree')) ↔
      (∀ way ∈ FileTree.ways [] directory, tree.IsFree way) ∧
        tree.isDirectory (directory ++ [name]) = false := by
  have houtcome : tree.Outcome (FileTree.ways [] directory) (tree.makeFrom [] directory) :=
    FileTree.outcome_makeFrom hdirectory
  rw [runOn_saveTo, Path.parent?_ofNames hdirectory hname, Option.elim_some,
    FileTree.makeDirectories_ofNames hdirectory]
  cases hmade : tree.makeFrom [] directory with
  | error e =>
    rw [hmade] at houtcome
    obtain ⟨way, hway, hnot⟩ := houtcome
    simp only [Prod.mk.injEq, reduceCtorEq, false_and, exists_false, false_iff]
    exact fun hfree => hnot (hfree.1 way hway)
  | ok made =>
    rw [hmade] at houtcome
    obtain ⟨hfree, hdirectories, hsame⟩ := houtcome
    -- The place of the file is below all directories that have been made.
    have hplace : directory ++ [name] ∉ FileTree.ways [] directory := by
      intro hmem
      have hlength := (FileTree.length_of_mem_ways hmem).2
      simp at hlength
    have hnode : made.isDirectory (directory ++ [name])
        = tree.isDirectory (directory ++ [name]) := by
      rw [FileTree.isDirectory, hsame _ hplace, FileTree.isDirectory]
    simp only [FileTree.writeText_ofNames hdirectory hname hdirectories, hnode]
    cases tree.isDirectory (directory ++ [name]) with
    | true => simp
    | false => simpa using hfree

/-- Settings that have been saved to a file are loaded from it, whenever that is. They are what its
text says, and not the defaults that stand for a text that says nothing. Below the root, saving
works wherever nothing is in the way. -/
theorem loadFrom_saveTo (hs : s.IsWord) (time : Nat) (tree : FileTree) :
    (∀ p tree', (s.saveTo p).runOn time tree = (.ok (), tree') →
      ∀ later, (loadFrom p).runOn later tree' = (s, tree')) ∧
    read? s.render = some s ∧
    (∀ directory name, (∀ name ∈ directory, IsName name) → IsName name →
      ((∃ tree', (s.saveTo (ofNames (directory ++ [name]))).runOn time tree = (.ok (), tree')) ↔
        (∀ way ∈ FileTree.ways [] directory, tree.IsFree way) ∧
          tree.isDirectory (directory ++ [name]) = false)) := by
  refine ⟨fun p tree' h later => ?_, hs.read?_render,
    fun directory name hdirectory hname => s.exists_saveTo_iff time hdirectory hname⟩
  rw [runOn_loadFrom later (readText_of_saveTo h), ofText, hs.read?_render, Option.getD_some]

/-- The largest numbers there are, saved below a directory that has to be made first. -/
theorem loadFrom_saveTo_largest :
    let n := UInt64.size - 1
    let s : Settings :=
      { hex := { enabled := false, style := .underline }, gameText := { style := .background }
        maxDecorations := n, viewportBuffer := n, debounceMs := n }
    let p : Path := "/home/config.yaml".toList
    let tree' := ((s.saveTo p).runOn 0 {}).2
    s.IsWord ∧ (s.saveTo p).runOn 0 {} = (.ok (), tree') ∧
      (loadFrom p).runOn 1 tree' = (s, tree') := by
  intro n s p tree'
  have hs : s.IsWord := ⟨by decide, by decide, by decide⟩
  have hsaved : (s.saveTo p).runOn 0 {} = (.ok (), tree') := by rfl
  exact ⟨hs, hsaved, (loadFrom_saveTo hs 0 {}).1 p tree' hsaved 1⟩

end Settings

end Swatch

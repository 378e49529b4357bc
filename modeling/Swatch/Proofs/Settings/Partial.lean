-- SUMMARY: What is loaded from a file that names only some of the settings.
import Swatch.Proofs.Files.Tree
import Swatch.Proofs.Settings.Fields
import Swatch.Proofs.Settings.Words
import Swatch.Proofs.Yaml.Nodes
import Swatch.Settings.File

/-!
# Settings in part

A file may name any of the settings, in any order and among names that mean nothing. What
it does not name is meant to keep its default, and the defaults of a family that is left
out are those of the settings. A family that is named starts from a default of its own
instead, which is the same for all three families: it is plain text. For the family of color
literals, whose default is the background, this is not what was meant.
-/

namespace Swatch

/-- What is named of a family. -/
structure FamilyPart where
  enabled : Option Bool := none
  style : Option Style := none

/-- What is named of the settings. -/
structure SettingsPart where
  hex : Option FamilyPart := none
  gameText : Option FamilyPart := none
  inlineText : Option FamilyPart := none
  maxDecorations : Option Nat := none
  viewportBuffer : Option Nat := none
  debounceMs : Option Nat := none

/-- The family with what is named in place of what was there. -/
def FamilyPart.setIn (part : FamilyPart) (f : Family) : Family where
  enabled := part.enabled.getD f.enabled
  style := part.style.getD f.style

namespace SettingsPart

/-- The settings with what is named in place of what was there. -/
def setIn (part : SettingsPart) (s : Settings) : Settings where
  hex := part.hex.elim s.hex (·.setIn s.hex)
  gameText := part.gameText.elim s.gameText (·.setIn s.gameText)
  inlineText := part.inlineText.elim s.inlineText (·.setIn s.inlineText)
  maxDecorations := part.maxDecorations.getD s.maxDecorations
  viewportBuffer := part.viewportBuffer.getD s.viewportBuffer
  debounceMs := part.debounceMs.getD s.debounceMs

/-- The default settings with what is named in place of what was there, but that color literals
start from plain text if anything at all is said about them. -/
def loaded (part : SettingsPart) : Settings :=
  { part.setIn {} with
    hex := part.hex.elim ({} : Settings).hex (·.setIn {}) }

/-- The style of color literals is the only thing that may differ from what was meant. -/
theorem loaded_eq_setIn_iff (part : SettingsPart) :
    part.loaded = part.setIn {} ↔ ∀ f ∈ part.hex, f.style.isSome := by
  obtain ⟨hex, gameText, inlineText, maxDecorations, viewportBuffer, debounceMs⟩ := part
  cases hex with
  | none => simp [loaded, setIn]
  | some f =>
    obtain ⟨enabled, style⟩ := f
    cases style <;> simp [loaded, setIn, FamilyPart.setIn]

end SettingsPart

/-! ## Nodes -/

namespace Yaml.Node

/-- The node is a map of fields that give what is named of a family, and of others. -/
def GivesFamily (part : FamilyPart) (n : Node) : Prop :=
  ∃ fields, n.fields? = some fields ∧
    FieldGives (fun b n => bool? n = some b) "enabled" part.enabled fields ∧
    FieldGives (fun s n => style? n = some s) "style" part.style fields

theorem GivesFamily.family?_eq {part : FamilyPart} {n : Node} (h : n.GivesFamily part) :
    n.family? = some (part.setIn {}) := by
  obtain ⟨fields, hfields, henabled, hstyle⟩ := h
  rw [family?, hfields, Option.bind_some, Family.ofFields?,
    readField?_of_value true henabled, readField?_of_value .text hstyle]
  rfl

/-- The node is a map of fields that give what is named of the settings, and of others. -/
def Gives (part : SettingsPart) (n : Node) : Prop :=
  ∃ fields, n.fields? = some fields ∧
    FieldGives GivesFamily "hex" part.hex fields ∧
    FieldGives GivesFamily "game_text" part.gameText fields ∧
    FieldGives GivesFamily "inline_text" part.inlineText fields ∧
    FieldGives (fun k n => word? n = some k) "max_decorations" part.maxDecorations fields ∧
    FieldGives (fun k n => word? n = some k) "viewport_buffer" part.viewportBuffer fields ∧
    FieldGives (fun k n => word? n = some k) "debounce_ms" part.debounceMs fields

theorem Gives.settings?_eq {part : SettingsPart} {n : Node} (h : n.Gives part) :
    n.settings? = some part.loaded := by
  have hfamily (f : FamilyPart) (n : Node) (h : n.GivesFamily f) : family? n = some (f.setIn {}) :=
    h.family?_eq
  obtain ⟨fields, hfields, hhex, hgame, hinline, hmost, hbuffer, hdebounce⟩ := h
  simp only [settings?, hfields, Option.bind_some, Settings.ofFields?,
    readField?_of_gives _ hhex hfamily, readField?_of_gives _ hgame hfamily,
    readField?_of_gives _ hinline hfamily, readField?_of_value _ hmost,
    readField?_of_value _ hbuffer, readField?_of_value _ hdebounce]
  rfl

end Yaml.Node

/-! ## Blocks -/

namespace Yaml.Block

/-- The names of the entries, with the nodes of their values. -/
def fields : Block → List (Text × Node)
  | nil => []
  | entry name value more => (name.text, value.node) :: more.fields
  | nested name below more => (name.text, below.node) :: more.fields

theorem mapM_pairs (b : Block) :
    (b.pairs.mapM fun (key, value) =>
      match key with
      | .scalar name _ _ => some (name, value)
      | _ => none) = some b.fields := by
  induction b with
  | nil => rfl
  | entry name value more ih => simp [pairs, fields, Word.node, ih]
  | nested name below more _ ih => simp [pairs, fields, Word.node, ih, node]

theorem fields?_node (b : Block) : b.node.fields? = some b.fields := by
  cases b with
  | nil => rfl
  | entry name value more => exact mapM_pairs (.entry name value more)
  | nested name below more => exact mapM_pairs (.nested name below more)

end Yaml.Block

open Yaml (Block Word)

def FamilyPart.block (part : FamilyPart) : Block :=
  let style : Block := part.style.elim .nil fun s =>
    .entry { text := "style".toList } (.ofStyle s) .nil
  part.enabled.elim style fun b => .entry { text := "enabled".toList } (.ofBool b) style

theorem FamilyPart.fields_block (part : FamilyPart) :
    part.block.fields = presentFields
      [("enabled".toList, part.enabled.map fun b => (Word.ofBool b).node),
       ("style".toList, part.style.map fun s => (Word.ofStyle s).node)] := by
  obtain ⟨enabled, style⟩ := part
  cases enabled <;> cases style <;> rfl

theorem FamilyPart.gives_block (part : FamilyPart) : part.block.node.GivesFamily part := by
  have hnames : (Family.fieldNames.map String.toList).Nodup := by decide
  refine ⟨_, part.block.fields?_node, ?_, ?_⟩ <;> rw [part.fields_block]
  · exact fieldGives_present hnames (by simp) fun b _ => Yaml.Node.bool?_ofBool b
  · exact fieldGives_present hnames (by simp) fun s _ => Yaml.Node.style?_ofStyle s

namespace SettingsPart

/-- The numbers that are named have 64 bits. -/
structure IsWord (part : SettingsPart) : Prop where
  maxDecorations : ∀ n ∈ part.maxDecorations, n < UInt64.size
  viewportBuffer : ∀ n ∈ part.viewportBuffer, n < UInt64.size
  debounceMs : ∀ n ∈ part.debounceMs, n < UInt64.size

def block (part : SettingsPart) : Block :=
  family { text := "hex".toList } part.hex <|
  family { text := "game_text".toList } part.gameText <|
  family { text := "inline_text".toList } part.inlineText <|
  number { text := "max_decorations".toList } part.maxDecorations <|
  number { text := "viewport_buffer".toList } part.viewportBuffer <|
  number { text := "debounce_ms".toList } part.debounceMs .nil
where
  family (name : Word) (f : Option FamilyPart) (more : Block) : Block :=
    f.elim more fun f => .nested name f.block more
  number (name : Word) (n : Option Nat) (more : Block) : Block :=
    n.elim more fun n => .entry name (.ofUInt64 (.ofNat n)) more

theorem fields_family (name : Word) (f : Option FamilyPart) (more : Block) :
    (block.family name f more).fields
      = (f.map fun f => f.block.node).toList.map (name.text, ·) ++ more.fields := by
  cases f <;> rfl

theorem fields_number (name : Word) (n : Option Nat) (more : Block) :
    (block.number name n more).fields
      = (n.map fun n => (Word.ofUInt64 (.ofNat n)).node).toList.map (name.text, ·)
        ++ more.fields := by
  cases n <;> rfl

theorem fields_block (part : SettingsPart) :
    part.block.fields = presentFields
      [("hex".toList, part.hex.map fun f => f.block.node),
       ("game_text".toList, part.gameText.map fun f => f.block.node),
       ("inline_text".toList, part.inlineText.map fun f => f.block.node),
       ("max_decorations".toList, part.maxDecorations.map fun n => (Word.ofUInt64 (.ofNat n)).node),
       ("viewport_buffer".toList, part.viewportBuffer.map fun n => (Word.ofUInt64 (.ofNat n)).node),
       ("debounce_ms".toList, part.debounceMs.map fun n => (Word.ofUInt64 (.ofNat n)).node)] := by
  simp only [block, fields_family, fields_number, presentFields_cons]
  rfl

/-- Whatever is named, there is a block that names it. -/
theorem IsWord.gives_block {part : SettingsPart} (h : part.IsWord) :
    part.block.node.Gives part := by
  have hnames : (Settings.fieldNames.map String.toList).Nodup := by decide
  have hnumber (n : Nat) (hn : n < UInt64.size) :
      (Word.ofUInt64 (.ofNat n)).node.word? = some n := by
    rw [Yaml.Node.word?_ofUInt64, UInt64.toNat_ofNat_of_lt' hn]
  refine ⟨_, part.block.fields?_node, ?_, ?_, ?_, ?_, ?_, ?_⟩ <;> rw [part.fields_block]
  · exact fieldGives_present hnames (by simp) fun f _ => f.gives_block
  · exact fieldGives_present hnames (by simp) fun f _ => f.gives_block
  · exact fieldGives_present hnames (by simp) fun f _ => f.gives_block
  · exact fieldGives_present hnames (by simp) fun n hn => hnumber n (h.maxDecorations n hn)
  · exact fieldGives_present hnames (by simp) fun n hn => hnumber n (h.viewportBuffer n hn)
  · exact fieldGives_present hnames (by simp) fun n hn => hnumber n (h.debounceMs n hn)

end SettingsPart

/-! ## Loading -/

namespace Settings

variable {part : SettingsPart} {p : Path} {t : Text} {tree : FileTree}

theorem runOn_loadFrom (time : Nat) (h : tree.readText p = .ok t) :
    (loadFrom p).runOn time tree = (ofText t, tree) := by
  simp only [loadFrom, bind, Script.bind, Script.exists?, Script.runOn,
    FileTree.contains_of_readText h, if_true, Script.read, h]
  rfl

theorem ofText_eq_loaded {n : Yaml.Node} (hread : Yaml.Node.read? t = some n)
    (hn : n.Gives part) : ofText t = part.loaded := by
  rw [ofText, read?, hread, Option.bind_some, hn.settings?_eq, Option.getD_some]

theorem ofText_write (b : Block) (hb : b.node.Gives part) :
    ofText (b.write 0) = part.loaded :=
  ofText_eq_loaded (Yaml.Node.read?_write b) hb

/-- Loading a file that names some of the settings, as a document of any shape or in lines: what is
not named has its default, but for the style of color literals. -/
theorem loadFrom_part (part : SettingsPart) (p : Path) (time : Nat) (tree : FileTree) :
    (∀ t n, tree.readText p = .ok t → Yaml.Node.read? t = some n → n.Gives part →
        (loadFrom p).runOn time tree = (part.loaded, tree)) ∧
      (∀ b : Block, tree.readText p = .ok (b.write 0) → b.node.Gives part →
        (loadFrom p).runOn time tree = (part.loaded, tree)) ∧
      (part.IsWord → part.block.node.Gives part) ∧
      (part.loaded = part.setIn {} ↔ ∀ f ∈ part.hex, f.style.isSome) := by
  refine ⟨fun t n ht hread hn => ?_, fun b hb hn => ?_, fun hword => hword.gives_block,
    part.loaded_eq_setIn_iff⟩
  · rw [runOn_loadFrom time ht, ofText_eq_loaded hread hn]
  · rw [runOn_loadFrom time hb, ofText_write b hn]

/-- Settings in another order, among names that mean nothing. -/
theorem loadFrom_part_reordered :
    let t := "viewport_buffer: 10\nother: 1\nhex:\n  other: red\n  style: underline\n".toList
    let tree : FileTree := { nodes := [([['c']], .text t)] }
    (loadFrom ['/', 'c']).runOn 0 tree
      = ({ viewportBuffer := 10, hex := { style := .underline } }, tree) := by
  intro t tree
  let other : Word := { text := "other".toList }
  let below : Block :=
    .entry other { text := "red".toList } <|
      .entry { text := "style".toList } { text := "underline".toList } .nil
  let b : Block :=
    .entry { text := "viewport_buffer".toList } { text := "10".toList } <|
      .entry other { text := "1".toList } <| .nested { text := "hex".toList } below .nil
  have hbelow : below.node.GivesFamily { style := some .underline } :=
    ⟨below.fields, below.fields?_node, .nil, .cons (by decide) .nil⟩
  have hb : b.node.Gives { hex := some { style := some .underline }, viewportBuffer := some 10 } :=
    ⟨b.fields, b.fields?_node, .cons hbelow .nil, .nil, .nil, .nil, .cons (by decide) .nil, .nil⟩
  exact (loadFrom_part _ ['/', 'c'] 0 tree).1 t b.node rfl (Yaml.Node.read?_write b) hb

/-- Where color literals are switched off, their style is lost. -/
theorem loadFrom_loses_background :
    let part : SettingsPart := { hex := some { enabled := some false } }
    let t := "hex:\n  enabled: false\n".toList
    let tree : FileTree := { nodes := [([['c']], .text t)] }
    t = part.block.write 0 ∧ part.block.node.Gives part ∧
      (loadFrom ['/', 'c']).runOn 0 tree ≠ (part.setIn {}, tree) := by
  intro part t tree
  have hpart : part.block.node.Gives part := by
    refine SettingsPart.IsWord.gives_block ⟨?_, ?_, ?_⟩ <;> exact fun n hn => by cases hn
  refine ⟨rfl, hpart, fun h => ?_⟩
  rw [runOn_loadFrom (t := part.block.write 0) 0 rfl, ofText_write _ hpart, Prod.mk.injEq] at h
  exact absurd h.1 (by decide)

end Settings

end Swatch

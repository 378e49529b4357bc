-- SUMMARY: A block is read as the map of its entries.
import Swatch.Proofs.Yaml.Stream

/-!
# Nodes of blocks

The tokens of a block hold no anchors and no tags, so what has been met stays the same
while its node is built. An entry takes at least three tokens and each of the readers
below it takes one step, so as many steps as there are tokens are enough.
-/

namespace Swatch.Yaml

namespace Block

/-- A block says nothing at all, or it is a map in a block of its own. -/
theorem enclose_cases (b : Block) :
    (enclose b.tokens = [] ∧ b.node = .empty) ∨
      (enclose b.tokens = .blockMap :: (b.tokens ++ [.blockEnd]) ∧ b.node = .map b.pairs) := by
  cases b with
  | nil => exact .inl ⟨rfl, rfl⟩
  | entry => exact .inr ⟨rfl, rfl⟩
  | nested => exact .inr ⟨rfl, rfl⟩

theorem length_tokens_le (b : Block) : b.tokens.length ≤ (enclose b.tokens).length := by
  cases b with
  | nil => exact Nat.le_refl 0
  | entry => simp [tokens, enclose]
  | nested =>
    simp only [tokens, enclose, List.length_cons, List.length_append]
    omega

/-- Behind the entries of a block its end follows; in front of an entry there is a key. -/
theorem head?_tokens (b : Block) (ts : List Token) :
    (b.tokens ++ .blockEnd :: ts).head?.any fun t =>
      t == .key || t == .value || t == .blockEnd := by
  cases b <;> rfl

end Block

namespace Node

theorem node?_word (w : Word) (place : Place) (fuel : Nat) (names : Names) (ts : List Token) :
    node? place (fuel + 1) names (w.token :: ts) = some (w.node, names, ts) := by
  simp [node?, Word.token, Word.node, properties, Names.opening, Names.closing]

theorem optional?_word (w : Word) (place : Place) (fuel : Nat) (names : Names) (ts : List Token) :
    optional? place (fun t => t == .key || t == .value || t == .blockEnd) (fuel + 2) names
      (w.token :: ts) = some (w.node, names, ts) := by
  rw [optional?, if_neg (by simp [Word.token]), node?_word]

/-- A map in a block of its own is read as its pairs. -/
theorem node?_blockMap {place : Place} (hplace : place ≠ .flow) (fuel : Nat) (names : Names)
    (ts : List Token) :
    node? place (fuel + 1) names (.blockMap :: ts)
      = (pairs? fuel names ts).map fun (pairs, more) => (.map pairs, more) := by
  cases h : pairs? fuel names ts <;>
    simp [node?, properties, Names.opening, Names.closing, hplace, h]

/-- The map below a key is read, or nothing if it has no entries. -/
theorem optional?_enclose (b : Block) (fuel : Nat)
    (h : ∀ names ts, pairs? fuel names (b.tokens ++ .blockEnd :: ts) = some (b.pairs, names, ts))
    (more : Block) (names : Names) (ts : List Token) :
    optional? .blockEntry (fun t => t == .key || t == .value || t == .blockEnd) (fuel + 2) names
        (Block.enclose b.tokens ++ (more.tokens ++ .blockEnd :: ts))
      = some (b.node, names, more.tokens ++ .blockEnd :: ts) := by
  rcases b.enclose_cases with ⟨htokens, hnode⟩ | ⟨htokens, hnode⟩
  · rw [htokens, hnode, List.nil_append, optional?, if_pos (more.head?_tokens ts)]
  · rw [htokens, hnode, List.cons_append, List.append_assoc, optional?, if_neg (by simp),
      node?_blockMap (by decide), List.singleton_append, h]
    rfl

/-- A key and its value are read as the first pair of a map. -/
theorem pairs?_key (name : Word) {value : Node} {fuel : Nat} {names : Names} {ts rest : List Token}
    (h : optional? .blockEntry (fun t => t == .key || t == .value || t == .blockEnd) (fuel + 2)
      names ts = some (value, names, rest)) :
    pairs? (fuel + 3) names (.key :: name.token :: .value :: ts)
      = (pairs? (fuel + 2) names rest).map fun (pairs, more) =>
        ((name.node, value) :: pairs, more) := by
  rw [pairs?]
  simp only [optional?_word, h, Option.bind_eq_bind, Option.bind_some]
  cases pairs? (fuel + 2) names rest <;> rfl

/-- The entries of a block are read as its pairs. -/
theorem pairs?_tokens (b : Block) {fuel : Nat} (h : b.tokens.length < fuel) (names : Names)
    (ts : List Token) :
    pairs? fuel names (b.tokens ++ .blockEnd :: ts) = some (b.pairs, names, ts) := by
  induction b generalizing fuel names ts with
  | nil =>
    obtain ⟨fuel, rfl⟩ := Nat.exists_eq_add_one.2 h
    rfl
  | entry name value more ih =>
    simp only [Block.tokens, List.length_cons] at h
    obtain ⟨fuel, rfl⟩ : ∃ n, fuel = n + 3 := Nat.exists_eq_add_of_le' (by omega)
    have hvalue := optional?_word value .blockEntry fuel names (more.tokens ++ .blockEnd :: ts)
    simp only [Block.tokens, Block.pairs, List.cons_append]
    rw [pairs?_key name hvalue, ih (by omega)]
    rfl
  | nested name below more ihBelow ihMore =>
    simp only [Block.tokens, List.length_cons, List.length_append] at h
    obtain ⟨fuel, rfl⟩ : ∃ n, fuel = n + 3 := Nat.exists_eq_add_of_le' (by omega)
    have hlength := below.length_tokens_le
    have hvalue := optional?_enclose below fuel (fun names ts => ihBelow (by omega) names ts) more
      names ts
    simp only [Block.tokens, Block.pairs, List.cons_append, List.append_assoc]
    rw [pairs?_key name hvalue, ihMore (by omega)]
    rfl

/-- A document without directives and marks is its node. -/
theorem document?_blockMap (ts : List Token) :
    document? (.blockMap :: ts)
      = (pairs? (3 * (ts.length + 1) + 2) (Names.ofHandles []) ts).map fun (pairs, _, rest) =>
        (some (.map pairs), rest) := by
  have hplace : Place.block ≠ .flow := by decide
  have hnode := node?_blockMap hplace (3 * (ts.length + 1) + 2) (Names.ofHandles []) ts
  simp only [document?, directives?, Option.bind_eq_bind, Option.bind_some, List.length_cons, hnode]
  cases pairs? (3 * (ts.length + 1) + 2) (Names.ofHandles []) ts <;> rfl

/-- A block is read as its node. -/
theorem read?_write (b : Block) : read? (b.write 0) = some b.node := by
  rw [read?, tokens?_write]
  rcases b.enclose_cases with ⟨htokens, hnode⟩ | ⟨htokens, hnode⟩
  · rw [htokens, hnode]
    rfl
  · have hlength (ts : List Token) : b.tokens.length < 3 * ((b.tokens ++ ts).length + 1) + 2 := by
      rw [List.length_append]
      omega
    rw [htokens, hnode, List.cons_append, List.append_assoc, List.singleton_append,
      Option.bind_eq_bind, Option.bind_some, document?_blockMap, pairs?_tokens b (hlength _)]
    rfl

end Node

end Swatch.Yaml

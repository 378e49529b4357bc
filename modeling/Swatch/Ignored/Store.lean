-- SUMMARY: Where ignored lines are kept between runs, and a registry that keeps them there.
import Swatch.Files.Tree
import Swatch.Ignored.Json

/-!
# Stores

A store loads entries and saves them. Either may fail, and neither failure
reaches those who use the registry: what cannot be loaded is taken as empty, and
what cannot be saved stays in memory.

`Kept` is a registry together with its store. Every request is answered from
memory, and the entries are saved once if the request asks for that.
-/

namespace Swatch.Ignored

/-- A store of entries. Loading yields nothing if it fails; saving tells whether it worked. -/
class Store (σ : Type) where
  load : σ → Option (List Entry)
  save : σ → List Entry → Bool × σ

/-! ## Kinds of stores -/

structure MemoryStore where
  entries : List Entry := []

instance : Store MemoryStore where
  load s := some s.entries
  save _ entries := (true, ⟨entries⟩)

/-- A store that always fails. -/
structure BrokenStore where

instance : Store BrokenStore where
  load _ := none
  save s _ := (false, s)

namespace JsonFile

/-- Load entries from a file; a file that is not there holds none. -/
def load (p : Path) : Script (Option (List Entry)) := do
  if ← Script.exists? p then
    match ← Script.read p with
    | .ok t => return read? t
    | .error _ => return none
  else return some []

/-- Save entries to a file, whose directory is made first. -/
def save (p : Path) (entries : List Entry) : Script Bool := do
  let made ← match p.parent? with
    | some directory => Script.makeDirs directory
    | none => pure (.ok ())
  match made with
  | .error _ => return false
  | .ok _ =>
    match ← Script.write p (render entries) with
    | .ok _ => return true
    | .error _ => return false

end JsonFile

/-- A store in a file of a tree. -/
structure JsonFileStore where
  path : Path
  tree : FileTree

instance : Store JsonFileStore where
  load s := ((JsonFile.load s.path).runOn 0 s.tree).1
  save s entries :=
    let (saved, tree) := (JsonFile.save s.path entries).runOn 0 s.tree
    (saved, { s with tree })

/-- A store some of whose saves fail, as a pattern says for the first, second, … save. -/
structure FlakyStore (σ : Type) where
  inner : σ
  works : Nat → Bool
  saves : Nat := 0

instance [Store σ] : Store (FlakyStore σ) where
  load s := Store.load s.inner
  save s entries :=
    if s.works s.saves then
      let (saved, inner) := Store.save s.inner entries
      (saved, { s with inner, saves := s.saves + 1 })
    else (false, { s with saves := s.saves + 1 })

/-! ## A registry with a store -/

/-- A registry and the store that keeps its entries. -/
structure Kept (σ : Type) where
  registry : Registry
  store : σ
  /-- How many saves have worked. -/
  saves : Nat := 0

namespace Kept

variable {σ : Type} [Store σ]

/-- The registry that a store holds. -/
def load (store : σ) : Kept σ where
  registry := ⟨(Store.load store).getD []⟩
  store := store

def persist (k : Kept σ) : Kept σ :=
  let (saved, store) := Store.save k.store k.registry.entries
  { k with store, saves := if saved then k.saves + 1 else k.saves }

def perform (k : Kept σ) (now : Nat) (request : Registry.Request) : Registry.Reply × Kept σ :=
  let outcome := k.registry.perform now request
  let k := { k with registry := outcome.registry }
  (outcome.reply, if outcome.durable then k.persist else k)

def performAll (k : Kept σ) (requests : List (Nat × Registry.Request)) : Kept σ :=
  requests.foldl (fun k (now, request) => (k.perform now request).2) k

end Kept

end Swatch.Ignored

-- SUMMARY: The nodes of a YAML document, built from its tokens.
import Swatch.Yaml.Stream

/-!
# Nodes

A document is one node: a scalar, a list, or a map whose keys are nodes as well.
An alias stands for the node that was last named before it. A node may hold an
alias of itself; such an alias is a node of its own here, which means nothing to
those who read it.
-/

namespace Swatch.Yaml

inductive Node where
  | scalar (text : Text) (quoting : Quoting) (tag : Option Text)
  | list (items : List Node)
  | map (pairs : List (Node × Node))
  /-- An alias of a node that it is part of. -/
  | cycle
  deriving Inhabited

namespace Node

/-- What stands for a node that is left out. -/
def empty : Node :=
  .scalar [] .plain none

/-! ## What has been met -/

/-- The named nodes and the handles of a document. A named node that is still being built is
missing. -/
structure Names where
  anchors : List (Text × Option Node) := []
  handles : List (Text × Text) := []

/-- The handles that every document has. -/
def Names.ofHandles (handles : List (Text × Text)) : Names where
  handles := handles ++ [(['!'], ['!']), (['!', '!'], "tag:yaml.org,2002:".toList)]

/-- The full text of a tag; its handle has to be known. -/
def Names.tag? (n : Names) (handle suffix : Text) : Option Text :=
  if handle.isEmpty then some suffix
  else (n.handles.lookup handle).map (· ++ suffix)

/-- Name the node that is about to be built. -/
def Names.opening (n : Names) (anchor : Option Text) : Names :=
  match anchor with
  | some name => { n with anchors := (name, none) :: n.anchors }
  | none => n

/-- Name a node that has been built. -/
def Names.closing (n : Names) (anchor : Option Text) (node : Node) : Names :=
  match anchor with
  | some name => { n with anchors := fill name n.anchors }
  | none => n
where
  fill (name : Text) : List (Text × Option Node) → List (Text × Option Node)
    | [] => []
    | (other, built) :: more =>
      if other = name ∧ built.isNone then (other, some node) :: more
      else (other, built) :: fill name more

/-- What precedes a node: an anchor and a tag, each at most once, in any order. -/
structure Properties where
  anchor : Option Text := none
  tag : Option (Text × Text) := none

def properties : List Token → Properties × List Token
  | .anchor name :: .tag handle suffix :: ts => (⟨some name, some (handle, suffix)⟩, ts)
  | .tag handle suffix :: .anchor name :: ts => (⟨some name, some (handle, suffix)⟩, ts)
  | .anchor name :: ts => (⟨some name, none⟩, ts)
  | .tag handle suffix :: ts => (⟨none, some (handle, suffix)⟩, ts)
  | ts => ({}, ts)

/-- Where a node stands, which decides what it may be. -/
inductive Place where
  | block
  /-- The value or the key of a map in a block, where a list need not be indented. -/
  | blockEntry
  | flow
  deriving DecidableEq

/-- A node, what has been met, and what follows. -/
abbrev Built (α : Type) := α × Names × List Token

/-! ## Building -/

mutual
/-- A node with its properties. -/
def node? (place : Place) : (fuel : Nat) → Names → List Token → Option (Built Node)
  | 0, _, _ => none
  | fuel + 1, names, ts =>
    match ts with
    | .alias name :: ts =>
      (names.anchors.lookup name).map fun node => (node.getD .cycle, names, ts)
    | _ => do
      let (properties, ts) := properties ts
      let tag ← match properties.tag with
        | some (handle, suffix) => (names.tag? handle suffix).map some
        | none => some none
      let names := names.opening properties.anchor
      let (node, names, ts) ← match ts with
        | .blockItem :: _ =>
          if place = .blockEntry then
            (looseItems? fuel names ts).map fun (items, more) => (Node.list items, more)
          else absent? properties tag names ts
        | .scalar text quoting :: ts => some (.scalar text quoting tag, names, ts)
        | .flowListStart :: ts =>
          (flowItems? true fuel names ts).map fun (items, more) => (.list items, more)
        | .flowMapStart :: ts =>
          (flowPairs? true fuel names ts).map fun (pairs, more) => (.map pairs, more)
        | .blockList :: ts' =>
          if place = .flow then absent? properties tag names ts
          else (items? fuel names ts').map fun (items, more) => (.list items, more)
        | .blockMap :: ts' =>
          if place = .flow then absent? properties tag names ts
          else (pairs? fuel names ts').map fun (pairs, more) => (.map pairs, more)
        | _ => absent? properties tag names ts
      return (node, names.closing properties.anchor node, ts)

/-- A node that is left out behind its properties; without properties something is missing. -/
def absent? (properties : Properties) (tag : Option Text) (names : Names) (ts : List Token) :
    Option (Built Node) :=
  if properties.anchor.isSome || properties.tag.isSome then some (.scalar [] .plain tag, names, ts)
  else none

/-- A node, which is left out where one of some tokens follows. -/
def optional? (place : Place) (stops : Token → Bool) :
    (fuel : Nat) → Names → List Token → Option (Built Node)
  | 0, _, _ => none
  | fuel + 1, names, ts =>
    if ts.head?.any stops then some (.empty, names, ts) else node? place fuel names ts

/-- The items of a list in a block of its own. -/
def items? : (fuel : Nat) → Names → List Token → Option (Built (List Node))
  | 0, _, _ => none
  | fuel + 1, names, ts =>
    match ts with
    | .blockItem :: ts => do
      let (item, names, ts) ← optional? .block (fun t => t == .blockItem || t == .blockEnd) fuel
        names ts
      let (items, more) ← items? fuel names ts
      return (item :: items, more)
    | .blockEnd :: ts => some ([], names, ts)
    | _ => none

/-- The items of a list that shares the block of the map around it. -/
def looseItems? : (fuel : Nat) → Names → List Token → Option (Built (List Node))
  | 0, _, _ => none
  | fuel + 1, names, ts =>
    match ts with
    | .blockItem :: ts => do
      let (item, names, ts) ← optional? .block
        (fun t => t == .blockItem || t == .key || t == .value || t == .blockEnd) fuel names ts
      let (items, more) ← looseItems? fuel names ts
      return (item :: items, more)
    | _ => some ([], names, ts)

/-- The pairs of a map in a block. -/
def pairs? : (fuel : Nat) → Names → List Token → Option (Built (List (Node × Node)))
  | 0, _, _ => none
  | fuel + 1, names, ts =>
    let stops := fun t => t == .key || t == .value || t == .blockEnd
    match ts with
    | .key :: ts => do
      let (key, names, ts) ← optional? .blockEntry stops fuel names ts
      let (value, names, ts) ← match ts with
        | .value :: ts => optional? .blockEntry stops fuel names ts
        | _ => some (.empty, names, ts)
      let (pairs, more) ← pairs? fuel names ts
      return ((key, value) :: pairs, more)
    | .blockEnd :: ts => some ([], names, ts)
    | _ => none

/-- The items of a list between brackets. An item that is a pair is a map of its own. -/
def flowItems? (first : Bool) : (fuel : Nat) → Names → List Token → Option (Built (List Node))
  | 0, _, _ => none
  | fuel + 1, names, ts => do
    match ts with
    | .flowListEnd :: ts => return ([], names, ts)
    | _ =>
      let ts ← if first then some ts else
        match ts with
        | .flowItem :: ts => some ts
        | _ => none
      let stops := fun t => t == .flowItem || t == .flowListEnd
      match ts with
      | .flowListEnd :: ts => return ([], names, ts)
      | .key :: ts =>
        let (key, names, ts) ← match ts with
          | t :: more =>
            if t == .value || stops t then some (.empty, names, more)
            else node? .flow fuel names ts
          | [] => none
        let (value, names, ts) ← match ts with
          | .value :: ts => optional? .flow stops fuel names ts
          | _ => some (.empty, names, ts)
        let (items, more) ← flowItems? false fuel names ts
        return (.map [(key, value)] :: items, more)
      | _ =>
        let (item, names, ts) ← node? .flow fuel names ts
        let (items, more) ← flowItems? false fuel names ts
        return (item :: items, more)

/-- The pairs of a map between braces. A key without a colon has no value. -/
def flowPairs? (first : Bool) :
    (fuel : Nat) → Names → List Token → Option (Built (List (Node × Node)))
  | 0, _, _ => none
  | fuel + 1, names, ts => do
    match ts with
    | .flowMapEnd :: ts => return ([], names, ts)
    | _ =>
      let ts ← if first then some ts else
        match ts with
        | .flowItem :: ts => some ts
        | _ => none
      let stops := fun t => t == .flowItem || t == .flowMapEnd
      match ts with
      | .flowMapEnd :: ts => return ([], names, ts)
      | .key :: ts =>
        let (key, names, ts) ← optional? .flow (fun t => t == .value || stops t) fuel names ts
        let (value, names, ts) ← match ts with
          | .value :: ts => optional? .flow stops fuel names ts
          | _ => some (.empty, names, ts)
        let (pairs, more) ← flowPairs? false fuel names ts
        return ((key, value) :: pairs, more)
      | _ =>
        let (key, names, ts) ← node? .flow fuel names ts
        let (pairs, more) ← flowPairs? false fuel names ts
        return ((key, .empty) :: pairs, more)
end

/-! ## Documents -/

/-- The directives that tokens start with: whether a version is among them, and the handles. A
directive may not be repeated, and the version has to be 1.1 or 1.2. -/
def directives? (version : Bool) (handles : List (Text × Text)) :
    List Token → Option (Bool × List (Text × Text) × List Token)
  | .version major minor :: ts =>
    if version || major ≠ 1 || (minor ≠ 1 && minor ≠ 2) then none else directives? true handles ts
  | .tagHandle handle start :: ts =>
    if (handles.lookup handle).isSome then none
    else directives? version ((handle, start) :: handles) ts
  | ts => some (version, handles, ts)

/-- Tokens that a document without content is followed by. -/
def endsDocument : Token → Bool
  | .version _ _ => true
  | .tagHandle _ _ => true
  | .documentStart => true
  | .documentEnd => true
  | .streamEnd => true
  | _ => false

/-- The node of the first document of a stream, if there is a document, and what follows. Directives
ask for the mark that starts a document. -/
def document? (ts : List Token) : Option (Option Node × List Token) := do
  match ts with
  | .streamEnd :: ts => return (none, .streamEnd :: ts)
  | _ =>
    let (version, handles, rest) ← directives? false [] ts
    let names := Names.ofHandles handles
    match rest with
    | .documentStart :: rest =>
      let (node, _, rest) ← optional? .block endsDocument (3 * rest.length + 3) names rest
      return (some node, rest)
    | _ =>
      if version || !handles.isEmpty then none
      else
        let (node, _, rest) ← node? .block (3 * rest.length + 3) names rest
        return (some node, rest)

/-- The node of a stream that holds one document. A stream without any document is like a document
whose node is left out. -/
def read? (t : Text) : Option Node := do
  let (node, rest) ← document? (← tokens? t)
  if rest.dropWhile (· == .documentEnd) = [.streamEnd] then some (node.getD .empty) else none

end Node

end Swatch.Yaml

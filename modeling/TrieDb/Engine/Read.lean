import TrieDb.Engine.Write

/-!
# Reading from the trie

`src/storage/engine/read.rs`: the descent from the root, or from a cached account, to the value at
a path. The descent has an explicit bound on its depth.
-/

namespace TrieDb.Engine

open Base

variable [AlloyTrie]

omit [AlloyTrie] in
/-- Remember where a contract account is. -/
def cacheAccount (path : Nibbles) (p i : Nat) : EngineM Cells Unit :=
  modify fun s ↦ { s with context := { s.context with
    contractAccountLocCache :=
      Function.update s.context.contractAccountLocCache path (some (p, i)) } }

/-- Remember where an account is that was read, if it has storage. -/
def noteAccount (path : Nibbles) (p i : Nat) : TrieValue → EngineM Cells Unit
  | .account a =>
    if a.storageRoot ≠ emptyRootHash ∧ path.length = addressPathLength then cacheAccount path p i
    else pure ()
  | .storage _ => pure ()

omit [AlloyTrie] in
/-- Where the descent goes from a node, and the offset of the rest of the path. -/
def nextPointer (node : Node) (next : Nibble) (offset : Nat) :
    EngineM Cells (Option Pointer × Nat) :=
  match node.kind with
  | .accountLeaf _ _ _ root => pure (root, offset)
  | .branch children => pure (children next, offset + 1)
  | .storageLeaf _ => throw .panic

/-- `get_value_from_page`. -/
def getValueFromPage (path : Nibbles) : Nat → Nat → Nat → Nat → EngineM Cells (Option TrieValue)
  | 0, _, _, _ => throw .outOfFuel
  | fuel + 1, pathOffset, p, i => do
    let node ← getValue p i
    let length := commonPrefixLength (path.drop pathOffset) node.pre
    if length < node.pre.length then pure none
    else
      match path.drop (pathOffset + length) with
      | [] =>
        let value ← liftNode node.value
        noteAccount path p i value
        pure (some value)
      | next :: _ =>
        let (pointer, offset) ← nextPointer node next (pathOffset + length)
        match pointer with
        | some ⟨.cell c, _⟩ => getValueFromPage path fuel offset p c
        | some ⟨.page q, _⟩ => do
          let _ ← getPage q
          getValueFromPage path fuel offset q 0
        | none => pure none

/-- `get_account`. -/
def getAccount (fuel : Nat) (path : Nibbles) : EngineM Cells (Option Account) := do
  match (← get).context.rootNodePageId with
  | none => pure none
  | some root =>
    let _ ← getPage root
    match ← getValueFromPage path fuel 0 root 0 with
    | some (.account a) => pure (some a)
    | _ => pure none

omit [AlloyTrie] in
/-- Where the descent of `get_storage` starts: a path offset, a page and a cell. -/
def storageStart (path : Nibbles) (root : Nat) : EngineM Cells (Option (Nat × Nat × Nat)) := do
  match (← get).context.contractAccountLocCache (path.take addressPathLength) with
  | some (page, cell) =>
    let _ ← getPage page
    match ← liftNode (← getValue page cell).directChild with
    | none => pure none
    | some ⟨.cell c, _⟩ => pure (some (addressPathLength, page, c))
    | some ⟨.page q, _⟩ =>
      let _ ← getPage q
      pure (some (addressPathLength, q, 0))
  | none =>
    let _ ← getPage root
    pure (some (0, root, 0))

/-- `get_storage`. -/
def getStorage (fuel : Nat) (path : Nibbles) : EngineM Cells (Option U256) := do
  match (← get).context.rootNodePageId with
  | none => pure none
  | some root =>
    match ← storageStart path root with
    | none => pure none
    | some (pathOffset, p, i) =>
      match ← getValueFromPage path fuel pathOffset p i with
      | some (.storage v) => pure (some v)
      | _ => pure none

end TrieDb.Engine

import Mathlib.Data.List.Sort
import TrieDb.Engine.PageOps
import TrieDb.Page.Slotted

/-!
# Subtries of a page

`src/storage/engine/helpers.rs` and `src/storage/engine/page_ops.rs:127–280`: reading and writing
the cells of a page, moving a subtrie to another page, splitting a full page, and giving up a whole
subtrie. A recursion that follows pointers has an explicit bound on its depth.
-/

namespace TrieDb.Engine

open Base

/-- Run a node operation. -/
def liftNode {γ α : Type} (x : Except NodeError α) : EngineM γ α :=
  match x with
  | .ok a => pure a
  | .error e => throw (.nodeError e)

/-- Run an operation that holds a `PageMut`, which is dropped at the end, also on an error. -/
def withPage {γ α : Type} (p : Nat) (x : EngineM γ α) : EngineM γ α := fun s ↦
  match x s with
  | .ok a s' => .ok a (s'.setPages (s'.engine.pageManager.drop p))
  | .error e s' => .error e (s'.setPages (s'.engine.pageManager.drop p))

/-- The cells of a page that is at hand. -/
def cells (p : Nat) : EngineM Cells Cells := do
  pure ((← get).engine.pageManager.pages p).contents

/-- `get_value`. -/
def getValue (p i : Nat) : EngineM Cells Node := do liftPage ((← cells p).getValue i)

/-- `delete_value`. -/
def deleteValue (p i : Nat) : EngineM Cells Unit := do writeContents p ((← cells p).deleteValue i)

/-- `swap_cell_pointers`. -/
def swapCellPointers (p i j : Nat) : EngineM Cells Unit := do
  writeContents p (← liftPage ((← cells p).swapCellPointers i j))

/-- `next_free_cell_index`. -/
def nextFreeCellIndex (p : Nat) : EngineM Cells Nat := do liftPage (← cells p).nextFreeCellIndex

/-- `node_location`: the first cell of a page is named by the page. -/
def nodeLocation (p i : Nat) : Location := if i = 0 then .page p else .cell i

variable [AlloyTrie]

/-- `set_value`. -/
def setValue (p i : Nat) (n : Node) : EngineM Cells Unit := do
  let (r, cells) := (← cells p).setValue i n
  writeContents p cells
  liftPage r

/-- `insert_value`. -/
def insertValue (p : Nat) (n : Node) : EngineM Cells Nat := do
  let (i, cells) ← liftPage ((← cells p).insertValue n)
  writeContents p cells
  pure i

/-- `num_free_bytes`. -/
def numFreeBytes (p : Nat) : EngineM Cells Nat := do pure (← cells p).numFreeBytes

omit [AlloyTrie] in
/-- `count_subtrie_nodes`; the depth of a subtrie is at most the number of cells. -/
def countSubtrieNodes (cells : Cells) : Nat → Nat → Except PageError Nat
  | 0, _ => .error .invalidCellPointer
  | fuel + 1, i => do
    let node ← cells.getValue i
    let counts ← (List.finRange 16).mapM fun j ↦
      match node.childAt j with
      | some ⟨.cell c, _⟩ => countSubtrieNodes cells fuel c
      | _ => pure 0
    pure (1 + counts.sum)

/-- Move the children on the source page, and point the node to where they are then. -/
def moveChildren (move : Nat → EngineM Cells Location) :
    List (Fin 16) → Node → EngineM Cells Node
  | [], node => pure node
  | i :: rest, node =>
    match node.childAt i with
    | some ⟨.cell c, rlp⟩ => do
      let location ← move c
      let node ← liftNode (node.setChild i ⟨location, rlp⟩)
      moveChildren move rest node
    | _ => moveChildren move rest node

/-- The part of `move_subtrie_nodes` for a node that was moved and may have children. -/
def moveBelow (move : Nat → EngineM Cells Location) (target new : Nat) (node : Node) :
    EngineM Cells Unit :=
  if node.hasChildren then do
    let updated ← getValue target new
    let range := if updated.isBranch then List.finRange 16 else [0]
    let updated ← moveChildren move range updated
    setValue target new updated
  else pure ()

/-- `move_subtrie_nodes`. -/
def moveSubtrieNodes (source target : Nat) : Nat → Nat → EngineM Cells Location
  | 0, _ => throw .outOfFuel
  | fuel + 1, i => do
    let node ← getValue source i
    deleteValue source i
    -- the node is inserted before its children to secure its location
    let new ← insertValue target node
    moveBelow (moveSubtrieNodes source target fuel) target new node
    pure (nodeLocation target new)

/-- A child of a page's root on the same page: its place, cell and embedding. -/
structure LocalChild where
  index : Fin 16
  cell : Nat
  rlp : RlpNode

omit [AlloyTrie] in
/-- The local children of a node, those with the most nodes on the page first. -/
def localChildren (cells : Cells) (children : List (Fin 16 × Pointer)) : List LocalChild :=
  let counted := children.filterMap fun (i, ptr) ↦
    match ptr.location with
    | .cell c =>
      some (LocalChild.mk i c ptr.rlp,
        match countSubtrieNodes cells (cells.length + 1) c with
        | .ok n => n
        | .error _ => 0)
    | .page _ => none
  (counted.insertionSort fun a b ↦ b.2 ≤ a.2).map Prod.fst

/-- The loop of `split_page`: move children until a quarter of the page is free. -/
def splitLoop (fuel p : Nat) : List LocalChild → Node → EngineM Cells Node
  | [], root => do
    if (← numFreeBytes p) < Cells.dataSize / 4 then
      let child ← allocatePage
      withPage child (throw .panic)
    else pure root
  | c :: rest, root => do
    if (← numFreeBytes p) < Cells.dataSize / 4 then
      let child ← allocatePage
      let root ← withPage child do
        let _ ← moveSubtrieNodes p child fuel c.cell
        liftNode (root.setChild c.index ⟨.page child, c.rlp⟩)
      splitLoop fuel p rest root
    else pure root

/-- `split_page`. -/
def splitPage (fuel p : Nat) : EngineM Cells Unit := do
  let root ← getValue p 0
  let children ← liftNode root.enumerateChildren
  let root ← splitLoop fuel p (localChildren (← cells p) children) root
  setValue p 0 root

omit [AlloyTrie] in
/-- Visit the children of a node that can have some. -/
def forChildren (node : Node) (visit : Location → EngineM Cells Unit) : EngineM Cells Unit :=
  if node.hasChildren then do
    let children ← liftNode node.enumerateChildren
    children.forM fun c ↦ visit c.2.location
  else pure ()

omit [AlloyTrie] in
/-- Orphan a page whose root is gone. -/
def orphanIfRoot (p i : Nat) : EngineM Cells Unit := if i = 0 then orphanPage p else pure ()

omit [AlloyTrie] in
/-- `orphan_subtrie`: orphan the pages of a subtrie, without touching their cells. -/
def orphanSubtrie : Nat → Nat → Nat → EngineM Cells Unit
  | 0, _, _ => throw .outOfFuel
  | fuel + 1, p, i => do
    let node ← getValue p i
    forChildren node fun
      | .cell c => orphanSubtrie fuel p c
      | .page q => do
        let _ ← getPage q
        orphanSubtrie fuel q 0
    orphanIfRoot p i

omit [AlloyTrie] in
/-- `delete_subtrie`: delete the cells of a subtrie and orphan the pages below it. -/
def deleteSubtrie : Nat → Nat → Nat → EngineM Cells Unit
  | 0, _, _ => throw .outOfFuel
  | fuel + 1, p, i =>
    if i = 0 then orphanSubtrie fuel p i
    else do
      let node ← getValue p i
      forChildren node fun
        | .cell c => deleteSubtrie fuel p c
        | .page q => do
          let _ ← getPage q
          orphanSubtrie fuel q 0
      deleteValue p i

end TrieDb.Engine

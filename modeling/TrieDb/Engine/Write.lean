import TrieDb.Engine.Subtrie

/-!
# Writing to the trie

`src/storage/engine/handlers.rs` and `src/storage/engine/write.rs`: a batch of changes, sorted by
path, is applied to the node in a cell of a copied page and from there to its descendants. The
recursion of `set_values_in_cloned_page` is tied at the end, with an explicit bound on its depth;
until then `visit` stands for the recursive call on changes, a path offset, a page and a cell.
Page operations keep the bytes of a page within it by splitting the page, which restarts the
work on that page with the changes not yet handled.
-/

namespace TrieDb.Engine

open Base

/-- A path and its new value, or its deletion. -/
abbrev Change := Nibbles × Option TrieValue

/-- A batch of changes. -/
abbrev Changes := List Change

/-- `PointerChange`. -/
inductive PointerChange where
  | none
  | update (pointer : Pointer)
  | delete
  deriving DecidableEq

/-- `ADDRESS_PATH_LENGTH`. -/
def addressPathLength : Nat := 64

/-- `STORAGE_PATH_LENGTH`. -/
def storagePathLength : Nat := 128

/-- `common_prefix_length`. -/
def commonPrefixLength : Nibbles → Nibbles → Nat
  | a :: as, b :: bs => if a = b then commonPrefixLength as bs + 1 else 0
  | _, _ => 0

/-- The order of paths. -/
def pathLe : Nibbles → Nibbles → Bool
  | [], _ => true
  | _ :: _, [] => false
  | a :: as, b :: bs => decide (a < b) || (decide (a = b) && pathLe as bs)

/-- `find_shortest_common_prefix` on the first and the last change. -/
def findShortestCommonPrefix (first last : Change) (count pathOffset : Nat) (node : Node) :
    Nat × Nat :=
  let leftmost := commonPrefixLength node.pre (first.1.drop pathOffset)
  let rightmost := commonPrefixLength node.pre (last.1.drop pathOffset)
  if leftmost ≤ rightmost then (0, leftmost) else (count - 1, rightmost)

/-- Count changes as handled before those of a failed part. -/
def addHandled {γ α : Type} (handled : Nat) (x : EngineM γ α) : EngineM γ α := fun s ↦
  match x s with
  | .error (.pageSplit processed) s' => .error (.pageSplit (handled + processed)) s'
  | r => r

variable [AlloyTrie]

section
variable (fuel : Nat) (visit : Changes → Nat → Nat → Nat → EngineM Cells PointerChange)

omit [AlloyTrie] in
/-- The retry loop of `set_values_in_page`, with the number of splits still allowed. -/
def retryLoop (pathOffset p : Nat) : Nat → Changes → EngineM Cells PointerChange
  | 0, changes => fun s ↦
    match visit changes pathOffset p 0 s with
    | .error (.pageSplit _) s' => .error (.pageError .pageSplitLimitReached) s'
    | r => r
  | splits + 1, changes => fun s ↦
    match visit changes pathOffset p 0 s with
    | .error (.pageSplit handled) s' => retryLoop pathOffset p splits (changes.drop handled) s'
    | r => r

omit [AlloyTrie] in
/-- `set_values_in_page`. -/
def setValuesInPage (changes : Changes) (pathOffset pageId : Nat) :
    EngineM Cells PointerChange := do
  let p ← getMutClone pageId
  withPage p (retryLoop visit pathOffset p 20 changes)

/-- `split_page` for lack of room, and the restart. -/
def splitAndRestart {α : Type} (p : Nat) : EngineM Cells α := do
  splitPage fuel p
  throw (.pageSplit 0)

/-- `update_node_child`. -/
def updateNodeChild (node : Node) (p i : Nat) (new : Option Pointer) (childIndex : Fin 16) :
    EngineM Cells Node := do
  let node ← liftNode (node.putChild childIndex new)
  setValue p i node
  pure node

/-! ### Branch handlers -/

/-- `handle_missing_parent_branch`. -/
def handleMissingParentBranch (changes : Changes) (pathOffset p i : Nat) (node : Node)
    (commonPrefix : Nibbles) : EngineM Cells PointerChange := do
  let branch ← liftNode (Node.newBranch commonPrefix)
  if (← numFreeBytes p) < branch.size + Cells.cellPointerSize - commonPrefix.length / 2 then
    splitAndRestart fuel p
  else
    match node.pre.drop commonPrefix.length with
    | [] => throw .panic
    | nodeBranchIndex :: rest =>
      let node ← liftNode (node.setPrefix rest)
      setValue p i node
      let new ← nextFreeCellIndex p
      -- the node moves to the new cell, as the two cells are swapped below
      let branch ← liftNode (branch.setChild nodeBranchIndex ⟨.cell new, node.toRlpNode⟩)
      let _ ← insertValue p branch
      swapCellPointers p i new
      visit changes pathOffset p i

/-- What a parent does with the outcome for a child. -/
def applyPointerChange (node : Node) (p i : Nat) (childIndex : Fin 16) :
    PointerChange → EngineM Cells Node
  | .update new => updateNodeChild node p i (some new) childIndex
  | .delete => updateNodeChild node p i none childIndex
  | .none => pure node

/-- Visit a child on the same page or on its own. -/
def visitChild (changes : Changes) (pathOffset p : Nat) : Location → EngineM Cells PointerChange
  | .cell c => visit changes pathOffset p c
  | .page q => setValuesInPage visit changes pathOffset q

/-- `handle_child_node_traversal`; returns the updated node. -/
def handleChildNodeTraversal (changes : Changes) (pathOffset p i : Nat) (node : Node)
    (commonPrefix : Nibbles) (childIndex : Fin 16) : EngineM Cells Node := do
  let offset := pathOffset + commonPrefix.length + 1
  match ← liftNode (node.child childIndex) with
  | some pointer =>
    applyPointerChange node p i childIndex (← visitChild visit changes offset p pointer.location)
  | none =>
    -- deletes before the first value are ignored, as the child does not exist
    match changes.dropWhile fun c ↦ c.2.isNone with
    | (path, some value) :: rest =>
      let new ← liftNode (Node.newLeaf (path.drop offset) value)
      if (← numFreeBytes p) < node.sizeIncrWithNewChild + new.size + Cells.cellPointerSize then
        splitAndRestart fuel p
      else
        let c ← insertValue p new
        let node ← liftNode (node.setChild childIndex ⟨.cell c, new.toRlpNode⟩)
        setValue p i node
        if rest.isEmpty then pure node
        else applyPointerChange node p i childIndex (← visit rest offset p c)
    | _ => pure node

/-- The loop of `handle_branch_node_traversal` over the children; `handled` counts the changes of
the children before. -/
def traverseChildren (pathOffset p i : Nat) (commonPrefix : Nibbles) :
    List (Fin 16) → Changes → Nat → Node → EngineM Cells (Nat × Node)
  | [], _, handled, node => pure (handled, node)
  | j :: js, remaining, handled, node => do
    let isNext : Change → Bool := fun c ↦ c.1[pathOffset + commonPrefix.length]? == some j
    let matching := remaining.takeWhile isNext
    let remaining := remaining.dropWhile isNext
    if matching.isEmpty then
      traverseChildren pathOffset p i commonPrefix js remaining handled node
    else
      let node ← addHandled handled
        (handleChildNodeTraversal fuel visit matching pathOffset p i node commonPrefix j)
      traverseChildren pathOffset p i commonPrefix js remaining (handled + matching.length) node

/-- `merge_with_child_on_same_page`. -/
def mergeWithChildOnSamePage (p i child : Nat) (pathPrefix : Nibbles) :
    EngineM Cells PointerChange := do
  let childNode ← getValue p child
  let childNode ← liftNode (childNode.setPrefix (pathPrefix ++ childNode.pre))
  deleteValue p child
  setValue p i childNode
  pure (.update ⟨nodeLocation p i, childNode.toRlpNode⟩)

/-- Make room on the page of a child for a longer prefix. -/
def ensureRoom (childPage : Nat) : EngineM Cells Unit := do
  if (← numFreeBytes childPage) < 200 then splitPage fuel childPage else pure ()

/-- `merge_with_child_on_different_page`, with the child's page already copied. -/
def mergeWithChildOnDifferentPage (p i childPage : Nat) (pathPrefix : Nibbles) :
    EngineM Cells PointerChange := do
  ensureRoom fuel childPage
  deleteValue p i
  let childNode ← getValue childPage 0
  let childNode ← liftNode (childNode.setPrefix (pathPrefix ++ childNode.pre))
  setValue childPage 0 childNode
  orphanIfRoot p i
  pure (.update ⟨nodeLocation childPage 0, childNode.toRlpNode⟩)

/-- `merge_branch_with_only_child`. -/
def mergeBranchWithOnlyChild (p i : Nat) (node : Node) (index : Fin 16) (pointer : Pointer) :
    EngineM Cells PointerChange := do
  let pathPrefix := node.pre ++ [index]
  match pointer.location with
  | .cell c => mergeWithChildOnSamePage p i c pathPrefix
  | .page q =>
    let childPage ← getMutClone q
    withPage childPage (mergeWithChildOnDifferentPage fuel p i childPage pathPrefix)

/-- `handle_branch_node_cleanup`. -/
def handleBranchNodeCleanup (p i : Nat) (node : Node) : EngineM Cells PointerChange := do
  match ← liftNode node.enumerateChildren with
  | [] =>
    deleteValue p i
    orphanIfRoot p i
    pure .delete
  | [(index, pointer)] => mergeBranchWithOnlyChild fuel p i node index pointer
  | _ => pure (.update ⟨nodeLocation p i, node.toRlpNode⟩)

/-- `handle_branch_node_traversal`. -/
def handleBranchNodeTraversal (changes : Changes) (pathOffset p i : Nat) (node : Node)
    (commonPrefix : Nibbles) : EngineM Cells PointerChange := do
  let (handled, node) ←
    traverseChildren fuel visit pathOffset p i commonPrefix (List.finRange 16) changes 0 node
  if handled = changes.length then handleBranchNodeCleanup fuel p i node else throw .panic

/-! ### Leaf handlers -/

omit [AlloyTrie] in
/-- Give up what is below a node. Only a node that can have children gives up its page; the page of
a storage leaf in its first cell is recorded as stray. -/
def giveUp (p i : Nat) (node : Node) : EngineM Cells Unit :=
  if node.hasChildren then deleteSubtrie fuel p i
  else if i = 0 then modify fun s ↦ { s with strayPages := p :: s.strayPages }
  else pure ()

omit [AlloyTrie] in
/-- The deleting part of `handle_exact_prefix_match`. -/
def deleteNode (changes : Changes) (p i : Nat) (node : Node) : EngineM Cells PointerChange := do
  giveUp fuel p i node
  deleteValue p i
  if changes.length = 1 then pure .delete else throw .panic

/-- The writing part of `handle_exact_prefix_match`. -/
def replaceNode (rest : Changes) (pathOffset p i : Nat) (node : Node) (path : Nibbles)
    (value : TrieValue) : EngineM Cells PointerChange := do
  let new ← liftNode (Node.newLeaf path value)
  let new ← match if node.hasChildren then node.directChild else .ok none with
    | .ok (some child) => liftNode (new.setChild 0 child)
    | .ok none => pure new
    | .error e => throw (.nodeError e)
  if (← numFreeBytes p) < new.size - node.size then
    splitAndRestart fuel p
  else
    setValue p i new
    let updated : PointerChange := .update ⟨nodeLocation p i, new.toRlpNode⟩
    if rest.isEmpty then pure updated
    else match ← visit rest pathOffset p i with
      | .update pointer => pure (.update pointer)
      | .none => pure updated
      | .delete => throw .panic

/-- `handle_exact_prefix_match`. -/
def handleExactPrefixMatch (changes : Changes) (pathOffset p i : Nat) (node : Node)
    (path : Nibbles) : Option TrieValue → EngineM Cells PointerChange
  | none => deleteNode fuel changes p i node
  | some value => do
    let rest := changes.drop 1
    -- the stored value includes the storage root
    if (← liftNode node.value) = value then
      if rest.isEmpty then pure .none else visit rest pathOffset p i
    else replaceNode fuel visit rest pathOffset p i node path value

/-- `create_first_storage_node`. -/
def createFirstStorageNode (changes : Changes) (pathOffset p i : Nat) (node : Node)
    (commonPrefix : Nibbles) : EngineM Cells PointerChange :=
  match changes with
  | [] => pure .none
  | (_, none) :: rest => visit rest pathOffset p i
  | (path, some value) :: rest => do
    let new ← liftNode (Node.newLeaf (path.drop (pathOffset + commonPrefix.length)) value)
    if (← numFreeBytes p) < node.sizeIncrWithNewChild + new.size + Cells.cellPointerSize then
      splitAndRestart fuel p
    else
      let c ← insertValue p new
      let node ← liftNode (node.setChild 0 ⟨.cell c, new.toRlpNode⟩)
      setValue p i node
      if rest.isEmpty then pure (.update ⟨nodeLocation p i, node.toRlpNode⟩)
      else visit rest pathOffset p i

/-- `handle_account_node_traversal`. -/
def handleAccountNodeTraversal (changes : Changes) (pathOffset p i : Nat) (node : Node)
    (commonPrefix : Nibbles) : EngineM Cells PointerChange := do
  match ← liftNode node.directChild with
  | some pointer =>
    match ← visitChild visit changes (pathOffset + commonPrefix.length) p pointer.location with
    | .none => pure .none
    | change =>
      let node ← applyPointerChange node p i 0 change
      pure (.update ⟨nodeLocation p i, node.toRlpNode⟩)
  | none => createFirstStorageNode fuel visit changes pathOffset p i node commonPrefix

/-! ### The recursion -/

/-- The body of `set_values_in_cloned_page`. -/
def visitNode (changes : Changes) (pathOffset p i : Nat) : EngineM Cells PointerChange :=
  match changes with
  | [] => pure .none
  | first :: others => do
    let node ← getValue p i
    let last := others.getLastD first
    let (idx, length) := findShortestCommonPrefix first last changes.length pathOffset node
    let (fullPath, value) := if idx = 0 then first else last
    let path := fullPath.drop pathOffset
    let commonPrefix := path.take length
    if commonPrefix.length < node.pre.length then
      match value with
      | none =>
        let left := changes.take idx
        let right := changes.drop (idx + 1)
        if right.isEmpty then visit left pathOffset p i
        else if left.isEmpty then visit right pathOffset p i
        else throw .panic
      | some _ =>
        handleMissingParentBranch fuel visit changes pathOffset p i node commonPrefix
    else if commonPrefix.length = path.length then
      if idx = 0 then handleExactPrefixMatch fuel visit changes pathOffset p i node path value
      else throw .panic
    else if node.isAccountLeaf then
      handleAccountNodeTraversal fuel visit changes pathOffset p i node commonPrefix
    else if node.isBranch then
      handleBranchNodeTraversal fuel visit changes pathOffset p i node commonPrefix
    else throw .panic

end

/-- `set_values_in_cloned_page`. -/
def setValuesInClonedPage : Nat → Changes → Nat → Nat → Nat → EngineM Cells PointerChange
  | 0 => fun _ _ _ _ ↦ throw .outOfFuel
  | fuel + 1 => visitNode fuel (setValuesInClonedPage fuel)

/-- `initialize_empty_trie`. -/
def initializeEmptyTrie (path : Nibbles) (value : TrieValue) (p : Nat) :
    EngineM Cells Pointer := do
  let new ← liftNode (Node.newLeaf path value)
  let i ← insertValue p new
  if i = 0 then pure ⟨.page p, new.toRlpNode⟩ else throw .panic

/-- `as_hash().unwrap()`. -/
def rootHash (rlp : RlpNode) : EngineM Cells B256 :=
  match rlp.asHash with
  | some h => pure h
  | none => throw .panic

/-- Make a pointer the root of the context. -/
def setRoot (pointer : Pointer) : EngineM Cells Unit := do
  let hash ← rootHash pointer.rlp
  let page := match pointer.location with
    | .page p => some p
    | .cell _ => none
  modify fun s ↦
    { s with context := { s.context with rootNodePageId := page, rootNodeHash := hash } }

/-- Forget the locations of the accounts with storage changes. -/
def invalidateCache (changes : Changes) (ctx : TransactionContext) : TransactionContext :=
  { ctx with contractAccountLocCache := fun address ↦
      if changes.any fun c ↦ c.1.length = storagePathLength ∧ c.1.take addressPathLength = address
      then none else ctx.contractAccountLocCache address }

/-- The first value of an empty trie; returns the other changes. -/
def setFirstValue (changes : Changes) : EngineM Cells Changes := do
  let p ← allocatePage
  withPage p <| match changes with
    | (path, some value) :: rest => do
      setRoot (← initializeEmptyTrie path value p)
      pure rest
    | _ => throw .panic

/-- Apply sorted changes to a trie that has a root. -/
def setValuesAtRoot (fuel : Nat) (changes : Changes) : EngineM Cells Unit := do
  modify fun s ↦ { s with context := invalidateCache changes s.context }
  match (← get).context.rootNodePageId with
  | none => throw .panic
  | some root =>
    match ← setValuesInPage (setValuesInClonedPage fuel) changes 0 root with
    | .update pointer => setRoot pointer
    | .delete =>
      modify fun s ↦ { s with
        context := { s.context with rootNodePageId := none, rootNodeHash := emptyRootHash } }
    | .none => pure ()

/-- `set_values`. -/
def setValues (fuel : Nat) (changes : Changes) : EngineM Cells Unit := do
  let sorted := changes.insertionSort fun a b ↦ pathLe a.1 b.1
  match (← get).context.rootNodePageId with
  | none =>
    let rest ← setFirstValue sorted
    if rest.isEmpty then pure () else setValuesAtRoot fuel rest
  | some _ => setValuesAtRoot fuel sorted

end TrieDb.Engine

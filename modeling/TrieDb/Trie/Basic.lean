import TrieDb.Engine.Write

/-!
# Tries

The trie a set of pages stands for, without the pages. Every node carries the reference by which
it is embedded in its parent, or in the context, which need not be the one its contents have, and a
tag whose type is left open. A node has 16 places for children; an account leaf has its storage
trie in place 0 and a storage leaf has none.
-/

namespace TrieDb

/-- What the program keeps of an account besides its storage. -/
structure AccountInfo where
  nonce : BitVec 64
  balance : U256
  codeHash : B256
  deriving DecidableEq

/-- The value at a path: an account or the value of a storage slot. -/
inductive Entry where
  | account (info : AccountInfo)
  | slot (value : U256)
  deriving DecidableEq

/-- The part of a value that a leaf keeps. -/
def TrieValue.entry : TrieValue → Entry
  | .account a => .account ⟨a.nonce, a.balance, a.codeHash⟩
  | .storage v => .slot v

/-- A leaf with its value, or a branch. -/
inductive Kind where
  | leaf (entry : Entry)
  | branch
  deriving DecidableEq

namespace Kind

/-- The node of a kind with given children. -/
def node (pre : Nibbles) (pointers : Fin 16 → Option Pointer) : Kind → Node
  | leaf (.account info) =>
    ⟨pre, .accountLeaf info.nonce info.balance info.codeHash (pointers 0)⟩
  | leaf (.slot v) => ⟨pre, .storageLeaf v⟩
  | branch => ⟨pre, .branch pointers⟩

/-- The reference to a node of a kind whose children have the given references. -/
def rlp [AlloyTrie] (pre : Nibbles) (refs : Fin 16 → Option RlpNode) (k : Kind) : RlpNode :=
  (k.node pre fun i ↦ (refs i).map (Pointer.mk (.cell 0))).toRlpNode

/-- Whether a node of the kind may have a child in a place. -/
def allows (k : Kind) (i : Fin 16) : Bool :=
  match k with
  | leaf (.account _) => i = 0
  | leaf (.slot _) => false
  | branch => true

/-- A node has the prefix it is made with. -/
@[simp] theorem pre_node (k : Kind) (pre : Nibbles) (pointers : Fin 16 → Option Pointer) :
    (k.node pre pointers).pre = pre := by
  rcases k with (_ | _) | _ <;> rfl

/-- Encodings only depend on the references of the children. -/
theorem toRlpNode_node [AlloyTrie] (k : Kind) (pre : Nibbles)
    (pointers : Fin 16 → Option Pointer) :
    (k.node pre pointers).toRlpNode = k.rlp pre fun i ↦ (pointers i).map Pointer.rlp := by
  have hroot : Node.storageRootHash (pointers 0) =
      Node.storageRootHash (((pointers 0).map Pointer.rlp).map (Pointer.mk (.cell 0))) := by
    cases pointers 0 <;> rfl
  have hrefs (p : Option Pointer) :
      ((p.map Pointer.rlp).map (Pointer.mk (.cell 0))).map Pointer.rlp = p.map Pointer.rlp := by
    cases p <;> rfl
  rcases k with (info | v) | _
  · simp only [rlp, node, Node.toRlpNode, Node.rlpEncode, hroot]
  · rfl
  · simp only [rlp, node, Node.toRlpNode, Node.rlpEncode, hrefs]
    rfl

end Kind

/-- A trie whose nodes carry tags. -/
inductive Trie (α : Type) where
  | empty
  | node (tag : α) (ref : RlpNode) (pre : Nibbles) (kind : Kind) (children : Fin 16 → Trie α)

namespace Trie

variable {α β : Type}

/-- Whether the trie has a root. -/
def isEmpty : Trie α → Bool
  | empty => true
  | node .. => false

/-- The reference by which the root is embedded. -/
def ref? : Trie α → Option RlpNode
  | empty => none
  | node _ ref _ _ _ => some ref

/-- The tag of the root. -/
def tag? : Trie α → Option α
  | empty => none
  | node tag _ _ _ _ => some tag

/-- Embed the root by another reference. -/
def withRef (ref : RlpNode) : Trie α → Trie α
  | empty => empty
  | node tag _ pre kind ch => node tag ref pre kind ch

/-- Give the root another tag. -/
def withTag (tag : α) : Trie α → Trie α
  | empty => empty
  | node _ ref pre kind ch => node tag ref pre kind ch

/-- Change the tags. -/
def map (f : α → β) : Trie α → Trie β
  | empty => empty
  | node tag ref pre kind ch => node (f tag) ref pre kind fun i ↦ (ch i).map f

/-- The tags of all nodes. -/
def tags : Trie α → List α
  | empty => []
  | node tag _ _ _ ch => tag :: (List.finRange 16).flatMap fun i ↦ (ch i).tags

/-- What a node of a kind has at a path below its prefix. -/
def lookupBelow (kind : Kind) (children : Fin 16 → Nibbles → Option Entry) :
    Nibbles → Option Entry
  | [] =>
    match kind with
    | .leaf e => some e
    | .branch => none
  | i :: rest =>
    match kind with
    | .leaf (.account _) => children 0 (i :: rest)
    | .leaf (.slot _) => none
    | .branch => children i rest

/-- The value at a path. -/
def lookup : Trie α → Nibbles → Option Entry
  | empty => fun _ ↦ none
  | node _ _ pre kind ch => fun path ↦
    if pre <+: path then lookupBelow kind (fun i ↦ (ch i).lookup) (path.drop pre.length) else none

section
variable [AlloyTrie]

/-- The reference the contents of the root have. -/
def rlp : Trie α → Option RlpNode
  | empty => none
  | node _ _ pre kind ch => some (kind.rlp pre fun i ↦ (ch i).ref?)

/-- A node embedded by the reference its contents have. -/
def fresh (tag : α) (pre : Nibbles) (kind : Kind) (ch : Fin 16 → Trie α) : Trie α :=
  node tag (kind.rlp pre fun i ↦ (ch i).ref?) pre kind ch

/-- A new leaf. -/
def leaf (tag : α) (pre : Nibbles) (e : Entry) : Trie α := fresh tag pre (.leaf e) fun _ ↦ empty

/-- The value in the root, with the storage root of an account. -/
def value? : Trie α → Option TrieValue
  | node _ _ _ (.leaf (.account info)) ch =>
    some (.account ⟨info.nonce, info.balance,
      ((ch 0).ref?.bind RlpNode.asHash).getD emptyRootHash, info.codeHash⟩)
  | node _ _ _ (.leaf (.slot v)) _ => some (.storage v)
  | _ => none

end

/-! ### Equations -/

/-- The empty trie holds nothing. -/
@[simp] theorem lookup_empty (path : Nibbles) : (empty : Trie α).lookup path = none := rfl

/-- What it means not to be empty. -/
@[simp] theorem isEmpty_eq_false {t : Trie α} : t.isEmpty = false ↔ t ≠ empty := by
  cases t <;> simp [isEmpty]

/-- New tags keep the reference. -/
@[simp] theorem ref?_map (f : α → β) (t : Trie α) : (t.map f).ref? = t.ref? := by
  cases t <;> rfl

/-- New tags make no trie empty. -/
@[simp] theorem isEmpty_map (f : α → β) (t : Trie α) : (t.map f).isEmpty = t.isEmpty := by
  cases t <;> rfl

/-- Only the empty trie is empty with new tags. -/
@[simp] theorem map_eq_empty {f : α → β} {t : Trie α} : t.map f = empty ↔ t = empty := by
  cases t <;> simp [map]

/-- Tags replaced twice. -/
theorem map_map {γ : Type} (f : α → β) (g : β → γ) (t : Trie α) :
    (t.map f).map g = t.map (g ∘ f) := by
  induction t with
  | empty => rfl
  | node tag ref pre kind ch ih => simp only [map, Function.comp_apply, ih]

/-- New tags keep the contents. -/
@[simp] theorem lookup_map (f : α → β) (t : Trie α) (path : Nibbles) :
    (t.map f).lookup path = t.lookup path := by
  induction t generalizing path with
  | empty => rfl
  | node tag ref pre kind ch ih =>
    simp only [map, lookup, funext (ih _)]

/-- A new reference keeps the contents. -/
@[simp] theorem lookup_withRef (ref : RlpNode) (t : Trie α) (path : Nibbles) :
    (t.withRef ref).lookup path = t.lookup path := by
  cases t <;> rfl

/-- A new tag keeps the contents. -/
@[simp] theorem lookup_withTag (tag : α) (t : Trie α) (path : Nibbles) :
    (t.withTag tag).lookup path = t.lookup path := by
  cases t <;> rfl

/-- Outside its prefix a node has no values. -/
theorem lookup_outside {tag : α} {ref : RlpNode} {pre path : Nibbles} {kind : Kind}
    {ch : Fin 16 → Trie α}
    (h : ¬ pre <+: path) : (node tag ref pre kind ch).lookup path = none := by
  simp [lookup, h]

/-- A leaf holds its entry at its prefix. -/
@[simp] theorem lookup_leaf_self (tag : α) (ref : RlpNode) (pre : Nibbles) (e : Entry)
    (ch : Fin 16 → Trie α) : (node tag ref pre (.leaf e) ch).lookup pre = some e := by
  simp [lookup, lookupBelow]

/-- A branch holds nothing at its prefix. -/
@[simp] theorem lookup_branch_self (tag : α) (ref : RlpNode) (pre : Nibbles)
    (ch : Fin 16 → Trie α) : (node tag ref pre .branch ch).lookup pre = none := by
  simp [lookup, lookupBelow]

/-- Behind its prefix a branch holds what its children do. -/
@[simp] theorem lookup_branch_append (tag : α) (ref : RlpNode) (pre rest : Nibbles) (i : Fin 16)
    (ch : Fin 16 → Trie α) :
    (node tag ref pre .branch ch).lookup (pre ++ i :: rest) = (ch i).lookup rest := by
  simp [lookup, lookupBelow]

/-- Behind its prefix an account holds what its storage does. -/
@[simp] theorem lookup_account_append (tag : α) (ref : RlpNode) (pre rest : Nibbles) (i : Fin 16)
    (info : AccountInfo) (ch : Fin 16 → Trie α) :
    (node tag ref pre (.leaf (.account info)) ch).lookup (pre ++ i :: rest) =
      (ch 0).lookup (i :: rest) := by
  simp [lookup, lookupBelow]

/-- Behind its prefix a slot holds nothing. -/
@[simp] theorem lookup_slot_append (tag : α) (ref : RlpNode) (pre rest : Nibbles) (i : Fin 16)
    (v : U256) (ch : Fin 16 → Trie α) :
    (node tag ref pre (.leaf (.slot v)) ch).lookup (pre ++ i :: rest) = none := by
  simp [lookup, lookupBelow]

end Trie

end TrieDb

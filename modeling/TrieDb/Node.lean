import Mathlib.Data.Fintype.Pi
import TrieDb.Alloy.Primitives

/-!
# Trie nodes

`src/node.rs`, `src/pointer.rs`, `src/location.rs` and `src/account.rs`. The fields a leaf keeps as
RLP (`nonce_rlp`, `balance_rlp`, `value_rlp`) are kept decoded, since every leaf is built from the
integers; sizes and encodings use their RLP. A location is a page or a cell of the same page.
-/

namespace TrieDb

/-- `Location`: the root of a page, or a cell on the page of the pointer. -/
inductive Location where
  | page (id : Nat)
  | cell (index : Nat)
  deriving DecidableEq

/-- `Pointer`: where a child is and how its parent embeds it. -/
structure Pointer where
  location : Location
  rlp : RlpNode
  deriving DecidableEq

/-- `Account`. -/
structure Account where
  nonce : BitVec 64
  balance : U256
  storageRoot : B256
  codeHash : B256
  deriving DecidableEq

/-- `TrieValue`. -/
inductive TrieValue where
  | account (a : Account)
  | storage (v : U256)
  deriving DecidableEq

/-- `NodeKind`. -/
inductive NodeKind where
  | accountLeaf (nonce : BitVec 64) (balance : U256) (codeHash : B256)
      (storageRoot : Option Pointer)
  | storageLeaf (value : U256)
  | branch (children : Fin 16 → Option Pointer)
  deriving DecidableEq

/-- `Node`. -/
structure Node where
  pre : Nibbles
  kind : NodeKind
  deriving DecidableEq

/-- `NodeError`. -/
inductive NodeError where
  | childrenUnsupported
  | maxPrefixLengthExceeded
  | noValue
  deriving DecidableEq

/-- `MAX_PREFIX_LENGTH`. -/
def maxPrefixLength : Nat := 64

namespace Node

/-- `Node::new_leaf`; the storage root of the account is not kept. -/
def newLeaf (path : Nibbles) (value : TrieValue) : Except NodeError Node :=
  if maxPrefixLength < path.length then .error .maxPrefixLengthExceeded
  else match value with
    | .account a => .ok ⟨path, .accountLeaf a.nonce a.balance a.codeHash none⟩
    | .storage v => .ok ⟨path, .storageLeaf v⟩

/-- `Node::new_branch`. -/
def newBranch (path : Nibbles) : Except NodeError Node :=
  if maxPrefixLength < path.length then .error .maxPrefixLengthExceeded
  else .ok ⟨path, .branch fun _ ↦ none⟩

/-- `set_prefix`. -/
def setPrefix (n : Node) (path : Nibbles) : Except NodeError Node :=
  if maxPrefixLength < path.length then .error .maxPrefixLengthExceeded
  else .ok { n with pre := path }

/-- `has_children`: whether the node type supports children. -/
def hasChildren (n : Node) : Bool :=
  match n.kind with
  | .storageLeaf _ => false
  | _ => true

/-- `is_account_leaf`. -/
def isAccountLeaf (n : Node) : Bool :=
  match n.kind with
  | .accountLeaf .. => true
  | _ => false

/-- `is_branch`. -/
def isBranch (n : Node) : Bool :=
  match n.kind with
  | .branch _ => true
  | _ => false

/-- The child in each place; an account leaf has its storage root in place 0. -/
def childAt (n : Node) (i : Fin 16) : Option Pointer :=
  match n.kind with
  | .accountLeaf _ _ _ root => if i = 0 then root else none
  | .storageLeaf _ => none
  | .branch children => children i

/-- `enumerate_children`. -/
def enumerateChildren (n : Node) : Except NodeError (List (Fin 16 × Pointer)) :=
  if n.hasChildren then
    .ok ((List.finRange 16).filterMap fun i ↦ (n.childAt i).map (i, ·))
  else .error .childrenUnsupported

/-- `child`. -/
def child (n : Node) (i : Fin 16) : Except NodeError (Option Pointer) :=
  match n.kind with
  | .branch children => .ok (children i)
  | _ => .error .childrenUnsupported

/-- `direct_child`. -/
def directChild (n : Node) : Except NodeError (Option Pointer) :=
  match n.kind with
  | .accountLeaf _ _ _ root => .ok root
  | _ => .error .childrenUnsupported

/-- `set_child` and `remove_child`; an account leaf ignores the index. -/
def putChild (n : Node) (i : Fin 16) (p : Option Pointer) : Except NodeError Node :=
  match n.kind with
  | .accountLeaf nonce balance codeHash _ =>
    .ok { n with kind := .accountLeaf nonce balance codeHash p }
  | .branch children => .ok { n with kind := .branch (Function.update children i p) }
  | .storageLeaf _ => .error .childrenUnsupported

/-- `set_child`. -/
def setChild (n : Node) (i : Fin 16) (p : Pointer) : Except NodeError Node := n.putChild i (some p)

/-! ### Sizes -/

/-- `children_slot_size`: room for 2, 4, 8 or 16 children. -/
def slotSize (totalChildren : Nat) : Nat :=
  if totalChildren ≤ 2 then 2
  else if totalChildren ≤ 4 then 4
  else if totalChildren ≤ 8 then 8
  else 16

/-- The number of children of a branch. -/
def countChildren (children : Fin 16 → Option Pointer) : Nat :=
  (List.finRange 16).countP fun i ↦ (children i).isSome

/-- `Value::size`: the number of bytes of the node in a page. -/
def size [AlloyTrie] (n : Node) : Nat :=
  let packedPrefixLength := (n.pre.length + 1) / 2
  match n.kind with
  | .storageLeaf v => 2 + packedPrefixLength + (Rlp.encodeUint v.toNat).length
  | .accountLeaf nonce balance codeHash root =>
    2 + packedPrefixLength + (Rlp.encodeUint balance.toNat).length +
      (Rlp.encodeUint nonce.toNat).length + (if root.isSome then 37 else 0) +
      if codeHash ≠ keccakEmpty then 32 else 0
  | .branch children => 2 + packedPrefixLength + 2 + slotSize (countChildren children) * 37

/-- `size_incr_with_new_child`. -/
def sizeIncrWithNewChild (n : Node) : Nat :=
  match n.kind with
  | .branch children =>
    let total := countChildren children
    (slotSize (min (total + 1) 16) - slotSize total) * 37
  | .accountLeaf _ _ _ root => if root.isNone then 37 else 0
  | .storageLeaf _ => 0

/-! ### Encoding -/

/-- The storage root an account leaf stands for. -/
def storageRootHash [AlloyTrie] (root : Option Pointer) : B256 :=
  (root.bind fun p ↦ p.rlp.asHash).getD emptyRootHash

/-- `value`. -/
def value [AlloyTrie] (n : Node) : Except NodeError TrieValue :=
  match n.kind with
  | .storageLeaf v => .ok (.storage v)
  | .accountLeaf nonce balance codeHash root =>
    .ok (.account ⟨nonce, balance, storageRootHash root, codeHash⟩)
  | .branch _ => .error .noValue

/-- `encode_account_leaf`. -/
def encodeAccountLeaf (nonce : BitVec 64) (balance : U256) (codeHash storageRoot : B256) :
    List UInt8 :=
  let nonceRlp := Rlp.encodeUint nonce.toNat
  let balanceRlp := Rlp.encodeUint balance.toNat
  0xf8 :: UInt8.ofNat (nonceRlp.length + balanceRlp.length + 33 * 2) ::
    (nonceRlp ++ balanceRlp ++ 0xa0 :: storageRoot.toList ++ 0xa0 :: codeHash.toList)

/-- `encode_branch`: the embedded children and an empty value. -/
def encodeBranch (children : Fin 16 → Option RlpNode) : List UInt8 :=
  let payload := ((List.finRange 16).flatMap fun i ↦
    match children i with
    | some rlp => rlp.bytes
    | none => [0x80]) ++ [0x80]
  Rlp.listHeader payload.length ++ payload

/-- `rlp_encode`; a branch with a prefix is an extension node and a branch. -/
def rlpEncode [AlloyTrie] (n : Node) : List UInt8 :=
  match n.kind with
  | .storageLeaf v => AlloyTrie.leafNode n.pre (Rlp.encodeUint v.toNat)
  | .accountLeaf nonce balance codeHash root =>
    AlloyTrie.leafNode n.pre (encodeAccountLeaf nonce balance codeHash (storageRootHash root))
  | .branch children =>
    let branch := encodeBranch fun i ↦ (children i).map Pointer.rlp
    if n.pre.isEmpty then branch else AlloyTrie.extensionNode n.pre (.fromRlp branch)

/-- `to_rlp_node`. -/
def toRlpNode [AlloyTrie] (n : Node) : RlpNode := .fromRlp n.rlpEncode

end Node

/-- What a branch embeds in a place. -/
def embedded : Option RlpNode → List UInt8
  | some rlp => rlp.bytes
  | none => [0x80]

/-- A branch is its children's references and the empty value, behind a list header. -/
theorem encodeBranch_eq (refs : Fin 16 → Option RlpNode) {payload : List UInt8}
    (h : payload = (List.finRange 16).flatMap (fun i ↦ embedded (refs i)) ++ [0x80]) :
    Node.encodeBranch refs = Rlp.listHeader payload.length ++ payload := by
  rw [h]
  rfl

end TrieDb

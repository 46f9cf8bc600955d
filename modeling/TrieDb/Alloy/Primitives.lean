import Mathlib.Algebra.BigOperators.Fin

/-!
# Words, nibbles and embedded RLP nodes

The value types that `alloy_primitives`, `alloy_rlp` and `alloy_trie` supply to the program.
Keccak and the leaf and extension encoders are parameters of the model, collected in the class
`AlloyTrie`; the laws it carries are the lower bounds on encoded lengths that RLP gives.
-/

namespace TrieDb

/-- A 256-bit hash, as its 32 bytes. -/
abbrev B256 := Vector UInt8 32

/-- Account balances and storage values. -/
abbrev U256 := BitVec 256

/-- One hexadecimal digit of a path. -/
abbrev Nibble := Fin 16

instance neZero_nibble : NeZero (16 : Nat) := ⟨by decide⟩

/-- A sequence of nibbles; the observable part of both `Nibbles` and `RawPath`. -/
abbrev Nibbles := List Nibble

/-- The all-zero hash. -/
def B256.zero : B256 := Vector.replicate 32 0

namespace Rlp

/-- Little-endian bytes of a natural number below `256 ^ k`, without trailing zeros. -/
def littleEndian : Nat → Nat → List UInt8
  | 0, _ => []
  | k + 1, n => if n = 0 then [] else UInt8.ofNat (n % 256) :: littleEndian k (n / 256)

/-- Big-endian bytes of a number, without leading zeros. -/
def bigEndian (n : Nat) : List UInt8 := (littleEndian (n.log2 + 1) n).reverse

/-- RLP of an unsigned integer: a single byte below `0x80`, else a length byte and the
big-endian bytes; zero is the empty string. -/
def encodeUint (n : Nat) : List UInt8 :=
  if n = 0 then [0x80]
  else if n < 0x80 then [UInt8.ofNat n]
  else UInt8.ofNat (0x80 + (bigEndian n).length) :: bigEndian n

/-- RLP list header for a payload of the given length. -/
def listHeader (payloadLength : Nat) : List UInt8 :=
  if payloadLength < 56 then [UInt8.ofNat (0xc0 + payloadLength)]
  else UInt8.ofNat (0xf7 + (bigEndian payloadLength).length) :: bigEndian payloadLength

/-- A number has no more bytes than bits. -/
theorem lt_pow_log2 (n : Nat) : n < 256 ^ (n.log2 + 1) :=
  Nat.lt_log2_self.trans_le (Nat.pow_le_pow_left (by decide) _)

private theorem length_littleEndian_le {k m n : Nat} (h : n < 256 ^ k) :
    (littleEndian m n).length ≤ k := by
  induction m generalizing k n with
  | zero => simp [littleEndian]
  | succ m ih =>
    rw [littleEndian]
    split
    · simp
    · next h0 =>
      cases k with
      | zero =>
        rw [Nat.pow_zero] at h
        omega
      | succ k =>
        have hlt : n / 256 < 256 ^ k :=
          Nat.div_lt_of_lt_mul (by rwa [Nat.pow_succ, Nat.mul_comm] at h)
        have := ih hlt
        rw [List.length_cons]
        omega

/-- An integer below `256 ^ k` has at most `k` bytes. -/
theorem length_bigEndian_le {k n : Nat} (h : n < 256 ^ k) : (bigEndian n).length ≤ k := by
  rw [bigEndian, List.length_reverse]
  exact length_littleEndian_le h

/-- Every encoded integer has at least one byte. -/
theorem length_encodeUint_pos (n : Nat) : 0 < (encodeUint n).length := by
  unfold encodeUint
  split
  · simp
  · split <;> simp

/-- An integer below `256 ^ k` takes at most `k` bytes behind its header. -/
theorem length_encodeUint_le {k n : Nat} (h : n < 256 ^ k) :
    (encodeUint n).length ≤ k + 1 := by
  have hle := length_bigEndian_le h
  unfold encodeUint
  split
  · simp
  · split
    · simp
    · rw [List.length_cons]
      omega

/-- Every list header has at least one byte. -/
theorem length_listHeader_pos (n : Nat) : 0 < (listHeader n).length := by
  unfold listHeader
  split <;> simp

end Rlp

/-- An RLP-encoded node as a parent refers to it: the encoding itself when it is shorter than
32 bytes, else its hash. -/
inductive RlpNode where
  | raw (bytes : List UInt8)
  | hash (value : B256)
  deriving DecidableEq

namespace RlpNode

/-- The bytes a parent embeds for the node. -/
def bytes : RlpNode → List UInt8
  | raw bs => bs
  | hash h => 0xa0 :: h.toList

/-- Number of bytes a parent embeds for the node. -/
def len (r : RlpNode) : Nat := r.bytes.length

/-- The hash, when the node is referenced by hash. -/
def asHash : RlpNode → Option B256
  | raw _ => none
  | hash h => some h

end RlpNode

/-- Keccak and the leaf and extension encoders of `alloy_trie`, with the RLP length bounds on
which the program relies when it takes a root node to be referenced by hash. -/
class AlloyTrie where
  keccak256 : List UInt8 → B256
  /-- `LeafNodeRef { key, value }.encode`. -/
  leafNode : Nibbles → List UInt8 → List UInt8
  /-- `ExtensionNodeRef { key, child }.encode`. -/
  extensionNode : Nibbles → RlpNode → List UInt8
  /-- A list header, the packed path of `key.length / 2 + 1` bytes, and the value as a string. -/
  length_leafNode : ∀ key value, 0 < value.length →
    key.length / 2 + 3 ≤ (leafNode key value).length
  /-- A list header, the packed path and the child reference. -/
  length_extensionNode : ∀ key child,
    key.length / 2 + 2 + child.len ≤ (extensionNode key child).length

/-- `RlpNode::from_rlp`: short encodings are embedded, all others are hashed. -/
def RlpNode.fromRlp [AlloyTrie] (rlp : List UInt8) : RlpNode :=
  if rlp.length < 32 then .raw rlp else .hash (AlloyTrie.keccak256 rlp)

/-- `EMPTY_ROOT_HASH`: the hash of the RLP empty string. -/
def emptyRootHash [AlloyTrie] : B256 := AlloyTrie.keccak256 [0x80]

/-- `KECCAK_EMPTY`: the hash of no bytes, the code hash of an account without code. -/
def keccakEmpty [AlloyTrie] : B256 := AlloyTrie.keccak256 []

end TrieDb

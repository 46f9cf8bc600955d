import TrieDb.Alloy.Primitives

/-!
# Keccak and the node encoders

The functions that `AlloyTrie` stands for, in a form that can be evaluated: Keccak-256 on a state
kept as one number of 1600 bits, and the RLP of leaf and extension nodes with hex-prefix paths.
Runs of the program on given inputs use them; no general result depends on them.
-/

namespace TrieDb

namespace Keccak

/-- Rotation of a lane of 64 bits. -/
def rotl (x n : Nat) : Nat := (x <<< n ||| x >>> (64 - n)) % 2 ^ 64

/-- The rotations of the lanes; lane `x + 5 * y` is in column `x` and row `y`. -/
def offsets : List Nat :=
  [0, 1, 62, 28, 27, 36, 44, 6, 55, 20, 3, 10, 43, 25, 39, 41, 45, 15, 21, 8, 18, 2, 61, 56, 14]

/-- The constants of the 24 rounds. -/
def roundConstants : List Nat :=
  [0x0000000000000001, 0x0000000000008082, 0x800000000000808A, 0x8000000080008000,
   0x000000000000808B, 0x0000000080000001, 0x8000000080008081, 0x8000000000008009,
   0x000000000000008A, 0x0000000000000088, 0x0000000080008009, 0x000000008000000A,
   0x000000008000808B, 0x800000000000008B, 0x8000000000008089, 0x8000000000008003,
   0x8000000000008002, 0x8000000000000080, 0x000000000000800A, 0x800000008000000A,
   0x8000000080008081, 0x8000000000008080, 0x0000000080000001, 0x8000000080008008]

/-- A lane of a state. -/
def lane (s i : Nat) : Nat := s >>> (64 * i) % 2 ^ 64

/-- A state from its lanes. -/
def pack (f : Nat → Nat) : Nat := (List.range 25).foldl (fun acc i ↦ acc ||| f i <<< (64 * i)) 0

/-- The parity of a column. -/
def parity (s x : Nat) : Nat :=
  lane s x ^^^ lane s (x + 5) ^^^ lane s (x + 10) ^^^ lane s (x + 15) ^^^ lane s (x + 20)

def theta (s : Nat) : Nat :=
  pack fun i ↦ lane s i ^^^ parity s ((i + 4) % 5) ^^^ rotl (parity s ((i + 1) % 5)) 1

/-- Rotate the lanes and permute them: lane `(x, y)` moves to `(y, 2 * x + 3 * y)`. -/
def rhoPi (s : Nat) : Nat :=
  pack fun j ↦
    let i := (j % 5 + 3 * (j / 5)) % 5 + 5 * (j % 5)
    rotl (lane s i) (offsets.getD i 0)

def chi (s : Nat) : Nat :=
  pack fun i ↦
    let row := i / 5 * 5
    lane s i ^^^ ((2 ^ 64 - 1 - lane s ((i + 1) % 5 + row)) &&& lane s ((i + 2) % 5 + row))

def permutation (s : Nat) : Nat :=
  roundConstants.foldl (fun s constant ↦ chi (rhoPi (theta s)) ^^^ constant) s

/-- The number with the given bytes, the least significant one first. -/
def ofBytes (bytes : List UInt8) : Nat := bytes.foldr (fun b n ↦ b.toNat + 256 * n) 0

/-- Absorb blocks of 136 bytes. -/
def absorb : Nat → Nat → List UInt8 → Nat
  | 0, s, _ => s
  | blocks + 1, s, bytes =>
    absorb blocks (permutation (s ^^^ ofBytes (bytes.take 136))) (bytes.drop 136)

/-- The padding to a whole number of blocks. -/
def pad (bytes : List UInt8) : List UInt8 :=
  let missing := 136 - bytes.length % 136
  if missing = 1 then bytes ++ [0x81]
  else bytes ++ 0x01 :: List.replicate (missing - 2) 0 ++ [0x80]

/-- Keccak-256. -/
def digest (bytes : List UInt8) : B256 :=
  let s := absorb (bytes.length / 136 + 1) 0 (pad bytes)
  Vector.ofFn fun i : Fin 32 ↦ UInt8.ofNat (s >>> (8 * i.val))

end Keccak

namespace Rlp

/-- RLP of a byte string. -/
def encodeBytes (bytes : List UInt8) : List UInt8 :=
  if bytes.length = 1 ∧ bytes.headD 0 < 0x80 then bytes
  else if bytes.length < 56 then UInt8.ofNat (0x80 + bytes.length) :: bytes
  else UInt8.ofNat (0xb7 + (bigEndian bytes.length).length) :: bigEndian bytes.length ++ bytes

/-- Two nibbles in each byte. -/
def packNibbles : Nibbles → List UInt8
  | a :: b :: rest => UInt8.ofNat (a * 16 + b) :: packNibbles rest
  | _ => []

/-- The hex-prefix encoding of a path. -/
def hexPrefix (isLeaf : Bool) (path : Nibbles) : List UInt8 :=
  let flag := if isLeaf then 0x20 else 0x00
  if path.length % 2 = 0 then UInt8.ofNat flag :: packNibbles path
  else UInt8.ofNat (flag + 0x10 + path.headD 0) :: packNibbles path.tail

/-- A list with a given payload. -/
def encodeList (payload : List UInt8) : List UInt8 := listHeader payload.length ++ payload

private theorem length_packNibbles (path : Nibbles) :
    (packNibbles path).length = path.length / 2 := by
  fun_induction packNibbles path with
  | case1 a b rest ih =>
    simp only [List.length_cons, ih]
    omega
  | case2 path h =>
    rcases path with _ | ⟨a, _ | ⟨b, rest⟩⟩
    · rfl
    · simp
    · exact absurd rfl (h a b rest)

/-- The packed path has one byte more than half as many nibbles. -/
theorem length_hexPrefix (isLeaf : Bool) (path : Nibbles) :
    (hexPrefix isLeaf path).length = path.length / 2 + 1 := by
  unfold hexPrefix
  by_cases h : path.length % 2 = 0
  · simp [h, length_packNibbles]
  · simp only [h, if_false, List.length_cons, length_packNibbles, List.length_tail]
    omega

/-- A string takes its bytes, and a header unless it is one byte. -/
theorem length_encodeBytes (bytes : List UInt8) :
    bytes.length + (if bytes.length = 1 then 0 else 1) ≤ (encodeBytes bytes).length := by
  unfold encodeBytes
  by_cases h : bytes.length = 1 ∧ bytes.headD 0 < 0x80
  · rw [if_pos h, if_pos h.1]
    omega
  · rw [if_neg h]
    by_cases h' : bytes.length < 56
    · rw [if_pos h', List.length_cons]
      split <;> omega
    · rw [if_neg h', List.length_append, List.length_cons]
      split <;> omega

/-- A string of fewer than `256 ^ k` bytes has a header of at most `k + 1` bytes. -/
theorem length_encodeBytes_le {k : Nat} {bytes : List UInt8} (h : bytes.length < 256 ^ k) :
    (encodeBytes bytes).length ≤ bytes.length + k + 1 := by
  have hle := length_bigEndian_le h
  unfold encodeBytes
  split
  · omega
  · split
    · rw [List.length_cons]
      omega
    · simp only [List.length_append, List.length_cons]
      omega

end Rlp

/-- Keccak-256 and the encoders of `alloy_trie`. -/
instance alloyTrie : AlloyTrie where
  keccak256 := Keccak.digest
  leafNode key value :=
    Rlp.encodeList (Rlp.encodeBytes (Rlp.hexPrefix true key) ++ Rlp.encodeBytes value)
  extensionNode key child :=
    Rlp.encodeList (Rlp.encodeBytes (Rlp.hexPrefix false key) ++ child.bytes)
  length_leafNode key value hv := by
    have hpath := Rlp.length_encodeBytes (Rlp.hexPrefix true key)
    have hvalue := Rlp.length_encodeBytes value
    have hheader := Rlp.length_listHeader_pos
      (Rlp.encodeBytes (Rlp.hexPrefix true key) ++ Rlp.encodeBytes value).length
    rw [Rlp.length_hexPrefix] at hpath
    simp only [Rlp.encodeList, List.length_append] at hheader ⊢
    split at hpath <;> split at hvalue <;> omega
  length_extensionNode key child := by
    have hpath := Rlp.length_encodeBytes (Rlp.hexPrefix false key)
    have hheader := Rlp.length_listHeader_pos
      (Rlp.encodeBytes (Rlp.hexPrefix false key) ++ child.bytes).length
    rw [Rlp.length_hexPrefix] at hpath
    simp only [Rlp.encodeList, List.length_append, RlpNode.len] at hheader ⊢
    split at hpath <;> omega

/-- The root of the empty trie. -/
example : emptyRootHash.toList.take 4 = [0x56, 0xe8, 0x1f, 0x17] := by decide +kernel

end TrieDb

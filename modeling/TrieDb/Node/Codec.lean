import TrieDb.Base.Buffer
import TrieDb.Node

/-!
# Nodes and pointers as bytes

`Value for Node` (`src/node.rs:332–554`) and `Value for Pointer` (`src/pointer.rs:54–121`): the
bytes of a node in a page and how they are read back. Here a leaf keeps its fields as RLP and a
location is its 32-bit number, as in the source. `pack_to` of alloy's `Nibbles` packs two nibbles to
a byte, a last odd one into the high half; an `RlpNode` is a hash if it has 33 bytes.
-/

namespace TrieDb.Codec

open Base

/-- `value::Error`, and a failed slice, `unwrap` or assertion. -/
inductive Error where
  | invalidEncoding
  | panic
  deriving DecidableEq

/-- `Pointer`. -/
structure Pointer where
  location : UInt32
  rlp : List UInt8
  deriving DecidableEq

/-- `NodeKind`. -/
inductive NodeKind where
  | accountLeaf (nonceRlp balanceRlp : List UInt8) (codeHash : B256) (storageRoot : Option Pointer)
  | storageLeaf (valueRlp : List UInt8)
  | branch (children : Fin 16 → Option Pointer)

/-- `Node`. -/
structure Node where
  pre : Nibbles
  kind : NodeKind

/-! ### Reading and writing bytes -/

/-- Writing to the buffer that `serialize_into` is given. -/
abbrev BufferM := EStateM Error (List UInt8)

/-- `buf[start..stop].copy_from_slice(data)`. -/
def copyFromSlice (start stop : Nat) (data : List UInt8) : BufferM Unit := do
  match Buffer.overwrite (← get) start stop data with
  | some buf => set buf
  | none => throw .panic

/-- `buf[index] = byte`. -/
def setByte (index : Nat) (byte : UInt8) : BufferM Unit := copyFromSlice index (index + 1) [byte]

/-- Writing to `buf[start..stop]`. -/
def onSlice {α : Type} (start stop : Nat) (x : BufferM α) : BufferM α := fun buf ↦
  match Buffer.slice buf start stop with
  | none => .error .panic buf
  | some part =>
    match x part with
    | .ok a part => .ok a (buf.take start ++ (part ++ buf.drop stop))
    | .error e part => .error e (buf.take start ++ (part ++ buf.drop stop))

/-- `bytes[start..stop]`. -/
def slice (bytes : List UInt8) (start stop : Nat) : Except Error (List UInt8) :=
  match Buffer.slice bytes start stop with
  | some part => .ok part
  | none => .error .panic

/-- `bytes[index]`. -/
def byteAt (bytes : List UInt8) (index : Nat) : Except Error UInt8 :=
  match bytes[index]? with
  | some byte => .ok byte
  | none => .error .panic

/-- `u32::to_be_bytes`. -/
def toBeBytes (n : UInt32) : List UInt8 :=
  [UInt8.ofNat (n.toNat / 2 ^ 24), UInt8.ofNat (n.toNat / 2 ^ 16), UInt8.ofNat (n.toNat / 2 ^ 8),
    UInt8.ofNat n.toNat]

/-- `u32::from_be_bytes`. -/
def fromBeBytes (bytes : List UInt8) : UInt32 :=
  UInt32.ofNat (bytes.foldl (fun n b ↦ n * 256 + b.toNat) 0)

/-- `Nibbles::pack_to`. -/
def packTo : Nibbles → List UInt8
  | [] => []
  | [a] => [UInt8.ofNat (a * 16)]
  | a :: b :: path => UInt8.ofNat (a * 16 + b) :: packTo path

/-- The two nibbles of a byte. -/
def nibblesOf (byte : UInt8) : Nibbles :=
  [⟨byte.toNat / 16, by have := byte.toNat_lt; omega⟩, ⟨byte.toNat % 16, by omega⟩]

/-- `RawPath::unpack`; a path has at most 128 nibbles. -/
def unpack (bytes : List UInt8) : Except Error Nibbles :=
  if 64 < bytes.length then .error .panic else .ok (bytes.flatMap nibblesOf)

/-- `Nibbles::try_from` of a path, unwrapped. -/
def toNibbles (path : Nibbles) : Except Error Nibbles :=
  if path.length ≤ 64 then .ok path else .error .panic

/-! ### Pointers -/

namespace Pointer

/-- `RlpNode::is_hash`. -/
def isHash (p : Pointer) : Bool := p.rlp.length == 33

/-- `From<&Pointer> for [u8; 37]`: the location, a flag, and the hash or the RLP with zeros up to
the end. -/
def toArray (p : Pointer) : List UInt8 :=
  let content := if p.isHash then p.rlp.drop 1 else p.rlp
  let contentLen := min content.length 33
  toBeBytes p.location ++ ((if p.isHash then 1 else 0) :: (content.take contentLen ++
    List.replicate (32 - contentLen) 0))

/-- `Pointer::serialize_into`. -/
def serializeInto (p : Pointer) : BufferM Nat := do
  if (← get).length < 37 then throw .invalidEncoding
  copyFromSlice 0 37 p.toArray
  return 37

/-- The RLP node behind the flag of a pointer. -/
def rlpFromBytes (bytes : List UInt8) : Except Error (List UInt8) := do
  let flags ← byteAt bytes 4
  if flags &&& 1 = 1 then
    -- `RlpNode::word_rlp`
    return 0xa0 :: (← slice bytes 5 37)
  else
    let first ← byteAt bytes 5
    if first < 0x80 then return [first]
    else if first ≤ 0xa0 then slice bytes 5 (6 + (first.toNat - 0x80))
    else if 0xc0 ≤ first ∧ first ≤ 0xdf then slice bytes 5 (6 + (first.toNat - 0xc0))
    else throw .invalidEncoding

/-- `Pointer::from_bytes`. -/
def fromBytes (bytes : List UInt8) : Except Error Pointer := do
  if bytes.length ≠ 37 then throw .invalidEncoding
  let rlp ← rlpFromBytes bytes
  return ⟨fromBeBytes (bytes.take 4), rlp⟩

end Pointer

/-! ### Nodes -/

namespace Node

variable [AlloyTrie]

/-- The number of children of a branch. -/
def countChildren (children : Fin 16 → Option Pointer) : Nat :=
  ((List.ofFn children).filterMap id).length

/-- `Node::size`. -/
def size (n : Node) : Nat :=
  let packedPrefixLength := (n.pre.length + 1) / 2
  match n.kind with
  | .storageLeaf valueRlp => 2 + packedPrefixLength + valueRlp.length
  | .accountLeaf nonceRlp balanceRlp codeHash storageRoot =>
    2 + packedPrefixLength + balanceRlp.length + nonceRlp.length +
      (if storageRoot.isSome then 37 else 0) + (if codeHash ≠ keccakEmpty then 32 else 0)
  | .branch children =>
    2 + packedPrefixLength + 2 + TrieDb.Node.slotSize (countChildren children) * 37

/-- The loop of `serialize_into` over the children of a branch. -/
def serializeChildren : List Pointer → Nat → BufferM Nat
  | [], offset => return offset
  | child :: children, offset => do
    let n ← onSlice offset (offset + 37) child.serializeInto
    serializeChildren children (offset + n)

/-- The bit mask of the children. -/
def childrenBitmask (children : Fin 16 → Option Pointer) : Nat :=
  maskFrom 16 ((List.ofFn children).map Option.isSome) 0

/-- The flags of an account leaf. -/
def accountFlags (codeHash : B256) (storageRoot : Option Pointer) : UInt8 :=
  1 ||| (if storageRoot.isSome then 0b10000000 else 0) |||
    (if codeHash ≠ keccakEmpty then 0b01000000 else 0)

/-- The code hash of an account, which is left out if there is no code; the offset behind it. -/
def writeCodeHash (codeHash : B256) (offset : Nat) : BufferM Nat :=
  if codeHash ≠ keccakEmpty then do
    copyFromSlice offset (offset + 32) codeHash.toList
    return offset + 32
  else return offset

/-- The storage root of an account; the offset behind it. -/
def writeStorageRoot (storageRoot : Option Pointer) (offset : Nat) : BufferM Nat :=
  match storageRoot with
  | some root => do
    let n ← onSlice offset (offset + 37) root.serializeInto
    return offset + n
  | none => return offset

/-- The fields of a node, written to a buffer of the given length. -/
def writeFields (n : Node) (len : Nat) : BufferM Nat := do
  let prefixLength := n.pre.length
  let packed := (prefixLength + 1) / 2
  match n.kind with
  | .storageLeaf valueRlp =>
    setByte 0 0
    setByte 1 (UInt8.ofNat prefixLength)
    copyFromSlice 2 (2 + packed) (packTo n.pre)
    copyFromSlice (2 + packed) len valueRlp
    return 2 + packed + valueRlp.length
  | .accountLeaf nonceRlp balanceRlp codeHash storageRoot =>
    setByte 0 (accountFlags codeHash storageRoot)
    setByte 1 (UInt8.ofNat prefixLength)
    copyFromSlice 2 (2 + packed) (packTo n.pre)
    let offset := 2 + packed
    copyFromSlice offset (offset + nonceRlp.length) nonceRlp
    let offset := offset + nonceRlp.length
    copyFromSlice offset (offset + balanceRlp.length) balanceRlp
    let offset ← writeCodeHash codeHash (offset + balanceRlp.length)
    writeStorageRoot storageRoot offset
  | .branch children =>
    let total := countChildren children
    setByte 0 2
    setByte 1 (UInt8.ofNat prefixLength)
    copyFromSlice 2 (2 + packed) (packTo n.pre)
    let mask := childrenBitmask children
    copyFromSlice (2 + packed) (2 + packed + 2) [UInt8.ofNat (mask / 256), UInt8.ofNat mask]
    let offset ← serializeChildren ((List.ofFn children).filterMap id) (2 + packed + 2)
    let paddingSize := (TrieDb.Node.slotSize total - total) * 37
    copyFromSlice offset (offset + paddingSize) (List.replicate paddingSize 0)
    return offset + paddingSize

/-- `Node::serialize_into`. -/
def serializeInto (n : Node) : BufferM Nat := do
  let len := (← get).length
  if len < n.size then throw .invalidEncoding
  n.writeFields len

/-- The prefix of a node, as a path, and the number of bytes that it takes. -/
def readPrefix (bytes : List UInt8) : Except Error (Nibbles × Nat) := do
  let prefixLength := (← byteAt bytes 1).toNat
  let packed := (prefixLength + 1) / 2
  let path ← unpack (← slice bytes 2 (2 + packed))
  -- the assertion of `truncate`
  if 128 < prefixLength then throw .panic
  return (path.take prefixLength, packed)

/-- An RLP integer of a leaf, read into an `ArrayVec` of the given capacity. -/
def readRlp (bytes : List UInt8) (offset capacity : Nat) : Except Error (List UInt8) := do
  let header ← byteAt bytes offset
  if header ≤ 128 then return [header]
  else
    let rlp ← slice bytes offset (offset + (header.toNat - 128) + 1)
    if capacity < rlp.length then throw .panic
    return rlp

/-- The loop of `from_bytes` over the places of the children, with the number of children before. -/
def readChildren (bytes : List UInt8) (packed mask : Nat) :
    List Nat → Nat → Except Error (List (Option Pointer))
  | [], _ => .ok []
  | i :: places, count =>
    if mask &&& (1 <<< (15 - i)) = 0 then do
      let children ← readChildren bytes packed mask places count
      return none :: children
    else do
      let childOffset := 4 + packed + count * 37
      let child ← Pointer.fromBytes (← slice bytes childOffset (childOffset + 37))
      let children ← readChildren bytes packed mask places (count + 1)
      return some child :: children

/-- The code hash of an account, and the offset behind it. -/
def readCodeHash (bytes : List UInt8) (flags : UInt8) (offset : Nat) :
    Except Error (B256 × Nat) :=
  if flags &&& 0b01000000 ≠ 0 then
    if bytes.length < offset + 32 then .error .invalidEncoding
    else do
      let code ← slice bytes offset (offset + 32)
      -- `B256::from_slice`
      return (Vector.ofFn fun i : Fin 32 ↦ code.getD i 0, offset + 32)
  else .ok (keccakEmpty, offset)

/-- The storage root of an account. -/
def readStorageRoot (bytes : List UInt8) (flags : UInt8) (offset : Nat) :
    Except Error (Option Pointer) :=
  if flags &&& 0b10000000 ≠ 0 then
    if bytes.length < offset + 37 then .error .invalidEncoding
    else do
      let root ← Pointer.fromBytes (← slice bytes offset (offset + 37))
      return some root
  else .ok none

/-- `Node::from_bytes`. -/
def fromBytes (bytes : List UInt8) : Except Error Node := do
  let flags ← byteAt bytes 0
  if flags = 0 then
    let (path, packed) ← readPrefix bytes
    let valueRlp ← readRlp bytes (2 + packed) 33
    return ⟨← toNibbles path, .storageLeaf valueRlp⟩
  else if flags &&& 1 = 1 then
    let (path, packed) ← readPrefix bytes
    let offset := 2 + packed
    let nonceRlp ← readRlp bytes offset 9
    let offset := offset + nonceRlp.length
    let balanceRlp ← readRlp bytes offset 33
    let (codeHash, offset) ← readCodeHash bytes flags (offset + balanceRlp.length)
    let storageRoot ← readStorageRoot bytes flags offset
    return ⟨← toNibbles path, .accountLeaf nonceRlp balanceRlp codeHash storageRoot⟩
  else if flags = 2 then
    let (path, packed) ← readPrefix bytes
    let maskBytes ← slice bytes (2 + packed) (2 + packed + 2)
    let mask := maskBytes.foldl (fun n b ↦ n * 256 + b.toNat) 0
    let children ← readChildren bytes packed mask (List.range 16) 0
    return ⟨← toNibbles path, .branch fun i ↦ (children[i.val]?).join⟩
  else throw .invalidEncoding

end Node

end TrieDb.Codec

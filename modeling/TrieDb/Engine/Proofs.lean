import TrieDb.Alloy.Decode
import TrieDb.Engine.Read
import TrieDb.Node.Codec

/-!
# Reading with a proof

`src/storage/proofs.rs`: the descent to an account, and from an account into its storage, that
collects the encoded nodes on the way. The storage part counts the path from the account on. The
integers of a leaf are kept decoded, so `decode_exact` works on their encodings.
-/

namespace TrieDb.Engine

open Base

/-- The encoded nodes of a proof by the paths at which they start (`BTreeMap<RawPath, Bytes>`). -/
abbrev ProofNodes := Nibbles → Option (List UInt8)

/-- `StorageProof`. -/
structure StorageProof where
  hashedSlot : Nibbles
  value : U256 := 0
  proof : ProofNodes := fun _ ↦ none

/-- `AccountProof`. -/
structure AccountProof where
  hashedAddress : Nibbles
  account : Account := ⟨0, 0, .zero, .zero⟩
  proof : ProofNodes := fun _ ↦ none
  storageProofs : B256 → Option StorageProof := fun _ ↦ none

/-- `B256::from_slice`. -/
def fromSlice (bytes : List UInt8) : EngineM Cells B256 :=
  if h : bytes.length = 32 then pure ⟨bytes.toArray, h⟩ else throw .panic

/-- `lower_64_nibbles`. -/
def lower64Nibbles (path : Nibbles) : Nibbles := path.take 64

/-- A failed `decode_exact`; the cause is left out of the message. -/
def decodeField (size : Nat) (rlp : List UInt8) (message : String) : EngineM Cells Nat :=
  match Rlp.decodeExact size rlp with
  | some n => pure n
  | none => throw (.proofError message)

variable [AlloyTrie]

/-- Add a node at the path where it starts. -/
def insertNode (proof : ProofNodes) (path : Nibbles) (pathOffset : Nat) (node : Node) :
    ProofNodes :=
  Function.update proof (path.take pathOffset) (some node.rlpEncode)

omit [AlloyTrie] in
/-- A branch with a prefix is an extension node and a branch; the branch is added where the prefix
ends. -/
def insertBranch (proof : ProofNodes) (path : Nibbles) (pathOffset : Nat) (pre : Nibbles)
    (children : Fin 16 → Option Pointer) : ProofNodes :=
  if pre.isEmpty then proof
  else Function.update proof (path.take pathOffset)
    (some (Node.encodeBranch fun i ↦ (children i).map Pointer.rlp))

/-- `get_storage_proof_from_page`. -/
def getStorageProofFromPage (path : Nibbles) :
    Nat → Nat → Nat → Nat → StorageProof → EngineM Cells (Option StorageProof)
  | 0, _, _, _, _ => throw .outOfFuel
  | fuel + 1, pathOffset, p, i, proof => do
    let node ← getValue p i
    let length := commonPrefixLength (path.drop pathOffset) node.pre
    if length < node.pre.length then pure none
    else
      match path.drop (pathOffset + length) with
      | [] =>
        let nodes := insertNode proof.proof path pathOffset node
        match node.value with
        | .ok (.storage v) => pure (some { proof with value := v, proof := nodes })
        | .ok (.account _) => throw (.proofError "account value found for storage path")
        | .error .noValue => throw (.proofError "no value found for storage path")
        | .error _ => throw (.proofError "unexpected error")
      | next :: _ =>
        if 64 < pathOffset then throw .panic
        else match node.kind with
          | .branch children =>
            let nodes := insertNode proof.proof path pathOffset node
            let nodes := insertBranch nodes path (pathOffset + length) node.pre children
            let proof := { proof with proof := nodes }
            match children next with
            | some ⟨.cell c, _⟩ =>
              getStorageProofFromPage path fuel (pathOffset + length + 1) p c proof
            | some ⟨.page q, _⟩ => do
              let _ ← getPage q
              getStorageProofFromPage path fuel (pathOffset + length + 1) q 0 proof
            | none => pure none
          | _ => throw .panic

/-- The descent from an account on page `p` to the slot at the rest of the path. -/
def getStorageProofAt (fuel p : Nat) (remaining : Nibbles) :
    Location → EngineM Cells (Option StorageProof)
  | .cell c => getStorageProofFromPage remaining fuel 0 p c { hashedSlot := remaining }
  | .page q => do
    let _ ← getPage q
    getStorageProofFromPage remaining fuel 0 q 0 { hashedSlot := remaining }

/-- The storage part of `get_value_with_proof_from_page`, at an account with the given storage
root. -/
def getStorageProof (fuel p : Nat) (remaining : Nibbles) (root : Option Pointer)
    (proof : AccountProof) : EngineM Cells (Option AccountProof) :=
  match root with
  | none => pure none
  | some pointer => do
    let storageRoot ← rootHash pointer.rlp
    -- a path of more than 64 nibbles is not a hashed slot
    if 64 < remaining.length then throw .panic
    else
      match ← getStorageProofAt fuel p remaining pointer.location with
      | none => pure none
      | some storageProof => do
        let slot ← fromSlice (Codec.packTo storageProof.hashedSlot)
        pure (some { proof with
          account := { proof.account with storageRoot := storageRoot }
          storageProofs := Function.update proof.storageProofs slot (some storageProof) })

/-- `get_value_with_proof_from_page`. -/
def getValueWithProofFromPage (path : Nibbles) :
    Nat → Nat → Nat → Nat → AccountProof → EngineM Cells (Option AccountProof)
  | 0, _, _, _, _ => throw .outOfFuel
  | fuel + 1, pathOffset, p, i, proof => do
    let node ← getValue p i
    let length := commonPrefixLength (path.drop pathOffset) node.pre
    if length < node.pre.length then pure none
    else
      let nodes := insertNode proof.proof path pathOffset node
      match path.drop (pathOffset + length) with
      | [] =>
        match node.value with
        | .ok (.account account) => pure (some { proof with account := account, proof := nodes })
        | .ok (.storage _) => throw (.proofError "storage value found for account path")
        | .error .noValue => throw (.proofError "no value found for account path")
        | .error _ => throw (.proofError "unexpected error")
      | next :: rest =>
        if 64 < pathOffset then throw .panic
        else match node.kind with
          | .accountLeaf nonce balance codeHash root =>
            if pathOffset + length ≠ addressPathLength then throw .panic
            else do
              let nonce ← decodeField 8 (Rlp.encodeUint nonce.toNat) "Failed to decode nonce"
              let balance ← decodeField 32 (Rlp.encodeUint balance.toNat) "Failed to decode balance"
              let account : Account :=
                ⟨BitVec.ofNat 64 nonce, BitVec.ofNat 256 balance, emptyRootHash, codeHash⟩
              getStorageProof fuel p (next :: rest) root
                { proof with account := account, proof := nodes }
          | .branch children =>
            let nodes := insertBranch nodes path (pathOffset + length) node.pre children
            let proof := { proof with proof := nodes }
            match children next with
            | some ⟨.cell c, _⟩ =>
              getValueWithProofFromPage path fuel (pathOffset + length + 1) p c proof
            | some ⟨.page q, _⟩ => do
              let _ ← getPage q
              getValueWithProofFromPage path fuel (pathOffset + length + 1) q 0 proof
            | none => pure none
          | .storageLeaf _ => throw .panic

/-- `get_value_with_proof`. -/
def getValueWithProof (fuel : Nat) (path : Nibbles) : EngineM Cells (Option AccountProof) := do
  if path.length = addressPathLength ∨ path.length = storagePathLength then
    match (← get).context.rootNodePageId with
    | none => pure none
    | some root => do
      let _ ← getPage root
      getValueWithProofFromPage path fuel 0 root 0 { hashedAddress := lower64Nibbles path }
  else throw .panic

/-- `get_account_with_proof`. -/
def getAccountWithProof (fuel : Nat) (addressPath : Nibbles) :
    EngineM Cells (Option AccountProof) := getValueWithProof fuel addressPath

/-- `get_storage_with_proof`. -/
def getStorageWithProof (fuel : Nat) (storagePath : Nibbles) :
    EngineM Cells (Option AccountProof) := getValueWithProof fuel storagePath

end TrieDb.Engine

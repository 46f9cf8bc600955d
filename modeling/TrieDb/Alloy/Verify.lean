import Mathlib.Algebra.Order.BigOperators.Group.Finset
import TrieDb.Alloy.Decode
import TrieDb.Alloy.Reference
import TrieDb.Trie.Encoding

/-!
# Verifying proofs

`alloy_trie::proof::verify_proof`, the check that the tests of `src/storage/proofs.rs` make. A node
that is embedded in the one above it is resolved while that one is decoded, and every further node
of the list has to be the one that is referenced next. The decoder of nodes is a parameter; all that
is known of it is that it reads back what the encoders write.
-/

namespace TrieDb

/-- `TrieNode`: a decoded node. No branch has a value. -/
inductive TrieNode where
  | emptyRoot
  | branch (children : Fin 16 → Option RlpNode)
  | extension (key : Nibbles) (child : RlpNode)
  | leaf (key : Nibbles) (value : List UInt8)

/-- `NodeDecodingResult`: what comes next on the way. -/
inductive NodeDecodingResult where
  | node (rlp : RlpNode)
  | value (bytes : List UInt8)

/-- The bytes of a result. -/
def NodeDecodingResult.bytes : NodeDecodingResult → List UInt8
  | node rlp => rlp.bytes
  | value bytes => bytes

section
variable [AlloyTrie]

/-- References to encoded nodes, which are RLP lists. -/
def RlpNode.Refers (r : RlpNode) : Prop := ∃ payload, r = .fromRlp (Rlp.encodeList payload)

/-- The encodings of nodes. -/
inductive TrieNode.Encodes : TrieNode → List UInt8 → Prop
  | leaf {key : Nibbles} {value : List UInt8} (hkey : key.length ≤ 64)
      (hvalue : value.length < 2 ^ 32) :
      Encodes (.leaf key value) (AlloyTrie.leafNode key value)
  | extension {key : Nibbles} {child : RlpNode} (hkey : key.length ≤ 64) (hchild : child.Refers) :
      Encodes (.extension key child) (AlloyTrie.extensionNode key child)
  | branch {children : Fin 16 → Option RlpNode}
      (hchildren : ∀ i r, children i = some r → r.Refers) :
      Encodes (.branch children) (Merkle.branchRlp children)

/-- `TrieNode::decode` reads back what the encoders write. -/
def Decodes (decode : List UInt8 → Option TrieNode) : Prop :=
  ∀ node bytes, TrieNode.Encodes node bytes → decode bytes = some node

end

section
variable (decode : List UInt8 → Option TrieNode) (key : Nibbles)

/-- `process_branch`: the child on the way to the key, and the path to it. An embedded child is
resolved at once. -/
def processBranch (children : Fin 16 → Option RlpNode) (walked : Nibbles) :
    Option (Option NodeDecodingResult × Nibbles) :=
  match _h : key[walked.length]? with
  | none => some (none, walked)
  | some next =>
    match children next with
    | none => some (none, walked)
    | some (.hash x) => some (some (.node (.hash x)), walked ++ [next])
    | some (.raw bytes) =>
      match decode bytes with
      | some (.branch children) => processBranch children (walked ++ [next])
      | some (.extension path child) =>
        -- an extension whose child is hashed is too long to be embedded
        match decode child.bytes with
        | some (.branch children) => processBranch children (walked ++ next :: path)
        | _ => none
      | some (.leaf path value) => some (some (.value value), walked ++ next :: path)
      | _ => none
termination_by key.length - walked.length
decreasing_by
  all_goals
    obtain ⟨hlt, -⟩ := List.getElem?_eq_some_iff.mp _h
    simp only [List.length_append, List.length_cons, List.length_nil]
    omega

variable [AlloyTrie]

/-- The loop of `verify_proof` over the listed nodes. -/
def verifyNodes : List (List UInt8) → Option NodeDecodingResult → Nibbles →
    Option (Option NodeDecodingResult × Nibbles)
  | [], last, walked => some (last, walked)
  | node :: proof, last, walked =>
    if some (RlpNode.fromRlp node).bytes ≠ last.map NodeDecodingResult.bytes then none
    else match decode node with
      | some (.branch children) => do
        let (last, walked) ← processBranch decode key children walked
        verifyNodes proof last walked
      | some (.extension path (.hash x)) =>
        verifyNodes proof (some (.node (.hash x))) (walked ++ path)
      | some (.extension path (.raw bytes)) =>
        match decode bytes with
        | some (.branch children) => do
          let (last, walked) ← processBranch decode key children (walked ++ path)
          verifyNodes proof last walked
        | _ => none
      | some (.leaf path value) => verifyNodes proof (some (.value value)) (walked ++ path)
      | _ => none

/-- `verify_proof`. -/
def verifyProof (root : B256) (expected : Option (List UInt8)) (proof : List (List UInt8)) : Bool :=
  if proof = [] ∨ proof.head? = some [0x80] then root = emptyRootHash ∧ expected = none
  else
    match verifyNodes decode key proof (some (.node (.hash root))) [] with
    | some (last, walked) =>
      (if walked = key then last.map NodeDecodingResult.bytes else none) = expected
    | none => false

end

/-! ### Steps -/

section
variable {decode : List UInt8 → Option TrieNode} {key walked path rest : Nibbles} {i : Nibble}
  {children children' : Fin 16 → Option RlpNode} {bytes value : List UInt8} {child : RlpNode}

/-- The next nibble of the key. -/
private theorem processBranch_next (h : key = walked ++ i :: rest)
    {r : Option (Option NodeDecodingResult × Nibbles)}
    (hr : (match children i with
      | none => some (none, walked)
      | some (.hash x) => some (some (.node (.hash x)), walked ++ [i])
      | some (.raw bytes) =>
        match decode bytes with
        | some (.branch children) => processBranch decode key children (walked ++ [i])
        | some (.extension path child) =>
          match decode child.bytes with
          | some (.branch children) => processBranch decode key children (walked ++ i :: path)
          | _ => none
        | some (.leaf path value) => some (some (.value value), walked ++ i :: path)
        | _ => none) = r) : processBranch decode key children walked = r := by
  have hnext : key[walked.length]? = some i := by simp [h]
  rw [processBranch]
  split
  · next hnone => simp [hnext] at hnone
  · next next hsome =>
    cases hnext.symm.trans hsome
    exact hr

/-- A child that is referenced by its hash is the next node. -/
theorem processBranch_hash {x : B256} (h : key = walked ++ i :: rest)
    (hi : children i = some (.hash x)) : processBranch decode key children walked =
      some (some (.node (.hash x)), walked ++ [i]) :=
  processBranch_next h (by rw [hi])

/-- The value of an embedded leaf is next. -/
theorem processBranch_leaf (h : key = walked ++ i :: rest) (hi : children i = some (.raw bytes))
    (hd : decode bytes = some (.leaf path value)) : processBranch decode key children walked =
      some (some (.value value), walked ++ i :: path) :=
  processBranch_next h (by simp only [hi, hd])

/-- An embedded branch is processed in place of the one above. -/
theorem processBranch_branch (h : key = walked ++ i :: rest) (hi : children i = some (.raw bytes))
    (hd : decode bytes = some (.branch children')) : processBranch decode key children walked =
      processBranch decode key children' (walked ++ [i]) :=
  processBranch_next h (by simp only [hi, hd])

/-- A branch embedded below an embedded extension is processed in place of the one above. -/
theorem processBranch_extension (h : key = walked ++ i :: rest)
    (hi : children i = some (.raw bytes)) (hd : decode bytes = some (.extension path child))
    (hc : decode child.bytes = some (.branch children')) :
    processBranch decode key children walked =
      processBranch decode key children' (walked ++ i :: path) :=
  processBranch_next h (by simp only [hi, hd, hc])

variable [AlloyTrie] {node : List UInt8} (proof : List (List UInt8))
  {last last' : Option NodeDecodingResult} {walked' : Nibbles}

/-- A node that is not the one that comes next. -/
theorem verifyNodes_mismatch
    (h : some (RlpNode.fromRlp node).bytes ≠ last.map NodeDecodingResult.bytes) :
    verifyNodes decode key (node :: proof) last walked = none := by
  rw [verifyNodes, if_pos h]

/-- After a leaf its value is next. -/
theorem verifyNodes_leaf (h : some (RlpNode.fromRlp node).bytes = last.map NodeDecodingResult.bytes)
    (hd : decode node = some (.leaf path value)) :
    verifyNodes decode key (node :: proof) last walked =
      verifyNodes decode key proof (some (.value value)) (walked ++ path) := by
  rw [verifyNodes, if_neg (not_not_intro h)]
  simp only [hd]

/-- After a branch the child on the way is next. -/
theorem verifyNodes_branch
    (h : some (RlpNode.fromRlp node).bytes = last.map NodeDecodingResult.bytes)
    (hd : decode node = some (.branch children))
    (hp : processBranch decode key children walked = some (last', walked')) :
    verifyNodes decode key (node :: proof) last walked =
      verifyNodes decode key proof last' walked' := by
  rw [verifyNodes, if_neg (not_not_intro h)]
  simp only [hd, hp]
  rfl

/-- After an extension with a hashed child that child is next. -/
theorem verifyNodes_hashed {x : B256}
    (h : some (RlpNode.fromRlp node).bytes = last.map NodeDecodingResult.bytes)
    (hd : decode node = some (.extension path (.hash x))) :
    verifyNodes decode key (node :: proof) last walked =
      verifyNodes decode key proof (some (.node (.hash x))) (walked ++ path) := by
  rw [verifyNodes, if_neg (not_not_intro h)]
  simp only [hd]

/-- After an extension with an embedded branch the branch's child on the way is next. -/
theorem verifyNodes_embedded
    (h : some (RlpNode.fromRlp node).bytes = last.map NodeDecodingResult.bytes)
    (hd : decode node = some (.extension path (.raw bytes)))
    (hc : decode bytes = some (.branch children))
    (hp : processBranch decode key children (walked ++ path) = some (last', walked')) :
    verifyNodes decode key (node :: proof) last walked =
      verifyNodes decode key proof last' walked' := by
  rw [verifyNodes, if_neg (not_not_intro h)]
  simp only [hd, hc, hp]
  rfl

end

/-! ### A decoder -/

namespace Rlp

/-- `Header::decode`: whether an item is a list, the bytes of its header, and those of its
payload. -/
def header : List UInt8 → Option (Bool × Nat × Nat)
  | [] => none
  | b :: rest =>
    if b.toNat < 0x80 then some (false, 0, 1)
    else if b.toNat ≤ 0xb7 then some (false, 1, b.toNat - 0x80)
    else if b.toNat ≤ 0xbf then
      some (false, 1 + (b.toNat - 0xb7), ofBytes (rest.take (b.toNat - 0xb7)))
    else if b.toNat ≤ 0xf7 then some (true, 1, b.toNat - 0xc0)
    else some (true, 1 + (b.toNat - 0xf7), ofBytes (rest.take (b.toNat - 0xf7)))

/-- The first item, with its header, and what follows it. -/
def splitItem (bytes : List UInt8) : Option (List UInt8 × List UInt8) :=
  match header bytes with
  | some (_, h, n) =>
    if h + n ≤ bytes.length then some (bytes.take (h + n), bytes.drop (h + n)) else none
  | none => none

/-- The items of a payload, with their headers; there are at most as many as the first argument
says. -/
def items : Nat → List UInt8 → Option (List (List UInt8))
  | _, [] => some []
  | 0, _ :: _ => none
  | count + 1, b :: bytes =>
    match splitItem (b :: bytes) with
    | some (item, rest) => (items count rest).map (item :: ·)
    | none => none

/-- The payload of a string. -/
def decodeBytes (item : List UInt8) : Option (List UInt8) :=
  match header item with
  | some (false, h, n) => if item.length = h + n then some (item.drop h) else none
  | _ => none

/-- The bytes start with an item that has the given header and payload. -/
structure Starts (bytes : List UInt8) (isList : Bool) (h n : Nat) : Prop where
  header : ∀ rest, Rlp.header (bytes ++ rest) = some (isList, h, n)
  length : bytes.length = h + n

/-- The bytes of the length of a long item. -/
private theorem bigEndian_length {n : Nat} (h0 : 0 < n) (h : n < 2 ^ 60) :
    0 < (bigEndian n).length ∧ (bigEndian n).length ≤ 8 ∧ ofBytes (bigEndian n) = n := by
  have hval := ofBytes_bigEndian n
  refine ⟨?_, length_bigEndian_le (by omega), hval⟩
  rw [List.length_pos_iff]
  intro hnil
  rw [hnil] at hval
  have : (0 : Nat) = n := hval
  omega

private theorem starts_encodeList {payload : List UInt8} (h : payload.length < 2 ^ 60) :
    ∃ k, Starts (encodeList payload) true k payload.length ∧
      (encodeList payload).drop k = payload := by
  by_cases hshort : payload.length < 56
  · refine ⟨1, ⟨fun rest ↦ ?_, ?_⟩, ?_⟩
    · have hb : (UInt8.ofNat (0xc0 + payload.length)).toNat = 0xc0 + payload.length := by
        rw [UInt8.toNat_ofNat']
        omega
      simp only [encodeList, listHeader, hshort, if_true, List.cons_append, header, hb]
      rw [if_neg (by omega), if_neg (by omega), if_neg (by omega), if_pos (by omega)]
      simp
    · simp only [encodeList, listHeader, hshort, if_true, List.length_append, List.length_singleton]
    · simp [encodeList, listHeader, hshort]
  · obtain ⟨hpos, hlen, hval⟩ := @bigEndian_length payload.length (by omega) h
    have hb : (UInt8.ofNat (0xf7 + (bigEndian payload.length).length)).toNat =
        0xf7 + (bigEndian payload.length).length := by
      rw [UInt8.toNat_ofNat']
      omega
    refine ⟨1 + (bigEndian payload.length).length, ⟨fun rest ↦ ?_, ?_⟩, ?_⟩
    · simp only [encodeList, listHeader, hshort, if_false, List.cons_append, header, hb]
      rw [if_neg (by omega), if_neg (by omega), if_neg (by omega), if_neg (by omega)]
      rw [Nat.add_sub_cancel_left, List.append_assoc, List.take_left, hval]
    · simp only [encodeList, listHeader, hshort, if_false, List.length_append, List.length_cons]
      omega
    · rw [encodeList, listHeader, if_neg hshort, List.cons_append, Nat.add_comm,
        List.drop_succ_cons, List.drop_left]

private theorem starts_encodeBytes {bytes : List UInt8} (h : bytes.length < 2 ^ 60) :
    ∃ k, Starts (encodeBytes bytes) false k bytes.length ∧ (encodeBytes bytes).drop k = bytes := by
  unfold encodeBytes
  by_cases hone : bytes.length = 1 ∧ bytes.headD 0 < 0x80
  · rw [if_pos hone]
    obtain ⟨b, rfl⟩ := List.length_eq_one_iff.mp hone.1
    have hb : b.toNat < 0x80 := UInt8.lt_iff_toNat_lt.mp hone.2
    refine ⟨0, ⟨fun rest ↦ ?_, rfl⟩, rfl⟩
    rw [List.singleton_append, header, if_pos hb]
    rfl
  · rw [if_neg hone]
    by_cases hshort : bytes.length < 56
    · have hb : (UInt8.ofNat (0x80 + bytes.length)).toNat = 0x80 + bytes.length := by
        rw [UInt8.toNat_ofNat']
        omega
      refine ⟨1, ⟨fun rest ↦ ?_, ?_⟩, ?_⟩
      · simp only [hshort, if_true, List.cons_append, header, hb]
        rw [if_neg (by omega), if_pos (by omega)]
        simp
      · simp only [hshort, if_true, List.length_cons]
        omega
      · simp [hshort]
    · obtain ⟨hpos, hlen, hval⟩ := @bigEndian_length bytes.length (by omega) h
      have hb : (UInt8.ofNat (0xb7 + (bigEndian bytes.length).length)).toNat =
          0xb7 + (bigEndian bytes.length).length := by
        rw [UInt8.toNat_ofNat']
        omega
      refine ⟨1 + (bigEndian bytes.length).length, ⟨fun rest ↦ ?_, ?_⟩, ?_⟩
      · simp only [hshort, if_false, List.cons_append, header, hb]
        rw [if_neg (by omega), if_neg (by omega), if_pos (by omega)]
        rw [Nat.add_sub_cancel_left, List.append_assoc, List.take_left, hval]
      · simp only [hshort, if_false, List.length_append, List.length_cons]
        omega
      · rw [if_neg hshort, List.cons_append, Nat.add_comm, List.drop_succ_cons, List.drop_left]

namespace Starts

variable {bytes rest : List UInt8} {isList : Bool} {h n : Nat}

private theorem splitItem (hs : Starts bytes isList h n) :
    Rlp.splitItem (bytes ++ rest) = some (bytes, rest) := by
  have hle : bytes.length ≤ (bytes ++ rest).length := by
    rw [List.length_append]
    omega
  rw [Rlp.splitItem, hs.header]
  simp only [← hs.length, hle, if_true, List.take_left, List.drop_left]

end Starts

/-- One item of a payload. -/
def Item (bytes : List UInt8) : Prop := bytes ≠ [] ∧ ∃ isList h n, Starts bytes isList h n

private theorem items_flatten {l : List (List UInt8)} (h : ∀ item ∈ l, Item item) {count : Nat}
    (hcount : l.length ≤ count) : items count l.flatten = some l := by
  induction l generalizing count with
  | nil => cases count <;> rfl
  | cons item l ih =>
    obtain ⟨hne, isList, k, n, hs⟩ := h item (by simp)
    obtain ⟨count, rfl⟩ : ∃ c, count = c + 1 := ⟨count - 1, by simp at hcount; omega⟩
    obtain ⟨b, bs, rfl⟩ := List.exists_cons_of_ne_nil hne
    rw [List.flatten_cons, List.cons_append, items, ← List.cons_append, hs.splitItem]
    simp only [ih (fun item hi ↦ h item (by simp [hi])) (by simpa using hcount), Option.map_some]

private theorem item_encodeBytes {bytes : List UInt8} (h : bytes.length < 2 ^ 60) :
    Item (encodeBytes bytes) := by
  obtain ⟨k, hs, -⟩ := starts_encodeBytes h
  refine ⟨?_, _, _, _, hs⟩
  unfold encodeBytes
  split
  · next hone =>
    intro hnil
    rw [hnil] at hone
    simp at hone
  · split <;> simp

private theorem item_encodeList {payload : List UInt8} (h : payload.length < 2 ^ 60) :
    Item (encodeList payload) := by
  obtain ⟨k, hs, -⟩ := starts_encodeList h
  refine ⟨?_, _, _, _, hs⟩
  rw [encodeList, listHeader]
  split <;> simp

private theorem decodeBytes_encodeBytes {bytes : List UInt8} (h : bytes.length < 2 ^ 60) :
    decodeBytes (encodeBytes bytes) = some bytes := by
  obtain ⟨k, hs, hdrop⟩ := starts_encodeBytes h
  have hheader := hs.header []
  rw [List.append_nil] at hheader
  rw [decodeBytes, hheader]
  simp only [hs.length, if_true, hdrop]

/-! ### Paths -/

/-- `unpack_path_to_nibbles`. -/
def unpackNibbles (bytes : List UInt8) : Nibbles :=
  bytes.flatMap fun b ↦ [Fin.ofNat 16 (b.toNat / 16), Fin.ofNat 16 b.toNat]

/-- A hex-prefix path, and whether it is that of a leaf. -/
def decodePath : List UInt8 → Option (Bool × Nibbles)
  | [] => none
  | b :: rest =>
    match b.toNat / 16 with
    | 0 => some (false, unpackNibbles rest)
    | 1 => some (false, Fin.ofNat 16 b.toNat :: unpackNibbles rest)
    | 2 => some (true, unpackNibbles rest)
    | 3 => some (true, Fin.ofNat 16 b.toNat :: unpackNibbles rest)
    | _ => none

private theorem unpackNibbles_packNibbles {path : Nibbles} (h : path.length % 2 = 0) :
    unpackNibbles (packNibbles path) = path := by
  fun_induction packNibbles path with
  | case1 a b rest ih =>
    have hb : (UInt8.ofNat (a * 16 + b)).toNat = a * 16 + b := by
      rw [UInt8.toNat_ofNat']
      omega
    rw [List.length_cons, List.length_cons] at h
    rw [unpackNibbles, List.flatMap_cons, ← unpackNibbles, ih (by omega), hb]
    have h1 : Fin.ofNat 16 ((a.val * 16 + b.val) / 16) = a := by
      apply Fin.ext
      simp only [Fin.val_ofNat]
      omega
    have h2 : Fin.ofNat 16 (a.val * 16 + b.val) = b := by
      apply Fin.ext
      simp only [Fin.val_ofNat]
      omega
    rw [h1, h2]
    rfl
  | case2 path hp =>
    rcases path with _ | ⟨a, _ | ⟨b, rest⟩⟩
    · rfl
    · simp at h
    · exact absurd rfl (hp a b rest)

private theorem decodePath_hexPrefix (isLeaf : Bool) (path : Nibbles) :
    decodePath (hexPrefix isLeaf path) = some (isLeaf, path) := by
  unfold hexPrefix
  by_cases heven : path.length % 2 = 0
  · simp only [heven, if_true]
    cases isLeaf <;> simp [decodePath, unpackNibbles_packNibbles heven]
  · rcases path with _ | ⟨a, rest⟩
    · simp at heven
    · have hrest : rest.length % 2 = 0 := by
        rw [List.length_cons] at heven
        omega
      simp only [heven, if_false, List.headD_cons, List.tail_cons]
      have hb (flag : Nat) (hflag : flag ≤ 0x20) :
          (UInt8.ofNat (flag + 0x10 + a)).toNat = flag + 0x10 + a := by
        rw [UInt8.toNat_ofNat']
        omega
      have ha (flag : Nat) (hflag : flag % 16 = 0) : Fin.ofNat 16 (flag + 0x10 + a.val) = a := by
        apply Fin.ext
        simp only [Fin.val_ofNat]
        omega
      cases isLeaf with
      | false =>
        have hdiv : (0 + 0x10 + a.val) / 16 = 1 := by omega
        simp only [decodePath, Bool.false_eq_true, if_false, hb 0 (by omega), hdiv, ha 0 rfl,
          unpackNibbles_packNibbles hrest]
      | true =>
        have hdiv : (0x20 + 0x10 + a.val) / 16 = 3 := by omega
        simp only [decodePath, if_true, hb 0x20 (by omega), hdiv, ha 0x20 rfl,
          unpackNibbles_packNibbles hrest]

end Rlp

/-- `RlpNode::from_raw_rlp`. -/
def RlpNode.fromRawRlp (item : List UInt8) : RlpNode :=
  if h : item.length = 33 then
    .hash ⟨(item.drop 1).toArray, by simp [h]⟩
  else .raw item

/-- The node of a list of items: 17 in a branch, with no value in the last one, and 2 in the other
nodes. -/
def TrieNode.ofItems (l : List (List UInt8)) : Option TrieNode :=
  if l.length = 17 then
    if l[16]? = some [0x80] then
      some (.branch fun i ↦ (l[(i : Nat)]?.filter (· ≠ [0x80])).map .fromRawRlp)
    else none
  else
    match l with
    | [path, item] =>
      match (Rlp.decodeBytes path).bind Rlp.decodePath with
      | some (true, key) => (Rlp.decodeBytes item).map (.leaf key)
      | some (false, key) => some (.extension key (.fromRawRlp item))
      | none => none
    | _ => none

/-- `TrieNode::decode`. -/
def TrieNode.decode (bytes : List UInt8) : Option TrieNode :=
  match Rlp.header bytes with
  | some (true, h, _) => (Rlp.items 17 (bytes.drop h)).bind ofItems
  | some (false, _, 0) => some .emptyRoot
  | _ => none

namespace TrieNode

private theorem decode_encodeList {l : List (List UInt8)} (h : ∀ item ∈ l, Rlp.Item item)
    (hlen : l.length ≤ 17) (hsize : l.flatten.length < 2 ^ 60) :
    decode (Rlp.encodeList l.flatten) = ofItems l := by
  obtain ⟨k, hs, hdrop⟩ := Rlp.starts_encodeList hsize
  have hheader := hs.header []
  rw [List.append_nil] at hheader
  rw [decode, hheader]
  simp only [hdrop, Rlp.items_flatten h hlen, Option.bind_some]

end TrieNode

namespace RlpNode

variable [AlloyTrie]

private theorem Refers.item {r : RlpNode} (h : r.Refers) : Rlp.Item r.bytes ∧ r.bytes ≠ [0x80] := by
  obtain ⟨payload, rfl⟩ := h
  unfold fromRlp
  split
  · next hlt =>
    have hsize : payload.length < 2 ^ 60 := by
      rw [Rlp.encodeList, List.length_append] at hlt
      omega
    refine ⟨Rlp.item_encodeList hsize, fun he ↦ ?_⟩
    obtain ⟨k, hs, -⟩ := Rlp.starts_encodeList hsize
    have hheader := hs.header []
    rw [show Rlp.encodeList payload = [0x80] from he] at hheader
    cases hheader
  · refine ⟨⟨by simp [bytes], false, 1, 32, fun rest ↦ ?_, by simp [bytes]⟩, by simp [bytes]⟩
    simp [bytes, Rlp.header]

private theorem Refers.fromRawRlp {r : RlpNode} (h : r.Refers) :
    RlpNode.fromRawRlp r.bytes = r := by
  obtain ⟨payload, rfl⟩ := h
  unfold fromRlp
  split
  · next hlt =>
    rw [RlpNode.fromRawRlp, dif_neg]
    · rfl
    · show (Rlp.encodeList payload).length ≠ 33
      omega
  · simp [RlpNode.fromRawRlp, bytes, Vector.toList]

/-- A reference has at most 33 bytes. -/
private theorem Refers.length {r : RlpNode} (h : r.Refers) : r.bytes.length ≤ 33 := by
  obtain ⟨payload, rfl⟩ := h
  unfold fromRlp
  split
  · next hlt => exact Nat.le_of_lt (Nat.lt_trans hlt (by decide))
  · simp [bytes]

end RlpNode

section

variable {key : Nibbles} {item : List UInt8} (isLeaf : Bool)

/-- A list of a path and another item. -/
private theorem TrieNode.decode_pair (hkey : key.length ≤ 64) (hitem : Rlp.Item item)
    (hsize : item.length < 2 ^ 40) :
    decode (Rlp.encodeList (Rlp.encodeBytes (Rlp.hexPrefix isLeaf key) ++ item)) =
      if isLeaf then (Rlp.decodeBytes item).map (.leaf key)
      else some (.extension key (.fromRawRlp item)) := by
  have hlen := Rlp.length_hexPrefix isLeaf key
  have hshort : (Rlp.hexPrefix isLeaf key).length < 2 ^ 60 := by omega
  have hpath := @Rlp.length_encodeBytes_le 1 (Rlp.hexPrefix isLeaf key) (by omega)
  have hflat : Rlp.encodeBytes (Rlp.hexPrefix isLeaf key) ++ item =
      [Rlp.encodeBytes (Rlp.hexPrefix isLeaf key), item].flatten := by simp
  rw [hflat, decode_encodeList]
  · rw [ofItems, if_neg (by simp)]
    simp only [Rlp.decodeBytes_encodeBytes hshort, Option.bind_some, Rlp.decodePath_hexPrefix]
    cases isLeaf <;> rfl
  · intro x hx
    rcases List.mem_pair.mp hx with rfl | rfl
    · exact Rlp.item_encodeBytes hshort
    · exact hitem
  · simp
  · rw [← hflat, List.length_append]
    omega

end

section
variable [AlloyTrie] {children : Fin 16 → Option RlpNode}

private theorem item_embedded (h : ∀ i r, children i = some r → r.Refers) (i : Fin 16) :
    Rlp.Item (embedded (children i)) ∧ (embedded (children i)).length ≤ 33 := by
  unfold embedded
  cases hi : children i with
  | some r => exact ⟨(h i r hi).item.1, (h i r hi).length⟩
  | none => exact ⟨@Rlp.item_encodeBytes [] (by decide), by decide⟩

private theorem TrieNode.decode_encodeBranch (h : ∀ i r, children i = some r → r.Refers) :
    decode (Node.encodeBranch children) = some (.branch children) := by
  have hflat : Node.encodeBranch children = Rlp.encodeList
      ((List.finRange 16).map (fun i ↦ embedded (children i)) ++ [[0x80]]).flatten := by
    rw [List.flatten_append, ← List.flatMap_def]
    rfl
  have hsize : ((List.finRange 16).map (fun i ↦ embedded (children i)) ++ [[0x80]]).flatten.length ≤
      16 * 33 + 1 := by
    rw [List.flatten_append, List.length_append, ← List.flatMap_def, List.length_flatMap,
      ← Fin.sum_univ_def]
    have hsum : ∑ i, (embedded (children i)).length ≤ ∑ _ : Fin 16, 33 :=
      Finset.sum_le_sum fun i _ ↦ (item_embedded h i).2
    simp at hsum ⊢
    omega
  rw [hflat, decode_encodeList]
  · have hget (i : Fin 16) :
        ((List.finRange 16).map (fun i ↦ embedded (children i)) ++ [[0x80]])[(i : Nat)]? =
          some (embedded (children i)) := by
      simp [List.getElem?_append]
    unfold ofItems
    rw [if_pos (by simp), if_pos (by simp)]
    simp only [hget]
    congr 2
    funext i
    unfold embedded
    cases hi : children i with
    | none => rfl
    | some r =>
      simp [(h i r hi).item.2, (h i r hi).fromRawRlp]
  · intro item hitem
    rcases List.mem_append.mp hitem with hi | hi
    · obtain ⟨i, -, rfl⟩ := List.mem_map.mp hi
      exact (item_embedded h i).1
    · rw [List.mem_singleton.mp hi]
      exact @Rlp.item_encodeBytes [] (by decide)
  · simp
  · omega

end

/-- The decoder reads back what the encoders write. -/
theorem decodes_decode : Decodes TrieNode.decode := by
  intro node bytes h
  cases h with
  | @leaf key value hkey hvalue =>
    have hlen := @Rlp.length_encodeBytes_le 8 value (by omega)
    refine (TrieNode.decode_pair true hkey (Rlp.item_encodeBytes (by omega)) (by omega)).trans ?_
    rw [if_pos rfl, Rlp.decodeBytes_encodeBytes (by omega), Option.map_some]
  | @extension key child hkey hchild =>
    have hlen := hchild.length
    refine (TrieNode.decode_pair false hkey hchild.item.1 (by omega)).trans ?_
    rw [if_neg (by decide), hchild.fromRawRlp]
  | @branch children hchildren =>
    rw [← Node.encodeBranch_eq_branchRlp]
    exact TrieNode.decode_encodeBranch hchildren

end TrieDb

import TrieDb.Alloy.Reference
import TrieDb.Trie.Merkle

/-!
# Lengths of encoded nodes

`src/node.rs:253–330, 556–684`: a node fits the buffer it is encoded into, and the root of a trie
that is not empty is long enough to be referenced by hash, so that `as_hash().unwrap()` in
`set_values` and in the proofs returns.
-/

namespace TrieDb

open Engine Trie

/-- The encoders of `alloy_trie` write RLP lists of two items: the hex-prefix path, and the value as
a string or the child as it is embedded. -/
structure AlloyTrie.Standard [AlloyTrie] : Prop where
  leaf : ∀ key value, AlloyTrie.leafNode key value =
    Rlp.encodeList (Rlp.encodeBytes (Rlp.hexPrefix true key) ++ Rlp.encodeBytes value)
  extension : ∀ key child, AlloyTrie.extensionNode key child =
    Rlp.encodeList (Rlp.encodeBytes (Rlp.hexPrefix false key) ++ child.bytes)

/-- `MAX_RLP_ENCODED_LEN`. -/
def maxRlpEncodedLen : Nat := 3 + 16 * 33 + 1

/-! ### Upper bounds -/

namespace Rlp

private theorem length_listHeader_le {k n : Nat} (h : n < 256 ^ k) :
    (listHeader n).length ≤ k + 1 := by
  have hle := length_bigEndian_le h
  unfold listHeader
  split
  · simp
  · rw [List.length_cons]
    omega

private theorem length_encodePath_le (isLeaf : Bool) {path : Nibbles}
    (h : path.length ≤ maxPrefixLength) : (encodeBytes (hexPrefix isLeaf path)).length ≤ 35 := by
  have hlen := length_hexPrefix isLeaf path
  simp only [maxPrefixLength] at h
  have hle := @length_encodeBytes_le 1 (hexPrefix isLeaf path) (by omega)
  omega

/-- The length of a list's header depends on that of its payload. -/
theorem length_encodeList_le {k : Nat} {payload : List UInt8} (h : payload.length < 256 ^ k) :
    (encodeList payload).length ≤ payload.length + k + 1 := by
  have hle := length_listHeader_le h
  rw [encodeList, List.length_append]
  omega

end Rlp

/-- A reference takes at most 33 bytes in its parent. -/
private theorem RlpNode.len_fromRlp_le [AlloyTrie] (bytes : List UInt8) :
    (RlpNode.fromRlp bytes).len ≤ 33 := by
  unfold fromRlp
  split
  · next hlt => exact Nat.le_of_lt (Nat.lt_trans hlt (by decide))
  · show (0xa0 :: (AlloyTrie.keccak256 bytes).toList).length ≤ 33
    simp

namespace Node

/-- An account fits the buffer of 110 bytes. -/
private theorem length_encodeAccountLeaf_le (nonce : BitVec 64) (balance : U256)
    (codeHash storageRoot : B256) :
    (encodeAccountLeaf nonce balance codeHash storageRoot).length ≤ 110 := by
  rw [encodeAccountLeaf_eq_accountRlp ⟨nonce, balance, storageRoot, codeHash⟩]
  exact (Merkle.length_accountRlp _).2

/-- A branch fits the buffer for it. -/
private theorem length_encodeBranch_le {refs : Fin 16 → Option RlpNode}
    (h : ∀ i r, refs i = some r → r.len ≤ 33) :
    (encodeBranch refs).length ≤ maxRlpEncodedLen := by
  have hplace (i : Fin 16) : (embedded (refs i)).length ≤ 33 := by
    cases hr : refs i with
    | none => simp [embedded]
    | some r => exact h i r hr
  have hsum : ((List.finRange 16).flatMap fun i ↦ embedded (refs i)).length ≤ 16 * 33 := by
    rw [List.length_flatMap, ← Fin.sum_univ_def]
    calc ∑ i, (embedded (refs i)).length ≤ ∑ _ : Fin 16, 33 :=
          Finset.sum_le_sum fun i _ ↦ hplace i
      _ = 16 * 33 := by simp
  have hheader : (Rlp.listHeader ((List.finRange 16).flatMap (fun i ↦ embedded (refs i)) ++
      [0x80]).length).length ≤ 2 + 1 := by
    apply Rlp.length_listHeader_le
    rw [List.length_append, List.length_singleton]
    omega
  rw [encodeBranch_eq refs rfl, List.length_append]
  rw [List.length_append, List.length_singleton] at hheader ⊢
  rw [maxRlpEncodedLen]
  omega

variable [AlloyTrie]

private theorem length_leafNode_le (hs : AlloyTrie.Standard) {key : Nibbles} {value : List UInt8}
    (hkey : key.length ≤ maxPrefixLength) (hvalue : value.length ≤ 110) :
    (AlloyTrie.leafNode key value).length ≤ maxRlpEncodedLen := by
  have hpath := Rlp.length_encodePath_le true hkey
  have hvalue' := @Rlp.length_encodeBytes_le 1 value (by omega)
  have hlist : (Rlp.encodeList (Rlp.encodeBytes (Rlp.hexPrefix true key) ++
      Rlp.encodeBytes value)).length ≤ _ + 1 + 1 :=
    Rlp.length_encodeList_le (by rw [List.length_append]; omega)
  rw [List.length_append] at hlist
  rw [hs.leaf, maxRlpEncodedLen]
  omega

private theorem length_extensionNode_le (hs : AlloyTrie.Standard) {key : Nibbles} {child : RlpNode}
    (hkey : key.length ≤ maxPrefixLength) (hchild : child.len ≤ 33) :
    (AlloyTrie.extensionNode key child).length ≤ maxRlpEncodedLen := by
  have hpath := Rlp.length_encodePath_le false hkey
  have hbytes : child.bytes.length ≤ 33 := hchild
  have hlist : (Rlp.encodeList (Rlp.encodeBytes (Rlp.hexPrefix false key) ++
      child.bytes)).length ≤ _ + 1 + 1 :=
    Rlp.length_encodeList_le (by rw [List.length_append]; omega)
  rw [List.length_append] at hlist
  rw [hs.extension, maxRlpEncodedLen]
  omega

/-- What is written while a node is encoded fits the buffers. -/
structure Buffered (n : Node) : Prop where
  encoding : n.rlpEncode.length ≤ maxRlpEncodedLen
  account : ∀ nonce balance codeHash root, n.kind = .accountLeaf nonce balance codeHash root →
    (encodeAccountLeaf nonce balance codeHash (storageRootHash root)).length ≤ 110
  branch : ∀ children, n.kind = .branch children →
    (encodeBranch fun i ↦ (children i).map Pointer.rlp).length ≤ maxRlpEncodedLen

/-- A node with a prefix of at most 64 nibbles and pointers of at most 33 bytes fits its buffers. -/
private theorem buffered (hs : AlloyTrie.Standard) {n : Node}
    (hpre : n.pre.length ≤ maxPrefixLength)
    (hpointers : ∀ i p, n.childAt i = some p → p.rlp.len ≤ 33) : n.Buffered := by
  have hbranch : ∀ children, n.kind = .branch children →
      (encodeBranch fun i ↦ (children i).map Pointer.rlp).length ≤ maxRlpEncodedLen := by
    intro children hkind
    apply length_encodeBranch_le
    intro i r hr
    obtain ⟨p, hp, rfl⟩ := Option.map_eq_some_iff.mp hr
    exact hpointers i p (by simp only [childAt, hkind, hp])
  refine ⟨?_, fun _ _ _ _ _ ↦ length_encodeAccountLeaf_le _ _ _ _, hbranch⟩
  unfold rlpEncode
  cases hkind : n.kind with
  | storageLeaf v =>
    have hv : (Rlp.encodeUint v.toNat).length ≤ 32 + 1 :=
      Rlp.length_encodeUint_le (by have := v.isLt; omega)
    exact length_leafNode_le hs hpre (by omega)
  | accountLeaf nonce balance codeHash root =>
    exact length_leafNode_le hs hpre (length_encodeAccountLeaf_le _ _ _ _)
  | branch children =>
    simp only
    split
    · exact hbranch children hkind
    · exact length_extensionNode_le hs hpre (RlpNode.len_fromRlp_le _)

end Node

/-! ### The nodes of a trie -/

namespace Trie

variable {α : Type} {t u : Trie α} {l : Level} {n : Node}

/-- A node whose pointers embed the children of the root of a trie. -/
def Stands (n : Node) : Trie α → Prop
  | empty => False
  | node _ _ pre kind ch => ∃ pointers : Fin 16 → Option Pointer,
      (∀ i, (pointers i).map Pointer.rlp = (ch i).ref?) ∧ n = kind.node pre pointers

/-- A trie is another one or below it; the storage of an account is below its leaf. -/
inductive Within (u : Trie α) : Trie α → Prop
  | root : Within u u
  | child {tag ref pre kind ch} (i : Fin 16) (h : Within u (ch i)) :
      Within u (node tag ref pre kind ch)

/-- Every prefix can be stored. -/
def Short : Trie α → Prop
  | empty => True
  | node _ _ pre _ ch => pre.length ≤ maxPrefixLength ∧ ∀ i, (ch i).Short

/-- The nibbles to the end of a slot, from the root of a trie of accounts or slots. -/
def keyRange : Level → Nat
  | .accounts => 128
  | .slots => 64

private theorem Short.within (h : t.Short) (hu : u.Within t) : u.Short := by
  induction hu with
  | root => exact h
  | child i _ ih => exact ih (h.2 i)

private theorem Branched.within (h : t.Branched) (hu : u.Within t) : u.Branched := by
  induction hu with
  | root => exact h
  | child i _ ih => exact ih (h.2 i)

private theorem Rough.within {m : Nat} (h : t.Rough l m) (hu : u.Within t) :
    ∃ l' m', u.Rough l' m' := by
  induction hu generalizing l m with
  | root => exact ⟨l, m, h⟩
  | @child tag ref pre kind ch i _ ih =>
    cases kind with
    | leaf e => exact ih (h.2.2 i)
    | branch => exact ih (h.2 i)

/-- The prefixes of a storage trie are no longer than its keys. -/
private theorem Rough.short_slots {m : Nat} (h : t.Rough .slots m) (hm : m ≤ maxPrefixLength) :
    t.Short := by
  induction t generalizing m with
  | empty => trivial
  | node tag ref pre kind ch ih =>
    rcases kind with (info | v) | _
    · cases h.1.1
    · have hlen : pre.length = m := h.1
      exact ⟨hlen.trans_le hm, fun i ↦ ih i (h.2.2 i) (Nat.le_refl 64)⟩
    · have hlt := h.1
      exact ⟨by omega, fun i ↦ ih i (h.2 i) (by omega)⟩

variable [AlloyTrie]

/-- A trie of the shape that the program builds, over keys of 64 nibbles: leaves end with their
keys, branches have two children, and every node is embedded by what it encodes to. -/
structure Shaped (l : Level) (t : Trie α) : Prop where
  rough : t.Rough l (keyRange l)
  branched : t.Branched
  hashed : t.Hashed
  short : t.Short

private theorem Hashed.within (h : t.Hashed) (hu : u.Within t) : u.Hashed := by
  induction hu with
  | root => exact h
  | child i _ ih => exact ih (h.2 i)

private theorem Hashed.len_ref (h : t.Hashed) {r : RlpNode} (hr : t.ref? = some r) :
    r.len ≤ 33 := by
  cases t with
  | empty => cases hr
  | node tag ref pre kind ch =>
    cases hr
    rw [h.1]
    exact RlpNode.len_fromRlp_le _

/-- The reference to a node is what the node encodes to. -/
private theorem Hashed.ref_eq (h : t.Hashed) (hn : t.Stands n) : t.ref? = some n.toRlpNode := by
  cases t with
  | empty => exact hn.elim
  | node tag ref pre kind ch =>
    obtain ⟨pointers, hrefs, rfl⟩ := hn
    rw [Kind.toRlpNode_node, funext hrefs, ref?, h.1]

/-- The nodes of a trie fit their buffers. -/
private theorem Stands.buffered (hs : AlloyTrie.Standard) (h : t.Hashed) (hshort : t.Short)
    (hn : t.Stands n) : n.Buffered := by
  cases t with
  | empty => exact hn.elim
  | node tag ref pre kind ch =>
    obtain ⟨pointers, hrefs, rfl⟩ := hn
    apply Node.buffered hs
    · rw [Kind.pre_node]
      exact hshort.1
    · intro i p hp
      obtain ⟨j, hj⟩ : ∃ j, pointers j = some p := by
        rcases kind with (info | v) | _
        · simp only [Kind.node, Node.childAt] at hp
          split at hp
          · exact ⟨0, hp⟩
          · cases hp
        · cases hp
        · exact ⟨i, hp⟩
      have href := hrefs j
      rw [hj] at href
      exact (h.2 j).len_ref href.symm

/-- The root of a trie is long and referenced by its hash. -/
private theorem Shaped.root_hash (h : t.Shaped l) (hn : t.Stands n) :
    32 ≤ n.rlpEncode.length ∧ n.toRlpNode = .hash (AlloyTrie.keccak256 n.rlpEncode) := by
  have hkey : l.keyLength (keyRange l) = 64 := by cases l <;> rfl
  obtain ⟨x, hx⟩ := h.hashed.exists_hash h.rough hkey h.branched (h.hashed.ref_eq hn)
  have hlong : ¬ n.rlpEncode.length < 32 := by
    intro hlt
    rw [Node.toRlpNode, RlpNode.fromRlp, if_pos hlt] at hx
    cases hx
  refine ⟨Nat.le_of_not_lt hlong, ?_⟩
  rw [Node.toRlpNode, RlpNode.fromRlp, if_neg hlong]

/-- The storage of an account has the shape of a trie of slots. -/
theorem Shaped.storage (h : t.Shaped l) {tag : α} {ref : RlpNode} {pre : Nibbles}
    {info : AccountInfo} {ch : Fin 16 → Trie α}
    (hu : (node tag ref pre (.leaf (.account info)) ch).Within t) : (ch 0).Shaped .slots := by
  obtain ⟨l', m', hrough⟩ := h.rough.within hu
  exact ⟨hrough.2.2 0, (h.branched.within hu).2 0, (h.hashed.within hu).2 0,
    (h.short.within hu).2 0⟩

/-- A finished trie has the shape of a trie of accounts. -/
theorem Canonical.shaped (h : t.Canonical) : t.Shaped .accounts := by
  refine ⟨h.rough, h.branched, h.hashed, ?_⟩
  have hshort {m : Nat} (hr : t.Rough .accounts m) (hb : t.Branched) (hf : Housed m t.lookup)
      (hm : 64 ≤ m) (hm' : m ≤ 128) : t.Short := by
    clear h
    induction t generalizing m with
    | empty => trivial
    | node tag ref pre kind ch ih =>
      rcases kind with (info | v) | _
      · have hlen := hr.1.2
        refine ⟨by simp only [maxPrefixLength]; omega, fun i ↦ ?_⟩
        exact (hr.2.2 i).short_slots (Nat.le_refl 64)
      · exact (hr.not_slot hf hm).elim
      · have hpre := hr.length_branch hb hf hm
        refine ⟨by simp only [maxPrefixLength]; omega, fun i ↦ ?_⟩
        exact ih i (hr.2 i) (hb.2 i) (housed_child hf hpre i) (by omega) (by omega)
  exact hshort h.rough h.branched h.housed (by decide) (by decide)

omit [AlloyTrie] in
private theorem rootHash_eq_ok {pointer : Pointer} {x : B256} (h : pointer.rlp = .hash x)
    (s : State Cells) : rootHash pointer.rlp s = .ok x s := by
  rw [rootHash, h]
  rfl

/-- Every node of a trie of the shape that the program builds fits the buffers it is encoded into,
and the root has at least 32 bytes and is referenced by its hash. The hash of a pointer to the root,
and of the pointer in an account to the root of its storage, can be taken, and the account has it as
its storage root. -/
theorem root_by_hash (hs : AlloyTrie.Standard) (t : Trie α) (l : Level) (h : t.Shaped l) :
    (∀ n : Node, t.Stands n →
      32 ≤ n.rlpEncode.length ∧ n.toRlpNode = .hash (AlloyTrie.keccak256 n.rlpEncode) ∧
      ∀ pointer : Pointer, t.ref? = some pointer.rlp → ∀ s,
        rootHash pointer.rlp s = .ok (AlloyTrie.keccak256 n.rlpEncode) s) ∧
    (∀ (u : Trie α) (n : Node), u.Within t → u.Stands n → n.Buffered) ∧
    ∀ tag ref pre info ch (n : Node)
    (pointer : Pointer), (node tag ref pre (.leaf (.account info)) ch).Within t →
      (ch 0).Stands n → (ch 0).ref? = some pointer.rlp →
      Node.storageRootHash (some pointer) = AlloyTrie.keccak256 n.rlpEncode ∧
      ∀ s, rootHash pointer.rlp s = .ok (AlloyTrie.keccak256 n.rlpEncode) s := by
  have hpointer {t : Trie α} {l : Level} (h : t.Shaped l) {n : Node} (hn : t.Stands n)
      {pointer : Pointer} (hp : t.ref? = some pointer.rlp) :
      pointer.rlp = .hash (AlloyTrie.keccak256 n.rlpEncode) := by
    rw [← (h.root_hash hn).2]
    rw [h.hashed.ref_eq hn] at hp
    exact (Option.some.inj hp).symm
  refine ⟨fun n hn ↦ ?_, fun u n hu hn ↦ ?_, fun tag ref pre info ch n pointer hu hn hp ↦ ?_⟩
  · obtain ⟨hlong, hhash⟩ := h.root_hash hn
    exact ⟨hlong, hhash, fun pointer hp s ↦ rootHash_eq_ok (hpointer h hn hp) s⟩
  · exact hn.buffered hs (h.hashed.within hu) (h.short.within hu)
  · have hstorage := hpointer (h.storage hu) hn hp
    refine ⟨?_, fun s ↦ rootHash_eq_ok hstorage s⟩
    simp only [Node.storageRootHash, Option.bind_some, hstorage]
    rfl

end Trie

/-- The encoders of `alloy_trie` are standard. -/
theorem standard_alloyTrie : AlloyTrie.Standard := ⟨fun _ _ ↦ rfl, fun _ _ ↦ rfl⟩

/-- The leaf of a slot whose path ends at the branch above. -/
def lastSlot : Trie Unit := .leaf () [] (.slot 1)

/-- Two slots that differ in the last nibble. -/
def twoSlots : Trie Unit :=
  .fresh () (List.replicate 63 1) .branch fun i ↦ if i < 2 then lastSlot else .empty

/-- An account with two slots. -/
def oneContract : Trie Unit :=
  .fresh () (List.replicate 64 0) (.leaf (.account ⟨1, 1, B256.zero⟩)) fun i ↦
    if i = 0 then twoSlots else .empty

/-- The leaf of the slot is embedded into the branch. -/
private theorem ref_lastSlot : lastSlot.ref? = some (.raw [0xc2, 0x20, 0x01]) := by
  decide +kernel

private theorem ite_child {P : Trie Unit → Prop} {t : Trie Unit} (ht : P t) (hempty : P .empty)
    (c : Prop) [Decidable c] : P (if c then t else .empty) := by
  split
  · exact ht
  · exact hempty

private theorem shaped_twoSlots : twoSlots.Shaped .slots := by
  have hrough : lastSlot.Rough .slots 0 := rough_leaf_new rfl
  have hbranched : lastSlot.Branched := ⟨fun h ↦ (Kind.noConfusion h), fun _ ↦ trivial⟩
  have hhashed : lastSlot.Hashed := ⟨rfl, fun _ ↦ trivial⟩
  have hshort : lastSlot.Short := ⟨by decide, fun _ ↦ trivial⟩
  constructor
  · exact ⟨by decide, fun i ↦ ite_child (P := fun t ↦ t.Rough .slots 0) hrough trivial _⟩
  · exact ⟨fun _ ↦ by decide, fun i ↦ ite_child hbranched trivial _⟩
  · exact ⟨rfl, fun i ↦ ite_child hhashed trivial _⟩
  · exact ⟨by decide, fun i ↦ ite_child hshort trivial _⟩

private theorem shaped_oneContract : oneContract.Shaped .accounts := by
  constructor
  · refine ⟨⟨rfl, rfl⟩, fun i hi ↦ ?_, fun i ↦
      ite_child (P := fun t ↦ t.Rough .slots 64) shaped_twoSlots.rough trivial _⟩
    by_contra hne
    simp_all [Kind.allows]
  · exact ⟨fun h ↦ Kind.noConfusion h, fun i ↦ ite_child shaped_twoSlots.branched trivial _⟩
  · exact ⟨rfl, fun i ↦ ite_child shaped_twoSlots.hashed trivial _⟩
  · exact ⟨by decide, fun i ↦ ite_child shaped_twoSlots.short trivial _⟩

/-- The branch above two embedded leaves is a storage root that is referenced by its hash. -/
theorem root_by_hash_two_slots : ∃ n : Node, twoSlots.Stands n ∧
    32 ≤ n.rlpEncode.length ∧ n.Buffered ∧
    Node.storageRootHash (some ⟨.cell 1, n.toRlpNode⟩) = AlloyTrie.keccak256 n.rlpEncode := by
  have hstands : twoSlots.Stands (Kind.node (List.replicate 63 1)
      (fun i ↦ if i < 2 then some ⟨.cell 2, .raw [0xc2, 0x20, 0x01]⟩ else none) .branch) := by
    refine ⟨_, fun i ↦ ?_, rfl⟩
    by_cases hi : i < 2
    · simp only [if_pos hi, ref_lastSlot, Option.map_some]
    · simp only [if_neg hi, Option.map_none]
      rfl
  have hslots := root_by_hash standard_alloyTrie twoSlots .slots shaped_twoSlots
  have hcontract := root_by_hash standard_alloyTrie oneContract .accounts shaped_oneContract
  exact ⟨_, hstands, (hslots.1 _ hstands).1, hslots.2.1 _ _ .root hstands,
    (hcontract.2.2 _ _ _ _ _ _ ⟨.cell 1, _⟩ .root hstands
      (shaped_twoSlots.hashed.ref_eq hstands)).1⟩

end TrieDb

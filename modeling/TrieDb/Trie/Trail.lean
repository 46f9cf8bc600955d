import TrieDb.Alloy.Verify
import TrieDb.Trie.Lengths

/-!
# Proofs and tries

The encoded nodes on the way to a leaf, as the proofs of `src/storage/proofs.rs` list them, and when
the verifier accepts them: a node that is embedded in the one above it is resolved with that one,
and must not be listed again.
-/

namespace TrieDb

open Trie

/-- The encoded value of a leaf, with the storage root of an account. -/
def Entry.bytes (root : B256) : Entry → List UInt8
  | .account info => Merkle.accountRlp ⟨info.nonce, info.balance, root, info.codeHash⟩
  | .slot v => Merkle.slotRlp v

variable [AlloyTrie]

/-! ### Encodings -/

namespace Kind

/-- The encoding of a node of a kind whose children have the given references. -/
def encoding (pre : Nibbles) (refs : Fin 16 → Option RlpNode) (k : Kind) : List UInt8 :=
  (k.node pre fun i ↦ (refs i).map (Pointer.mk (.cell 0))).rlpEncode

variable {pre : Nibbles} {refs : Fin 16 → Option RlpNode}

private theorem rlp_eq (k : Kind) : k.rlp pre refs = .fromRlp (k.encoding pre refs) := rfl

private theorem encoding_leaf (e : Entry) : (leaf e).encoding pre refs =
    AlloyTrie.leafNode pre (e.bytes (((refs 0).bind RlpNode.asHash).getD emptyRootHash)) := by
  cases e with
  | account info =>
    have hroot : Node.storageRootHash ((refs 0).map (Pointer.mk (.cell 0))) =
        ((refs 0).bind RlpNode.asHash).getD emptyRootHash := by
      cases refs 0 <;> rfl
    simp only [encoding, node, Node.rlpEncode, hroot, Entry.bytes,
      ← Node.encodeAccountLeaf_eq_accountRlp]
  | slot v =>
    rw [Entry.bytes, ← Merkle.encodeUint_eq_slotRlp]
    rfl

private theorem encoding_branch : branch.encoding pre refs =
    if pre = [] then Merkle.branchRlp refs
    else AlloyTrie.extensionNode pre (.fromRlp (Merkle.branchRlp refs)) := by
  have hrefs (p : Option RlpNode) : (p.map (Pointer.mk (.cell 0))).map Pointer.rlp = p := by
    cases p <;> rfl
  simp only [encoding, node, Node.rlpEncode, hrefs, List.isEmpty_iff,
    Node.encodeBranch_eq_branchRlp]

/-- Encodings only depend on the references of the children. -/
theorem rlpEncode_node (k : Kind) (pointers : Fin 16 → Option Pointer) :
    (k.node pre pointers).rlpEncode = k.encoding pre fun i ↦ (pointers i).map Pointer.rlp := by
  have hroot : Node.storageRootHash (pointers 0) =
      Node.storageRootHash (((pointers 0).map Pointer.rlp).map (Pointer.mk (.cell 0))) := by
    cases pointers 0 <;> rfl
  have hrefs (p : Option Pointer) :
      ((p.map Pointer.rlp).map (Pointer.mk (.cell 0))).map Pointer.rlp = p.map Pointer.rlp := by
    cases p <;> rfl
  rcases k with (info | v) | _
  · simp only [encoding, node, Node.rlpEncode, hroot]
  · rfl
  · simp only [encoding, node, Node.rlpEncode, hrefs]
    rfl

omit [AlloyTrie] in
private theorem branchRlp_list (refs : Fin 16 → Option RlpNode) :
    ∃ payload, Merkle.branchRlp refs = Rlp.encodeList payload := by
  rw [← Node.encodeBranch_eq_branchRlp]
  exact ⟨_, encodeBranch_eq refs rfl⟩

/-- Every node is encoded as a list. -/
private theorem encoding_list (hs : AlloyTrie.Standard) (k : Kind) (pre : Nibbles)
    (refs : Fin 16 → Option RlpNode) :
    ∃ payload, k.encoding pre refs = Rlp.encodeList payload := by
  cases k with
  | leaf e => exact ⟨_, (encoding_leaf e).trans (hs.leaf _ _)⟩
  | branch =>
    rw [encoding_branch]
    split
    · exact branchRlp_list refs
    · exact ⟨_, hs.extension _ _⟩

end Kind

/-- The reference to a trie that is embedded as it encodes. -/
private theorem Trie.Hashed.refers {α : Type} {t : Trie α} (hs : AlloyTrie.Standard) (h : t.Hashed)
    {r : RlpNode} (hr : t.ref? = some r) : r.Refers := by
  cases t with
  | empty => cases hr
  | node tag ref pre kind ch =>
    cases hr
    obtain ⟨payload, hp⟩ := Kind.encoding_list hs kind pre fun i ↦ (ch i).ref?
    exact ⟨payload, by rw [h.1, Kind.rlp_eq, hp]⟩

namespace Trie

variable {α : Type} {t : Trie α} {q : Nibbles} {k : Nat} {nodes : List (Nat × List UInt8)}
  {e : Entry} {st : Trie α}

/-- The hash by which an account refers to its storage. -/
def rootOf (st : Trie α) : B256 := (st.ref?.bind RlpNode.asHash).getD emptyRootHash

/-- The branch of a node with a prefix is listed where the prefix ends. -/
def branchPart (k : Nat) (pre : Nibbles) (refs : Fin 16 → Option RlpNode) :
    List (Nat × List UInt8) :=
  if pre = [] then [] else [(k + pre.length, Merkle.branchRlp refs)]

/-- The encoded nodes on the way from a node at depth `k` to a leaf, with the depths at which they
start, the value of the leaf and the storage below it. -/
inductive Trail : Trie α → Nibbles → Nat → List (Nat × List UInt8) → Entry → Trie α → Prop
  | leaf {tag : α} {ref : RlpNode} {pre : Nibbles} {e : Entry} {ch : Fin 16 → Trie α} {k : Nat} :
      Trail (node tag ref pre (.leaf e) ch) pre k
        [(k, (Kind.leaf e).encoding pre fun i ↦ (ch i).ref?)] e (ch 0)
  | branch {tag : α} {ref : RlpNode} {pre : Nibbles} {e : Entry} {ch : Fin 16 → Trie α} {k : Nat}
      {i : Fin 16} {rest : Nibbles} {nodes : List (Nat × List UInt8)} {st : Trie α}
      (h : Trail (ch i) rest (k + pre.length + 1) nodes e st) :
      Trail (node tag ref pre .branch ch) (pre ++ i :: rest) k
        ((k, Kind.branch.encoding pre fun i ↦ (ch i).ref?) ::
          (branchPart k pre (fun i ↦ (ch i).ref?) ++ nodes)) e st

/-- No node on the way to a path is embedded in the one above it, and no branch in the extension
above it. -/
def Unembedded : Trie α → Nibbles → Prop
  | empty => fun _ ↦ True
  | node _ _ pre kind ch => fun path ↦ kind = .branch →
      (pre ≠ [] → 32 ≤ (Merkle.branchRlp fun i ↦ (ch i).ref?).length) ∧
      ∀ i rest, path = pre ++ i :: rest →
        (∀ bytes, (ch i).ref? ≠ some (.raw bytes)) ∧ (ch i).Unembedded rest

/-! ### Lengths -/

omit [AlloyTrie] in
/-- A child is embedded between the header and the empty value. -/
private theorem len_lt_branchRlp (refs : Fin 16 → Option RlpNode) {i : Fin 16} {r : RlpNode}
    (hi : refs i = some r) : r.len + 2 ≤ (Merkle.branchRlp refs).length := by
  have hmem : r.len ≤ ((List.finRange 16).flatMap fun i ↦ embedded (refs i)).length := by
    rw [List.length_flatMap, ← Fin.sum_univ_def]
    calc r.len = (embedded (refs i)).length := by rw [hi]; rfl
      _ ≤ ∑ k, (embedded (refs k)).length :=
          Finset.single_le_sum (f := fun k ↦ (embedded (refs k)).length) (fun _ _ ↦ Nat.zero_le _)
            (Finset.mem_univ i)
  have hheader := Rlp.length_listHeader_pos
    ((List.finRange 16).flatMap (fun i ↦ embedded (refs i)) ++ [0x80]).length
  rw [← Node.encodeBranch_eq_branchRlp, encodeBranch_eq refs rfl, List.length_append]
  rw [List.length_append, List.length_singleton] at hheader ⊢
  omega

omit [AlloyTrie] in
private theorem len_hash (x : B256) : (RlpNode.hash x).len = 33 := by
  simp [RlpNode.len, RlpNode.bytes]

omit [AlloyTrie] in
/-- A branch of fewer than 32 bytes embeds its children. -/
private theorem exists_raw {refs : Fin 16 → Option RlpNode} {i : Fin 16} {r : RlpNode}
    (hi : refs i = some r) (h : (Merkle.branchRlp refs).length < 32) :
    ∃ bytes, r = .raw bytes := by
  cases r with
  | raw bytes => exact ⟨bytes, rfl⟩
  | hash x =>
    have := len_lt_branchRlp refs hi
    rw [len_hash] at this
    omega

private theorem fromRlp_of_lt {bytes : List UInt8} (h : bytes.length < 32) :
    RlpNode.fromRlp bytes = .raw bytes := if_pos h

private theorem fromRlp_of_le {bytes : List UInt8} (h : 32 ≤ bytes.length) :
    RlpNode.fromRlp bytes = .hash (AlloyTrie.keccak256 bytes) := if_neg (Nat.not_lt.mpr h)

private theorem raw_iff {bytes bytes' : List UInt8} :
    RlpNode.fromRlp bytes = .raw bytes' ↔ bytes.length < 32 ∧ bytes = bytes' := by
  unfold RlpNode.fromRlp
  split <;> simp_all

private theorem hash_iff {bytes : List UInt8} {x : B256} :
    RlpNode.fromRlp bytes = .hash x ↔ 32 ≤ bytes.length ∧ AlloyTrie.keccak256 bytes = x := by
  unfold RlpNode.fromRlp
  split
  · simp
    omega
  · simp
    omega

/-- An extension of fewer than 32 bytes embeds its branch. -/
private theorem lt_of_extension {pre : Nibbles} {branch : List UInt8}
    (h : (AlloyTrie.extensionNode pre (.fromRlp branch)).length < 32) : branch.length < 32 := by
  have hlen := AlloyTrie.length_extensionNode pre (.fromRlp branch)
  by_contra hle
  rw [fromRlp_of_le (Nat.not_lt.mp hle), len_hash] at hlen
  rw [fromRlp_of_le (Nat.not_lt.mp hle)] at h
  omega

/-- The value of a leaf is shorter than the leaf. -/
private theorem length_lt_leafNode (hs : AlloyTrie.Standard) (pre : Nibbles) (value : List UInt8) :
    value.length < (AlloyTrie.leafNode pre value).length := by
  have hvalue := Rlp.length_encodeBytes value
  have hheader := Rlp.length_listHeader_pos
    (Rlp.encodeBytes (Rlp.hexPrefix true pre) ++ Rlp.encodeBytes value).length
  rw [hs.leaf, Rlp.encodeList, List.length_append, List.length_append]
  rw [List.length_append] at hheader
  split at hvalue <;> omega

namespace Trail

/-- A trail starts at a node. -/
theorem exists_tag (h : Trail t q k nodes e st) : ∃ c, t.tag? = some c := by
  cases h <;> exact ⟨_, rfl⟩

/-- A trail starts at a node with a reference. -/
theorem ref_ne (h : Trail t q k nodes e st) : ∃ r, t.ref? = some r := by
  cases h <;> exact ⟨_, rfl⟩

omit [AlloyTrie] in
/-- An embedded child is shorter than the branch. -/
private theorem length_raw_lt (refs : Fin 16 → Option RlpNode) {i : Fin 16} {bytes : List UInt8}
    (hi : refs i = some (.raw bytes)) : bytes.length < (Merkle.branchRlp refs).length := by
  have hlen : bytes.length + 2 ≤ _ := len_lt_branchRlp refs hi
  omega

/-- The value of a leaf is shorter than every node in which it is embedded. -/
private theorem length_lt (hs : AlloyTrie.Standard) (h : Trail t q k nodes e st) (hh : t.Hashed)
    {bytes : List UInt8} (hr : t.ref? = some (.raw bytes)) :
    (e.bytes st.rootOf).length < bytes.length := by
  induction h generalizing bytes with
  | leaf =>
    have hr' := hh.1.symm.trans (Option.some.inj hr)
    rw [Kind.rlp_eq, raw_iff, Kind.encoding_leaf] at hr'
    rw [← hr'.2]
    exact length_lt_leafNode hs _ _
  | @branch tag ref pre e ch k i rest nodes st h ih =>
    have hr' := hh.1.symm.trans (Option.some.inj hr)
    rw [Kind.rlp_eq, raw_iff, Kind.encoding_branch] at hr'
    obtain ⟨r, hri⟩ := h.ref_ne
    have hbelow (hlt : (Merkle.branchRlp fun i ↦ (ch i).ref?).length < 32) :
        (e.bytes st.rootOf).length < (Merkle.branchRlp fun i ↦ (ch i).ref?).length := by
      obtain ⟨child, rfl⟩ := exists_raw hri hlt
      exact (ih (hh.2 i) hri).trans (length_raw_lt (fun i ↦ (ch i).ref?) hri)
    obtain ⟨hlt, rfl⟩ := hr'
    split at hlt
    · next hnil =>
      rw [if_pos hnil]
      exact hbelow hlt
    · next hpre =>
      have hbranch := lt_of_extension hlt
      have hlen := AlloyTrie.length_extensionNode pre
        (.fromRlp (Merkle.branchRlp fun i ↦ (ch i).ref?))
      rw [if_neg hpre]
      rw [fromRlp_of_lt hbranch] at hlen ⊢
      have hraw : (Merkle.branchRlp fun i ↦ (ch i).ref?).length ≤ (RlpNode.raw
          (Merkle.branchRlp fun i ↦ (ch i).ref?)).len := Nat.le_refl _
      have := hbelow hbranch
      omega

section
variable {decode : List UInt8 → Option TrieNode} {key walked : Nibbles} {pre : Nibbles}
  {ch : Fin 16 → Trie α} {root : B256} {x : B256}

omit [AlloyTrie] in
private theorem length_bytes_lt (e : Entry) (root : B256) : (e.bytes root).length < 2 ^ 32 := by
  cases e with
  | account info => exact (Merkle.length_accountRlp _).2.trans_lt (by decide)
  | slot v => exact (Merkle.length_slotRlp_le v).trans_lt (by decide)

private theorem decode_leaf (hd : Decodes decode) (hpre : pre.length ≤ 64) (e : Entry) :
    decode (AlloyTrie.leafNode pre (e.bytes root)) = some (.leaf pre (e.bytes root)) :=
  hd _ _ (.leaf hpre (length_bytes_lt e root))

private theorem decode_branch (hs : AlloyTrie.Standard) (hd : Decodes decode)
    (hh : ∀ i, (ch i).Hashed) :
    decode (Merkle.branchRlp fun i ↦ (ch i).ref?) = some (.branch fun i ↦ (ch i).ref?) :=
  hd _ _ (.branch fun i _ hr ↦ (hh i).refers hs hr)

private theorem decode_extension (hd : Decodes decode) (hpre : pre.length ≤ 64)
    (ch : Fin 16 → Trie α) :
    decode (AlloyTrie.extensionNode pre (.fromRlp (Merkle.branchRlp fun i ↦ (ch i).ref?))) =
      some (.extension pre (.fromRlp (Merkle.branchRlp fun i ↦ (ch i).ref?))) := by
  obtain ⟨payload, hp⟩ := Kind.branchRlp_list fun i ↦ (ch i).ref?
  exact hd _ _ (.extension hpre ⟨payload, by rw [hp]⟩)

/-- A leaf that is embedded in a child of a branch is found with the branch. -/
private theorem resolves (hs : AlloyTrie.Standard) (hd : Decodes decode)
    (h : Trail t q k nodes e st) (hh : t.Hashed) (hshort : t.Short) {refs : Fin 16 → Option RlpNode}
    {i : Fin 16}
    {bytes : List UInt8} (hi : refs i = some (.raw bytes)) (hr : t.ref? = some (.raw bytes))
    (hkey : key = walked ++ i :: q) :
    processBranch decode key refs walked = some (some (.value (e.bytes st.rootOf)), key) := by
  induction h generalizing refs i bytes walked with
  | leaf =>
    have hr' := hh.1.symm.trans (Option.some.inj hr)
    rw [Kind.rlp_eq, raw_iff, Kind.encoding_leaf] at hr'
    rw [← hr'.2] at hi
    rw [processBranch_leaf hkey hi (decode_leaf hd hshort.1 _), hkey]
    rfl
  | @branch tag ref pre e ch k j rest nodes st h ih =>
    have hr' := hh.1.symm.trans (Option.some.inj hr)
    rw [Kind.rlp_eq, raw_iff, Kind.encoding_branch] at hr'
    obtain ⟨r, hrj⟩ := h.ref_ne
    have hbranch := decode_branch hs hd hh.2
    have hbelow (hlt : (Merkle.branchRlp fun i ↦ (ch i).ref?).length < 32) {walked : Nibbles}
        (hkey : key = walked ++ j :: rest) :
        processBranch decode key (fun i ↦ (ch i).ref?) walked =
          some (some (.value (e.bytes st.rootOf)), key) := by
      obtain ⟨child, rfl⟩ := exists_raw hrj hlt
      exact ih (hh.2 j) (hshort.2 j) hrj hrj hkey
    obtain ⟨hlt, hbytes⟩ := hr'
    split at hlt
    · next hnil =>
      subst hnil
      rw [if_pos rfl] at hbytes
      rw [← hbytes] at hi
      rw [processBranch_branch hkey hi hbranch]
      exact hbelow hlt (by simp [hkey])
    · next hpre =>
      have hlt' := lt_of_extension hlt
      rw [if_neg hpre] at hbytes
      rw [← hbytes] at hi
      have hc : decode (RlpNode.fromRlp (Merkle.branchRlp fun i ↦ (ch i).ref?)).bytes =
          some (.branch fun i ↦ (ch i).ref?) := by
        rw [fromRlp_of_lt hlt']
        exact hbranch
      rw [processBranch_extension hkey hi (decode_extension hd hshort.1 ch) hc]
      exact hbelow hlt' (by simp [hkey])

/-- The first node is the one the root is referenced by. -/
private theorem head (h : Trail t q k nodes e st) (hh : t.Hashed) :
    ∃ bytes rest, nodes = (k, bytes) :: rest ∧ t.ref? = some (.fromRlp bytes) := by
  cases h with
  | leaf => exact ⟨_, _, rfl, congrArg some hh.1⟩
  | branch h => exact ⟨_, _, rfl, congrArg some hh.1⟩

/-- After a leaf has been found, no node that embeds it may follow. -/
private theorem mismatch (hs : AlloyTrie.Standard) (h : Trail t q k nodes e st) (hh : t.Hashed)
    {bytes : List UInt8} (hr : t.ref? = some (.raw bytes)) :
    verifyNodes decode key (nodes.map Prod.snd) (some (.value (e.bytes st.rootOf))) walked =
      none := by
  obtain ⟨bytes', rest, rfl, hr'⟩ := h.head hh
  obtain ⟨hlt, rfl⟩ := raw_iff.mp (Option.some.inj (hr'.symm.trans hr))
  have hlen := h.length_lt hs hh hr
  apply verifyNodes_mismatch
  rw [fromRlp_of_lt hlt]
  intro he
  have : bytes' = e.bytes st.rootOf := Option.some.inj he
  rw [this] at hlen
  exact lt_irrefl _ hlen

/-- What the verifier makes of the nodes on the way to a leaf. -/
def Verdict (decode : List UInt8 → Option TrieNode) (key walked : Nibbles)
    (nodes : List (Nat × List UInt8)) (last : Option NodeDecodingResult) (value : List UInt8)
    (P : Prop) : Prop :=
  (P → verifyNodes decode key (nodes.map Prod.snd) last walked = some (some (.value value), key)) ∧
    (¬ P → verifyNodes decode key (nodes.map Prod.snd) last walked = none)

/-- A branch and the nodes on the way below it. -/
private theorem branch_verdict (hs : AlloyTrie.Standard) (hd : Decodes decode) {i : Fin 16}
    {rest : Nibbles} (k' : Nat) (h : Trail (ch i) rest k nodes e st) (hh : ∀ i, (ch i).Hashed)
    (hshort : ∀ i, (ch i).Short) (last : Option NodeDecodingResult)
    (hlast : some (RlpNode.fromRlp (Merkle.branchRlp fun i ↦ (ch i).ref?)).bytes =
      last.map NodeDecodingResult.bytes)
    (hkey : key = walked ++ i :: rest)
    (hchild : ∀ x, (ch i).ref? = some (.hash x) →
      Verdict decode key (walked ++ [i]) nodes (some (.node (.hash x))) (e.bytes st.rootOf)
        ((ch i).Unembedded rest)) :
    Verdict decode key walked ((k', Merkle.branchRlp fun i ↦ (ch i).ref?) :: nodes) last
      (e.bytes st.rootOf)
      ((∀ bytes, (ch i).ref? ≠ some (.raw bytes)) ∧ (ch i).Unembedded rest) := by
  have hbranch := decode_branch hs hd hh
  obtain ⟨r, hr⟩ := h.ref_ne
  cases r with
  | hash x =>
    have hstep := verifyNodes_branch (nodes.map Prod.snd) hlast hbranch
      (processBranch_hash hkey hr)
    obtain ⟨hpos, hneg⟩ := hchild x hr
    refine ⟨fun hP ↦ hstep.trans (hpos hP.2), fun hP ↦ hstep.trans (hneg fun hu ↦ hP ⟨?_, hu⟩)⟩
    intro bytes hraw
    cases hr.symm.trans hraw
  | raw bytes =>
    have hstep := verifyNodes_branch (nodes.map Prod.snd) hlast hbranch
      (h.resolves hs hd (hh i) (hshort i) hr hr hkey)
    refine ⟨fun hP ↦ absurd hr (hP.1 bytes), fun _ ↦ ?_⟩
    exact hstep.trans (h.mismatch hs (hh i) hr)

/-- The verifier accepts the nodes on the way to a leaf if none of them is embedded, and rejects
them otherwise. -/
private theorem verdict (hs : AlloyTrie.Standard) (hd : Decodes decode) (h : Trail t q k nodes e st)
    (hh : t.Hashed) (hshort : t.Short) (hr : t.ref? = some (.hash x)) (hkey : key = walked ++ q) :
    Verdict decode key walked nodes (some (.node (.hash x))) (e.bytes st.rootOf)
      (t.Unembedded q) := by
  induction h generalizing x walked with
  | @leaf tag ref pre e ch k =>
    have hr' := hh.1.symm.trans (Option.some.inj hr)
    have hlast : some (RlpNode.fromRlp ((Kind.leaf e).encoding pre fun i ↦ (ch i).ref?)).bytes =
        Option.map NodeDecodingResult.bytes (some (.node (.hash x))) := by
      rw [← Kind.rlp_eq, hr']
      rfl
    refine ⟨fun _ ↦ ?_, fun hP ↦ (hP fun hk ↦ Kind.noConfusion hk).elim⟩
    rw [Kind.encoding_leaf] at hlast
    simp only [List.map_cons, List.map_nil, Kind.encoding_leaf]
    rw [verifyNodes_leaf _ hlast (decode_leaf hd hshort.1 e), verifyNodes, hkey]
    rfl
  | @branch tag ref pre e ch k i rest nodes st h ih =>
    have hr' := hh.1.symm.trans (Option.some.inj hr)
    have hlast : some (RlpNode.fromRlp (Kind.branch.encoding pre fun i ↦ (ch i).ref?)).bytes =
        Option.map NodeDecodingResult.bytes (some (.node (.hash x))) := by
      rw [← Kind.rlp_eq, hr']
      rfl
    have hunembedded : (node tag ref pre .branch ch).Unembedded (pre ++ i :: rest) ↔
        (pre ≠ [] → 32 ≤ (Merkle.branchRlp fun i ↦ (ch i).ref?).length) ∧
          (∀ bytes, (ch i).ref? ≠ some (.raw bytes)) ∧ (ch i).Unembedded rest := by
      constructor
      · intro hu
        exact ⟨(hu rfl).1, (hu rfl).2 i rest rfl⟩
      · rintro ⟨hlong, hu⟩ -
        refine ⟨hlong, fun j rest' he ↦ ?_⟩
        obtain ⟨rfl, rfl⟩ := List.cons.inj (List.append_cancel_left he)
        exact hu
    have hchild (walked : Nibbles) (hkey : key = walked ++ i :: rest) (x : B256)
        (hx : (ch i).ref? = some (.hash x)) : Verdict decode key (walked ++ [i]) nodes
          (some (.node (.hash x))) (e.bytes st.rootOf) ((ch i).Unembedded rest) :=
      ih (hh.2 i) (hshort.2 i) hx (by rw [hkey]; simp)
    rw [Kind.encoding_branch] at hlast ⊢
    rw [Verdict, hunembedded]
    by_cases hnil : pre = []
    · subst hnil
      rw [if_pos rfl] at hlast ⊢
      have hbranch := branch_verdict hs hd k h hh.2 hshort.2 _ hlast hkey (hchild walked hkey)
      exact ⟨fun hP ↦ hbranch.1 hP.2, fun hP ↦ hbranch.2 fun hu ↦ hP ⟨fun hne ↦ absurd rfl hne, hu⟩⟩
    · rw [if_neg hnil] at hlast ⊢
      have hext := decode_extension hd hshort.1 ch
      have hkey' : key = (walked ++ pre) ++ i :: rest := by rw [hkey]; simp
      simp only [branchPart, hnil, if_false, List.map_cons, List.singleton_append]
      by_cases hlong : 32 ≤ (Merkle.branchRlp fun i ↦ (ch i).ref?).length
      · rw [fromRlp_of_le hlong] at hext hlast
        rw [fromRlp_of_le hlong, verifyNodes_hashed _ hlast hext]
        have hbranch := branch_verdict hs hd k h hh.2 hshort.2
          (some (.node (.fromRlp (Merkle.branchRlp fun i ↦ (ch i).ref?)))) rfl hkey'
          (hchild _ hkey')
        rw [fromRlp_of_le hlong] at hbranch
        exact ⟨fun hP ↦ hbranch.1 hP.2, fun hP ↦ hbranch.2 fun hu ↦ hP ⟨fun _ ↦ hlong, hu⟩⟩
      · have hlt := Nat.lt_of_not_le hlong
        obtain ⟨r, hri⟩ := h.ref_ne
        obtain ⟨child, rfl⟩ := exists_raw hri hlt
        refine ⟨fun hP ↦ absurd (hP.1 hnil) hlong, fun _ ↦ ?_⟩
        rw [fromRlp_of_lt hlt] at hext hlast
        rw [fromRlp_of_lt hlt, verifyNodes_embedded _ hlast hext (decode_branch hs hd hh.2)
          (h.resolves hs hd (hh.2 i) (hshort.2 i) hri hri hkey')]
        apply verifyNodes_mismatch
        rw [fromRlp_of_lt hlt]
        intro he
        have hlen := (h.length_lt hs (hh.2 i) hri).trans
          (length_raw_lt (fun i ↦ (ch i).ref?) hri)
        rw [show Merkle.branchRlp (fun i ↦ (ch i).ref?) = e.bytes st.rootOf from
          Option.some.inj he] at hlen
        exact lt_irrefl _ hlen

/-- The verifier accepts the nodes on the way to a leaf if and only if none of them is embedded. -/
theorem verifyProof_iff (hs : AlloyTrie.Standard) (hd : Decodes decode) (h : Trail t q k nodes e st)
    (hh : t.Hashed) (hshort : t.Short) (hr : t.ref? = some (.hash x)) :
    verifyProof decode q x (some (e.bytes st.rootOf)) (nodes.map Prod.snd) = true ↔
      t.Unembedded q := by
  obtain ⟨bytes, rest, hnodes, hr'⟩ := h.head hh
  have hlong := (hash_iff.mp (Option.some.inj (hr'.symm.trans hr))).1
  have hfirst : ¬ (nodes.map Prod.snd = [] ∨ (nodes.map Prod.snd).head? = some [0x80]) := by
    rw [hnodes]
    rintro (he | he)
    · cases he
    · rw [Option.some.inj (show some bytes = some [0x80] from he)] at hlong
      simp at hlong
  obtain ⟨hpos, hneg⟩ := h.verdict hs hd hh hshort hr (List.nil_append q).symm
  rw [verifyProof, if_neg hfirst]
  constructor
  · intro haccept
    by_contra hu
    rw [hneg hu] at haccept
    cases haccept
  · intro hu
    rw [hpos hu]
    simp [NodeDecodingResult.bytes]

end

/-! ### Depths -/

/-- The depths at which the nodes start grow. -/
theorem sorted (h : Trail t q k nodes e st) : (nodes.map Prod.fst).Pairwise (· < ·) ∧
    ∀ n ∈ nodes, k ≤ n.1 ∧ n.1 ≤ k + q.length := by
  induction h with
  | leaf => simp
  | @branch tag ref pre e ch k i rest nodes st h ih =>
    obtain ⟨hpair, hbound⟩ := ih
    have hpart : ∀ n ∈ branchPart k pre (fun i ↦ (ch i).ref?), k < n.1 ∧ n.1 = k + pre.length := by
      intro n hn
      unfold branchPart at hn
      split at hn
      · cases hn
      · next hpre =>
        have := List.length_pos_iff.mpr hpre
        rw [List.mem_singleton.mp hn]
        exact ⟨Nat.lt_add_of_pos_right this, rfl⟩
    have hlen : (pre ++ i :: rest).length = pre.length + (rest.length + 1) := by simp
    refine ⟨?_, ?_⟩
    · rw [List.map_cons, List.map_append, List.pairwise_cons, List.pairwise_append]
      refine ⟨?_, ?_, hpair, ?_⟩
      · intro d hd
        rw [← List.map_append] at hd
        obtain ⟨n, hn, rfl⟩ := List.mem_map.mp hd
        rcases List.mem_append.mp hn with hn | hn
        · exact (hpart n hn).1
        · have := hbound n hn
          simp only
          omega
      · unfold branchPart
        split <;> simp
      · intro d hd d' hd'
        obtain ⟨n, hn, rfl⟩ := List.mem_map.mp hd
        obtain ⟨n', hn', rfl⟩ := List.mem_map.mp hd'
        have h1 := hpart n hn
        have h2 := hbound n' hn'
        omega
    · intro n hn
      rw [hlen]
      rcases List.mem_cons.mp hn with rfl | hn
      · simp only
        omega
      · rcases List.mem_append.mp hn with hn | hn
        · have := hpart n hn
          omega
        · have := hbound n hn
          omega

end Trail

/-! ### Leaves -/

/-- There is a way to every slot of a storage trie, and to every account. -/
theorem exists_trail {l : Level} {n : Nat} (h : t.Rough l n) (hq : t.lookup q = some e)
    (he : l = .slots ∨ ∃ info, e = .account info) (k : Nat) :
    ∃ nodes st, Trail t q k nodes e st := by
  induction t generalizing q n k with
  | empty => cases hq
  | node tag ref pre kind ch ih =>
    rcases path_cases pre q with hp | rfl | ⟨i, r, rfl⟩
    · rw [lookup_outside hp] at hq
      cases hq
    · rcases kind with e | _
      · rw [lookup_leaf_self] at hq
        cases hq
        exact ⟨_, _, .leaf⟩
      · rw [lookup_branch_self] at hq
        cases hq
    · rcases kind with (info | w) | _
      · -- the values below an account are slots
        rw [lookup_account_append] at hq
        obtain ⟨v, rfl⟩ := (h.2.2 0).slot hq
        rcases he with rfl | ⟨info, he⟩
        · cases h.1.1
        · cases he
      · rw [lookup_slot_append] at hq
        cases hq
      · rw [lookup_branch_append] at hq
        obtain ⟨nodes, st, hc⟩ := ih i (h.2 i) hq (k + pre.length + 1)
        exact ⟨_, _, .branch hc⟩

namespace Trail

/-- The leaf at the end of a way. -/
theorem within (h : Trail t q k nodes e st) :
    ∃ tag ref pre ch, (node tag ref pre (.leaf e) ch).Within t ∧ st = ch 0 := by
  induction h with
  | leaf => exact ⟨_, _, _, _, .root, rfl⟩
  | branch h ih =>
    obtain ⟨tag, ref, pre, ch, hw, hst⟩ := ih
    exact ⟨tag, ref, pre, ch, .child _ hw, hst⟩

/-- The slots of an account are in its storage. -/
theorem lookup_storage {info : AccountInfo} (h : Trail t q k nodes (.account info) st) (i : Fin 16)
    (r : Nibbles) : t.lookup (q ++ i :: r) = st.lookup (i :: r) := by
  generalize he : Entry.account info = e at h
  induction h with
  | leaf =>
    subst he
    rw [lookup_account_append]
  | branch h ih =>
    rw [List.append_assoc, List.cons_append, lookup_branch_append]
    exact ih he

private theorem lookup_eq (h : Trail t q k nodes e st) : t.lookup q = some e := by
  induction h with
  | leaf => rw [lookup_leaf_self]
  | branch h ih => rwa [lookup_branch_append]

/-- The storage root of an account is the hash of its storage. -/
private theorem storageRoot_eq {info : AccountInfo} {n : Nat}
    (h : Trail t q k nodes (.account info) st) (hr : t.Rough .accounts n) (hb : t.Branched)
    (hh : t.Hashed) :
    Entries.storageRoot t.lookup q = st.rootOf := by
  generalize he : Entry.account info = e at h
  induction h generalizing n with
  | leaf =>
    subst he
    exact storageRoot_account hr (hb.2 0) (hh.2 0)
  | branch h ih =>
    rw [storageRoot_branch]
    exact ih (hr.2 _) (hb.2 _) (hh.2 _) he

/-- A trail to an account ends at its storage. -/
theorem storage_eq {info : AccountInfo} (h : Trail t q k nodes (.account info) st) :
    t.storage q = st := by
  generalize he : Entry.account info = e at h
  induction h with
  | leaf =>
    subst he
    exact if_pos rfl
  | branch h ih =>
    simp only [storage, List.drop_left, List.prefix_append, if_true]
    exact ih he

/-- The account at the end of a way. -/
theorem account_eq {info : AccountInfo} {n : Nat} (h : Trail t q k nodes (.account info) st)
    (hr : t.Rough .accounts n) (hb : t.Branched) (hh : t.Hashed) : Entries.account t.lookup q =
      some ⟨info.nonce, info.balance, st.rootOf, info.codeHash⟩ := by
  rw [Entries.account, Entries.value, h.lookup_eq]
  simp only [h.storageRoot_eq hr hb hh]

end Trail

/-! ### Accounts -/

omit [AlloyTrie] in
/-- A branch with two children that are referenced by hash is long. -/
private theorem two_hashes {ch : Fin 16 → Trie α} (hb : 2 ≤ (occupied ch).length)
    (h : ∀ i r, (ch i).ref? = some r → ∃ x, r = .hash x) :
    32 ≤ (Merkle.branchRlp fun i ↦ (ch i).ref?).length := by
  obtain ⟨i, j, hij, hi, hj⟩ := exists_two_children hb
  have hchild (k : Fin 16) (hk : ch k ≠ empty) : ∃ x, (ch k).ref? = some (.hash x) := by
    cases hc : (ch k).ref? with
    | none =>
      cases hc' : ch k with
      | empty => exact absurd hc' hk
      | node tag ref pre kind ch' =>
        rw [hc'] at hc
        cases hc
    | some r =>
      obtain ⟨x, rfl⟩ := h k r hc
      exact ⟨x, rfl⟩
  obtain ⟨x, hx⟩ := hchild i hi
  have := len_lt_branchRlp (fun i ↦ (ch i).ref?) hx
  rw [len_hash] at this
  omega

/-- The nodes of a trie of accounts are referenced by hash. -/
private theorem Hashed.account_hash {n : Nat} (hs : AlloyTrie.Standard) (hh : t.Hashed)
    (h : t.Rough .accounts n) (hb : t.Branched) (hf : Housed n t.lookup) (hn : 64 ≤ n)
    {r : RlpNode} (hr : t.ref? = some r) : ∃ x, r = .hash x := by
  induction t generalizing n r with
  | empty => cases hr
  | node tag ref pre kind ch ih =>
    cases hr
    rw [hh.1, Kind.rlp_eq]
    rcases kind with (info | v) | _
    · have hlen := length_lt_leafNode hs pre (Entry.bytes (ch 0).rootOf (.account info))
      have hvalue : 70 ≤ (Entry.bytes (ch 0).rootOf (.account info)).length :=
        (Merkle.length_accountRlp _).1
      rw [Kind.encoding_leaf, fromRlp_of_le]
      · exact ⟨_, rfl⟩
      · exact (Nat.le_of_add_right_le (k := 38) hvalue).trans hlen.le
    · exact (h.not_slot hf hn).elim
    · have hpre := h.length_branch hb hf hn
      have hlong := two_hashes (hb.1 rfl) fun i r hr ↦
        ih i (hh.2 i) (h.2 i) (hb.2 i) (housed_child hf hpre i) (by omega) hr
      rw [Kind.encoding_branch]
      split
      · exact ⟨_, fromRlp_of_le hlong⟩
      · have hext := AlloyTrie.length_extensionNode pre
          (.fromRlp (Merkle.branchRlp fun i ↦ (ch i).ref?))
        rw [fromRlp_of_le hlong, len_hash] at hext
        rw [fromRlp_of_le hlong]
        exact ⟨_, fromRlp_of_le (by omega)⟩

/-- No node of a trie of accounts is embedded in the one above it. -/
theorem Hashed.unembedded (hs : AlloyTrie.Standard) {n : Nat} (hh : t.Hashed)
    (h : t.Rough .accounts n) (hb : t.Branched) (hf : Housed n t.lookup) (hn : 64 ≤ n)
    (q : Nibbles) : t.Unembedded q := by
  induction t generalizing n q with
  | empty => trivial
  | node tag ref pre kind ch ih =>
    rintro rfl
    have hpre := h.length_branch hb hf hn
    have hchild (i : Fin 16) (r : RlpNode) (hr : (ch i).ref? = some r) : ∃ x, r = .hash x :=
      (hh.2 i).account_hash hs (h.2 i) (hb.2 i) (housed_child hf hpre i) (by omega) hr
    refine ⟨fun _ ↦ two_hashes (hb.1 rfl) hchild, fun i rest _ ↦ ⟨fun bytes hr ↦ ?_, ?_⟩⟩
    · obtain ⟨x, hx⟩ := hchild i _ hr
      cases hx
    · exact ih i (hh.2 i) (h.2 i) (hb.2 i) (housed_child hf hpre i) (by omega) rest

/-! ### Siblings -/

omit [AlloyTrie] in
/-- A trie of one leaf embeds nothing. -/
theorem Branched.unembedded (hb : t.Branched)
    (h : ∀ q q', t.lookup q ≠ none → t.lookup q' ≠ none → q = q') (q : Nibbles) :
    t.Unembedded q := by
  cases t with
  | empty => trivial
  | node tag ref pre kind ch =>
    rintro rfl
    obtain ⟨i, j, hij, hi, hj⟩ := exists_two_children (hb.1 rfl)
    obtain ⟨r, hr⟩ := (hb.2 i).exists_value hi
    obtain ⟨r', hr'⟩ := (hb.2 j).exists_value hj
    have heq := h (pre ++ i :: r) (pre ++ j :: r') (by rwa [lookup_branch_append])
      (by rwa [lookup_branch_append])
    exact absurd (List.cons.inj (List.append_cancel_left heq)).1 hij

/-- A leaf at the end of its path is embedded when its value has one byte. -/
private theorem ref_of_lookup_nil {v : U256} (hs : AlloyTrie.Standard) (hh : t.Hashed)
    (hv : v.toNat < 0x80) (h : t.lookup [] = some (.slot v)) :
    ∃ bytes, t.ref? = some (.raw bytes) := by
  cases t with
  | empty => cases h
  | node tag ref pre kind ch =>
    obtain rfl : pre = [] := by
      by_contra hne
      rw [lookup_outside fun hp ↦ hne (List.prefix_nil.mp hp)] at h
      cases h
    rcases kind with e | _
    · rw [lookup_leaf_self] at h
      cases h
      have hvalue : (Merkle.slotRlp v).length = 1 := by
        rw [← Merkle.encodeUint_eq_slotRlp, Rlp.encodeUint]
        split
        · rfl
        · rfl
      have hpath : (Rlp.encodeBytes (Rlp.hexPrefix true [])).length ≤ 1 + 1 + 1 :=
        Rlp.length_encodeBytes_le (by decide)
      have hitem := @Rlp.length_encodeBytes_le 1 (Merkle.slotRlp v) (by omega)
      have hlist := @Rlp.length_encodeList_le 1 (Rlp.encodeBytes (Rlp.hexPrefix true []) ++
        Rlp.encodeBytes (Merkle.slotRlp v)) (by rw [List.length_append]; omega)
      rw [List.length_append] at hlist
      refine ⟨AlloyTrie.leafNode [] (Merkle.slotRlp v), ?_⟩
      refine (congrArg some hh.1).trans (congrArg some ?_)
      rw [Kind.rlp_eq, Kind.encoding_leaf]
      apply fromRlp_of_lt
      simp only [Entry.bytes, hs.leaf]
      omega
    · rw [lookup_branch_self] at h
      cases h

/-- A slot with a value of one byte is embedded when the path of another slot differs from its path
in the last nibble only. -/
theorem not_unembedded_of_siblings {n : Nat} {p : Nibbles} {i j : Fin 16} {v w : U256}
    (hs : AlloyTrie.Standard) (hh : t.Hashed) (h : t.Rough .slots n) (hij : i ≠ j)
    (hi : t.lookup (p ++ [i]) = some (.slot v)) (hj : t.lookup (p ++ [j]) = some (.slot w))
    (hv : v.toNat < 0x80) : ¬ t.Unembedded (p ++ [i]) := by
  induction t generalizing p n with
  | empty => cases hi
  | node tag ref pre kind ch ih =>
    have hpre {q : Nibbles} {e : Entry} (hq : (node tag ref pre kind ch).lookup q = some e) :
        pre <+: q := by
      by_contra hp
      rw [lookup_outside hp] at hq
      cases hq
    rcases kind with (info | u) | _
    · cases h.1.1
    · -- a leaf has one path
      have hone {q : Nibbles} {e : Entry}
          (hq : (node tag ref pre (.leaf (.slot u)) ch).lookup q = some e) : q = pre := by
        rcases path_cases pre q with hp | he | ⟨c, r, rfl⟩
        · exact absurd (hpre hq) hp
        · exact he
        · rw [lookup_slot_append] at hq
          cases hq
      have heq := (hone hi).trans (hone hj).symm
      exact absurd (List.cons.inj (List.append_cancel_left heq)).1 hij
    · intro hu
      obtain ⟨c, r, hr⟩ := exists_child_of_lookup (by rw [hi]; exact Option.some_ne_none _)
      obtain ⟨hraw, hchild⟩ := (hu rfl).2 c r hr
      rw [hr, lookup_branch_append] at hi
      rcases List.eq_nil_or_concat r with rfl | ⟨r, i', rfl⟩
      · obtain ⟨bytes, hbytes⟩ := ref_of_lookup_nil hs (hh.2 c) hv hi
        exact hraw bytes hbytes
      · have hsplit : p ++ [i] = (pre ++ c :: r) ++ [i'] := by simpa using hr
        obtain ⟨rfl, hlast⟩ := List.append_inj' hsplit rfl
        cases hlast
        rw [List.append_assoc, List.cons_append, lookup_branch_append] at hj
        rw [List.concat_eq_append] at hi hchild
        exact ih c (hh.2 c) (h.2 c) hi hj hchild

end Trie

end TrieDb

import TrieDb.Engine.Proofs
import TrieDb.Layout.Contents
import TrieDb.Node.RoundTrip

/-!
# Proof reads and plain reads

`get_account_with_proof` and `get_storage_with_proof` find what the trie has at a path, as the plain
reads do, for every layout of its pages. The two descents are followed on the trie that the pages
hold; the nodes they collect are left open.
-/

namespace TrieDb.Layout

open Base Engine Trie

variable {s : State Cells} {t : Trie Loc} {p i : Nat} {path : Nibbles} {fuel offset n : Nat}

/-- The hash with the nibbles of a slot. -/
def slotHash (slot : Nibbles) : B256 := Vector.ofFn fun i : Fin 32 ↦ (Codec.packTo slot).getD i 0

/-- The bytes of a slot's path are its hash. -/
theorem fromSlice_packTo {slot : Nibbles} (h : slot.length = 64) :
    fromSlice (Codec.packTo slot) s = .ok (slotHash slot) s := by
  have hlen : (Codec.packTo slot).length = 32 := by
    rw [Codec.length_packTo, h]
  have heq : (⟨(Codec.packTo slot).toArray, hlen⟩ : B256) = slotHash slot := by
    apply Vector.ext
    intro k hk
    simp [slotHash, List.getD_eq_getElem?_getD, hlen]
  rw [fromSlice, dif_pos hlen, heq]
  rfl

private theorem decodeField_eq {k : Nat} (size : Nat) (message : String) (hpos : 0 < size)
    (hsize : size ≤ 32)
    (h : k < 256 ^ size) : decodeField size (Rlp.encodeUint k) message s = .ok k s := by
  rw [decodeField, Rlp.decodeExact_encodeUint hpos hsize h]
  rfl

section
variable [AlloyTrie]

/-! ### The storage of an account -/

section
variable {proof : StorageProof} {node : Node}

/-- A path that leaves the prefix of the node. -/
private theorem storage_none (h : cellAt s (p, i) = some node)
    (hp : ¬ node.pre <+: path.drop offset) :
    getStorageProofFromPage path (fuel + 1) offset p i proof s = .ok none s := by
  simp only [getStorageProofFromPage, bind_apply, getValue_eq h, commonPrefixLength_lt hp, if_true]
  rfl

/-- The node at the end of the path. -/
theorem storage_value {v : U256} (fuel : Nat) (proof : StorageProof)
    (h : cellAt s (p, i) = some node) (hp : path.drop offset = node.pre)
    (hv : node.value = .ok (.storage v)) :
    getStorageProofFromPage path (fuel + 1) offset p i proof s =
      .ok (some ⟨proof.hashedSlot, v, insertNode proof.proof path offset node⟩) s := by
  have hlen : commonPrefixLength (path.drop offset) node.pre = node.pre.length :=
    commonPrefixLength_of_prefix (hp ▸ List.prefix_rfl)
  have hdrop : path.drop (offset + node.pre.length) = [] := by
    rw [← List.drop_drop, hp, List.drop_length]
  simp only [getStorageProofFromPage, bind_apply, getValue_eq h, hlen, lt_irrefl, if_false, hdrop,
    hv]
  rfl

/-- The descent goes on below a branch. -/
theorem storage_next {children : Fin 16 → Option Pointer} {j : Nibble} {r : Nibbles}
    (fuel : Nat) (proof : StorageProof) (h : cellAt s (p, i) = some node)
    (hkind : node.kind = .branch children) (hp : path.drop offset = node.pre ++ j :: r)
    (hoffset : offset ≤ 64) :
    getStorageProofFromPage path (fuel + 1) offset p i proof s =
      follow (fun p' i' ↦ getStorageProofFromPage path fuel (offset + node.pre.length + 1) p' i'
        { proof with
          proof := insertBranch (insertNode proof.proof path offset node) path
            (offset + node.pre.length) node.pre children }) p (children j) s := by
  have hlen : commonPrefixLength (path.drop offset) node.pre = node.pre.length :=
    commonPrefixLength_of_prefix (hp ▸ List.prefix_append _ _)
  have hdrop := drop_of_append hp
  have hassert : ¬ 64 < offset := Nat.not_lt.mpr hoffset
  simp only [getStorageProofFromPage, bind_apply, getValue_eq h, hlen, lt_irrefl, if_false, hdrop,
    hassert, hkind]
  rfl

/-- The proof of a slot has the value of the slot. -/
private theorem storage_reads (hs : Clean s) (h : Holds s t) (ht : t.tag? = some (p, i))
    (hr : t.Rough .slots n) (hlen : (path.drop offset).length = n) (hoffset : offset + n = 64)
    (hf : n < fuel) : ∃ nodes, Reads (getStorageProofFromPage path fuel offset p i proof) s
      ((Entries.slot t.lookup (path.drop offset)).map fun v ↦ ⟨proof.hashedSlot, v, nodes⟩) := by
  induction t generalizing n offset fuel p i proof with
  | empty => cases ht
  | node c ref pre kind ch ih =>
    cases ht
    obtain ⟨fuel, rfl⟩ : ∃ f, fuel = f + 1 := ⟨fuel - 1, by omega⟩
    have hcell := h.cell
    rcases path_cases pre (path.drop offset) with hp | hp | ⟨j, r, hp⟩
    · have hnone :
          Entries.slot (Trie.node (p, i) ref pre kind ch).lookup (path.drop offset) = none := by
        rw [Entries.slot, Entries.value, lookup_outside hp]
      refine ⟨fun _ ↦ none, s, ?_, rfl⟩
      rw [hnone]
      exact storage_none hcell (by rwa [Kind.pre_node])
    · rcases kind with (info | v) | _
      · cases hr.1.1
      · have hrun := storage_value fuel proof hcell hp rfl
        generalize insertNode _ _ _ _ = nodes at hrun
        refine ⟨nodes, s, ?_, rfl⟩
        rw [hp, Entries.slot, Entries.value, lookup_leaf_self]
        exact hrun
      · have hlt := hr.1
        rw [hp] at hlen
        omega
    · rcases kind with (info | v) | _
      · cases hr.1.1
      · have hpre : pre.length = n := hr.1
        rw [hp, List.length_append, List.length_cons] at hlen
        omega
      · have hlt := hr.1
        have hdrop : path.drop (offset + pre.length + 1) = r := by
          rw [← List.drop_drop, drop_of_append hp]
          rfl
        rw [hp, List.length_append, List.length_cons] at hlen
        have hrun := storage_next fuel proof hcell rfl hp (by omega)
        generalize insertBranch _ _ _ _ _ = nodes at hrun
        have hchild (p' i' : Nat) (ht' : (ch j).tag? = some (p', i')) :
            ∃ nodes', Reads (getStorageProofFromPage path fuel (offset + pre.length + 1) p' i'
              { proof with proof := nodes }) s
              ((Entries.slot (ch j).lookup r).map fun v ↦ ⟨proof.hashedSlot, v, nodes'⟩) := by
          rw [← hdrop]
          exact ih j (h.child j) ht' (hr.2 j) (by rw [hdrop]; omega) (by omega) (by omega)
        have hbelow : ∃ x, (∃ nodes', x = (Entries.slot (ch j).lookup r).map fun v ↦
              (⟨proof.hashedSlot, v, nodes'⟩ : StorageProof)) ∧
            Reads (follow (fun p' i' ↦ getStorageProofFromPage path fuel (offset + pre.length + 1)
              p' i' { proof with proof := nodes }) p (ch j).pointer?) s x := by
          apply follow_reads hs (h.child j) (h.linked j)
          · intro he
            refine ⟨nodes, ?_⟩
            rw [Entries.slot, Entries.value, he, lookup_empty]
            rfl
          · intro p' i' ht'
            obtain ⟨nodes', h'⟩ := hchild p' i' ht'
            exact ⟨_, ⟨nodes', rfl⟩, h'⟩
        obtain ⟨_, ⟨nodes', rfl⟩, s', hrun', heng⟩ := hbelow
        refine ⟨nodes', s', ?_, heng⟩
        rw [hp, Entries.slot, value_branch]
        exact hrun.trans hrun'

/-- The storage part of the descent, at an account whose storage is a trie. -/
private theorem getStorageProof_reads {remaining : Nibbles} (proof : AccountProof) (hs : Clean s)
    (h : Holds s t) (hl : t.Linked p) (hr : t.Rough .slots 64) (hb : t.Branched) (hh : t.Hashed)
    (hlen : remaining.length = 64) (hf : 64 < fuel) :
    ∃ nodes, Reads (getStorageProof fuel p remaining t.pointer? proof) s
      ((Entries.slot t.lookup remaining).map fun v ↦
        { proof with
          account := { proof.account with storageRoot := Node.storageRootHash t.pointer? }
          storageProofs := Function.update proof.storageProofs (slotHash remaining)
            (some ⟨remaining, v, nodes⟩) }) := by
  cases t with
  | empty => exact ⟨fun _ ↦ none, s, rfl, rfl⟩
  | node c ref pre kind ch =>
    obtain ⟨root, rfl⟩ := hh.exists_hash hr rfl hb rfl
    have hread : ∃ nodes, Reads (getStorageProofFromPage remaining fuel 0 c.1 c.2
        { hashedSlot := remaining }) s ((Entries.slot (node c (.hash root) pre kind ch).lookup
          (remaining.drop 0)).map fun v ↦ ⟨remaining, v, nodes⟩) :=
      storage_reads hs h rfl hr (by rw [List.drop_zero]; exact hlen) (Nat.zero_add 64) hf
    obtain ⟨nodes, s', hrun, heng⟩ := hread
    have hlong : ¬ 64 < remaining.length := by omega
    have hat : getStorageProofAt fuel p remaining (nodeLocation c.1 c.2) s =
        follow (fun p' i' ↦ getStorageProofFromPage remaining fuel 0 p' i'
          { hashedSlot := remaining }) p (node c (.hash root) pre kind ch).pointer? s := by
      simp only [follow, pointer?]
      cases nodeLocation c.1 c.2 <;> rfl
    have hfollow := hat.trans ((follow_eq hs h hl rfl).trans hrun)
    refine ⟨nodes, s', ?_, heng⟩
    simp only [getStorageProof, pointer?, bind_apply, rootHash, RlpNode.asHash, pure_apply, hlong,
      if_false, hfollow, List.drop_zero]
    cases Entries.slot (node c (.hash root) pre kind ch).lookup remaining with
    | none => rfl
    | some v =>
      simp only [Option.map_some, bind_apply, fromSlice_packTo hlen]
      rfl

end

/-! ### Accounts -/

/-- What a descent with a proof returns for the rest of a path, when `n` nibbles are left to the end
of a slot: the account at the path, or the slot with its account and one storage proof. -/
structure Answers (f : Entries) (n : Nat) (q : Nibbles) (proof : AccountProof)
    (r : Option AccountProof) : Prop where
  account : q.length + 64 = n → ∃ nodes,
    r = (f.account q).map fun a ↦ { proof with account := a, proof := nodes }
  slot : q.length = n → ∃ nodes slotNodes a,
    (f.slot q ≠ none → f.account (q.take (n - 64)) = some a) ∧
      r = (f.slot q).map fun v ↦
        { proof with
          account := a
          proof := nodes
          storageProofs := Function.update proof.storageProofs (slotHash (q.drop (n - 64)))
            (some ⟨q.drop (n - 64), v, slotNodes⟩) }

namespace Answers

variable {f : Entries} {q : Nibbles} {proof : AccountProof} {r : Option AccountProof}

/-- What is not stored is answered with nothing. -/
protected theorem none (h : f q = none) : Answers f n q proof none where
  account := fun _ ↦ ⟨proof.proof, by rw [Entries.account, Entries.value, h]; rfl⟩
  slot := by
    have hslot : f.slot q = none := by rw [Entries.slot, Entries.value, h]
    intro _
    refine ⟨proof.proof, proof.proof, proof.account, fun hne ↦ absurd hslot hne, ?_⟩
    rw [hslot]
    rfl

/-- The answer below a branch is the answer of the branch. -/
private theorem branch {c : Loc} {ref : RlpNode} {pre r' : Nibbles} {ch : Fin 16 → Trie Loc}
    {j : Nibble} {nodes : ProofNodes} (hn : pre.length + 64 < n)
    (h : Answers (ch j).lookup (n - pre.length - 1) r' { proof with proof := nodes } r) :
    Answers (node c ref pre .branch ch).lookup n (pre ++ j :: r') proof r where
  account := by
    intro hlen
    rw [List.length_append, List.length_cons] at hlen
    obtain ⟨nodes', hr⟩ := h.account (by omega)
    refine ⟨nodes', ?_⟩
    rw [hr, Entries.account, Entries.account, value_branch]
  slot := by
    intro hlen
    rw [List.length_append, List.length_cons] at hlen
    obtain ⟨nodes', slotNodes, a, ha, hr⟩ := h.slot (by omega)
    obtain ⟨k, hk⟩ : ∃ k, n - 64 = pre.length + (k + 1) := ⟨n - 64 - pre.length - 1, by omega⟩
    have hk' : n - pre.length - 1 - 64 = k := by omega
    have htake : (pre ++ j :: r').take (n - 64) = pre ++ j :: r'.take k := by
      rw [hk, List.take_length_add_append, List.take_succ_cons]
    have hdrop : (pre ++ j :: r').drop (n - 64) = r'.drop k := by
      rw [hk, List.drop_length_add_append, List.drop_succ_cons]
    rw [hk'] at ha hr
    refine ⟨nodes', slotNodes, a, ?_, ?_⟩
    · intro hne
      rw [Entries.slot, value_branch] at hne
      rw [htake, Entries.account, value_branch]
      exact ha hne
    · rw [hdrop, hr, Entries.slot, Entries.slot, value_branch]

end Answers

section
variable {proof : AccountProof} {node : Node}

/-- A path that leaves the prefix of the node. -/
private theorem account_none (h : cellAt s (p, i) = some node)
    (hp : ¬ node.pre <+: path.drop offset) :
    getValueWithProofFromPage path (fuel + 1) offset p i proof s = .ok none s := by
  simp only [getValueWithProofFromPage, bind_apply, getValue_eq h, commonPrefixLength_lt hp,
    if_true]
  rfl

/-- The account at the end of the path. -/
theorem account_value {a : Account} (fuel : Nat) (proof : AccountProof)
    (h : cellAt s (p, i) = some node) (hp : path.drop offset = node.pre)
    (hv : node.value = .ok (.account a)) :
    getValueWithProofFromPage path (fuel + 1) offset p i proof s =
      .ok (some { proof with
        account := a, proof := insertNode proof.proof path offset node }) s := by
  have hlen : commonPrefixLength (path.drop offset) node.pre = node.pre.length :=
    commonPrefixLength_of_prefix (hp ▸ List.prefix_rfl)
  have hdrop : path.drop (offset + node.pre.length) = [] := by
    rw [← List.drop_drop, hp, List.drop_length]
  simp only [getValueWithProofFromPage, bind_apply, getValue_eq h, hlen, lt_irrefl, if_false, hdrop,
    hv]
  rfl

/-- The descent goes on below a branch. -/
theorem account_next {children : Fin 16 → Option Pointer} {j : Nibble} {r : Nibbles}
    (fuel : Nat) (proof : AccountProof) (h : cellAt s (p, i) = some node)
    (hkind : node.kind = .branch children) (hp : path.drop offset = node.pre ++ j :: r)
    (hoffset : offset ≤ 64) :
    getValueWithProofFromPage path (fuel + 1) offset p i proof s =
      follow (fun p' i' ↦ getValueWithProofFromPage path fuel (offset + node.pre.length + 1) p' i'
        { proof with
          proof := insertBranch (insertNode proof.proof path offset node) path
            (offset + node.pre.length) node.pre children }) p (children j) s := by
  have hlen : commonPrefixLength (path.drop offset) node.pre = node.pre.length :=
    commonPrefixLength_of_prefix (hp ▸ List.prefix_append _ _)
  have hdrop := drop_of_append hp
  have hassert : ¬ 64 < offset := Nat.not_lt.mpr hoffset
  simp only [getValueWithProofFromPage, bind_apply, getValue_eq h, hlen, lt_irrefl, if_false, hdrop,
    hassert, hkind]
  rfl

/-- The descent goes on in the storage of an account, whose integers are decoded. -/
theorem account_storage {nonce : BitVec 64} {balance : U256} {codeHash : B256}
    {root : Option Pointer} {j : Nibble} {r : Nibbles} (fuel : Nat) (proof : AccountProof)
    (h : cellAt s (p, i) = some node) (hkind : node.kind = .accountLeaf nonce balance codeHash root)
    (hp : path.drop offset = node.pre ++ j :: r) (hoffset : offset + node.pre.length = 64) :
    getValueWithProofFromPage path (fuel + 1) offset p i proof s =
      getStorageProof fuel p (j :: r) root { proof with
        account := ⟨nonce, balance, emptyRootHash, codeHash⟩
        proof := insertNode proof.proof path offset node } s := by
  have hlen : commonPrefixLength (path.drop offset) node.pre = node.pre.length :=
    commonPrefixLength_of_prefix (hp ▸ List.prefix_append _ _)
  have hdrop := drop_of_append hp
  have hassert : ¬ 64 < offset := by omega
  have haddress : ¬ offset + node.pre.length ≠ addressPathLength := not_not_intro hoffset
  have hnonce := decodeField_eq (s := s) 8 "Failed to decode nonce" (by decide) (by decide)
    nonce.isLt
  have hbalance := decodeField_eq (s := s) 32 "Failed to decode balance" (by decide) (by decide)
    balance.isLt
  simp only [getValueWithProofFromPage, bind_apply, getValue_eq h, hlen, lt_irrefl, if_false, hdrop,
    hassert, hkind, haddress, hnonce, hbalance, BitVec.ofNat_toNat, BitVec.setWidth_eq]

/-- The account of a leaf. -/
private theorem account_leaf {c : Loc} {ref : RlpNode} {pre : Nibbles} {info : AccountInfo}
    {ch : Fin 16 → Trie Loc}
    (hr : (Trie.node c ref pre (.leaf (.account info)) ch).Rough .accounts n)
    (hb : (ch 0).Branched) (hh : (ch 0).Hashed) :
    Entries.account (Trie.node c ref pre (.leaf (.account info)) ch).lookup pre =
      some ⟨info.nonce, info.balance, Node.storageRootHash (ch 0).pointer?, info.codeHash⟩ := by
  rw [Entries.account, value_account hr hb hh]
  simp only [value?, Node.storageRootHash]
  cases ch 0 <;> rfl

/-- The descent from a node of the account trie. -/
private theorem accounts_reads (hs : Clean s) (h : Holds s t) (ht : t.tag? = some (p, i))
    (hr : t.Rough .accounts n) (hb : t.Branched) (hh : t.Hashed) (hf : Housed n t.lookup)
    (hn : 64 ≤ n) (hoffset : offset + n = 128)
    (hlen : (path.drop offset).length = n ∨ (path.drop offset).length + 64 = n)
    (hfuel : (path.drop offset).length + 1 < fuel) :
    ∃ r, Answers t.lookup n (path.drop offset) proof r ∧
      Reads (getValueWithProofFromPage path fuel offset p i proof) s r := by
  induction t generalizing n offset fuel p i proof with
  | empty => cases ht
  | node c ref pre kind ch ih =>
    cases ht
    obtain ⟨fuel, rfl⟩ : ∃ f, fuel = f + 1 := ⟨fuel - 1, by omega⟩
    have hcell := h.cell
    rcases path_cases pre (path.drop offset) with hp | hp | ⟨j, r, hp⟩
    · exact ⟨none, .none (lookup_outside hp), s, account_none hcell (by rwa [Kind.pre_node]), rfl⟩
    · rcases kind with (info | v) | _
      · have hleaf := account_leaf hr (hb.2 0) (hh.2 0)
        have hrun := account_value fuel proof hcell hp rfl
        generalize insertNode _ _ _ _ = nodes at hrun
        refine ⟨_, ⟨fun _ ↦ ⟨nodes, ?_⟩, fun hq ↦ ?_⟩, s, hrun, rfl⟩
        · rw [hp, hleaf]
          rfl
        · have hpre := hr.1.2
          rw [hp] at hq
          omega
      · exact (hr.not_slot hf hn).elim
      · have hlt := hr.length_branch hb hf hn
        rw [hp] at hlen
        omega
    · have hlen' := congrArg List.length hp
      rw [List.length_append, List.length_cons] at hlen'
      rcases kind with (info | v) | _
      · have hpre := hr.1.2
        have haddress : n - 64 = pre.length := by omega
        have hfuel' : 64 < fuel := by omega
        have hrest : (j :: r).length = 64 := by
          rw [List.length_cons]
          omega
        have hleaf := account_leaf hr (hb.2 0) (hh.2 0)
        have hrun := account_storage fuel proof hcell rfl hp (by
          show offset + pre.length = 64
          omega)
        generalize insertNode _ _ _ _ = nodes at hrun
        obtain ⟨slotNodes, s', hrun', heng⟩ := getStorageProof_reads { proof with
          account := ⟨info.nonce, info.balance, emptyRootHash, info.codeHash⟩, proof := nodes }
          hs (h.child 0) (h.linked 0) (hr.2.2 0) (hb.2 0) (hh.2 0) hrest hfuel'
        refine ⟨_, ⟨fun hq ↦ ?_, fun _ ↦ ⟨nodes, slotNodes, ⟨info.nonce, info.balance,
          Node.storageRootHash (ch 0).pointer?, info.codeHash⟩, fun _ ↦ ?_, ?_⟩⟩, s',
          hrun.trans hrun', heng⟩
        · omega
        · rw [hp, haddress, List.take_left]
          exact hleaf
        · rw [hp, haddress, List.drop_left, Entries.slot, Entries.slot, value_storage (hr.2.2 0)]
      · have hpre : pre.length = n := hr.1
        omega
      · have hlt := hr.length_branch hb hf hn
        have hdrop : path.drop (offset + pre.length + 1) = r := by
          rw [← List.drop_drop, drop_of_append hp]
          rfl
        have hrun := account_next fuel proof hcell rfl hp (by omega)
        generalize insertBranch _ _ _ _ _ = nodes at hrun
        have hchild (p' i' : Nat) (ht' : (ch j).tag? = some (p', i')) :
            ∃ x, Answers (ch j).lookup (n - pre.length - 1) r { proof with proof := nodes } x ∧
              Reads (getValueWithProofFromPage path fuel (offset + pre.length + 1) p' i'
                { proof with proof := nodes }) s x := by
          rw [← hdrop]
          apply ih j (h.child j) ht' (hr.2 j) (hb.2 j) (hh.2 j) (housed_child hf hlt j)
          · omega
          · omega
          · rw [hdrop]
            omega
          · rw [hdrop]
            omega
        obtain ⟨x, hx, s', hrun', heng⟩ := follow_reads hs (h.child j) (h.linked j)
          (fun he ↦ .none (by rw [he, lookup_empty])) hchild
        refine ⟨x, ?_, s', hrun.trans hrun', heng⟩
        rw [hp]
        exact .branch hlt hx

end

/-! ### Agreement -/

/-- The descent from the root page. -/
theorem withProof_reads (hs : Clean s) (h : Holds s t) (hr : Anchored s t)
    (ht : t.Canonical) (hp : path.length = 64 ∨ path.length = 128) (hf : 130 ≤ fuel) :
    ∃ r, Answers t.lookup 128 path { hashedAddress := lower64Nibbles path } r ∧
      Reads (getValueWithProof fuel path) s r := by
  by_cases hempty : t = empty
  · subst hempty
    refine ⟨none, .none rfl, s, ?_, rfl⟩
    simp [getValueWithProof, addressPathLength, storagePathLength, hp,
      show s.context.rootNodePageId = none from hr]
  · obtain ⟨q, htag, hroot⟩ := hr.tag hempty
    have hlive : ¬ Vacant s q ∧ stamp s q ≠ none := by
      cases t with
      | empty => cases htag
      | node c ref pre kind ch =>
        cases htag
        exact h.root_live
    obtain ⟨r, hanswer, s', hrun, heng⟩ : ∃ r,
        Answers t.lookup 128 (path.drop 0) { hashedAddress := lower64Nibbles path } r ∧
          Reads (getValueWithProofFromPage path fuel 0 q 0
            { hashedAddress := lower64Nibbles path }) s r := by
      apply accounts_reads hs h htag ht.rough ht.branched ht.hashed ht.housed
      · omega
      · omega
      · rw [List.drop_zero]
        omega
      · rw [List.drop_zero]
        omega
    refine ⟨r, hanswer, s', ?_, heng⟩
    have hlen : path.length = addressPathLength ∨ path.length = storagePathLength := hp
    simp only [getValueWithProof, hlen, if_true, bind_apply, get_apply, hroot, getPage_eq hs hlive,
      hrun]

/-- Reads with a proof agree with plain reads. An account is found with a proof if and only if it is
found without, it is the same account, and there is no storage proof. A slot is found with a proof
if and only if it is found without when no location is remembered; its account is the one that is
found without a proof, and its value is in the only storage proof, under the hash of the slot. -/
theorem withProof_agrees (hs : Clean s) (h : Holds s t) (hr : Anchored s t) (ht : t.Canonical)
    (hf : 130 ≤ fuel) :
    (∀ a : Nibbles, a.length = 64 → ∃ r, Reads (getAccountWithProof fuel a) s r ∧
      Reads (getAccount fuel a) s (r.map AccountProof.account) ∧
      ∀ proof ∈ r, proof.storageProofs = fun _ ↦ none) ∧
    ∀ q : Nibbles, q.length = 128 → ∃ r, Reads (getStorageWithProof fuel q) s r ∧
      (r = none → Reads (getStorage fuel q) (uncached s) none) ∧
      ∀ proof ∈ r, ∃ storageProof,
        proof.storageProofs =
          Function.update (fun _ ↦ none) (slotHash (q.drop 64)) (some storageProof) ∧
        storageProof.hashedSlot = q.drop 64 ∧
        Reads (getStorage fuel q) (uncached s) (some storageProof.value) ∧
        Reads (getAccount fuel (q.take 64)) s (some proof.account) := by
  have hrec : Recontext s (uncached s) := ⟨rfl, rfl, rfl⟩
  have hanchored : Anchored (uncached s) t := by
    cases t <;> exact hr
  constructor
  · intro a ha
    obtain ⟨r, hanswer, hread⟩ := withProof_reads hs h hr ht (.inl ha) hf
    obtain ⟨nodes, rfl⟩ := hanswer.account (by omega)
    have hplain := getAccount_reads hs h hr ht ha hf
    refine ⟨_, hread, ?_, ?_⟩
    · cases hacc : Entries.account t.lookup a with
      | none => rwa [hacc] at hplain
      | some account => rwa [hacc] at hplain
    · intro proof hproof
      obtain ⟨account, -, rfl⟩ := Option.map_eq_some_iff.mp hproof
      rfl
  · intro q hq
    obtain ⟨r, hanswer, hread⟩ := withProof_reads hs h hr ht (.inr hq) hf
    obtain ⟨nodes, slotNodes, account, haccount, hslot⟩ := hanswer.slot hq
    simp only [Nat.reduceSub] at haccount hslot
    subst hslot
    have hplain := getStorage_reads (s := uncached s) hs (hrec.holds h) hanchored ht.rough rfl hq hf
    refine ⟨_, hread, fun hnone ↦ ?_, fun proof hproof ↦ ?_⟩
    · rwa [Option.map_eq_none_iff.mp hnone] at hplain
    · obtain ⟨v, hv, rfl⟩ := Option.map_eq_some_iff.mp hproof
      rw [hv] at hplain
      have hacc : Reads (getAccount fuel (q.take 64)) s (Entries.account t.lookup (q.take 64)) :=
        getAccount_reads hs h hr ht (by rw [List.length_take]; omega) hf
      rw [haccount (by rw [hv]; exact Option.some_ne_none v)] at hacc
      exact ⟨⟨q.drop 64, v, slotNodes⟩, rfl, rfl, hplain, hacc⟩

end

/-- The slot of a new account is found with its proof. -/
theorem withProof_agrees_created : ∃ proof storageProof,
    Reads (getStorageWithProof 130 (Layout.path 0 ++ Layout.path 1)) (after accountAndSlot created)
      (some proof) ∧
    proof.storageProofs (slotHash (Layout.path 1)) = some storageProof ∧
      storageProof.value = 7 := by
  obtain ⟨t, hc, -⟩ := contains_accountAndSlot
  have hlen : (Layout.path 0 ++ Layout.path 1).length = 128 := rfl
  have hplain := (contains_accountAndSlot.readsAs (Nat.le_refl 130)).2 _ hlen
  have hslot : Entries.slot (Entries.update (fun _ ↦ none) accountAndSlot)
      (Layout.path 0 ++ Layout.path 1) = some 7 := by
    simp [Entries.slot, Entries.value, Entries.update, accountAndSlot, Entries.apply,
      TrieValue.entry]
  rw [hslot] at hplain
  obtain ⟨r, hread, hnone, hsome⟩ := (withProof_agrees hc.clean hc.holds hc.anchored hc.canonical
    (Nat.le_refl 130)).2 _ hlen
  cases r with
  | none => cases hplain.unique (hnone rfl)
  | some proof =>
    obtain ⟨storageProof, hproofs, -, hvalue, -⟩ := hsome proof rfl
    refine ⟨proof, storageProof, hread, ?_, (Option.some.inj (hplain.unique hvalue)).symm⟩
    rw [hproofs]
    exact Function.update_self _ _ _

end TrieDb.Layout

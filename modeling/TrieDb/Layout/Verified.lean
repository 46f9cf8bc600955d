import Mathlib.Data.List.Sort
import TrieDb.Layout.Proofs
import TrieDb.Trie.Trail

/-!
# Proofs that verify

The nodes that `get_account_with_proof` and `get_storage_with_proof` collect are those on the way to
the leaf, for every layout of the pages. The proof of an account is accepted by the verifier; the
proof of a slot is accepted if and only if no node on the way to the slot is embedded in the one
above it, because every node on the way is listed.
-/

namespace TrieDb.Layout

open Base Engine Trie

variable {s : State Cells} {t st : Trie Loc} {p i k : Nat} {path q : Nibbles}
  {nodes : List (Nat × List UInt8)} {e : Entry}

/-- Nodes that are added one after the other, each at the path where it starts. -/
def collect (path : Nibbles) (proof : ProofNodes) (nodes : List (Nat × List UInt8)) : ProofNodes :=
  nodes.foldl (fun proof n ↦ Function.update proof (path.take n.1) (some n.2)) proof

/-! ### The order of the nodes -/

/-- The values of a map in the order of its keys (`BTreeMap::values`). -/
def Values (proof : ProofNodes) (l : List (List UInt8)) : Prop :=
  ∃ keys : List Nibbles, keys.Pairwise (· < ·) ∧ (∀ key, key ∈ keys ↔ proof key ≠ none) ∧
    l.map some = keys.map proof

private theorem Values.unique {proof : ProofNodes} {l l' : List (List UInt8)} (h : Values proof l)
    (h' : Values proof l') : l = l' := by
  obtain ⟨keys, hsorted, hmem, hl⟩ := h
  obtain ⟨keys', hsorted', hmem', hl'⟩ := h'
  have heq : keys = keys' :=
    hsorted.eq_of_mem_iff hsorted' fun key ↦ (hmem key).trans (hmem' key).symm
  rw [heq, ← hl'] at hl
  exact List.map_injective_iff.mpr (Option.some_injective _) hl

/-- A proper prefix comes before its extensions. -/
private theorem take_lt {m n : Nat} (h : m < n) (hn : n ≤ path.length) :
    path.take m < path.take n := by
  obtain ⟨x, rest, hx⟩ : ∃ x rest, (path.take n).drop m = x :: rest := by
    apply List.exists_cons_of_ne_nil
    rw [ne_eq, List.drop_eq_nil_iff, List.length_take]
    omega
  have hsplit : path.take n = path.take m ++ x :: rest := by
    have hpre : (path.take n).take m = path.take m := by
      rw [List.take_take, Nat.min_eq_left h.le]
    rw [← hx, ← hpre, List.take_append_drop]
  rw [hsplit]
  conv_lhs => rw [← List.append_nil (path.take m)]
  exact List.append_left_lt (List.nil_lt_cons x rest)

private theorem collect_of_not_mem (proof : ProofNodes) {key : Nibbles}
    (h : ∀ n ∈ nodes, key ≠ path.take n.1) : collect path proof nodes key = proof key := by
  induction nodes generalizing proof with
  | nil => rfl
  | cons n nodes ih =>
    refine (ih _ fun n' hn' ↦ h n' (List.mem_cons_of_mem n hn')).trans ?_
    exact Function.update_of_ne (h n List.mem_cons_self) _ _

private theorem collect_of_mem (proof : ProofNodes)
    (hsorted : (nodes.map fun n ↦ path.take n.1).Pairwise (· < ·)) {n : Nat × List UInt8}
    (hn : n ∈ nodes) : collect path proof nodes (path.take n.1) = some n.2 := by
  induction nodes generalizing proof with
  | nil => cases hn
  | cons n' nodes ih =>
    rw [List.map_cons, List.pairwise_cons] at hsorted
    rcases List.mem_cons.mp hn with rfl | hn
    · have hnot : ∀ n' ∈ nodes, path.take n.1 ≠ path.take n'.1 := by
        intro n' hn' he
        have hlt := hsorted.1 _ (List.mem_map_of_mem hn')
        rw [← he] at hlt
        exact lt_irrefl _ hlt
      exact (collect_of_not_mem _ hnot).trans (Function.update_self _ _ _)
    · exact ih _ hsorted.2 hn

/-- The collected nodes in the order of their keys. -/
private theorem values_collect (hsorted : (nodes.map Prod.fst).Pairwise (· < ·))
    (hbound : ∀ n ∈ nodes, n.1 ≤ path.length) :
    Values (collect path (fun _ ↦ none) nodes) (nodes.map Prod.snd) := by
  have hkeys : (nodes.map fun n ↦ path.take n.1).Pairwise (· < ·) := by
    rw [List.pairwise_map] at hsorted ⊢
    exact hsorted.imp_of_mem fun ha hb hlt ↦ take_lt hlt (hbound _ hb)
  refine ⟨nodes.map fun n ↦ path.take n.1, hkeys, fun key ↦ ?_, ?_⟩
  · constructor
    · intro hkey
      obtain ⟨n, hn, rfl⟩ := List.mem_map.mp hkey
      rw [collect_of_mem _ hkeys hn]
      exact Option.some_ne_none _
    · intro hne
      by_contra hkey
      apply hne
      exact collect_of_not_mem _ fun n hn he ↦ hkey (he ▸ List.mem_map_of_mem hn)
  · rw [List.map_map, List.map_map]
    exact List.map_congr_left fun n hn ↦ (collect_of_mem _ hkeys hn).symm
/-! ### Descents -/

section
variable [AlloyTrie]

private theorem insertNode_eq (proof : ProofNodes) (k : Nat) (pre : Nibbles) (kind : Kind)
    (ch : Fin 16 → Trie Loc) :
    insertNode proof path k (kind.node pre fun i ↦ (ch i).pointer?) =
      Function.update proof (path.take k) (some (kind.encoding pre fun i ↦ (ch i).ref?)) := by
  simp only [insertNode, Kind.rlpEncode_node, pointer?_map_rlp]

omit [AlloyTrie] in
private theorem insertBranch_eq (proof : ProofNodes) (k : Nat) (pre : Nibbles)
    (ch : Fin 16 → Trie Loc) :
    insertBranch proof path (k + pre.length) pre (fun i ↦ (ch i).pointer?) =
      collect path proof (branchPart k pre fun i ↦ (ch i).ref?) := by
  simp only [insertBranch, branchPart, pointer?_map_rlp, List.isEmpty_iff,
    Node.encodeBranch_eq_branchRlp]
  split <;> rfl

/-- The descent to a slot collects the nodes on the way to it. -/
private theorem storage_collects (fuel : Nat) (hs : Clean s) (h : Holds s t)
    (ht : t.tag? = some (p, i)) {v : U256} (htrail : Trail t q k nodes (.slot v) st)
    (hq : path.drop k = q) (hlen : path.length ≤ 64)
    (hf : q.length < fuel) (proof : StorageProof) :
    Reads (getStorageProofFromPage path fuel k p i proof) s
      (some ⟨proof.hashedSlot, v, collect path proof.proof nodes⟩) := by
  generalize he : Entry.slot v = e at htrail
  induction htrail generalizing p i fuel proof with
  | leaf =>
    subst he
    cases ht
    obtain ⟨fuel, rfl⟩ : ∃ f, fuel = f + 1 := ⟨fuel - 1, by omega⟩
    refine ⟨s, ?_, rfl⟩
    rw [storage_value fuel proof h.cell hq rfl, insertNode_eq]
    rfl
  | @branch tag ref pre e ch k j rest nodes st htrail ih =>
    cases ht
    obtain ⟨fuel, rfl⟩ : ∃ f, fuel = f + 1 := ⟨fuel - 1, by omega⟩
    have hlength := congrArg List.length hq
    rw [List.length_drop, List.length_append, List.length_cons] at hlength
    rw [List.length_append, List.length_cons] at hf
    have hdrop : path.drop (k + pre.length + 1) = rest := by
      rw [← List.drop_drop, drop_of_append hq]
      rfl
    obtain ⟨c, hc⟩ := htrail.exists_tag
    have hrun := storage_next fuel proof h.cell rfl hq (by omega)
    rw [insertNode_eq, insertBranch_eq] at hrun
    obtain ⟨s', hbelow, heng⟩ := @ih c.1 c.2 fuel (h.child j) hc hdrop (by omega) { proof with
      proof := collect path (Function.update proof.proof (path.take k)
        (some (Kind.branch.encoding pre fun i ↦ (ch i).ref?)))
          (branchPart k pre fun i ↦ (ch i).ref?) } he
    refine ⟨s', ?_, heng⟩
    rw [collect, List.foldl_cons, List.foldl_append]
    exact hrun.trans ((follow_eq hs (h.child j) (h.linked j) hc).trans hbelow)

/-- The descent to the leaf of an account. -/
private theorem account_descends (fuel : Nat) (hs : Clean s) (h : Holds s t)
    (ht : t.tag? = some (p, i)) {info : AccountInfo} (htrail : Trail t q k nodes (.account info) st)
    {tail : Nibbles}
    (hq : path.drop k = q ++ tail) (hlen : k + q.length = 64) (hf : q.length < fuel)
    (proof : AccountProof) :
    ∃ fuel' k' p' i' ref pre ch init, fuel < fuel' + 1 + q.length + 1 ∧ k' + pre.length = 64 ∧
      path.drop k' = pre ++ tail ∧ st = ch 0 ∧
      Holds s (node (p', i') ref pre (.leaf (.account info)) ch) ∧
      nodes = init ++ [(k', (Kind.leaf (.account info)).encoding pre fun i ↦ (ch i).ref?)] ∧
      getValueWithProofFromPage path fuel k p i proof s =
        getValueWithProofFromPage path (fuel' + 1) k' p' i'
          { proof with proof := collect path proof.proof init } s := by
  generalize he : Entry.account info = e at htrail
  induction htrail generalizing p i fuel proof with
  | @leaf tag ref pre e ch k =>
    subst he
    cases ht
    obtain ⟨fuel, rfl⟩ : ∃ f, fuel = f + 1 := ⟨fuel - 1, by omega⟩
    exact ⟨fuel, k, p, i, ref, pre, ch, [], by omega, hlen, hq, rfl, h, rfl, rfl⟩
  | @branch tag ref pre e ch k j rest nodes st htrail ih =>
    cases ht
    obtain ⟨fuel, rfl⟩ : ∃ f, fuel = f + 1 := ⟨fuel - 1, by omega⟩
    rw [List.length_append, List.length_cons] at hf hlen
    rw [List.append_assoc, List.cons_append] at hq
    have hdrop : path.drop (k + pre.length + 1) = rest ++ tail := by
      rw [← List.drop_drop, drop_of_append hq]
      rfl
    obtain ⟨c, hc⟩ := htrail.exists_tag
    have hrun := account_next fuel proof h.cell rfl hq (by omega)
    rw [insertNode_eq, Kind.pre_node, insertBranch_eq] at hrun
    obtain ⟨fuel', k', p', i', ref', pre', ch', init, hfuel, hk, hq', hst, hholds, hnodes, hrun'⟩ :=
      @ih c.1 c.2 fuel (h.child j) hc hdrop (by omega) (by omega) { proof with
        proof := collect path (Function.update proof.proof (path.take k)
          (some (Kind.branch.encoding pre fun i ↦ (ch i).ref?)))
            (branchPart k pre fun i ↦ (ch i).ref?) } he
    refine ⟨fuel', k', p', i', ref', pre', ch', (k, Kind.branch.encoding pre fun i ↦ (ch i).ref?) ::
      (branchPart k pre (fun i ↦ (ch i).ref?) ++ init), ?_, hk, hq', hst, hholds, ?_, ?_⟩
    · rw [List.length_append, List.length_cons]
      omega
    · rw [hnodes]
      simp
    · rw [collect, List.foldl_cons, List.foldl_append]
      exact hrun.trans ((follow_eq hs (h.child j) (h.linked j) hc).trans hrun')

/-- The account of a leaf with the given storage. -/
def accountOf (info : AccountInfo) (st : Trie Loc) : Account :=
  ⟨info.nonce, info.balance, st.rootOf, info.codeHash⟩

omit [AlloyTrie] in
private theorem collect_append (path : Nibbles) (proof : ProofNodes)
    (init : List (Nat × List UInt8)) (n : Nat × List UInt8) :
    collect path proof (init ++ [n]) =
      Function.update (collect path proof init) (path.take n.1) (some n.2) := by
  rw [collect, List.foldl_append]
  rfl

private theorem storageRootHash_eq (st : Trie Loc) :
    Node.storageRootHash st.pointer? = st.rootOf := by
  cases st <;> rfl

/-- The descent to an account collects the nodes on the way to it. -/
private theorem account_collects (fuel : Nat) (hs : Clean s) (h : Holds s t)
    (ht : t.tag? = some (p, i)) {info : AccountInfo} (htrail : Trail t q k nodes (.account info) st)
    (hq : path.drop k = q) (hlen : k + q.length = 64) (hf : q.length < fuel)
    (proof : AccountProof) :
    Reads (getValueWithProofFromPage path fuel k p i proof) s (some { proof with
      account := accountOf info st, proof := collect path proof.proof nodes }) := by
  rw [← List.append_nil q] at hq
  obtain ⟨fuel', k', p', i', ref, pre, ch, init, -, -, hq', rfl, hholds, rfl, hrun⟩ :=
    account_descends fuel hs h ht htrail hq hlen hf proof
  rw [List.append_nil] at hq'
  refine ⟨s, ?_, rfl⟩
  rw [hrun, account_value fuel' _ hholds.cell hq' rfl, insertNode_eq, collect_append,
    storageRootHash_eq]
  rfl

/-- The storage part of the descent collects the nodes on the way from the storage root. -/
private theorem getStorageProof_collects (fuel : Nat) {remaining : Nibbles} {v : U256}
    {st' : Trie Loc} {root : B256} (hs : Clean s) (h : Holds s st) (hl : st.Linked p)
    (htrail : Trail st remaining 0 nodes (.slot v) st') (hroot : st.ref? = some (.hash root))
    (hlen : remaining.length = 64) (hf : 64 < fuel) (proof : AccountProof) :
    Reads (getStorageProof fuel p remaining st.pointer? proof) s (some { proof with
      account := { proof.account with storageRoot := root }
      storageProofs := Function.update proof.storageProofs (slotHash remaining)
        (some ⟨remaining, v, collect remaining (fun _ ↦ none) nodes⟩) }) := by
  cases st with
  | empty => cases hroot
  | node c ref pre kind ch =>
    cases hroot
    obtain ⟨s', hrun, heng⟩ := storage_collects fuel hs h rfl htrail List.drop_zero hlen.le
      (by omega) { hashedSlot := remaining }
    have hlong : ¬ 64 < remaining.length := by omega
    have hat : getStorageProofAt fuel p remaining (nodeLocation c.1 c.2) s =
        follow (fun p' i' ↦ getStorageProofFromPage remaining fuel 0 p' i'
          { hashedSlot := remaining }) p (node c (.hash root) pre kind ch).pointer? s := by
      simp only [follow, pointer?]
      cases nodeLocation c.1 c.2 <;> rfl
    have hfollow := hat.trans ((follow_eq hs h hl rfl).trans hrun)
    refine ⟨s', ?_, heng⟩
    simp only [getStorageProof, pointer?, bind_apply, rootHash, RlpNode.asHash, pure_apply, hlong,
      if_false, hfollow, fromSlice_packTo hlen]

/-- The descent to a slot collects the nodes on the way to its account and from there to the
slot. -/
private theorem slot_collects (fuel : Nat) (hs : Clean s) (h : Holds s t)
    (ht : t.tag? = some (p, i)) {info : AccountInfo} (htrail : Trail t q k nodes (.account info) st)
    {j : Nibble} {r : Nibbles}
    (hq : path.drop k = q ++ j :: r) (hlen : k + q.length = 64) (hrest : (j :: r).length = 64)
    {slotNodes : List (Nat × List UInt8)} {v : U256} {st' : Trie Loc} {root : B256}
    (hslot : Trail st (j :: r) 0 slotNodes (.slot v) st') (hroot : st.ref? = some (.hash root))
    (hf : q.length + 66 < fuel) (proof : AccountProof) :
    Reads (getValueWithProofFromPage path fuel k p i proof) s (some { proof with
      account := accountOf info st
      proof := collect path proof.proof nodes
      storageProofs := Function.update proof.storageProofs (slotHash (j :: r))
        (some ⟨j :: r, v, collect (j :: r) (fun _ ↦ none) slotNodes⟩) }) := by
  obtain ⟨fuel', k', p', i', ref, pre, ch, init, hfuel, hk, hq', rfl, hholds, rfl, hrun⟩ :=
    account_descends fuel hs h ht htrail hq hlen (by omega) proof
  have hnodes := collect_append path proof.proof init
    (k', (Kind.leaf (.account info)).encoding pre fun i ↦ (ch i).ref?)
  have hleaf := account_storage fuel' { proof with proof := collect path proof.proof init }
    hholds.cell rfl hq' hk
  simp only [insertNode_eq, ← hnodes] at hleaf
  obtain ⟨s', hrun', heng⟩ := getStorageProof_collects fuel' hs (hholds.child 0) (hholds.linked 0)
    hslot hroot hrest (by omega) { proof with
      account := ⟨info.nonce, info.balance, emptyRootHash, info.codeHash⟩
      proof := collect path proof.proof (init ++
        [(k', (Kind.leaf (.account info)).encoding pre fun i ↦ (ch i).ref?)]) }
  have haccount : accountOf info (ch 0) = ⟨info.nonce, info.balance, root, info.codeHash⟩ := by
    rw [accountOf, rootOf, hroot]
    rfl
  refine ⟨s', ?_, heng⟩
  rw [hrun, haccount]
  exact hleaf.trans hrun'

/-! ### Verification -/

/-- The verifier accepts the nodes of a proof, in the order of their paths. -/
def Accepts (decode : List UInt8 → Option TrieNode) (root : B256) (key : Nibbles)
    (value : List UInt8) (proof : ProofNodes) : Prop :=
  ∃ l, Values proof l ∧ verifyProof decode key root (some value) l = true

variable {decode : List UInt8 → Option TrieNode} {x : B256}

/-- The nodes on the way to a leaf are accepted if and only if none of them is embedded. -/
private theorem accepts_iff (hstd : AlloyTrie.Standard) (hd : Decodes decode)
    (h : Trail t q 0 nodes e st) (hh : t.Hashed) (hshort : t.Short) (hr : t.ref? = some (.hash x))
    (hq : q <+: path) :
    Accepts decode x q (e.bytes st.rootOf) (collect path (fun _ ↦ none) nodes) ↔
      t.Unembedded q := by
  obtain ⟨hsorted, hbound⟩ := h.sorted
  have hvalues : Values (collect path (fun _ ↦ none) nodes) (nodes.map Prod.snd) := by
    apply values_collect hsorted
    intro n hn
    have := (hbound n hn).2
    have := hq.length_le
    omega
  rw [← h.verifyProof_iff hstd hd hh hshort hr]
  constructor
  · rintro ⟨l, hl, haccept⟩
    rwa [hl.unique hvalues] at haccept
  · exact fun haccept ↦ ⟨_, hvalues, haccept⟩

/-- An account is returned with a proof that the verifier accepts against the root hash. -/
def AccountVerifies (decode : List UInt8 → Option TrieNode) (s : State Cells) (fuel : Nat)
    (a : Nibbles) (account : Account) : Prop :=
  ∃ proof, Reads (getAccountWithProof fuel a) s (some proof) ∧ proof.account = account ∧
    Accepts decode s.context.rootNodeHash a (Merkle.accountRlp account) proof.proof

/-- A slot is returned with a proof of its account that the verifier accepts against the root hash,
and a proof of the slot that it accepts against the storage root of the account. -/
def SlotVerifies (decode : List UInt8 → Option TrieNode) (s : State Cells) (fuel : Nat)
    (q : Nibbles) (v : U256) : Prop :=
  ∃ proof storageProof, Reads (getStorageWithProof fuel q) s (some proof) ∧
    Accepts decode s.context.rootNodeHash (q.take 64) (Merkle.accountRlp proof.account)
        proof.proof ∧
    proof.storageProofs (slotHash (q.drop 64)) = some storageProof ∧ storageProof.value = v ∧
    Accepts decode proof.account.storageRoot (q.drop 64) (Merkle.slotRlp v)
      storageProof.proof

/-- The descent starts at the root page. -/
private theorem getValueWithProof_eq (fuel : Nat) (hs : Clean s) (h : Holds s t)
    (hr : Anchored s t) (hne : t ≠ empty)
    (hp : path.length = 64 ∨ path.length = 128) : ∃ p, t.tag? = some (p, 0) ∧
      getValueWithProof fuel path s = getValueWithProofFromPage path fuel 0 p 0
        { hashedAddress := lower64Nibbles path } s := by
  obtain ⟨p, htag, hroot, hget⟩ := root_readable hs h hr hne
  have hlen : path.length = addressPathLength ∨ path.length = storagePathLength := hp
  refine ⟨p, htag, ?_⟩
  simp only [getValueWithProof, hlen, if_true, bind_apply, get_apply, hroot, hget]

omit [AlloyTrie] in
/-- The context has the hash of the root. -/
private theorem ref_of_anchored (hr : Anchored s t) (hne : t ≠ empty) :
    t.ref? = some (.hash s.context.rootNodeHash) := by
  cases t with
  | empty => exact absurd rfl hne
  | node c ref pre kind ch =>
    cases ref with
    | raw bytes => cases hr.2.2
    | hash x =>
      cases hr.2.2
      rfl

private theorem exists_info {f : Entries} {a : Nibbles} {account : Account}
    (h : f.account a = some account) : ∃ info, f a = some (.account info) := by
  unfold Entries.account Entries.value at h
  cases hf : f a with
  | none => simp [hf] at h
  | some e =>
    cases e with
    | account info => exact ⟨info, rfl⟩
    | slot v => simp [hf] at h

private theorem lookup_of_slot {f : Entries} {q : Nibbles} {v : U256} (h : f.slot q = some v) :
    f q = some (.slot v) := by
  unfold Entries.slot Entries.value at h
  cases hf : f q with
  | none => simp [hf] at h
  | some e =>
    cases e with
    | account info => simp [hf] at h
    | slot w =>
      simp [hf] at h
      rw [h]

variable (hstd : AlloyTrie.Standard) (hd : Decodes decode) (hs : Clean s) (h : Holds s t)
  (hr : Anchored s t) (ht : t.Canonical)

include hstd hd hs h hr ht

/-- The proof of an account verifies. -/
theorem account_verifies {fuel : Nat} {a : Nibbles} {account : Account} (hf : 64 < fuel)
    (ha : a.length = 64) (haccount : Entries.account t.lookup a = some account) :
    AccountVerifies decode s fuel a account := by
  obtain ⟨info, hinfo⟩ := exists_info haccount
  obtain ⟨nodes, st, htrail⟩ := exists_trail ht.rough hinfo (.inr ⟨info, rfl⟩) 0
  cases haccount.symm.trans (htrail.account_eq ht.rough ht.branched ht.hashed)
  have hne : t ≠ empty := fun he ↦ by rw [he] at hinfo; cases hinfo
  obtain ⟨p, htag, hrun⟩ := getValueWithProof_eq fuel hs h hr hne (.inl ha)
  obtain ⟨s', hrun', heng⟩ := account_collects fuel hs h htag htrail List.drop_zero
    (by omega) (by omega) { hashedAddress := lower64Nibbles a }
  refine ⟨_, ⟨s', hrun.trans hrun', heng⟩, rfl, ?_⟩
  exact (accepts_iff hstd hd htrail ht.hashed ht.shaped.short (ref_of_anchored hr hne)
    List.prefix_rfl).mpr (ht.hashed.unembedded hstd ht.rough ht.branched ht.housed (by decide) a)

/-- The proof of a slot verifies if and only if no node on the way from the storage root to the slot
is embedded in the one above it. -/
theorem slot_verifies_iff {fuel : Nat} {q : Nibbles} {v : U256} (hf : 130 < fuel)
    (hq : q.length = 128) (hv : Entries.slot t.lookup q = some v) :
    SlotVerifies decode s fuel q v ↔ (t.storage (q.take 64)).Unembedded (q.drop 64) := by
  obtain ⟨j, r, hdrop⟩ : ∃ j r, q.drop 64 = j :: r := by
    apply List.exists_cons_of_ne_nil
    rw [ne_eq, List.drop_eq_nil_iff]
    omega
  have hrest : (j :: r).length = 64 := by
    rw [← hdrop, List.length_drop, hq]
  have hsplit : q = q.take 64 ++ j :: r := by rw [← hdrop, List.take_append_drop]
  have htake : (q.take 64).length = 64 := by
    rw [List.length_take]
    omega
  have hlookup := lookup_of_slot hv
  obtain ⟨info, hinfo⟩ : ∃ info, t.lookup (q.take 64) = some (.account info) := by
    obtain ⟨a, info, hprefix, ha, hinfo⟩ := ht.rough.exists_account ht.housed (by decide)
      (show t.lookup q ≠ none by rw [hlookup]; exact Option.some_ne_none _)
    have ha' : a.length = 64 := by omega
    rw [List.prefix_iff_eq_take.mp hprefix, ha'] at hinfo
    exact ⟨info, hinfo⟩
  obtain ⟨nodes, st, htrail⟩ := exists_trail ht.rough hinfo (.inr ⟨info, rfl⟩) 0
  have hst : st.Shaped .slots := by
    obtain ⟨tag, ref, pre, ch, hw, rfl⟩ := htrail.within
    exact ht.shaped.storage hw
  have hslot : st.lookup (j :: r) = some (.slot v) := by
    rw [← htrail.lookup_storage, ← hsplit]
    exact hlookup
  obtain ⟨slotNodes, st', hslotTrail⟩ := exists_trail hst.rough hslot (.inl rfl) 0
  obtain ⟨ref, href⟩ := hslotTrail.ref_ne
  obtain ⟨root, rfl⟩ := hst.hashed.exists_hash hst.rough rfl hst.branched href
  have hne : t ≠ empty := fun he ↦ by rw [he] at hinfo; cases hinfo
  obtain ⟨p, htag, hrun⟩ := getValueWithProof_eq fuel hs h hr hne (.inr hq)
  obtain ⟨s', hrun', heng⟩ := slot_collects fuel hs h htag htrail (List.drop_zero.trans hsplit)
    (by omega) hrest hslotTrail href (by omega) { hashedAddress := lower64Nibbles q }
  have hread := show Reads (getStorageWithProof fuel q) s _ from ⟨s', hrun.trans hrun', heng⟩
  have hroot : st.rootOf = root := by
    rw [rootOf, href]
    rfl
  have haccount :
      Accepts decode s.context.rootNodeHash (q.take 64) (Merkle.accountRlp (accountOf info st))
      (collect q (fun _ ↦ none) nodes) :=
    (accepts_iff hstd hd htrail ht.hashed ht.shaped.short (ref_of_anchored hr hne)
      (List.take_prefix 64 q)).mpr
        (ht.hashed.unembedded hstd ht.rough ht.branched ht.housed (by decide) _)
  have hstorage : Accepts decode (accountOf info st).storageRoot (j :: r) (Merkle.slotRlp v)
      (collect (j :: r) (fun _ ↦ none) slotNodes) ↔ st.Unembedded (j :: r) := by
    rw [show (accountOf info st).storageRoot = root from hroot]
    exact accepts_iff hstd hd hslotTrail hst.hashed hst.short href (List.prefix_refl (j :: r))
  rw [htrail.storage_eq, hdrop, ← hstorage]
  constructor
  · rintro ⟨proof, storageProof, hread', -, hproof, -, haccept⟩
    cases hread.unique hread'
    rw [hdrop] at hproof haccept
    simp only [Function.update_self, Option.some.injEq] at hproof
    subst hproof
    exact haccept
  · intro haccept
    refine ⟨_, ⟨j :: r, v, collect (j :: r) (fun _ ↦ none) slotNodes⟩, hread, haccount, ?_, rfl, ?_⟩
    · simp only [hdrop, Function.update_self]
    · rw [hdrop]
      exact haccept

/-- The proof of every account verifies. The proof of a slot verifies if and only if no node on the
way from the storage root to the slot is embedded in the one above it. -/
theorem withProof_verifies_iff {fuel : Nat} (hf : 131 ≤ fuel) :
    (∀ a account, a.length = 64 → Entries.account t.lookup a = some account →
      AccountVerifies decode s fuel a account) ∧
    ∀ q v, q.length = 128 → Entries.slot t.lookup q = some v →
      (SlotVerifies decode s fuel q v ↔ (t.storage (q.take 64)).Unembedded (q.drop 64)) := by
  constructor
  · intro a account ha haccount
    exact account_verifies hstd hd hs h hr ht (by omega) ha haccount
  · intro q v hq hv
    exact slot_verifies_iff hstd hd hs h hr ht (by omega) hq hv

end

/-! ### Two slots -/

section
variable [AlloyTrie]

private theorem account_ne_none {f : Entries} {a : Nibbles} {info : AccountInfo}
    (h : f a = some (.account info)) : ∃ account, f.account a = some account := by
  rw [Entries.account, Entries.value, h]
  exact ⟨_, rfl⟩

private theorem slot_eq {f : Entries} {q : Nibbles} {v : U256} (h : f q = some (.slot v)) :
    f.slot q = some v := by
  rw [Entries.slot, Entries.value, h]

end

/-- The contents of a new account with one slot. -/
private theorem update_accountAndSlot (q : Nibbles) :
    Entries.update (fun _ ↦ none) accountAndSlot q =
    if q = Layout.path 0 ++ Layout.path 1 then some (.slot 7)
    else if q = Layout.path 0 then some (TrieValue.entry (.account someAccount)) else none := by
  simp only [Entries.update, accountAndSlot, List.foldl_cons, List.foldl_nil, Entries.apply,
    Function.update_apply]
  rfl

/-- The proofs of a new account and of its only slot verify. -/
theorem withProof_verifies_created :
    (∃ account, AccountVerifies TrieNode.decode (after accountAndSlot created) 131 (Layout.path 0)
      account) ∧
    SlotVerifies TrieNode.decode (after accountAndSlot created) 131
      (Layout.path 0 ++ Layout.path 1) 7 := by
  obtain ⟨t, hc, hlook⟩ := contains_accountAndSlot
  have hverifies := withProof_verifies_iff standard_alloyTrie decodes_decode hc.clean hc.holds
    hc.anchored hc.canonical (Nat.le_refl 131)
  have haccount : t.lookup (Layout.path 0) = some (TrieValue.entry (.account someAccount)) := by
    rw [hlook, update_accountAndSlot, if_neg (by decide), if_pos rfl]
  constructor
  · obtain ⟨account, ha⟩ := account_ne_none haccount
    exact ⟨account, hverifies.1 _ account rfl ha⟩
  · apply (hverifies.2 _ 7 rfl (slot_eq (by rw [hlook, update_accountAndSlot, if_pos rfl]))).mpr
    obtain ⟨nodes, st, htrail⟩ := exists_trail hc.canonical.rough haccount (.inr ⟨_, rfl⟩) 0
    rw [show (Layout.path 0 ++ Layout.path 1).take 64 = Layout.path 0 from rfl, htrail.storage_eq]
    obtain ⟨tag, ref, pre, ch, hw, rfl⟩ := htrail.within
    have hstorage := hc.canonical.shaped.storage hw
    have hone (q : Nibbles) (hq : (ch 0).lookup q ≠ none) : q = Layout.path 1 := by
      obtain ⟨e, he⟩ := Option.ne_none_iff_exists'.mp hq
      obtain ⟨v, rfl⟩ := hstorage.rough.slot he
      have hlen : q.length = 64 := hstorage.rough.admits he
      obtain ⟨j, r, rfl⟩ : ∃ j r, q = j :: r :=
        List.exists_cons_of_ne_nil fun hnil ↦ by simp [hnil] at hlen
      rw [← htrail.lookup_storage, hlook, update_accountAndSlot] at he
      split at he
      · next heq => exact List.append_cancel_left heq
      · rw [if_neg] at he
        · cases he
        · intro heq
          have := congrArg List.length heq
          rw [List.length_append, hlen] at this
          cases this
    exact hstorage.branched.unembedded (fun q q' hq hq' ↦ (hone q hq).trans (hone q' hq').symm) _

/-- A new account with two slots that differ in the last nibble of their hashes. -/
def siblings : Changes :=
  [(Layout.path 0, some (.account someAccount)),
   (Layout.path 0 ++ (List.replicate 63 1 ++ [0]), some (.storage 1)),
   (Layout.path 0 ++ (List.replicate 63 1 ++ [1]), some (.storage 1))]

private theorem setValues_siblings :
    setValues 8 siblings created = .ok () (after siblings created) :=
  setValues_of_succeeds (by decide +kernel)

private theorem admissible_siblings {f : Entries} : Admissible f siblings := by
  apply admissible_values
  · intro c hc
    rcases List.mem_cons.mp hc with rfl | hc
    · exact ⟨TrieValue.entry (.account someAccount), ⟨rfl, rfl⟩, fun v hv ↦ by cases hv; rfl⟩
    · rcases List.mem_pair.mp hc with rfl | rfl <;>
        exact ⟨TrieValue.entry (.storage 1), rfl, fun v hv ↦ by cases hv; rfl⟩
  · decide +kernel
  · decide +kernel
  · intro c hc hlen
    rcases List.mem_cons.mp hc with rfl | hc
    · cases hlen
    · rcases List.mem_pair.mp hc with rfl | rfl <;> exact ⟨_, List.mem_cons_self⟩

private theorem contains_siblings : Contains (after siblings created)
    (Entries.update (fun _ ↦ none) siblings) :=
  (contains_created.setValues admissible_siblings (not_stalls (by simp [siblings]))
    setValues_siblings).1

/-- The slots of an account whose hashes differ in the last nibble are read, and their proofs are
rejected. -/
theorem withProof_rejected_siblings :
    Reads (getStorage 131 (Layout.path 0 ++ (List.replicate 63 1 ++ [0])))
      (uncached (after siblings created)) (some 1) ∧
    ¬ SlotVerifies TrieNode.decode (after siblings created) 131
      (Layout.path 0 ++ (List.replicate 63 1 ++ [0])) 1 := by
  have hslot (i : Nibble) (hi : i = 0 ∨ i = 1) : Entries.update (fun _ ↦ none) siblings
      (Layout.path 0 ++ (List.replicate 63 1 ++ [i])) = some (.slot 1) := by
    rcases hi with rfl | rfl <;> rfl
  have hread := (contains_siblings.readsAs (n := 131) (by decide)).2
    (Layout.path 0 ++ (List.replicate 63 1 ++ [0])) rfl
  rw [slot_eq (hslot 0 (.inl rfl))] at hread
  refine ⟨hread, ?_⟩
  obtain ⟨t, hc, hlook⟩ := contains_siblings
  have haccount : t.lookup (Layout.path 0) = some (TrieValue.entry (.account someAccount)) := by
    rw [hlook]
    rfl
  obtain ⟨nodes, st, htrail⟩ := exists_trail hc.canonical.rough haccount (.inr ⟨_, rfl⟩) 0
  have hst : st.Shaped .slots := by
    obtain ⟨tag, ref, pre, ch, hw, rfl⟩ := htrail.within
    exact hc.canonical.shaped.storage hw
  have hlookup (i : Nibble) (hi : i = 0 ∨ i = 1) :
      st.lookup (List.replicate 63 1 ++ [i]) = some (.slot 1) := by
    have hcons : List.replicate 63 (1 : Nibble) ++ [i] = 1 :: (List.replicate 62 1 ++ [i]) := rfl
    rw [← hslot i hi, ← hlook, hcons, htrail.lookup_storage]
  have hembedded := not_unembedded_of_siblings standard_alloyTrie hst.hashed hst.rough
    (by decide : (0 : Nibble) ≠ 1) (hlookup 0 (.inl rfl)) (hlookup 1 (.inr rfl)) (by decide)
  rw [slot_verifies_iff standard_alloyTrie decodes_decode hc.clean hc.holds hc.anchored hc.canonical
    (by decide) rfl (slot_eq (by rw [hlook]; exact hslot 0 (.inl rfl)))]
  have hstorage := htrail.storage_eq
  rw [← hstorage] at hembedded
  exact hembedded

end TrieDb.Layout

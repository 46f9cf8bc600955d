import Mathlib.Algebra.Order.BigOperators.Group.Finset
import TrieDb.Base.Patricia
import TrieDb.Trie.Applied
import TrieDb.Trie.Encoding

/-!
# State roots

The Merkle-Patricia root of a set of accounts and slots, defined from the set alone, and the
references in a finished trie: the root of the trie has the state root, and every account has the
root of its slots.
-/

namespace TrieDb

open Base.Patricia
open Trie

variable [AlloyTrie]

/-! ### Merkle-Patricia roots -/

namespace Merkle

/-- A leaf, as its parent refers to it. -/
def leafRef (path : Nibbles) (value : List UInt8) : RlpNode :=
  .fromRlp (AlloyTrie.leafNode path value)

/-- A branch, below an extension when its children have a common prefix. -/
def branchRef (path : Nibbles) (children : Fin 16 → Option RlpNode) : RlpNode :=
  if path = [] then .fromRlp (branchRlp children)
  else .fromRlp (AlloyTrie.extensionNode path (.fromRlp (branchRlp children)))

/-- The hash of the root node, which is hashed even when it is short. -/
def rootHash : Option RlpNode → B256
  | none => emptyRootHash
  | some (.raw bytes) => AlloyTrie.keccak256 bytes
  | some (.hash h) => h

/-- The reference to the trie of a map; `depth` bounds the length of the keys. -/
noncomputable def ref (depth : Nat) (g : Nibbles → Option (List UInt8)) : Option RlpNode :=
  commit leafRef branchRef depth g

/-- The Merkle-Patricia root of a map whose keys have 64 nibbles. -/
noncomputable def root (g : Nibbles → Option (List UInt8)) : B256 := rootHash (ref 64 g)

end Merkle

/-- The value of a slot in a storage trie. -/
def Entry.slotBytes : Entry → Option (List UInt8)
  | .slot v => some (Merkle.slotRlp v)
  | .account _ => none

namespace Entries

/-- The storage root of an account. -/
noncomputable def storageRoot (f : Entries) (a : Nibbles) : B256 :=
  Merkle.root fun s ↦ (f (a ++ s)).bind Entry.slotBytes

/-- The value of an account in the state trie. -/
noncomputable def accountBytes (f : Entries) (a : Nibbles) : Option (List UInt8) :=
  match f a with
  | some (.account info) =>
    some (Merkle.accountRlp ⟨info.nonce, info.balance, f.storageRoot a, info.codeHash⟩)
  | _ => none

/-- The state root of accounts and their slots. -/
noncomputable def stateRoot (f : Entries) : B256 := Merkle.root f.accountBytes

/-- What is read at a path: an account has its storage root. -/
noncomputable def value (f : Entries) (q : Nibbles) : Option TrieValue :=
  match f q with
  | some (.account info) =>
    some (.account ⟨info.nonce, info.balance, f.storageRoot q, info.codeHash⟩)
  | some (.slot v) => some (.storage v)
  | none => none

/-- The account at a path. -/
noncomputable def account (f : Entries) (a : Nibbles) : Option Account :=
  match f.value a with
  | some (.account account) => some account
  | _ => none

/-- The slot at a path. -/
noncomputable def slot (f : Entries) (q : Nibbles) : Option U256 :=
  match f.value q with
  | some (.storage v) => some v
  | _ => none

end Entries

/-! ### Kinds of nodes -/

namespace Kind

variable {pre : Nibbles} {refs : Fin 16 → Option RlpNode}

private theorem rlp_slot (v : U256) :
    (leaf (.slot v)).rlp pre refs = Merkle.leafRef pre (Merkle.slotRlp v) := by
  rw [← Merkle.encodeUint_eq_slotRlp]
  rfl

private theorem rlp_account (info : AccountInfo) :
    (leaf (.account info)).rlp pre refs = Merkle.leafRef pre (Merkle.accountRlp
      ⟨info.nonce, info.balance, ((refs 0).bind RlpNode.asHash).getD emptyRootHash,
        info.codeHash⟩) := by
  have hroot : Node.storageRootHash ((refs 0).map (Pointer.mk (.cell 0))) =
      ((refs 0).bind RlpNode.asHash).getD emptyRootHash := by
    cases refs 0 <;> rfl
  simp only [rlp, node, Node.toRlpNode, Node.rlpEncode, hroot, Merkle.leafRef,
    ← Node.encodeAccountLeaf_eq_accountRlp]

private theorem rlp_branch : branch.rlp pre refs = Merkle.branchRef pre refs := by
  have hrefs (p : Option RlpNode) : (p.map (Pointer.mk (.cell 0))).map Pointer.rlp = p := by
    cases p <;> rfl
  simp only [rlp, node, Node.toRlpNode, Node.rlpEncode, hrefs, Merkle.branchRef, List.isEmpty_iff,
    Node.encodeBranch_eq_branchRlp]
  split <;> rfl

end Kind

/-! ### Lengths of encodings -/

private theorem RlpNode.le_len_fromRlp (bytes : List UInt8) :
    min bytes.length 33 ≤ (RlpNode.fromRlp bytes).len := by
  unfold fromRlp
  split
  · exact Nat.min_le_left _ _
  · show min bytes.length 33 ≤ (0xa0 :: (AlloyTrie.keccak256 bytes).toList).length
    simp

private theorem RlpNode.fromRlp_eq_raw {bytes bytes' : List UInt8}
    (h : RlpNode.fromRlp bytes = .raw bytes') : bytes'.length < 32 := by
  unfold fromRlp at h
  split at h
  · next hlt =>
    cases h
    exact hlt
  · cases h

omit [AlloyTrie] in
/-- Two children are embedded one after the other. -/
private theorem Node.le_length_encodeBranch {refs : Fin 16 → Option RlpNode} {i j : Fin 16}
    {r r' : RlpNode} (hij : i ≠ j) (hi : refs i = some r) (hj : refs j = some r') :
    r.len + r'.len + 2 ≤ (Node.encodeBranch refs).length := by
  have hsum : r.len + r'.len ≤
      ((List.finRange 16).flatMap fun i ↦ embedded (refs i)).length := by
    rw [List.length_flatMap, ← Fin.sum_univ_def]
    calc r.len + r'.len = ∑ k ∈ {i, j}, (embedded (refs k)).length := by
          rw [Finset.sum_pair hij, hi, hj]
          rfl
      _ ≤ ∑ k, (embedded (refs k)).length :=
          Finset.sum_le_sum_of_subset (Finset.subset_univ _)
  have hheader := Rlp.length_listHeader_pos
    ((List.finRange 16).flatMap (fun i ↦ embedded (refs i)) ++ [0x80]).length
  rw [encodeBranch_eq refs rfl, List.length_append]
  rw [List.length_append, List.length_singleton] at hheader ⊢
  omega

/-! ### References in a finished trie -/

/-- The nibbles left to the ends of the keys, when `n` nibbles are left to the end of a slot. -/
def Level.keyLength : Level → Nat → Nat
  | .accounts, n => n - 64
  | .slots, n => n

omit [AlloyTrie] in
private theorem Level.keyLength_le (l : Level) (n : Nat) : l.keyLength n ≤ n := by
  cases l with
  | accounts => exact Nat.sub_le n 64
  | slots => exact Nat.le_refl n

namespace Trie

variable {α : Type} {t : Trie α} {tag : α} {ref : RlpNode} {pre : Nibbles} {ch : Fin 16 → Trie α}
  {l : Level} {n : Nat}

omit [AlloyTrie] in
/-- Two children of a branch. -/
theorem exists_two_children (h : 2 ≤ (occupied ch).length) :
    ∃ i j, i ≠ j ∧ ch i ≠ empty ∧ ch j ≠ empty := by
  have hnodup : (occupied ch).Nodup := (List.nodup_finRange 16).filter _
  obtain ⟨i, j, rest, hocc⟩ : ∃ i j rest, occupied ch = i :: j :: rest := by
    rcases hocc : occupied ch with _ | ⟨i, _ | ⟨j, rest⟩⟩
    · simp [hocc] at h
    · simp [hocc] at h
    · exact ⟨i, j, rest, rfl⟩
  rw [hocc] at hnodup
  refine ⟨i, j, ?_, mem_occupied.mp (by simp [hocc]), mem_occupied.mp (by simp [hocc])⟩
  exact fun hij ↦ (List.nodup_cons.mp hnodup).1 (by simp [hij])

omit [AlloyTrie] in
/-- A trie that is not empty has a value. -/
theorem Branched.exists_value (h : t.Branched) (ht : t ≠ empty) : ∃ q, t.lookup q ≠ none := by
  induction t with
  | empty => exact absurd rfl ht
  | node tag ref pre kind ch ih =>
    cases kind with
    | leaf e => exact ⟨pre, by rw [lookup_leaf_self]; exact Option.some_ne_none _⟩
    | branch =>
      obtain ⟨i, -, -, hi, -⟩ := exists_two_children (h.1 rfl)
      obtain ⟨q, hq⟩ := ih i (h.2 i) hi
      exact ⟨pre ++ i :: q, by rwa [lookup_branch_append]⟩

omit [AlloyTrie] in
/-- The values of a storage trie are slots. -/
theorem Rough.slot (h : t.Rough .slots n) {q : Nibbles} {e : Entry} (hq : t.lookup q = some e) :
    ∃ v, e = .slot v := by
  have hadmits := h.admits hq
  cases e with
  | account info => cases hadmits.1
  | slot v => exact ⟨v, rfl⟩

/-- Nodes are long: the encoding of a node makes up for the nibbles left to the ends of its keys. -/
private theorem Hashed.le_len {r : RlpNode} (hh : t.Hashed) (h : t.Rough l n) (hb : t.Branched)
    (hn : l.keyLength n ≤ 64) (hr : t.ref? = some r) : min (l.keyLength n / 2 + 3) 33 ≤ r.len := by
  induction t generalizing n r with
  | empty => cases hr
  | node tag ref pre kind ch ih =>
    cases hr
    rw [hh.1]
    have hleaf (value : List UInt8) (hv : 0 < value.length) (hle : l.keyLength n ≤ pre.length) :
        min (l.keyLength n / 2 + 3) 33 ≤ (Merkle.leafRef pre value).len := by
      have hlen := AlloyTrie.length_leafNode pre value hv
      have hle' := RlpNode.le_len_fromRlp (AlloyTrie.leafNode pre value)
      rw [Merkle.leafRef]
      omega
    rcases kind with (info | v) | _
    · obtain ⟨rfl, hlen⟩ : l = .accounts ∧ pre.length + 64 = n := h.1
      rw [Kind.rlp_account]
      apply hleaf
      · exact Nat.lt_of_lt_of_le (by decide) (Merkle.length_accountRlp _).1
      · simp only [Level.keyLength]
        omega
    · have hlen : pre.length = n := h.1
      rw [Kind.rlp_slot]
      exact hleaf _ (Merkle.length_slotRlp_pos v) (hlen.symm ▸ l.keyLength_le n)
    · obtain ⟨i, j, hij, hi, hj⟩ := exists_two_children (hb.1 rfl)
      have hpre := h.1
      have hnext : l.keyLength n ≤ l.keyLength (n - pre.length - 1) + (pre.length + 1) := by
        cases l <;> simp only [Level.keyLength] <;> omega
      have hnext' : l.keyLength (n - pre.length - 1) ≤ 64 := by
        cases l <;> simp only [Level.keyLength] at hn ⊢ <;> omega
      have hchild (k : Fin 16) (hk : ch k ≠ empty) : ∃ r, (ch k).ref? = some r ∧
          min (l.keyLength (n - pre.length - 1) / 2 + 3) 33 ≤ r.len := by
        cases hc : ch k with
        | empty => exact absurd hc hk
        | node tag' ref' pre' kind' ch' =>
          have hk' := ih k (hh.2 k) (h.2 k) (hb.2 k) hnext'
            (show (ch k).ref? = some ref' by rw [hc]; rfl)
          exact ⟨ref', rfl, hk'⟩
      obtain ⟨r, hri, hrl⟩ := hchild i hi
      obtain ⟨r', hrj, hrl'⟩ := hchild j hj
      have hbranch : r.len + r'.len + 2 ≤ (Node.encodeBranch fun i ↦ (ch i).ref?).length :=
        Node.le_length_encodeBranch hij hri hrj
      generalize hx : Node.encodeBranch (fun i ↦ (ch i).ref?) = x at hbranch
      have hle := RlpNode.le_len_fromRlp x
      rw [Kind.rlp_branch, Merkle.branchRef, ← Node.encodeBranch_eq_branchRlp, hx]
      split
      · next hnil =>
        subst hnil
        rw [List.length_nil] at hrl hrl' hpre hnext
        omega
      · have hext := AlloyTrie.length_extensionNode pre (.fromRlp x)
        have hle' := RlpNode.le_len_fromRlp (AlloyTrie.extensionNode pre (.fromRlp x))
        omega

/-- A trie with keys of 64 nibbles is referenced by hash. -/
theorem Hashed.exists_hash {r : RlpNode} (hh : t.Hashed) (h : t.Rough l n) (hn : l.keyLength n = 64)
    (hb : t.Branched) (hr : t.ref? = some r) : ∃ x, r = .hash x := by
  cases r with
  | hash x => exact ⟨x, rfl⟩
  | raw bytes =>
    have hlen : min (l.keyLength n / 2 + 3) 33 ≤ bytes.length := hh.le_len h hb hn.le hr
    cases t with
    | empty => cases hr
    | node tag ref pre kind ch =>
      have href : RlpNode.fromRlp _ = RlpNode.raw bytes := hh.1.symm.trans (Option.some.inj hr)
      have := RlpNode.fromRlp_eq_raw href
      omega

/-- The hash by which a storage trie is referenced is its root. -/
private theorem Hashed.asHash (hh : t.Hashed) (h : t.Rough .slots 64) (hb : t.Branched) :
    (t.ref?.bind RlpNode.asHash).getD emptyRootHash = Merkle.rootHash t.ref? := by
  cases hr : t.ref? with
  | none => rfl
  | some r =>
    obtain ⟨x, rfl⟩ := hh.exists_hash h rfl hb hr
    rfl

omit [AlloyTrie] in
/-- Values of a branch lie below its children. -/
theorem exists_child_of_lookup {q : Nibbles} (h : (node tag ref pre .branch ch).lookup q ≠ none) :
    ∃ i r, q = pre ++ i :: r := by
  by_contra hq
  exact h (lookup_branch fun i r he ↦ hq ⟨i, r, he⟩)

/-- The reference to a branch is that of the map below it. -/
private theorem ref_branch {g : Nibbles → Option (List UInt8)} {depth : Nat}
    (hg : ∀ q, g q ≠ none → ∃ i r, q = pre ++ i :: r) (hb : 2 ≤ (occupied ch).length)
    (hne : ∀ i, ch i ≠ empty → ∃ r, g (pre ++ i :: r) ≠ none)
    (hchild : ∀ i, (ch i).ref? = Merkle.ref depth fun r ↦ g (pre ++ i :: r)) :
    some (Kind.branch.rlp pre fun i ↦ (ch i).ref?) = Merkle.ref (depth + 1) g := by
  have hforks : Forks g pre := by
    obtain ⟨i, j, hij, hi, hj⟩ := exists_two_children hb
    refine ⟨fun q hq ↦ ?_, i, j, hij, hne i hi, hne j hj⟩
    obtain ⟨i, r, rfl⟩ := hg q hq
    exact List.prefix_append _ _
  rw [Kind.rlp_branch, Merkle.ref, commit_forks _ _ _ hforks, funext hchild]
  rfl

/-- The reference to a storage trie is that of its slots. -/
private theorem Hashed.ref_slots {depth : Nat} (hh : t.Hashed) (h : t.Rough .slots n)
    (hb : t.Branched)
    (hn : n ≤ depth) : t.ref? = Merkle.ref depth fun q ↦ (t.lookup q).bind Entry.slotBytes := by
  induction t generalizing n depth with
  | empty => exact (commit_empty _ _ _ fun _ ↦ rfl).symm
  | node tag ref pre kind ch ih =>
    rw [ref?, hh.1]
    rcases kind with (info | v) | _
    · cases h.1.1
    · rw [Kind.rlp_slot, Merkle.ref, commit_single]
      refine ⟨?_, fun q hq ↦ ?_⟩
      · simp only [lookup_leaf_self]
        rfl
      · rcases path_cases pre q with hp | rfl | ⟨i, r, rfl⟩
        · simp [lookup_outside hp] at hq
        · rfl
        · simp at hq
    · have hpre := h.1
      obtain ⟨depth, rfl⟩ : ∃ d, depth = d + 1 := ⟨depth - 1, by omega⟩
      apply ref_branch
      · intro q hq
        exact exists_child_of_lookup fun hnone ↦ hq (by rw [hnone]; rfl)
      · exact hb.1 rfl
      · intro i hi
        obtain ⟨r, hr⟩ := (hb.2 i).exists_value hi
        obtain ⟨e, he⟩ := Option.ne_none_iff_exists'.mp hr
        obtain ⟨v, rfl⟩ := (h.2 i).slot he
        refine ⟨r, ?_⟩
        rw [lookup_branch_append, he]
        exact Option.some_ne_none _
      · intro i
        simp only [lookup_branch_append]
        exact ih i (hh.2 i) (h.2 i) (hb.2 i) (by omega)

omit [AlloyTrie] in
/-- Where slots have accounts, every value has an account above it. -/
theorem Rough.exists_account (h : t.Rough .accounts n) (hh : Housed n t.lookup) (hn : 64 ≤ n)
    {q : Nibbles} (hq : t.lookup q ≠ none) :
    ∃ a info, a <+: q ∧ a.length + 64 = n ∧ t.lookup a = some (.account info) := by
  obtain ⟨e, he⟩ := Option.ne_none_iff_exists'.mp hq
  have hadmits := h.admits he
  cases e with
  | account info => exact ⟨q, info, List.prefix_rfl, hadmits.2, he⟩
  | slot v =>
    have hlen : q.length = n := hadmits
    have ha : (q.take (n - 64)).length + 64 = n := by
      rw [List.length_take]
      omega
    have hs : q.drop (n - 64) ≠ [] := by
      rw [ne_eq, List.drop_eq_nil_iff]
      omega
    have hacc : t.lookup (q.take (n - 64)) ≠ none := by
      apply hh _ _ ha hs
      rwa [List.take_append_drop]
    obtain ⟨e, he⟩ := Option.ne_none_iff_exists'.mp hacc
    have hadmits := h.admits he
    cases e with
    | account info => exact ⟨_, info, List.take_prefix _ _, ha, he⟩
    | slot v =>
      have : (q.take (n - 64)).length = n := hadmits
      omega

omit [AlloyTrie] in
/-- No slot is stored outside the accounts. -/
theorem Rough.not_slot {v : U256} (h : (node tag ref pre (.leaf (.slot v)) ch).Rough .accounts n)
    (hf : Housed n (node tag ref pre (.leaf (.slot v)) ch).lookup) (hn : 64 ≤ n) : False := by
  obtain ⟨a, info, -, ha, hacc⟩ := h.exists_account hf hn (q := pre) (by simp)
  have hlen : pre.length = n := h.1
  have hpre : ¬ pre <+: a := fun hp ↦ by
    have := hp.length_le
    omega
  rw [lookup_outside hpre] at hacc
  cases hacc

omit [AlloyTrie] in
/-- No branch lies at or below the end of an account. -/
theorem Rough.length_branch (h : (node tag ref pre .branch ch).Rough .accounts n)
    (hb : (node tag ref pre .branch ch).Branched)
    (hh : Housed n (node tag ref pre .branch ch).lookup) (hn : 64 ≤ n) : pre.length + 64 < n := by
  obtain ⟨q, hq⟩ := hb.exists_value (by simp)
  obtain ⟨a, info, -, ha, hacc⟩ := h.exists_account hh hn hq
  obtain ⟨i, r, rfl⟩ := exists_child_of_lookup (by rw [hacc]; exact Option.some_ne_none _)
  rw [List.length_append, List.length_cons] at ha
  omega

omit [AlloyTrie] in
/-- Slots below a branch have their accounts below it. -/
theorem housed_child (h : Housed n (node tag ref pre .branch ch).lookup) (hn : pre.length + 64 < n)
    (i : Fin 16) : Housed (n - pre.length - 1) (ch i).lookup := by
  intro a s ha hs hne
  have h' := h (pre ++ i :: a) s (by simp only [List.length_append, List.length_cons]; omega) hs
  rw [List.append_assoc, List.cons_append, lookup_branch_append, lookup_branch_append] at h'
  exact h' hne

/-- A storage root below a branch is that below the child. -/
theorem storageRoot_branch (i : Fin 16) (r : Nibbles) :
    Entries.storageRoot (node tag ref pre .branch ch).lookup (pre ++ i :: r) =
      Entries.storageRoot (ch i).lookup r := by
  simp only [Entries.storageRoot, List.append_assoc, List.cons_append, lookup_branch_append]

private theorem accountBytes_branch (i : Fin 16) (r : Nibbles) :
    Entries.accountBytes (node tag ref pre .branch ch).lookup (pre ++ i :: r) =
      Entries.accountBytes (ch i).lookup r := by
  simp only [Entries.accountBytes, lookup_branch_append, storageRoot_branch]

/-- A value below a branch is that below the child. -/
theorem value_branch (i : Fin 16) (r : Nibbles) :
    Entries.value (node tag ref pre .branch ch).lookup (pre ++ i :: r) =
      Entries.value (ch i).lookup r := by
  simp only [Entries.value, lookup_branch_append, storageRoot_branch]

/-- The storage root of an account leaf. -/
theorem storageRoot_account {info : AccountInfo}
    (h : (node tag ref pre (.leaf (.account info)) ch).Rough .accounts n)
    (hb : (ch 0).Branched) (hh : (ch 0).Hashed) :
    Entries.storageRoot (node tag ref pre (.leaf (.account info)) ch).lookup pre =
      (((ch 0).ref?).bind RlpNode.asHash).getD emptyRootHash := by
  have hmap : (fun s ↦ ((node tag ref pre (.leaf (.account info)) ch).lookup (pre ++ s)).bind
      Entry.slotBytes) = fun s ↦ ((ch 0).lookup s).bind Entry.slotBytes := by
    funext s
    cases s with
    | nil =>
      rw [List.append_nil, lookup_leaf_self]
      cases hs : (ch 0).lookup [] with
      | none => rfl
      | some e =>
        have hadmits := (h.2.2 0).admits hs
        cases e with
        | account info => rfl
        | slot v =>
          have : ([] : Nibbles).length = 64 := hadmits
          simp at this
    | cons i r => rw [lookup_account_append]
  rw [hh.asHash (h.2.2 0) hb, hh.ref_slots (h.2.2 0) hb (Nat.le_refl 64), Entries.storageRoot, hmap]
  rfl

/-- The reference to a trie of accounts is that of its contents. -/
private theorem Hashed.ref_accounts {depth : Nat} (hh : t.Hashed) (h : t.Rough .accounts n)
    (hb : t.Branched) (hf : Housed n t.lookup) (hn : 64 ≤ n) (hd : n ≤ depth + 64) :
    t.ref? = Merkle.ref depth (Entries.accountBytes t.lookup) := by
  induction t generalizing n depth with
  | empty => exact (commit_empty _ _ _ fun _ ↦ rfl).symm
  | node tag ref pre kind ch ih =>
    refine (congrArg some hh.1).trans ?_
    rcases kind with (info | v) | _
    · rw [Kind.rlp_account, ← storageRoot_account h (hb.2 0) (hh.2 0), Merkle.ref]
      refine (commit_single _ _ _ ⟨?_, fun q hq ↦ ?_⟩).symm
      · simp only [Entries.accountBytes, lookup_leaf_self]
      · -- the other values are slots
        cases hq' : (node tag ref pre (.leaf (.account info)) ch).lookup q with
        | none => exact absurd (by rw [Entries.accountBytes, hq']) hq
        | some e =>
          cases e with
          | slot v => exact absurd (by rw [Entries.accountBytes, hq']) hq
          | account info' =>
            have hpre : pre <+: q := by
              by_contra hp
              rw [lookup_outside hp] at hq'
              cases hq'
            have hlen := (h.admits hq').2
            have hlen' := h.1.2
            exact (hpre.eq_of_length (by omega)).symm
    · exact (h.not_slot hf hn).elim
    · have hpre := h.length_branch hb hf hn
      obtain ⟨depth, rfl⟩ : ∃ d, depth = d + 1 := ⟨depth - 1, by omega⟩
      apply ref_branch
      · intro q hq
        apply exists_child_of_lookup
        intro hnone
        rw [Entries.accountBytes, hnone] at hq
        exact hq rfl
      · exact hb.1 rfl
      · intro i hi
        obtain ⟨q, hq⟩ := (hb.2 i).exists_value hi
        obtain ⟨a, info, -, -, hacc⟩ :=
          (h.2 i).exists_account (housed_child hf hpre i) (by omega) hq
        refine ⟨a, ?_⟩
        rw [accountBytes_branch, Entries.accountBytes, hacc]
        exact Option.some_ne_none _
      · intro i
        simp only [accountBytes_branch]
        exact ih i (hh.2 i) (h.2 i) (hb.2 i) (housed_child hf hpre i) (by omega) (by omega)

/-- The root of the trie has the state root. -/
private theorem Hashed.rootHash_eq (hh : t.Hashed) (h : t.Rough .accounts 128) (hb : t.Branched)
    (hf : Housed 128 t.lookup) : Merkle.rootHash t.ref? = Entries.stateRoot t.lookup := by
  rw [hh.ref_accounts h hb hf (by omega) (Nat.le_refl _)]
  rfl

/-- What is read in an account leaf. -/
theorem value_account {info : AccountInfo}
    (h : (node tag ref pre (.leaf (.account info)) ch).Rough .accounts n)
    (hb : (ch 0).Branched) (hh : (ch 0).Hashed) :
    Entries.value (node tag ref pre (.leaf (.account info)) ch).lookup pre =
      (node tag ref pre (.leaf (.account info)) ch).value? := by
  simp only [Entries.value, lookup_leaf_self, storageRoot_account h hb hh, value?]

/-- What is read in the storage of an account. -/
theorem value_storage {info : AccountInfo} {i : Fin 16} {r : Nibbles} (h : (ch 0).Rough .slots 64) :
    Entries.value (node tag ref pre (.leaf (.account info)) ch).lookup (pre ++ i :: r) =
      Entries.value (ch 0).lookup (i :: r) := by
  simp only [Entries.value, lookup_account_append]
  cases hq : (ch 0).lookup (i :: r) with
  | none => rfl
  | some e =>
    obtain ⟨v, rfl⟩ := h.slot hq
    rfl

/-- A finished trie of accounts and slots. -/
structure Canonical (t : Trie α) : Prop where
  rough : t.Rough .accounts 128
  branched : t.Branched
  hashed : t.Hashed
  housed : Housed 128 t.lookup

namespace Canonical

/-- The empty trie is canonical. -/
protected theorem empty : (empty : Trie α).Canonical :=
  ⟨trivial, trivial, trivial, fun _ _ _ _ h ↦ absurd rfl h⟩

/-- New tags keep a trie canonical. -/
theorem map_iff {β : Type} {f : α → β} : (t.map f).Canonical ↔ t.Canonical := by
  have hlook : (t.map f).lookup = t.lookup := funext fun q ↦ lookup_map ..
  constructor
  · rintro ⟨hr, hb, hh, hf⟩
    exact ⟨rough_map.mp hr, branched_map.mp hb, hashed_map.mp hh, hlook ▸ hf⟩
  · rintro ⟨hr, hb, hh, hf⟩
    exact ⟨rough_map.mpr hr, branched_map.mpr hb, hashed_map.mpr hh, hlook.symm ▸ hf⟩

/-- The root hash of a canonical trie is that of its contents. -/
theorem rootHash_eq (h : t.Canonical) : Merkle.rootHash t.ref? = Entries.stateRoot t.lookup :=
  h.hashed.rootHash_eq h.rough h.branched h.housed

end Canonical

end Trie

open Engine (Changes)

/-- A batch that does not stall updates the contents of a finished trie and leaves it finished. -/
theorem Applied.canonical {t t' : Trie Bool} {changes : Changes} {m : List Mishap}
    (h : Applied t (sortChanges changes) t' m) (ht : t.Canonical)
    (ha : Admissible t.lookup changes) (hs : ¬ Stalls t.lookup changes) :
    t'.Canonical ∧ t'.lookup = Entries.update t.lookup changes := by
  have hsuits := ha.suits ht.rough ht.housed
  have hground : Grounded 128 t.lookup (sortChanges changes) := by
    intro a s v hlen hne hv
    obtain hf | ⟨w, hw⟩ := ha.grounded a s v hlen hne (mem_sortChanges.mp hv)
    · exact .inl hf
    · exact .inr ⟨w, mem_sortChanges.mpr hw⟩
  have hm := h.not_stalled hsuits hground (noStall_of_not_stalls hs ht.rough ht.housed)
  have hlook : t'.lookup = Entries.update t.lookup changes := by
    rw [h.lookup_eq hsuits hm, ha.update_sortChanges]
  refine ⟨⟨?_, ?_, ?_, ?_⟩, hlook⟩
  · exact h.rough ht.rough hsuits.fits
  · exact h.branched ht.rough hsuits.fits ht.branched
  · exact h.hashed hsuits hm ht.hashed
  · rw [hlook]
    exact ha.housed ht.housed

end TrieDb

import TrieDb.Engine.Read
import TrieDb.Layout.Root
import TrieDb.Trie.Merkle

/-!
# Reading a trie from its pages

`get_account` and `get_storage` with no location remembered find what the trie has at a path, for
every layout of its pages.
-/

namespace TrieDb.Layout

open Base Engine Trie

variable {s : State Cells} {t : Trie Loc} {p i q : Nat}

/-- No page of the file is held for writing. -/
def Clean (s : State Cells) : Prop := ∀ q, dirty s q = false

/-- A state with no more dirty pages is as clean. -/
theorem Clean.of_cleaner {s' : State Cells} (hs : Clean s) (h : Cleaner s s') : Clean s' := by
  intro q
  by_contra hq
  have := h q (by simpa using hq)
  rw [hs q] at this
  cases this

/-- The program returns a value and leaves the files alone. -/
def Reads {α : Type} (x : EngineM Cells α) (s : State Cells) (v : α) : Prop :=
  ∃ s', x s = .ok v s' ∧ s'.engine = s.engine

/-- A read has one answer. -/
theorem Reads.unique {α : Type} {x : EngineM Cells α} {v w : α} (hv : Reads x s v)
    (hw : Reads x s w) : v = w := by
  obtain ⟨s₁, h₁, -⟩ := hv
  obtain ⟨s₂, h₂, -⟩ := hw
  rw [h₁] at h₂
  cases h₂
  rfl

/-- A page in use can be read. -/
theorem getPage_eq (hs : Clean s) (hq : ¬ Vacant s q ∧ stamp s q ≠ none) :
    getPage q s = .ok (s.engine.pageManager.pages q) s := by
  have hcount : q ≤ s.engine.pageManager.pageCount := by
    by_contra hlt
    exact hq.1 (.inr (not_le.mp hlt))
  have hdirty := hs q
  simp only [dirty, hcount, decide_true, Bool.true_and] at hdirty
  have hget : s.engine.pageManager.get q = .ok (s.engine.pageManager.pages q) := by
    rw [PageManager.get, if_neg (not_lt.mpr hcount)]
    cases hst : (s.engine.pageManager.pages q).state with
    | occupied n => rfl
    | unused => exact absurd (by rw [stamp, hst]; rfl) hq.2
    | dirty n =>
      rw [hst] at hdirty
      cases hdirty
  simp [getPage, hget]

/-- A cell that holds a node is read. -/
theorem getValue_eq {n : Node} (h : cellAt s (p, i) = some n) : getValue p i s = .ok n s := by
  have hc : (s.engine.pageManager.pages p).contents.getValue i = .ok n := Cells.getValue_eq_ok.mpr h
  simp [getValue, cells, hc]

/-- A path that does not go through a prefix leaves it early. -/
theorem commonPrefixLength_lt {pre q : Nibbles} (h : ¬ pre <+: q) :
    commonPrefixLength q pre < pre.length := by
  rw [commonPrefixLength_comm]
  refine lt_of_le_of_ne (commonPrefixLength_le_left _ _) fun he ↦ h ?_
  exact commonPrefixLength_eq_length.mp he

/-- A path that goes through a prefix shares all of it. -/
theorem commonPrefixLength_of_prefix {pre q : Nibbles} (h : pre <+: q) :
    commonPrefixLength q pre = pre.length := by
  rw [commonPrefixLength_comm]
  exact commonPrefixLength_eq_length.mpr h

/-- What is left of a path after a part of it. -/
theorem drop_of_append {path pre r : Nibbles} {offset : Nat} (h : path.drop offset = pre ++ r) :
    path.drop (offset + pre.length) = r := by
  rw [← List.drop_drop, h, List.drop_left]

/-- The length of the rest of a path below a branch. -/
private theorem length_drop_branch {path : Nibbles} {offset n : Nat} (pre : Nibbles)
    (hlen : (path.drop offset).length = n) :
    (path.drop (offset + pre.length + 1)).length = n - pre.length - 1 := by
  rw [← hlen, List.length_drop, List.length_drop]
  omega

/-- The root page can be read. -/
theorem root_readable (hs : Clean s) (h : Holds s t) (hr : Anchored s t) (hne : t ≠ empty) :
    ∃ q, t.tag? = some (q, 0) ∧ s.context.rootNodePageId = some q ∧
      getPage q s = .ok (s.engine.pageManager.pages q) s := by
  obtain ⟨q, htag, hroot⟩ := hr.tag hne
  have hlive : ¬ Vacant s q ∧ stamp s q ≠ none := by
    cases t with
    | empty => cases htag
    | node c ref pre kind ch =>
      cases htag
      exact h.root_live
  exact ⟨q, htag, hroot, getPage_eq hs hlive⟩

/-! ### Following a pointer -/

section
variable {α : Type} {visit : Nat → Nat → EngineM Cells (Option α)}

/-- The descent from a node on page `p` along a pointer. -/
def follow (visit : Nat → Nat → EngineM Cells (Option α)) (p : Nat) (pointer : Option Pointer) :
    EngineM Cells (Option α) :=
  match pointer with
  | some ⟨.cell c, _⟩ => visit p c
  | some ⟨.page q, _⟩ => do
    let _ ← getPage q
    visit q 0
  | none => pure none

/-- The root of a trie below a page. -/
theorem follow_eq {p' i' : Nat} (hs : Clean s) (h : Holds s t) (hl : t.Linked p)
    (ht : t.tag? = some (p', i')) : follow visit p t.pointer? s = visit p' i' s := by
  cases t with
  | empty => cases ht
  | node c ref pre kind ch =>
    cases ht
    simp only [pointer?, nodeLocation]
    by_cases hi : i' = 0
    · subst hi
      simp only [follow, if_true, bind_apply, getPage_eq hs h.root_live]
    · have hp : p' = p := hl (p', i') rfl hi
      simp only [follow, hi, if_false, hp]

/-- The descent into a child, if there is one. -/
theorem follow_reads {P : Option α → Prop} (hs : Clean s) (h : Holds s t) (hl : t.Linked p)
    (hnone : t = empty → P none)
    (hread : ∀ p' i', t.tag? = some (p', i') → ∃ r, P r ∧ Reads (visit p' i') s r) :
    ∃ r, P r ∧ Reads (follow visit p t.pointer?) s r := by
  cases ht : t.tag? with
  | none =>
    obtain rfl : t = empty := by
      cases t with
      | empty => rfl
      | node => cases ht
    exact ⟨none, hnone rfl, s, rfl, rfl⟩
  | some c =>
    obtain ⟨r, hr, s', hrun, heng⟩ := hread c.1 c.2 ht
    exact ⟨r, hr, s', (follow_eq hs h hl ht).trans hrun, heng⟩

end

/-! ### The descent to a value -/

variable [AlloyTrie] {path : Nibbles} {fuel offset : Nat}

/-- A node whose prefix the path leaves. -/
theorem read_none {n : Node} (h : cellAt s (p, i) = some n) (hp : ¬ n.pre <+: path.drop offset) :
    getValueFromPage path (fuel + 1) offset p i s = .ok none s := by
  have hlt := commonPrefixLength_lt hp
  simp only [getValueFromPage, bind_apply, getValue_eq h, hlt, if_true]
  rfl

/-- The node at the end of the path. -/
theorem read_end {n : Node} (h : cellAt s (p, i) = some n) (hp : path.drop offset = n.pre) :
    getValueFromPage path (fuel + 1) offset p i s = (do
      let value ← liftNode n.value
      noteAccount path p i value
      pure (some value)) s := by
  have hlen : commonPrefixLength (path.drop offset) n.pre = n.pre.length :=
    commonPrefixLength_of_prefix (hp ▸ List.prefix_rfl)
  have hdrop : path.drop (offset + n.pre.length) = [] := by
    rw [← List.drop_drop, hp, List.drop_length]
  simp only [getValueFromPage, bind_apply, getValue_eq h, hlen, lt_irrefl, if_false, hdrop]

/-- The value at the end of the path. -/
private theorem read_value {n : Node} {v : TrieValue} (h : cellAt s (p, i) = some n)
    (hp : path.drop offset = n.pre) (hv : n.value = .ok v) :
    Reads (getValueFromPage path (fuel + 1) offset p i) s (some v) := by
  simp only [Reads, read_end h hp, bind_apply, hv, liftNode, pure_apply]
  cases v with
  | storage x => exact ⟨s, rfl, rfl⟩
  | account a =>
    simp only [noteAccount]
    by_cases hc : a.storageRoot ≠ emptyRootHash ∧ path.length = addressPathLength
    · rw [if_pos hc]
      exact ⟨_, rfl, rfl⟩
    · rw [if_neg hc]
      exact ⟨s, rfl, rfl⟩

/-- The descent goes on. -/
theorem read_next {n : Node} {j : Nibble} {r : Nibbles} (h : cellAt s (p, i) = some n)
    (hp : path.drop offset = n.pre ++ j :: r) :
    getValueFromPage path (fuel + 1) offset p i s = (do
      let next ← nextPointer n j (offset + n.pre.length)
      follow (getValueFromPage path fuel next.2) p next.1) s := by
  have hlen : commonPrefixLength (path.drop offset) n.pre = n.pre.length :=
    commonPrefixLength_of_prefix (hp ▸ List.prefix_append _ _)
  have hdrop := drop_of_append hp
  simp only [getValueFromPage, bind_apply, getValue_eq h, hlen, lt_irrefl, if_false, hdrop]
  cases nextPointer n j (offset + n.pre.length) s with
  | error e s' => rfl
  | ok a s' =>
    obtain ⟨pointer, offset'⟩ := a
    rfl

/-- The descent into a child reads what the child has. -/
private theorem follow_value {r : Option TrieValue} (hs : Clean s) (h : Holds s t)
    (hl : t.Linked p) (hnone : t = empty → r = none)
    (hread : ∀ p' i', t.tag? = some (p', i') →
      Reads (getValueFromPage path fuel offset p' i') s r) :
    Reads (follow (getValueFromPage path fuel offset) p t.pointer?) s r := by
  obtain ⟨r', rfl, h'⟩ := follow_reads (P := (· = r)) hs h hl (fun he ↦ (hnone he).symm)
    fun p' i' ht ↦ ⟨r, rfl, hread p' i' ht⟩
  exact h'

section
variable {ref : RlpNode} {pre : Nibbles} {ch : Fin 16 → Trie Loc} {j : Nibble} {r : Nibbles}

/-- The descent from a branch. -/
private theorem reads_branch (hs : Clean s) (h : Holds s (node (p, i) ref pre .branch ch))
    (hp : path.drop offset = pre ++ j :: r)
    (hread : ∀ p' i', (ch j).tag? = some (p', i') →
      Reads (getValueFromPage path fuel (offset + pre.length + 1) p' i') s
        (Entries.value (ch j).lookup (path.drop (offset + pre.length + 1)))) :
    Reads (getValueFromPage path (fuel + 1) offset p i) s
      (Entries.value (node (p, i) ref pre .branch ch).lookup (path.drop offset)) := by
  have hdrop : path.drop (offset + pre.length + 1) = r := by
    rw [← List.drop_drop, drop_of_append hp]
    rfl
  rw [hdrop] at hread
  rw [hp, value_branch]
  simp only [Reads, read_next h.cell (hp.trans (by rw [Kind.pre_node]))]
  apply follow_value hs (h.child j) (h.linked j)
  · intro he
    rw [Entries.value, he, lookup_empty]
  · exact hread

/-- The descent from an account into its storage. -/
private theorem reads_storage {info : AccountInfo} (hs : Clean s)
    (h : Holds s (node (p, i) ref pre (.leaf (.account info)) ch)) (hr : (ch 0).Rough .slots 64)
    (hp : path.drop offset = pre ++ j :: r)
    (hread : ∀ p' i', (ch 0).tag? = some (p', i') →
      Reads (getValueFromPage path fuel (offset + pre.length) p' i') s
        (Entries.value (ch 0).lookup (path.drop (offset + pre.length)))) :
    Reads (getValueFromPage path (fuel + 1) offset p i) s
      (Entries.value (node (p, i) ref pre (.leaf (.account info)) ch).lookup
        (path.drop offset)) := by
  rw [drop_of_append hp] at hread
  rw [hp, value_storage hr]
  simp only [Reads, read_next h.cell (hp.trans (by rw [Kind.pre_node]))]
  apply follow_value hs (h.child 0) (h.linked 0)
  · intro he
    rw [Entries.value, he, lookup_empty]
  · exact hread

end

/-- A storage trie is read by the slots it has. -/
theorem reads_slots {n : Nat} (hs : Clean s) (h : Holds s t) (ht : t.tag? = some (p, i))
    (hr : t.Rough .slots n) (hlen : (path.drop offset).length = n) (hf : n < fuel) :
    Reads (getValueFromPage path fuel offset p i) s
      (Entries.value t.lookup (path.drop offset)) := by
  induction t generalizing n offset fuel p i with
  | empty => cases ht
  | node c ref pre kind ch ih =>
    cases ht
    obtain ⟨fuel, rfl⟩ : ∃ f, fuel = f + 1 := ⟨fuel - 1, by omega⟩
    have hcell := h.cell
    rcases path_cases pre (path.drop offset) with hp | hp | ⟨j, r, hp⟩
    · rw [Entries.value, lookup_outside hp]
      exact ⟨s, read_none hcell (by rwa [Kind.pre_node]), rfl⟩
    · rcases kind with (info | v) | _
      · cases hr.1.1
      · rw [hp, Entries.value, lookup_leaf_self]
        exact read_value hcell hp rfl
      · have hlt := hr.1
        rw [hp] at hlen
        omega
    · have hlen' := length_drop_branch pre hlen
      rcases kind with (info | v) | _
      · cases hr.1.1
      · have hpre : pre.length = n := hr.1
        rw [hp, List.length_append, List.length_cons] at hlen
        omega
      · have hlt := hr.1
        apply reads_branch hs h hp
        intro p' i' ht'
        exact ih j (h.child j) ht' (hr.2 j) hlen' (by omega)

/-- A trie of accounts is read by the slots it has. -/
private theorem reads_slotPath {n : Nat} (hs : Clean s) (h : Holds s t)
    (ht : t.tag? = some (p, i)) (hr : t.Rough .accounts n) (hlen : (path.drop offset).length = n)
    (hfuel : n + 1 < fuel) :
    Reads (getValueFromPage path fuel offset p i) s
      (Entries.value t.lookup (path.drop offset)) := by
  induction t generalizing n offset fuel p i with
  | empty => cases ht
  | node c ref pre kind ch ih =>
    cases ht
    obtain ⟨fuel, rfl⟩ : ∃ f, fuel = f + 1 := ⟨fuel - 1, by omega⟩
    have hcell := h.cell
    rcases path_cases pre (path.drop offset) with hp | hp | ⟨j, r, hp⟩
    · rw [Entries.value, lookup_outside hp]
      exact ⟨s, read_none hcell (by rwa [Kind.pre_node]), rfl⟩
    · rcases kind with (info | v) | _
      · have hpre := hr.1.2
        rw [hp] at hlen
        omega
      · rw [hp, Entries.value, lookup_leaf_self]
        exact read_value hcell hp rfl
      · have hlt := hr.1
        rw [hp] at hlen
        omega
    · have hlen' := length_drop_branch pre hlen
      rcases kind with (info | v) | _
      · have hpre := hr.1.2
        apply reads_storage hs h (hr.2.2 0) hp
        intro p' i' ht'
        have hrest : (path.drop (offset + pre.length)).length = 64 := by
          rw [← List.drop_drop, List.length_drop]
          omega
        exact reads_slots hs (h.child 0) ht' (hr.2.2 0) hrest (by omega)
      · have hpre : pre.length = n := hr.1
        rw [hp, List.length_append, List.length_cons] at hlen
        omega
      · have hlt := hr.1
        apply reads_branch hs h hp
        intro p' i' ht'
        exact ih j (h.child j) ht' (hr.2 j) hlen' (by omega)

/-- A trie of accounts is read by the accounts it has. -/
private theorem reads_accountPath {n : Nat} (hs : Clean s) (h : Holds s t)
    (ht : t.tag? = some (p, i)) (hr : t.Rough .accounts n) (hb : t.Branched) (hh : t.Hashed)
    (hf : Housed n t.lookup) (hlen : (path.drop offset).length + 64 = n) (hfuel : n < fuel) :
    Reads (getValueFromPage path fuel offset p i) s
      (Entries.value t.lookup (path.drop offset)) := by
  induction t generalizing n offset fuel p i with
  | empty => cases ht
  | node c ref pre kind ch ih =>
    cases ht
    obtain ⟨fuel, rfl⟩ : ∃ f, fuel = f + 1 := ⟨fuel - 1, by omega⟩
    have hcell := h.cell
    rcases path_cases pre (path.drop offset) with hp | hp | ⟨j, r, hp⟩
    · rw [Entries.value, lookup_outside hp]
      exact ⟨s, read_none hcell (by rwa [Kind.pre_node]), rfl⟩
    · rcases kind with (info | v) | _
      · rw [hp, value_account hr (hb.2 0) (hh.2 0)]
        apply read_value hcell hp
        simp only [Kind.node, Node.value, Node.storageRootHash]
        cases ch 0 <;> rfl
      · rw [hp, Entries.value, lookup_leaf_self]
        exact read_value hcell hp rfl
      · have hlt := hr.length_branch hb hf (by omega)
        rw [hp] at hlen
        omega
    · have hlen' : (path.drop (offset + pre.length + 1)).length =
          (path.drop offset).length - pre.length - 1 := length_drop_branch pre rfl
      have hlength := congrArg List.length hp
      rw [List.length_append, List.length_cons] at hlength
      rcases kind with (info | v) | _
      · have hpre := hr.1.2
        omega
      · have hpre : pre.length = n := hr.1
        omega
      · have hlt := hr.length_branch hb hf (by omega)
        apply reads_branch hs h hp
        intro p' i' ht'
        exact ih j (h.child j) ht' (hr.2 j) (hb.2 j) (hh.2 j) (housed_child hf hlt j)
          (by omega) (by omega)

/-- `get_account` finds the account at a path, with its storage root. -/
theorem getAccount_reads (hs : Clean s) (h : Holds s t) (hr : Anchored s t) (ht : t.Canonical)
    (hp : path.length = 64) (hf : 130 ≤ fuel) :
    Reads (getAccount fuel path) s (Entries.account t.lookup path) := by
  by_cases hempty : t = empty
  · subst hempty
    refine ⟨s, ?_, rfl⟩
    simp [getAccount, show s.context.rootNodePageId = none from hr, Entries.account, Entries.value]
  · obtain ⟨q, htag, hroot, hpage⟩ := root_readable hs h hr hempty
    have hread : Reads (getValueFromPage path fuel 0 q 0) s
        (Entries.value t.lookup (path.drop 0)) := by
      apply reads_accountPath hs h htag ht.rough ht.branched ht.hashed ht.housed
      · rw [List.drop_zero, hp]
      · omega
    obtain ⟨s', hrun, heng⟩ := hread
    refine ⟨s', ?_, heng⟩
    simp only [getAccount, bind_apply, get_apply, hroot, hpage, hrun, Entries.account,
      List.drop_zero]
    rcases Entries.value t.lookup path with _ | (_ | _) <;> rfl

/-- `get_storage` finds the slot at a path, with no location remembered for the account. -/
theorem getStorage_reads (hs : Clean s) (h : Holds s t) (hr : Anchored s t)
    (ht : t.Rough .accounts 128)
    (hc : s.context.contractAccountLocCache (path.take addressPathLength) = none)
    (hp : path.length = 128) (hf : 130 ≤ fuel) :
    Reads (getStorage fuel path) s (Entries.slot t.lookup path) := by
  by_cases hempty : t = empty
  · subst hempty
    refine ⟨s, ?_, rfl⟩
    simp [getStorage, show s.context.rootNodePageId = none from hr, Entries.slot, Entries.value]
  · obtain ⟨q, htag, hroot, hpage⟩ := root_readable hs h hr hempty
    have hread : Reads (getValueFromPage path fuel 0 q 0) s
        (Entries.value t.lookup (path.drop 0)) := by
      apply reads_slotPath hs h htag ht
      · rw [List.drop_zero, hp]
      · omega
    obtain ⟨s', hrun, heng⟩ := hread
    refine ⟨s', ?_, heng⟩
    simp only [getStorage, bind_apply, get_apply, hroot, storageStart, hc, hpage, pure_apply, hrun,
      Entries.slot, List.drop_zero]
    rcases Entries.value t.lookup path with _ | (_ | _) <;> rfl

end TrieDb.Layout

import TrieDb.Layout.Shape

/-!
# The cases of the write recursion

`find_shortest_common_prefix` looks at the first and the last change only, and finds the least
common prefix of all. At a node of a trie whose leaves are at their depths,
`set_values_in_cloned_page` therefore always goes on with one of its handlers: none of its
assertions fails.
-/

namespace TrieDb.Layout

open Meta Base Engine Trie

/-- Sorted changes of accounts and slots that share their first `offset` nibbles. They may end there
or go on, and a path may occur twice. -/
structure Reaching (offset : Nat) (changes : Changes) : Prop where
  sorted : Sorted changes
  length : ∀ c ∈ changes, c.1.length = addressPathLength ∨ c.1.length = storagePathLength
  shared : ∀ c ∈ changes, ∀ d ∈ changes, c.1.take offset = d.1.take offset

/-- Paths with the same beginning are in the order of what follows. -/
private theorem sorted_rel {offset : Nat} {changes : Changes} (h : Sorted changes)
    (hshared : ∀ c ∈ changes, ∀ d ∈ changes, c.1.take offset = d.1.take offset) :
    Sorted (rel offset changes) := by
  rw [Sorted, rel, List.pairwise_map]
  refine List.Pairwise.imp_of_mem ?_ h
  intro c d hc hd hcd
  rw [← List.take_append_drop offset c.1, ← List.take_append_drop offset d.1,
    hshared c hc d hd, pathLe_append] at hcd
  exact hcd

/-- The result is the least common prefix, at one of the ends. -/
private theorem findShortestCommonPrefix_spec (node : Node) (offset : Nat) {first : Change}
    {others : Changes} (h : Sorted (rel offset (first :: others))) {idx length : Nat}
    (hr : findShortestCommonPrefix first (others.getLastD first) (first :: others).length
      offset node =
      (idx, length)) :
    (idx = 0 ∧ commonPrefixLength node.pre (first.1.drop offset) = length ∨
      idx = (first :: others).length - 1 ∧
        commonPrefixLength node.pre ((others.getLastD first).1.drop offset) = length ∧
        length < commonPrefixLength node.pre (first.1.drop offset)) ∧
    ∀ c ∈ first :: others, length ≤ commonPrefixLength node.pre (c.1.drop offset) := by
  have hall (n : Nat) (hf : n ≤ commonPrefixLength node.pre (first.1.drop offset))
      (hl : n ≤ commonPrefixLength node.pre ((others.getLastD first).1.drop offset)) :
      ∀ c ∈ first :: others, n ≤ commonPrefixLength node.pre (c.1.drop offset) := by
    intro c hc
    have hlast := getLastD_rel offset first others
    have hmem : (c.1.drop offset, c.2) ∈ rel offset (first :: others) :=
      List.mem_map.mpr ⟨c, hc, rfl⟩
    refine h.le_commonPrefixLength hf ?_ hmem
    rw [show List.map (fun c : Change ↦ (c.1.drop offset, c.2)) others = rel offset others from rfl,
      hlast]
    exact hl
  unfold findShortestCommonPrefix at hr
  dsimp only at hr
  split at hr
  · next hle =>
    cases hr
    exact ⟨.inl ⟨rfl, rfl⟩, hall _ (Nat.le_refl _) hle⟩
  · next hlt =>
    rw [Nat.not_le] at hlt
    cases hr
    exact ⟨.inr ⟨rfl, rfl, hlt⟩, hall _ (Nat.le_of_lt hlt) (Nat.le_refl _)⟩

private theorem getElem?_last (first : Change) (others : Changes) :
    (first :: others)[(first :: others).length - 1]? = some (others.getLastD first) := by
  rw [← List.getLast?_eq_getElem?, List.getLast?_cons, List.getLastD_eq_getLast?]

section
variable [AlloyTrie] {s : State Cells} {fuel offset p i : Nat} {n : Node} {changes : Changes}
  {visit : Changes → Nat → Nat → Nat → EngineM Cells PointerChange}

/-- The body of `set_values_in_cloned_page` goes on with one of its cases: a delete outside the
prefix of the node is dropped at one of the ends, a branch is made above the node, or the changes
are for the node, for the storage of an account, or for the children of a branch. -/
def Proceeds (fuel : Nat) (visit : Changes → Nat → Nat → Nat → EngineM Cells PointerChange)
    (changes : Changes) (offset p i : Nat) (s : State Cells) (n : Node) : Prop :=
  visitNode fuel visit changes offset p i s = visit changes.tail offset p i s ∨
  visitNode fuel visit changes offset p i s = visit changes.dropLast offset p i s ∨
  (∃ length, visitNode fuel visit changes offset p i s =
    handleMissingParentBranch fuel visit changes offset p i n (n.pre.take length) s) ∨
  (∃ path value, changes.head? = some (path, value) ∧ path.drop offset = n.pre ∧
    visitNode fuel visit changes offset p i s =
      handleExactPrefixMatch fuel visit changes offset p i n n.pre value s) ∨
  (n.isAccountLeaf = true ∧ visitNode fuel visit changes offset p i s =
    handleAccountNodeTraversal fuel visit changes offset p i n n.pre s) ∨
  (n.isBranch = true ∧ visitNode fuel visit changes offset p i s =
    handleBranchNodeTraversal fuel visit changes offset p i n n.pre s)

omit [AlloyTrie] in
private theorem getValue_eq_ok (hn : cellAt s (p, i) = some n) : getValue p i s = .ok n s := by
  have h : (s.engine.pageManager.pages p).contents.getValue i = .ok n := Cells.getValue_eq_ok.mpr hn
  show liftPage ((s.engine.pageManager.pages p).contents.getValue i) s = .ok n s
  rw [h]
  rfl

/-- The body of `set_values_in_cloned_page` behind the search: `change` is at the end `idx` of the
changes and has `length` nibbles in common with the prefix of the node. -/
def visitEnd (fuel : Nat) (visit : Changes → Nat → Nat → Nat → EngineM Cells PointerChange)
    (changes : Changes) (offset p i : Nat) (n : Node) (idx length : Nat) (change : Change) :
    EngineM Cells PointerChange :=
  let path := change.1.drop offset
  let commonPrefix := path.take length
  if commonPrefix.length < n.pre.length then
    match change.2 with
    | none =>
      let left := changes.take idx
      let right := changes.drop (idx + 1)
      if right.isEmpty then visit left offset p i
      else if left.isEmpty then visit right offset p i
      else throw .panic
    | some _ => handleMissingParentBranch fuel visit changes offset p i n commonPrefix
  else if commonPrefix.length = path.length then
    if idx = 0 then handleExactPrefixMatch fuel visit changes offset p i n path change.2
    else throw .panic
  else if n.isAccountLeaf then
    handleAccountNodeTraversal fuel visit changes offset p i n commonPrefix
  else if n.isBranch then
    handleBranchNodeTraversal fuel visit changes offset p i n commonPrefix
  else throw .panic

variable (fuel visit) in
private theorem visitNode_eq {first : Change} {others : Changes} (hn : cellAt s (p, i) = some n)
    {idx length : Nat}
    (hr : findShortestCommonPrefix first (others.getLastD first) (first :: others).length offset n =
      (idx, length)) :
    visitNode fuel visit (first :: others) offset p i s =
      visitEnd fuel visit (first :: others) offset p i n idx length
        (if idx = 0 then first else others.getLastD first) s := by
  unfold visitNode
  dsimp only
  rw [bind_apply, getValue_eq_ok hn]
  dsimp only
  rw [hr]
  rfl

variable (fuel p i visit) in
/-- A change that leaves the prefix of the node, at an end of the changes. -/
private theorem visitEnd_of_diverging {idx length : Nat} {change : Change}
    (htake : (change.1.drop offset).take length = n.pre.take length) (hlt : length < n.pre.length)
    (hidx : idx = 0 ∨ idx = changes.length - 1) (hne : changes ≠ []) :
    visitEnd fuel visit changes offset p i n idx length change = visit changes.tail offset p i ∨
    visitEnd fuel visit changes offset p i n idx length change = visit changes.dropLast offset p i ∨
    visitEnd fuel visit changes offset p i n idx length change =
      handleMissingParentBranch fuel visit changes offset p i n (n.pre.take length) := by
  have hpos := List.length_pos_iff.mpr hne
  unfold visitEnd
  dsimp only
  rw [htake, List.length_take, Nat.min_eq_left (Nat.le_of_lt hlt), if_pos hlt]
  cases change.2 with
  | some v => exact .inr (.inr rfl)
  | none =>
    dsimp only
    by_cases hright : (changes.drop (idx + 1)).isEmpty = true
    · have hlast : idx = changes.length - 1 := by
        rw [List.isEmpty_iff, List.drop_eq_nil_iff] at hright
        omega
      rw [if_pos hright, hlast, ← List.dropLast_eq_take]
      exact .inr (.inl rfl)
    · have hfirst : idx = 0 := by
        rw [List.isEmpty_iff, List.drop_eq_nil_iff] at hright
        omega
      rw [if_neg hright, hfirst, if_pos (List.isEmpty_iff.mpr List.take_zero), Nat.zero_add,
        List.drop_one]
      exact .inl rfl

/-- Unless a change goes on below a storage leaf, one of the cases applies. -/
private theorem visitNode_proceeds {first : Change} {others : Changes}
    (hn : cellAt s (p, i) = some n) (h : Sorted (rel offset (first :: others)))
    (hleaf : n.isAccountLeaf = false → n.isBranch = false →
      ∀ c ∈ first :: others, (c.1.drop offset).length ≤ n.pre.length) :
    Proceeds fuel visit (first :: others) offset p i s n := by
  rcases hr : findShortestCommonPrefix first (others.getLastD first) (first :: others).length
    offset n
    with ⟨idx, length⟩
  have heq := visitNode_eq fuel visit hn hr
  unfold Proceeds
  obtain ⟨⟨rfl, hlen⟩ | ⟨rfl, hlen, hlt⟩, -⟩ := findShortestCommonPrefix_spec n offset h hr
  · rw [if_pos rfl] at heq
    have htake : (first.1.drop offset).take length = n.pre.take length := by
      rw [← hlen, take_commonPrefixLength]
    have hle : length ≤ n.pre.length := hlen ▸ commonPrefixLength_le_left _ _
    by_cases hdiv : length < n.pre.length
    · rw [heq]
      rcases visitEnd_of_diverging fuel p i visit htake hdiv
        (.inl rfl) (List.cons_ne_nil first others) with hx | hx | hx
      · exact .inl (congrFun hx s)
      · exact .inr (.inl (congrFun hx s))
      · exact .inr (.inr (.inl ⟨length, congrFun hx s⟩))
    · -- the prefix of the node is a prefix of the first change
      have hfull : length = n.pre.length := le_antisymm hle (Nat.not_lt.mp hdiv)
      rw [hfull, List.take_length] at htake
      unfold visitEnd at heq
      dsimp only at heq
      rw [hfull, htake, if_neg (Nat.lt_irrefl _)] at heq
      by_cases hpath : n.pre.length = (first.1.drop offset).length
      · have hexact : first.1.drop offset = n.pre := by
          rw [← htake, hpath, List.take_length]
        rw [if_pos hpath, if_pos rfl, hexact] at heq
        exact .inr (.inr (.inr (.inl ⟨first.1, first.2, rfl, hexact, heq⟩)))
      · rw [if_neg hpath] at heq
        cases hacc : n.isAccountLeaf with
        | true =>
          rw [if_pos hacc] at heq
          exact .inr (.inr (.inr (.inr (.inl ⟨rfl, heq⟩))))
        | false =>
          cases hbranch : n.isBranch with
          | true =>
            rw [if_neg (by rw [hacc]; decide), if_pos hbranch] at heq
            exact .inr (.inr (.inr (.inr (.inr ⟨rfl, heq⟩))))
          | false =>
            have hshort := hleaf hacc hbranch first List.mem_cons_self
            have hcommon := commonPrefixLength_le_right n.pre (first.1.drop offset)
            omega
  · -- the last change has less in common with the node than the first, so it leaves the prefix
    have hlt' : length < n.pre.length := hlt.trans_le (commonPrefixLength_le_left _ _)
    have hne : (first :: others).length - 1 ≠ 0 := by
      intro hzero
      have hnil : others = [] := by simpa using hzero
      rw [hnil] at hlen
      exact Nat.lt_irrefl _ (hlen ▸ hlt)
    have htake : ((others.getLastD first).1.drop offset).take length = n.pre.take length := by
      rw [← hlen, take_commonPrefixLength]
    rw [if_neg hne] at heq
    rw [heq]
    rcases visitEnd_of_diverging fuel p i visit htake hlt'
      (.inr rfl) (List.cons_ne_nil first others) with hx | hx | hx
    · exact .inl (congrFun hx s)
    · exact .inr (.inl (congrFun hx s))
    · exact .inr (.inr (.inl ⟨length, congrFun hx s⟩))

/-- The least common prefix is found at an end of the changes; at every node of a trie whose leaves
are at their depths, changes that reach the node are handled by one of the cases. -/
theorem shortestCommonPrefix_at_ends :
    (∀ (node : Node) (offset : Nat) (first : Change) (others : Changes), Sorted (first :: others) →
      (∀ c ∈ first :: others, offset ≤ c.1.length ∧ c.1.take offset = first.1.take offset) →
      ∀ idx length, findShortestCommonPrefix first (others.getLastD first) (first :: others).length
        offset node = (idx, length) →
      (idx = 0 ∨ idx = (first :: others).length - 1) ∧
      (∃ c, (first :: others)[idx]? = some c ∧
        commonPrefixLength node.pre (c.1.drop offset) = length) ∧
      ∀ c ∈ first :: others, length ≤ commonPrefixLength node.pre (c.1.drop offset)) ∧
    ∀ (s : State Cells) (t u : Trie Loc) (fuel offset p i : Nat)
      (visit : Changes → Nat → Nat → Nat → EngineM Cells PointerChange) (changes : Changes),
      t.Stored (cellAt s) → t.Rough .accounts 128 → Below t offset u → u.tag? = some (p, i) →
      Reaching offset changes → changes ≠ [] →
      ∃ n, cellAt s (p, i) = some n ∧ Proceeds fuel visit changes offset p i s n := by
  constructor
  · intro node offset first others hsorted hshared idx length hr
    have hrel : Sorted (rel offset (first :: others)) :=
      sorted_rel hsorted fun c hc d hd ↦ (hshared c hc).2.trans (hshared d hd).2.symm
    obtain ⟨hends, hleast⟩ := findShortestCommonPrefix_spec node offset hrel hr
    refine ⟨hends.imp And.left And.left, ?_, hleast⟩
    rcases hends with ⟨rfl, hlen⟩ | ⟨rfl, hlen, -⟩
    · exact ⟨first, rfl, hlen⟩
    · exact ⟨_, getElem?_last first others, hlen⟩
  · intro s t u fuel offset p i visit changes hstored hrough hbelow htag hreach hne
    obtain ⟨first, others, rfl⟩ := List.exists_cons_of_ne_nil hne
    cases u with
    | empty => cases htag
    | node c ref pre kind ch =>
      cases htag
      have hcell := (hbelow.stored hstored).1
      refine ⟨_, hcell, visitNode_proceeds hcell (sorted_rel hreach.sorted hreach.shared) ?_⟩
      intro hacc hbranch c hc
      obtain ⟨l, rest, hu, hdepth⟩ := hbelow.rough hrough (by simp)
      rcases kind with (info | v) | _
      · cases hacc
      · -- a slot ends where all paths end
        have hend : pre.length = rest := hu.1
        have hlen := hreach.length c hc
        rw [List.length_drop, Kind.pre_node, hend]
        simp only [addressPathLength, storagePathLength] at hlen
        omega
      · cases hbranch

end

end TrieDb.Layout

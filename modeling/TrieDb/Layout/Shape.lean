import TrieDb.Layout.Contents

/-!
# The shape of the stored trie

What holds of the cells that pointers lead to from the root of a transaction, after any number of
successful batches: leaves end where they should, branches have two children, and the cells of every
page form a tree below its first cell that leaves none of them out.
-/

namespace TrieDb

namespace Layout

open Meta Base Engine Trie

variable {s s' : State Cells} {t u : Trie Loc} {c c' : Loc} {d d' : Nat}

/-! ### Reachable cells -/

/-- The cell that a pointer on a page leads to. -/
def target (p : Nat) : Location → Loc
  | .page q => (q, 0)
  | .cell k => (p, k)

/-- The nibbles that lead from a node to its children. -/
def span (n : Node) : Nat := n.pre.length + if n.isBranch then 1 else 0

/-- The cells that can be reached from the root, with the number of nibbles above them. -/
inductive Reached (s : State Cells) : Loc → Nat → Prop
  | root {p : Nat} (hp : s.context.rootNodePageId = some p) : Reached s (p, 0) 0
  | child {c : Loc} {d : Nat} {n : Node} {i : Fin 16} {pointer : Pointer} (h : Reached s c d)
      (hn : cellAt s c = some n) (hi : n.childAt i = some pointer) :
      Reached s (target c.1 pointer.location) (d + span n)

/-- The cells of a page that can be reached from its first cell without leaving the page. -/
inductive Inside (s : State Cells) (p : Nat) : Nat → Prop
  | first : Inside s p 0
  | child {j k : Nat} {n : Node} {i : Fin 16} {rlp : RlpNode} (h : Inside s p j)
      (hn : cellAt s (p, j) = some n) (hi : n.childAt i = some ⟨.cell k, rlp⟩) : Inside s p k

/-- The subtries of a trie, with the number of nibbles above them. -/
inductive Below : Trie Loc → Nat → Trie Loc → Prop
  | self {t : Trie Loc} : Below t 0 t
  | child {c : Loc} {ref : RlpNode} {pre : Nibbles} {kind : Kind} {ch : Fin 16 → Trie Loc}
      {i : Fin 16} {d : Nat} {u : Trie Loc} (h : Below (ch i) d u) :
      Below (node c ref pre kind ch) (span (kind.node pre fun _ ↦ none) + d) u

section
variable {ref : RlpNode} {pre : Nibbles} {kind : Kind} {ch : Fin 16 → Trie Loc}

private theorem Below.snoc (h : Below t d (node c ref pre kind ch)) (i : Fin 16) :
    Below t (d + span (kind.node pre fun _ ↦ none)) (ch i) := by
  generalize hu : node c ref pre kind ch = u at h
  induction h with
  | self =>
    subst hu
    rw [Nat.zero_add]
    exact .child .self
  | child h ih =>
    rw [Nat.add_assoc]
    exact .child (ih hu)

private theorem Below.tags (h : Below t d u) {x : Loc} (hx : x ∈ u.tags) : x ∈ t.tags := by
  induction h with
  | self => exact hx
  | child h ih => exact mem_tags_node.mpr (.inr ⟨_, ih hx⟩)

/-- What is below a stored trie is stored. -/
theorem Below.stored {f : Loc → Option Node} (h : Below t d u) (ht : t.Stored f) : u.Stored f := by
  induction h with
  | self => exact ht
  | child h ih => exact ih (ht.2.2 _).2

/-- What is left to the end of a slot shrinks with the depth. -/
theorem Below.rough {l : Level} {n : Nat} (h : Below t d u) (ht : t.Rough l n) (hu : u ≠ empty) :
    ∃ l' n', u.Rough l' n' ∧ d + n' = n := by
  induction h generalizing l n with
  | self => exact ⟨l, n, ht, Nat.zero_add n⟩
  | @child c ref pre kind ch i d u h ih =>
    rcases kind with e | _
    · obtain ⟨hadmits, hallows, hch⟩ := ht
      obtain ⟨l', n', hr, hd⟩ := ih (hch i) hu
      have hi : ch i ≠ empty := by
        intro he
        rw [he] at h
        cases h
        exact hu rfl
      cases e with
      | slot v => exact absurd (hallows i hi) (by simp [Kind.allows])
      | account info =>
        obtain ⟨-, hn⟩ := hadmits
        refine ⟨l', n', hr, ?_⟩
        simp only [span, Kind.node, Node.isBranch]
        simp only [Bool.false_eq_true, if_false]
        omega
    · obtain ⟨hlt, hch⟩ := ht
      obtain ⟨l', n', hr, hd⟩ := ih (hch i) hu
      refine ⟨l', n', hr, ?_⟩
      simp only [span, Kind.node, Node.isBranch, if_true]
      omega

private theorem Below.branched (h : Below t d u) (ht : t.Branched) : u.Branched := by
  induction h with
  | self => exact ht
  | child h ih => exact ih (ht.2 _)

/-- A child of a subtrie is not the root. -/
private theorem Below.child_ne_root (h : Below t d (node c ref pre kind ch)) (ht : t.tags.Nodup)
    {i : Fin 16} {x : Loc} (hx : x ∈ (ch i).tags) : t.tag? ≠ some x := by
  cases h with
  | self =>
    intro he
    cases he
    exact (nodup_tags_node.mp ht).1 i hx
  | child h =>
    intro he
    cases he
    exact (nodup_tags_node.mp ht).1 _ (h.tags (mem_tags_node.mpr (.inr ⟨i, hx⟩)))

/-- A subtrie has one place only. -/
private theorem Below.unique {ref' : RlpNode} {pre' : Nibbles} {kind' : Kind}
    {ch' : Fin 16 → Trie Loc} (ht : t.tags.Nodup) (h : Below t d (node c ref pre kind ch))
    (h' : Below t d' (node c' ref' pre' kind' ch')) {i i' : Fin 16} {x : Loc}
    (hx : (ch i).tag? = some x) (hx' : (ch' i').tag? = some x) : c = c' ∧ i = i' := by
  induction t generalizing d d' with
  | empty => cases h
  | node e ref₀ pre₀ kind₀ g ih =>
    obtain ⟨-, hnd, hdisj⟩ := nodup_tags_node.mp ht
    have hmem := mem_tags_of_tag? hx
    have hmem' := mem_tags_of_tag? hx'
    -- a place below a child of the root, and one at it
    have hmixed {j k : Fin 16} {b : Nat} {r : RlpNode} {q : Nibbles} {kd : Kind}
        {f : Fin 16 → Trie Loc} {y : Loc} {l : Fin 16} (hb : Below (g j) b (node y r q kd f))
        (hk : (g k).tag? = some x) (hl : x ∈ (f l).tags) : False := by
      by_cases hjk : j = k
      · subst hjk
        exact hb.child_ne_root (hnd j) hl hk
      · exact hdisj j k hjk (hb.tags (mem_tags_node.mpr (.inr ⟨l, hl⟩))) (mem_tags_of_tag? hk)
    cases h with
    | self =>
      cases h' with
      | self =>
        refine ⟨rfl, by_contra fun hne ↦ ?_⟩
        exact hdisj i i' hne hmem hmem'
      | child h' => exact (hmixed h' hx hmem').elim
    | @child _ _ _ _ _ j _ _ h =>
      cases h' with
      | self => exact (hmixed h hx' hmem).elim
      | @child _ _ _ _ _ j' _ _ h' =>
        have hj : j = j' := by
          by_contra hne
          exact hdisj j j' hne (h.tags (mem_tags_node.mpr (.inr ⟨i, hmem⟩)))
            (h'.tags (mem_tags_node.mpr (.inr ⟨i', hmem'⟩)))
        subst hj
        exact ih j (hnd j) h h'

end

/-! ### From tries to cells -/

section
variable [AlloyTrie]

/-- Successful calls of `set_values` in one transaction, each with account changes at the paths of
accounts and slot changes at those of slots. -/
inductive Batches (s : State Cells) : State Cells → Prop
  | nil : Batches s s
  | call {s₁ s' : State Cells} {changes : Changes} {fuel : Nat} (h : Batches s s₁)
      (hc : Fits .accounts 128 changes) (hrun : setValues fuel changes s₁ = .ok () s') :
      Batches s s'

/-- The trie of a transaction, with all that a batch keeps. -/
structure Shaped (s : State Cells) (t : Trie Loc) : Prop where
  ready : Ready s
  holds : Holds s t
  anchored : Anchored s t
  rough : t.Rough .accounts 128
  branched : t.Branched
  full : Full s t.tags

/-- A successful call keeps the shape, whatever the batch. -/
theorem Shaped.setValues {changes : Changes} {fuel : Nat} (h : Shaped s t)
    (hc : Fits .accounts 128 changes) (hrun : setValues fuel changes s = .ok () s') :
    ∃ t' m, Applied (flag s t) (sortChanges changes) (flag s' t') m ∧ Written s t s' t' m ∧
      Shaped s' t' := by
  obtain ⟨t', m, happ, hw, hroot⟩ := (setValues_spec fuel h.ready h.holds h.anchored).ok hrun
  have hfits : Fits .accounts 128 (sortChanges changes) :=
    fun c hc' ↦ hc c ((List.perm_insertionSort _ _).mem_iff.mp hc')
  have hrough := happ.rough (rough_map.mpr h.rough) hfits
  have hbranched := happ.branched (rough_map.mpr h.rough) hfits (branched_map.mpr h.branched)
  exact ⟨t', m, happ, hw, hw.ready, hw.holds, hroot.1, rough_map.mp hrough,
    branched_map.mp hbranched, hw.full h.full⟩

omit [AlloyTrie] in
/-- An empty root is well shaped. -/
theorem shaped_empty (hs : Ready s) (hroot : s.context.rootNodePageId = none) : Shaped s empty :=
  ⟨hs, .empty, hroot, trivial, trivial, fun _ _ hm ↦ (List.not_mem_nil hm).elim⟩

/-- Batches keep the shape. -/
theorem Batches.shaped (h : Batches s s') (hs : Ready s) (hroot : s.context.rootNodePageId = none) :
    ∃ t, Shaped s' t := by
  induction h with
  | nil => exact ⟨empty, shaped_empty hs hroot⟩
  | call _ hc hrun ih =>
    obtain ⟨t, ht⟩ := ih
    obtain ⟨t', -, -, -, ht'⟩ := ht.setValues hc hrun
    exact ⟨t', ht'⟩

end

end Layout

end TrieDb

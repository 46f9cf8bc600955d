import TrieDb.Layout.Clone

/-!
# Subtries of stored tries

Giving up a subtrie orphans exactly the pages that have their root in it, moving a subtrie to
another page and splitting a page keep the trie.
-/

namespace TrieDb

namespace Kind

/-- The children of a node of a kind are those it was built with. -/
theorem childAt_node {k : Kind} {pre : Nibbles} {pointers : Fin 16 → Option Pointer}
    (h : ∀ i, pointers i ≠ none → k.allows i) (i : Fin 16) :
    (k.node pre pointers).childAt i = pointers i := by
  rcases k with (info | v) | _
  · simp only [node, Node.childAt]
    split
    · next hi => rw [hi]
    · next hi =>
      by_contra hne
      exact hi (by simpa [allows] using h i (Ne.symm hne))
  · simp only [node, Node.childAt]
    by_contra hne
    simpa [allows] using h i (Ne.symm hne)
  · rfl

/-- Putting a child in a place where the kind may have one. -/
theorem putChild_node {k : Kind} {pre : Nibbles} {pointers : Fin 16 → Option Pointer} {i : Fin 16}
    {p : Option Pointer} {n : Node} (hi : k.allows i)
    (h : (k.node pre pointers).putChild i p = .ok n) :
    n = k.node pre (Function.update pointers i p) := by
  rcases k with (info | v) | _
  · have hi : i = 0 := by simpa [allows] using hi
    cases h
    simp [node, hi]
  · cases h
  · cases h
    rfl

/-- Only storage leaves have no children. -/
theorem hasChildren_node {k : Kind} {pre : Nibbles} {pointers : Fin 16 → Option Pointer} :
    (k.node pre pointers).hasChildren = false ↔ ∃ v, k = .leaf (.slot v) := by
  rcases k with (info | v) | _ <;> simp [node, Node.hasChildren]

end Kind

namespace Layout

open Meta Base Engine Trie

variable {s s' : State Cells} {P : Nat → State Cells → Prop}

section
variable {c : Loc} {ref : RlpNode} {pre : Nibbles} {kind : Kind} {ch : Fin 16 → Trie Loc}

/-- The pointers of a stored node. -/
private theorem Holds.childAt (h : Holds s (node c ref pre kind ch)) (i : Fin 16) :
    (kind.node pre fun i ↦ (ch i).pointer?).childAt i = (ch i).pointer? :=
  Kind.childAt_node (fun j hj ↦ h.allows j fun he ↦ hj (by rw [he]; rfl)) i

/-- The list of children of a stored node. -/
theorem Holds.enumerateChildren (h : Holds s (node c ref pre kind ch))
    {l : List (Fin 16 × Pointer)}
    (hl : (kind.node pre fun i ↦ (ch i).pointer?).enumerateChildren = .ok l) :
    l = (List.finRange 16).filterMap fun i ↦ (ch i).pointer?.map (i, ·) := by
  simp only [Node.enumerateChildren, h.childAt] at hl
  split at hl
  · cases hl
    rfl
  · cases hl

/-- What is read at the root of a held trie. -/
theorem Holds.eq_of_cellAt (h : Holds s (node c ref pre kind ch)) {n : Node}
    (hn : cellAt s c = some n) : n = kind.node pre fun i ↦ (ch i).pointer? :=
  Option.some.inj (hn.symm.trans h.cell)

/-- How often a cell is among the tags of a node. -/
theorem count_tags_node (x : Loc) : (node c ref pre kind ch).tags.count x =
    (if c = x then 1 else 0) + ((List.finRange 16).map fun i ↦ (ch i).tags.count x).sum := by
  rw [tags, List.count_cons, List.count_flatMap, Nat.add_comm]
  congr 1
  simp

/-- A storage leaf has no other cells. -/
theorem Holds.tags_of_slot {v : U256} (h : Holds s (node c ref pre (.leaf (.slot v)) ch)) :
    (node c ref pre (.leaf (.slot v)) ch).tags = [c] := by
  have hch (i : Fin 16) : ch i = empty := by
    by_contra hne
    simpa [Kind.allows] using h.allows i hne
  simp [tags, hch]

end

private theorem ref?_eq_none {α : Type} {t : Trie α} : t.ref? = none ↔ t = empty := by
  cases t <;> simp [ref?]

/-- The pointers after one child has been replaced. -/
theorem pointers_update (ch : Fin 16 → Trie Loc) (i : Fin 16) (t : Trie Loc) :
    (fun j ↦ (Function.update ch i t j).pointer?) =
      Function.update (fun j ↦ (ch j).pointer?) i t.pointer? := by
  funext j
  exact Function.apply_update (fun _ t ↦ t.pointer?) ch i t j

/-- Where the pointer of a parent leads. -/
theorem pointer?_cases {p : Nat} {t : Trie Loc} {ptr : Pointer} (hl : t.Linked p)
    (hp : t.pointer? = some ptr) : t.ref? = some ptr.rlp ∧
      ((∃ k, k ≠ 0 ∧ ptr.location = .cell k ∧ t.tag? = some (p, k)) ∨
        ∃ q, ptr.location = .page q ∧ t.tag? = some (q, 0)) := by
  cases t with
  | empty => cases hp
  | node c ref pre kind ch =>
    cases hp
    refine ⟨rfl, ?_⟩
    obtain ⟨q, k⟩ := c
    by_cases hk : k = 0
    · subst hk
      exact .inr ⟨q, rfl, rfl⟩
    · have hq : q = p := hl (q, k) rfl hk
      subst hq
      exact .inl ⟨k, hk, if_neg hk, rfl⟩

/-! ### Giving up a subtrie -/

/-- What giving up the cells `R` does, where every page is orphaned as often as `f` says and only
cells in `W` stay in use. -/
structure Erased (s : State Cells) (R : List Loc) (f : Nat → Nat) (W : Loc → Prop)
    (s' : State Cells) : Prop where
  evolves : Evolves s R s' []
  count : ∀ q, orphanCount s' q = orphanCount s q + f q
  pageCount : s'.engine.pageManager.pageCount = s.engine.pageManager.pageCount
  stray : s'.strayPages = s.strayPages
  cleaner : Cleaner s s'
  remains : ∀ c, cellAt s' c ≠ none → cellAt s c ≠ none
  left : ∀ c ∈ R, cellAt s' c ≠ none → W c

namespace Erased

variable {s₁ : State Cells} {R S : List Loc} {f g : Nat → Nat} {W V : Loc → Prop}

private theorem refl (hs : Ready s) : Erased s [] (fun _ ↦ 0) W s :=
  ⟨.refl hs (by simp), fun _ ↦ rfl, rfl, rfl, fun _ ↦ id, fun _ ↦ id, by simp⟩

/-- One erasure after the other. -/
theorem trans (h : Erased s R f W s₁) (h' : Erased s₁ S g W s')
    (hS : ∀ c ∈ S, ¬ Vacant s c.1 ∧ stamp s c.1 ≠ none) :
    Erased s (R ++ S) (fun q ↦ f q + g q) W s' where
  evolves := (h.evolves.frame_right hS).trans h'.evolves
  count q := by rw [h'.count, h.count, Nat.add_assoc]
  pageCount := h'.pageCount.trans h.pageCount
  stray := h'.stray.trans h.stray
  cleaner q hq := h.cleaner q (h'.cleaner q hq)
  remains c hc := h.remains c (h'.remains c hc)
  left c hc hn := by
    rcases List.mem_append.mp hc with hc | hc
    · exact h.left c hc (h'.remains c hn)
    · exact h'.left c hc hn

private theorem congr (h : Erased s R f W s') (hR : ∀ c ∈ R, c ∈ S) (hS : ∀ c ∈ S, c ∈ R ∨ W c)
    (hf : ∀ q, f q = g q) : Erased s S g W s' where
  evolves := h.evolves.congr hR (by simp)
  count q := by rw [h.count, hf]
  pageCount := h.pageCount
  stray := h.stray
  cleaner := h.cleaner
  remains := h.remains
  left c hc hn := by
    rcases hS c hc with hc | hc
    · exact h.left c hc hn
    · exact hc

private theorem mono (h : Erased s R f W s') (hW : ∀ c ∈ R, W c → V c) : Erased s R f V s' :=
  { h with left := fun c hc hn ↦ hW c hc (h.left c hc hn) }

/-- Orphaning pages erases what is on them. -/
theorem of_orphaned (h : Orphaned s f s') (hW : ∀ c ∈ R, W c) : Erased s R f W s' :=
  ⟨(h.evolves [] (by simp)).congr (by simp) (by simp), h.count, by rw [h.pages], h.stray,
    h.cleaner, fun c hc ↦ by rwa [h.cellAt_eq] at hc, fun c hc _ ↦ hW c hc⟩

/-- What is given up leaks only on pages that are given up. -/
theorem clears (h : Erased s R f (fun c ↦ (c.1, 0) ∈ R) s') : Clears s R s' [] where
  roots _ hq := (List.not_mem_nil hq).elim
  cells c hc _ := by
    by_cases hv : Vacant s c.1
    · exact .inr ⟨List.not_mem_nil, .inr hv⟩
    · by_cases hR : c ∈ R
      · exact .inr ⟨List.not_mem_nil, .inl (h.left c hR hc)⟩
      · exact .inl ⟨hv, h.remains c hc, hR⟩

/-- Erased pages are listed as orphans. -/
theorem balance (h : Erased s R f W s') {S' : List Loc}
    (hS : ∀ q, f q + S'.count (q, 0) = S.count (q, 0)) : Balance s S s' S' := by
  intro q
  have hadded : added s s' q = 0 := if_neg (by rw [h.pageCount]; omega)
  have := hS q
  have := h.count q
  rw [h.stray]
  omega

end Erased

/-- Deleting one of the cells of a trie. -/
theorem erased_deleteValue {p i : Nat} {c : Cells} (W : Loc → Prop) (hs : Ready s)
    (ho : old s p = false) (hc : ∀ j, c.cell j = if j = i then none else cellAt s (p, j)) :
    Erased s [(p, i)] (fun _ ↦ 0) W (s.setCells p c) := by
  refine ⟨evolves_setCells hs ho (by simp) (by simp) fun j hj _ ↦ ?_, fun _ ↦ rfl, rfl, rfl,
    cleaner_setCells c, fun d hd ↦ ?_, fun d hd hn ↦ ?_⟩
  · rw [hc j, if_neg]
    rintro rfl
    exact hj List.mem_cons_self
  · obtain ⟨q, j⟩ := d
    rw [cellAt_setCells] at hd
    split at hd
    · next hq =>
      simp only at hq hd
      rw [hc] at hd
      split at hd
      · exact absurd rfl hd
      · rwa [hq]
    · exact hd
  · rw [List.mem_singleton.mp hd] at hn
    simp [hc] at hn

section
variable {c : Loc} {ref : RlpNode} {pre : Nibbles} {kind : Kind} {ch : Fin 16 → Trie Loc}
  {visit : Location → EngineM Cells Unit} {b : Bool} {W : Loc → Prop}

private theorem eraseChildren_spec
    (hvisit : ∀ s i ptr, Ready s → Holds s (ch i) → old s c.1 = b → (ch i).pointer? = some ptr →
      Ensures (visit ptr.location) s
        (fun _ s' ↦ Erased s (ch i).tags (fun q ↦ (ch i).tags.count (q, 0)) W s') (OnSplit P))
    (l : List (Fin 16)) (hl : l.Nodup) (hs : Ready s) (hc : ¬ Vacant s c.1) (hb : old s c.1 = b)
    (h : ∀ i ∈ l, Holds s (ch i)) (hd : ∀ i j, i ≠ j → (ch i).tags.Disjoint (ch j).tags) :
    Ensures ((l.filterMap fun i ↦ (ch i).pointer?.map (i, ·)).forM fun x ↦ visit x.2.location) s
      (fun _ s' ↦ Erased s (l.flatMap fun i ↦ (ch i).tags)
        (fun q ↦ (l.map fun i ↦ (ch i).tags.count (q, 0)).sum) W s') (OnSplit P) := by
  induction l generalizing s with
  | nil => exact .pure (.refl hs)
  | cons i l ih =>
    obtain ⟨hil, hl⟩ := List.nodup_cons.mp hl
    have hrest : ∀ j ∈ l, Holds s (ch j) := fun j hj ↦ h j (List.mem_cons_of_mem _ hj)
    cases hp : (ch i).pointer? with
    | none =>
      have hi : ch i = empty := pointer?_eq_none.mp hp
      rw [List.filterMap_cons_none (by simp [hp])]
      refine (ih hl hs hc hb hrest).mono (fun _ s' hs' ↦ ?_) fun _ _ h ↦ h
      have hset : ((i :: l).flatMap fun i ↦ (ch i).tags) = l.flatMap fun i ↦ (ch i).tags := by
        simp [hi]
      rw [hset]
      exact hs'.congr (fun _ h ↦ h) (fun _ h ↦ .inl h) fun q ↦ by simp [hi]
    | some ptr =>
      rw [List.filterMap_cons_some (by rw [hp]; rfl)]
      refine .seq (hvisit s i ptr hs (h i List.mem_cons_self) hb hp) fun _ s₁ h₁ ↦ ?_
      have hne (j : Fin 16) (hj : j ∈ l) : j ≠ i := fun he ↦ hil (he ▸ hj)
      have hih := ih hl h₁.evolves.ready (fun hv ↦ hc (h₁.evolves.vacant _ hv))
        (by rw [h₁.evolves.old_eq hc, hb])
        fun j hj ↦ (hrest j hj).evolves h₁.evolves (hd j i (hne j hj))
      refine hih.mono (fun _ s' hs' ↦ ?_) fun _ _ h ↦ h
      refine (h₁.trans hs' fun d hd ↦ ?_).congr (fun _ h ↦ h) (fun _ h ↦ .inl h)
        fun q ↦ by simp
      obtain ⟨j, hj, hdj⟩ := List.mem_flatMap.mp hd
      exact (hrest j hj).live d hdj

/-- Giving up what is below a node, child by child. -/
private theorem forChildren_spec (h : Holds s (node c ref pre kind ch)) (hs : Ready s)
    (hb : old s c.1 = b)
    (hvisit : ∀ s i ptr, Ready s → Holds s (ch i) → old s c.1 = b → (ch i).pointer? = some ptr →
      Ensures (visit ptr.location) s
        (fun _ s' ↦ Erased s (ch i).tags (fun q ↦ (ch i).tags.count (q, 0)) W s') (OnSplit P)) :
    Ensures (forChildren (kind.node pre fun i ↦ (ch i).pointer?) visit) s
      (fun _ s' ↦ Erased s ((List.finRange 16).flatMap fun i ↦ (ch i).tags)
        (fun q ↦ ((List.finRange 16).map fun i ↦ (ch i).tags.count (q, 0)).sum) W s')
      (OnSplit P) := by
  unfold forChildren
  split
  · refine .bind (liftNode_spec fun l hl ↦ ?_)
    rw [h.enumerateChildren hl]
    exact eraseChildren_spec hvisit _ (List.nodup_finRange 16) hs h.root_live.1 hb
      (fun i _ ↦ h.child i) fun i j ↦ h.disjoint
  · next hk =>
    obtain ⟨v, rfl⟩ := Kind.hasChildren_node.mp (Bool.eq_false_iff.mpr hk)
    have hch (i : Fin 16) : ch i = empty := by
      by_contra hne
      simpa [Kind.allows] using h.allows i hne
    refine .pure ((Erased.refl hs).congr (by simp) (by simp [hch]) fun q ↦ ?_)
    simp [hch]

end

private theorem orphanSubtrie_spec (fuel : Nat) {p i : Nat} {t : Trie Loc} (hs : Ready s)
    (h : Holds s t) (ht : t.tag? = some (p, i)) :
    Ensures (orphanSubtrie fuel p i) s
      (fun _ s' ↦ Erased s t.tags (fun q ↦ t.tags.count (q, 0)) (fun _ ↦ True) s') (OnSplit P) := by
  induction fuel generalizing s p i t with
  | zero => exact throw_spec (by simp)
  | succ fuel ih =>
    cases t with
    | empty => cases ht
    | node c ref pre kind ch =>
    cases ht
    refine .bind (getValue_spec fun n hn ↦ ?_)
    rw [h.eq_of_cellAt hn]
    refine .seq (forChildren_spec (W := fun _ ↦ True) h hs rfl fun s₁ j ptr hs₁ hj _ hp ↦ ?_)
      fun _ s₁ h₁ ↦ ?_
    · obtain ⟨-, ⟨k, -, hloc, htag⟩ | ⟨q, hloc, htag⟩⟩ := pointer?_cases (h.linked j) hp
      · rw [hloc]
        exact ih hs₁ hj htag
      · rw [hloc]
        exact .bind (getPage_spec fun _ _ ↦ ih hs₁ hj htag)
    · unfold orphanIfRoot
      split
      · next hi =>
        refine orphanPage_spec h₁.evolves.ready fun s' hs' ↦ ?_
        refine (h₁.trans (S := []) (.of_orphaned hs' (by simp)) (by simp)).congr ?_ (by simp)
          fun q ↦ ?_
        · simpa [tags] using fun a b i hi ↦ Or.inr ⟨i, hi⟩
        · rw [count_tags_node, Nat.add_comm]
          simp [hi, eq_comm]
      · next hi =>
        refine .pure (h₁.congr ?_ (by simp) fun q ↦ ?_)
        · simpa [tags] using fun a b i hi ↦ Or.inr ⟨i, hi⟩
        · rw [count_tags_node]
          simp [hi]

/-- `delete_subtrie` erases a trie and lists its pages. -/
theorem deleteSubtrie_spec (fuel : Nat) {p i : Nat} {t : Trie Loc} (hs : Ready s) (h : Holds s t)
    (ht : t.tag? = some (p, i)) (ho : old s p = false) :
    Ensures (deleteSubtrie fuel p i) s
      (fun _ s' ↦ Erased s t.tags (fun q ↦ t.tags.count (q, 0)) (fun c ↦ (c.1, 0) ∈ t.tags) s')
      (OnSplit P) := by
  -- all pages of a trie in the first cell of a page are given up
  have horphan (fuel p : Nat) {s : State Cells} {t : Trie Loc} (hs : Ready s) (h : Holds s t)
      (ht : t.tag? = some (p, 0)) : Ensures (orphanSubtrie fuel p 0) s
      (fun _ s' ↦ Erased s t.tags (fun q ↦ t.tags.count (q, 0)) (fun c ↦ (c.1, 0) ∈ t.tags) s')
      (OnSplit P) := by
    refine (orphanSubtrie_spec fuel hs h ht).mono (fun _ s' he ↦ ?_) fun _ _ h ↦ h
    exact he.mono fun c hc _ ↦ h.stored.root_mem_of_first ht hc
  induction fuel generalizing s p i t with
  | zero => exact throw_spec (by simp)
  | succ fuel ih =>
    unfold deleteSubtrie
    split
    · next hi =>
      subst hi
      exact horphan fuel p hs h ht
    · next hi =>
      cases t with
      | empty => cases ht
      | node c ref pre kind ch =>
      cases ht
      refine .bind (getValue_spec fun n hn ↦ ?_)
      rw [h.eq_of_cellAt hn]
      have hroots (j : Fin 16) (c : Loc) (hc : (c.1, 0) ∈ (ch j).tags) :
          (c.1, 0) ∈ (node (p, i) ref pre kind ch).tags := mem_tags_node.mpr (.inr ⟨j, hc⟩)
      refine .seq (forChildren_spec (W := fun c ↦ (c.1, 0) ∈ (node (p, i) ref pre kind ch).tags) h
        hs ho fun s₁ j ptr hs₁ hj ho₁ hp ↦ ?_) fun _ s₁ h₁ ↦ ?_
      · obtain ⟨-, ⟨k, -, hloc, htag⟩ | ⟨q, hloc, htag⟩⟩ := pointer?_cases (h.linked j) hp
        · rw [hloc]
          exact (ih hs₁ hj htag ho₁).mono (fun _ _ he ↦ he.mono fun c _ ↦ hroots j c)
            fun _ _ h ↦ h
        · rw [hloc]
          exact .bind (getPage_spec fun _ _ ↦ (horphan fuel q hs₁ hj htag).mono
            (fun _ _ he ↦ he.mono fun c _ ↦ hroots j c) fun _ _ h ↦ h)
      · refine deleteValue_spec fun c hc ↦ ?_
        have ho₁ : old s₁ p = false := by rw [h₁.evolves.old_eq h.root_live.1, ho]
        refine (h₁.trans (erased_deleteValue _ h₁.evolves.ready ho₁ hc) ?_).congr ?_ ?_ fun q ↦ ?_
        · simpa using h.root_live
        · simp only [tags, List.mem_append, List.mem_cons, List.not_mem_nil, or_false]
          exact fun _ h ↦ h.symm
        · simp only [tags, List.mem_append, List.mem_cons, List.not_mem_nil, or_false]
          exact fun _ h ↦ .inl h.symm
        · rw [count_tags_node]
          simp [hi]

/-! ### Moving a subtrie -/

/-- Only cells were written. -/
structure CellsOnly (s s' : State Cells) : Prop where
  orphans : orphans s' = orphans s
  pageCount : s'.engine.pageManager.pageCount = s.engine.pageManager.pageCount
  stray : s'.strayPages = s.strayPages
  dirty : ∀ q, dirty s' q = dirty s q

namespace CellsOnly

variable {s₁ : State Cells} {R R' : List Loc}

private theorem refl : CellsOnly s s := ⟨rfl, rfl, rfl, fun _ ↦ rfl⟩

private theorem setCells {p : Nat} (c : Cells) : CellsOnly s (s.setCells p c) :=
  ⟨rfl, rfl, rfl, dirty_setCells c⟩

private theorem trans (h : CellsOnly s s₁) (h' : CellsOnly s₁ s') : CellsOnly s s' :=
  ⟨h'.orphans.trans h.orphans, h'.pageCount.trans h.pageCount, h'.stray.trans h.stray,
    fun q ↦ (h'.dirty q).trans (h.dirty q)⟩

end CellsOnly

/-- Writing the node of a cell. -/
theorem HeldBelow.write {p i : Nat} {pre : Nibbles} {kind : Kind} {ch : Fin 16 → Trie Loc}
    {cells : Cells} (h : HeldBelow s (p, i) ch) (ref : RlpNode) (hs : Ready s)
    (ho : old s p = false) (hallows : ∀ j, ch j ≠ empty → kind.allows j)
    (hlink : ∀ j, (ch j).Linked p)
    (hc : ∀ j, cells.cell j =
      if j = i then some (kind.node pre fun j ↦ (ch j).pointer?) else cellAt s (p, j)) :
    Holds (s.setCells p cells) (node (p, i) ref pre kind ch) ∧
      Evolves s (node (p, i) ref pre kind ch).tags (s.setCells p cells)
        (node (p, i) ref pre kind ch).tags := by
  have he : Evolves s [(p, i)] (s.setCells p cells) [(p, i)] := by
    refine evolves_setCells hs ho (by simpa using h.live) (fun c hc ↦ .inl hc) fun j hj _ ↦ ?_
    rw [hc, if_neg]
    rintro rfl
    exact hj List.mem_cons_self
  refine ⟨.node (by simp [hc]) (by simpa using h.live) (by simpa using ho) hallows hlink h.apart
    h.disjoint fun j ↦ (h.children j).evolves he (by simpa using h.apart j), ?_⟩
  refine (he.frame_right (F := (List.finRange 16).flatMap fun i ↦ (ch i).tags) ?_).congr
    (fun _ h ↦ h) fun _ h ↦ h
  intro d hd
  obtain ⟨j, -, hj⟩ := List.mem_flatMap.mp hd
  exact (h.children j).live d hj

/-- Writing the node of a cell leaves nothing behind. -/
theorem HeldBelow.clears_write {p i : Nat} {ref ref' : RlpNode} {pre pre' : Nibbles}
    {kind kind' : Kind} {ch : Fin 16 → Trie Loc} {cells : Cells} {n : Node}
    (h : HeldBelow s (p, i) ch)
    (hc : ∀ j, cells.cell j = if j = i then some n else cellAt s (p, j)) :
    Clears s (node (p, i) ref pre kind ch).tags (s.setCells p cells)
      (node (p, i) ref' pre' kind' ch).tags := by
  refine clears_setCells (fun c hc ↦ (h.owned c hc).1) (fun _ hq ↦ hq) (fun _ hc _ ↦ hc)
    fun j hj hm ↦ ⟨?_, hm⟩
  rwa [hc, if_neg] at hj
  rintro rfl
  exact hm (mem_tags_node.mpr (.inl rfl))

section
variable {source target : Nat}

/-- What moving a subtrie to cell `k` of a page does. -/
structure Moved (s : State Cells) (t : Trie Loc) (target k : Nat) (s' : State Cells)
    (t' : Trie Loc) : Prop where
  free : cellAt s (target, k) = none
  first : k = 0 ↔ cellAt s (target, 0) = none
  tag : t'.tag? = some (target, k)
  ref : t'.ref? = t.ref?
  holds : Holds s' t'
  evolves : Evolves s t.tags s' t'.tags
  flag : flag s' t' = flag s t
  count : ∀ q, t'.tags.count (q, 0) = t.tags.count (q, 0) + if (target, k) = (q, 0) then 1 else 0
  cellsOnly : CellsOnly s s'
  left : ∀ c, cellAt s' c ≠ none → c ∉ t'.tags → cellAt s c ≠ none ∧ c ∉ t.tags

/-- The node is put on the target page, while its children stay behind. -/
private theorem moveNode {i k : Nat} {ref : RlpNode} {pre : Nibbles} {kind : Kind}
    {ch : Fin 16 → Trie Loc} {c₁ c₂ : Cells} {n : Node} (hs : Ready s)
    (h : Holds s (node (source, i) ref pre kind ch)) (hsource : old s source = false)
    (htarget : old s target = false) (hlive : ¬ Vacant s target) (hne : source ≠ target)
    (hc₁ : ∀ j, c₁.cell j = if j = i then none else cellAt s (source, j))
    (hk : cellAt s (target, k) = none)
    (hc₂ : ∀ j, c₂.cell j = if j = k then some n else cellAt s (target, j)) :
    HeldBelow ((s.setCells source c₁).setCells target c₂) (target, k) ch ∧
      Evolves s (node (source, i) ref pre kind ch).tags
        ((s.setCells source c₁).setCells target c₂) (node (target, k) ref pre kind ch).tags := by
  have hstamp : stamp s target ≠ none := by
    rw [old_eq_false.mp htarget]
    exact Option.some_ne_none _
  have he₁ : Evolves s [(source, i)] (s.setCells source c₁) [] :=
    (erased_deleteValue (fun _ ↦ True) hs hsource hc₁).evolves
  have he₂ : Evolves (s.setCells source c₁) []
      ((s.setCells source c₁).setCells target c₂) [(target, k)] := by
    refine evolves_setCells he₁.ready (by simpa using htarget) ?_ ?_ fun j _ hj ↦ ?_
    · simpa using ⟨hlive, hstamp⟩
    · simpa [hne.symm] using hk
    · simp only [cellAt_setCells, hne.symm, if_false] at hj ⊢
      rw [hc₂ j, if_neg]
      rintro rfl
      exact hj hk
  have he := he₁.trans he₂
  have hapart (j : Fin 16) : (target, k) ∉ (ch j).tags := fun hm ↦ (h.child j).cell_ne_none hm hk
  have hdisj (j : Fin 16) : (ch j).tags.Disjoint [(source, i)] := by
    simpa using h.root_not_mem j
  refine ⟨⟨?_, ?_, fun j ↦ (h.child j).evolves he (hdisj j), hapart, fun _ _ ↦ h.disjoint⟩, ?_⟩
  · simpa using ⟨hlive, hstamp⟩
  · simp [hc₂]
  · refine (he.frame_right (F := (List.finRange 16).flatMap fun i ↦ (ch i).tags) ?_).congr
      (fun _ h ↦ h) fun _ h ↦ h
    intro d hd
    obtain ⟨j, -, hj⟩ := List.mem_flatMap.mp hd
    exact (h.child j).live d hj

/-- What moving the children of a node does. -/
private structure MovedBelow (s : State Cells) (c : Loc) (ch : Fin 16 → Trie Loc)
    (s' : State Cells) (ch' : Fin 16 → Trie Loc) : Prop where
  held : HeldBelow s' c ch'
  linked : ∀ i, (ch' i).Linked c.1
  ref : ∀ i, (ch' i).ref? = (ch i).ref?
  flag : ∀ i, flag s' (ch' i) = flag s (ch i)
  count : ∀ i q, (ch' i).tags.count (q, 0) = (ch i).tags.count (q, 0)
  evolves : ∀ ref pre kind,
    Evolves s (node c ref pre kind ch).tags s' (node c ref pre kind ch').tags
  cellsOnly : CellsOnly s s'
  left : ∀ d, cellAt s' d ≠ none → (∀ i, d ∉ (ch' i).tags) →
    cellAt s d ≠ none ∧ ∀ i, d ∉ (ch i).tags

private theorem moveChildren_spec {move : Nat → EngineM Cells Location} {k : Nat}
    {pre : Nibbles} {kind : Kind} {ch : Fin 16 → Trie Loc}
    (hmove : ∀ s t j, Ready s → Holds s t → t.tag? = some (source, j) → j ≠ 0 →
      old s source = false → old s target = false → ¬ Vacant s target →
      (∀ d ∈ t.tags, d.1 ≠ target) → Ensures (move j) s
        (fun loc s' ↦ ∃ k t', loc = nodeLocation target k ∧ Moved s t target k s' t') (OnSplit P))
    (l : List (Fin 16)) (hl : l.Nodup) (hs : Ready s) (h : HeldBelow s (target, k) ch)
    (hlink : ∀ i ∈ l, (ch i).Linked source) (hlink' : ∀ i ∉ l, (ch i).Linked target)
    (hapart : ∀ i ∈ l, ∀ d ∈ (ch i).tags, d.1 ≠ target)
    (hallows : ∀ i, ch i ≠ empty → kind.allows i) (hfirst : cellAt s (target, 0) ≠ none)
    (hsource : old s source = false) (hlive : ¬ Vacant s source) (htarget : old s target = false) :
    Ensures (moveChildren move l (kind.node pre fun i ↦ (ch i).pointer?)) s
      (fun n s' ↦ ∃ ch', n = kind.node pre (fun i ↦ (ch' i).pointer?) ∧
        MovedBelow s (target, k) ch s' ch') (OnSplit P) := by
  induction l generalizing s ch with
  | nil =>
    refine .pure ⟨ch, rfl, h, fun i ↦ hlink' i (by simp), fun _ ↦ rfl, fun _ ↦ rfl,
      fun _ _ ↦ rfl, fun _ _ _ ↦ .refl hs h.owned, .refl, fun _ hd hm ↦ ⟨hd, hm⟩⟩
  | cons i l ih =>
    obtain ⟨hil, hl⟩ := List.nodup_cons.mp hl
    have hchild : (kind.node pre fun i ↦ (ch i).pointer?).childAt i = (ch i).pointer? :=
      Kind.childAt_node (fun j hj ↦ hallows j fun he ↦ hj (by rw [he]; rfl)) i
    have hli := hlink i List.mem_cons_self
    -- a child that stays where it is
    have hskip (hi : (ch i).Linked target) :
        Ensures (moveChildren move l (kind.node pre fun i ↦ (ch i).pointer?)) s
          (fun n s' ↦ ∃ ch', n = kind.node pre (fun i ↦ (ch' i).pointer?) ∧
            MovedBelow s (target, k) ch s' ch') (OnSplit P) := by
      refine ih hl hs h (fun j hj ↦ hlink j (List.mem_cons_of_mem _ hj)) (fun j hj ↦ ?_)
        (fun j hj ↦ hapart j (List.mem_cons_of_mem _ hj)) hallows hfirst hsource hlive htarget
      by_cases hji : j = i
      · rw [hji]
        exact hi
      · exact hlink' j (by simp [hji, hj])
    unfold moveChildren
    rw [hchild]
    cases hp : (ch i).pointer? with
    | none =>
      rw [pointer?_eq_none.mp hp] at hskip
      exact hskip (linked_empty _)
    | some ptr =>
    obtain ⟨location, rlp⟩ := ptr
    obtain ⟨hrlp, ⟨j, hj, hloc, htag⟩ | ⟨q, hloc, htag⟩⟩ := pointer?_cases hli hp
    · simp only at hloc hrlp
      subst hloc
      have hi : kind.allows i := hallows i fun he ↦ by simp [he, pointer?] at hp
      refine .seq (hmove s (ch i) j hs (h.children i) htag hj hsource htarget h.live.1
        (hapart i List.mem_cons_self)) ?_
      rintro loc s₁ ⟨k', t', rfl, hm⟩
      have hk' : k' ≠ 0 := fun h0 ↦ hfirst (hm.first.mp h0)
      refine .bind (liftNode_spec fun n hn ↦ ?_)
      have hp' : t'.pointer? = some ⟨nodeLocation target k', rlp⟩ := by
        have hr : t'.ref? = some rlp := hm.ref.trans hrlp
        have ht := hm.tag
        cases t' with
        | empty => cases ht
        | node c ref pre kind ch =>
          cases ht
          cases hr
          rfl
      rw [Kind.putChild_node hi hn, ← hp', ← pointers_update]
      obtain ⟨h₁, -⟩ := h.replace hm.evolves hm.holds
      have hne (j : Fin 16) (hj : j ∈ l) : j ≠ i := fun he ↦ hil (he ▸ hj)
      refine (ih hl hm.evolves.ready h₁ (fun j hj ↦ ?_) (fun j hj ↦ ?_) (fun j hj ↦ ?_)
        (fun j hj ↦ ?_) ?_ ?_ ?_ ?_).mono ?_ fun _ _ h ↦ h
      · rw [Function.update_of_ne (hne j hj)]
        exact hlink j (List.mem_cons_of_mem _ hj)
      · by_cases hji : j = i
        · rw [hji, Function.update_self]
          intro d hd _
          rw [hm.tag] at hd
          cases hd
          rfl
        · rw [Function.update_of_ne hji]
          exact hlink' j (by simp [hji, hj])
      · rw [Function.update_of_ne (hne j hj)]
        exact hapart j (List.mem_cons_of_mem _ hj)
      · by_cases hji : j = i
        · rw [hji]
          exact hi
        · rw [Function.update_of_ne hji] at hj
          exact hallows j hj
      · rw [hm.evolves.frame (target, 0) h.live.1
          (fun hmem ↦ hapart i List.mem_cons_self _ hmem rfl) hfirst]
        exact hfirst
      · rw [hm.evolves.old_eq hlive, hsource]
      · exact fun hv ↦ hlive (hm.evolves.vacant _ hv)
      · rw [hm.evolves.old_eq h.live.1, htarget]
      · rintro n s' ⟨ch', rfl, hb⟩
        refine ⟨ch', rfl, hb.held, hb.linked, fun j ↦ ?_, fun j ↦ ?_, fun j q ↦ ?_,
          fun ref pre kind ↦ (h.evolves hm.evolves).trans (hb.evolves ref pre kind),
          hm.cellsOnly.trans hb.cellsOnly, fun d hd hdm ↦ ?_⟩
        · rw [hb.ref]
          by_cases hji : j = i
          · rw [hji, Function.update_self, hm.ref]
          · rw [Function.update_of_ne hji]
        · rw [hb.flag]
          by_cases hji : j = i
          · rw [hji, Function.update_self, hm.flag]
          · rw [Function.update_of_ne hji, (h.children j).flag_eq hm.evolves]
        · rw [hb.count]
          by_cases hji : j = i
          · rw [hji, Function.update_self, hm.count, if_neg (by simp [hk']), Nat.add_zero]
          · rw [Function.update_of_ne hji]
        · obtain ⟨hd, hdm⟩ := hb.left d hd hdm
          have hdt := hdm i
          rw [Function.update_self] at hdt
          obtain ⟨hd, hdi⟩ := hm.left d hd hdt
          refine ⟨hd, fun j ↦ ?_⟩
          by_cases hji : j = i
          · rw [hji]
            exact hdi
          · have := hdm j
            rwa [Function.update_of_ne hji] at this
    · simp only at hloc
      subst hloc
      refine hskip fun d hd hd0 ↦ ?_
      rw [htag] at hd
      cases hd
      exact absurd rfl hd0

variable [AlloyTrie]

private theorem moveSubtrieNodes_spec (fuel : Nat) {i : Nat} {t : Trie Loc} (hs : Ready s)
    (h : Holds s t) (ht : t.tag? = some (source, i)) (hi : i ≠ 0) (hsource : old s source = false)
    (htarget : old s target = false) (hlive : ¬ Vacant s target)
    (hapart : ∀ d ∈ t.tags, d.1 ≠ target) :
    Ensures (moveSubtrieNodes source target fuel i) s
      (fun loc s' ↦ ∃ k t', loc = nodeLocation target k ∧ Moved s t target k s' t')
      (OnSplit P) := by
  induction fuel generalizing s i t with
  | zero => exact throw_spec (by simp)
  | succ fuel ih =>
    cases t with
    | empty => cases ht
    | node c ref pre kind ch =>
    cases ht
    have hne : source ≠ target := hapart _ (mem_tags_node.mpr (.inl rfl))
    refine .bind (getValue_spec fun n hn ↦ .bind (deleteValue_spec fun c₁ hc₁ ↦
      .bind (insertValue_spec fun k c₂ hk hfree hc₂ ↦ ?_)))
    simp only [cellAt_setCells, hne.symm, if_false] at hfree hc₂
    obtain ⟨hb, he⟩ := moveNode hs h hsource htarget hlive hne hc₁ hfree hc₂
    generalize hs₂ : (s.setCells source c₁).setCells target c₂ = s₂ at hb he
    have hcell : cellAt s₂ (target, k) = some n := by
      rw [← hs₂]
      simp [hc₂]
    have hold (q : Nat) : old s₂ q = old s q := by rw [← hs₂, old_setCells, old_setCells]
    have hvacant (q : Nat) : Vacant s₂ q ↔ Vacant s q := by
      rw [← hs₂, vacant_setCells, vacant_setCells]
    have hcalm : CellsOnly s s₂ := hs₂ ▸ (CellsOnly.setCells c₁).trans (.setCells c₂)
    have hn := h.eq_of_cellAt hn
    -- the first cell of the target page is in use from here on
    have hfirst : k = 0 ↔ cellAt s (target, 0) = none := by
      refine ⟨fun h0 ↦ h0 ▸ hfree, fun h0 ↦ ?_⟩
      by_contra hk0
      refine Cells.cell_ne_none_of_lt hk (Nat.pos_of_ne_zero hk0) ?_
      have : cellAt (s.setCells source c₁) (target, 0) = none := by simpa [hne.symm] using h0
      exact this
    have hused : cellAt s₂ (target, 0) ≠ none := by
      by_cases hk0 : k = 0
      · rw [← hk0, hcell]
        exact Option.some_ne_none _
      · rw [← hs₂]
        simpa [hc₂, Ne.symm hk0] using fun h0 ↦ hk0 (hfirst.mpr h0)
    have hroot (s' : State Cells) (ch' : Fin 16 → Trie Loc) (ho : old s' target = false)
        (hf : ∀ j, flag s' (ch' j) = flag s₂ (ch j)) :
        flag s' (node (target, k) ref pre kind ch') =
          flag s (node (source, i) ref pre kind ch) := by
      simp only [flag, Trie.map, ho, hi, Bool.and_false, decide_false, Bool.false_and]
      congr 1
      funext j
      refine (hf j).trans (Holds.map_congr fun d _ ↦ ?_)
      rw [hold]
    have hcount (ch' : Fin 16 → Trie Loc)
        (hc : ∀ j q, (ch' j).tags.count (q, 0) = (ch j).tags.count (q, 0)) (q : Nat) :
        (node (target, k) ref pre kind ch').tags.count (q, 0) =
          (node (source, i) ref pre kind ch).tags.count (q, 0) +
            if (target, k) = (q, 0) then 1 else 0 := by
      have : (source, i) ≠ (q, 0) := by simp [hi]
      rw [count_tags_node, count_tags_node, if_neg this]
      simp only [hc]
      omega
    have htarget₂ : old s₂ target = false := by rw [hold, htarget]
    -- only the node has left its page
    have hleft (d : Loc) (hd : cellAt s₂ d ≠ none) (hdk : d ≠ (target, k)) :
        cellAt s d ≠ none ∧ d ≠ (source, i) := by
      obtain ⟨q, j⟩ := d
      rw [← hs₂, cellAt_setCells, cellAt_setCells] at hd
      split at hd
      · next hq =>
        simp only at hq hd
        subst hq
        rw [hc₂] at hd
        split at hd
        · next hjk => exact absurd (by rw [hjk]) hdk
        · exact ⟨hd, fun he ↦ hne (Prod.mk.inj he).1.symm⟩
      · split at hd
        · next hq =>
          simp only at hq hd
          subst hq
          rw [hc₁] at hd
          split at hd
          · exact absurd rfl hd
          · next hji => exact ⟨hd, fun he ↦ hji (Prod.mk.inj he).2⟩
        · next hq => exact ⟨hd, fun he ↦ hq (Prod.mk.inj he).1⟩
    refine .seq (Q := fun _ s' ↦ ∃ t', Moved s (node (source, i) ref pre kind ch) target k s' t')
      ?_ ?_
    · unfold moveBelow
      split
      · refine .bind (getValue_spec fun n' hn' ↦ ?_)
        have hn' : n' = kind.node pre fun i ↦ (ch i).pointer? := by
          rw [← hn]
          exact Option.some.inj (hn'.symm.trans hcell)
        rw [hn']
        refine .seq (moveChildren_spec (fun s₁ t j hs₁ ht htag hj hso hta hlv hap ↦
          ih hs₁ ht htag hj hso hta hlv hap) _ ?_ he.ready hb (fun j _ ↦ h.linked j)
          (fun j hj ↦ ?_)
          (fun j _ d hd ↦ hapart d (mem_tags_node.mpr (.inr ⟨j, hd⟩))) h.allows hused
          (by rw [hold, hsource]) (fun hv ↦ h.root_live.1 ((hvacant _).mp hv)) htarget₂) ?_
        · split
          · exact List.nodup_finRange 16
          · exact List.nodup_singleton 0
        · split at hj
          · exact absurd (List.mem_finRange j) hj
          · next hbr =>
            have hempty : ch j = empty := by
              by_contra hne
              have := h.allows j hne
              rcases kind with (info | v) | _
              · simp [Kind.allows] at this
                simp [this] at hj
              · simp [Kind.allows] at this
              · simp [Kind.node, Node.isBranch] at hbr
            rw [hempty]
            exact linked_empty _
        · rintro n'' s₃ ⟨ch', rfl, hm⟩
          refine setValue_spec fun c₃ hc₃ ↦ ?_
          have ho₃ : old s₃ target = false := by
            rw [(hm.evolves ref pre kind).old_eq hb.live.1, htarget₂]
          have hallows (j : Fin 16) (hj : ch' j ≠ empty) : kind.allows j := by
            refine h.allows j fun he ↦ hj ?_
            have hr := hm.ref j
            rw [he] at hr
            exact ref?_eq_none.mp hr
          obtain ⟨hholds, he₃⟩ := hm.held.write ref (hm.evolves ref pre kind).ready ho₃
            hallows hm.linked hc₃
          refine ⟨node (target, k) ref pre kind ch', hfree, hfirst, rfl, rfl, hholds,
            (he.trans (hm.evolves ref pre kind)).trans he₃, ?_, hcount ch' hm.count,
            (hcalm.trans hm.cellsOnly).trans (.setCells c₃), fun d hd hdm ↦ ?_⟩
          · refine hroot _ ch' (by simpa using ho₃) fun j ↦ ?_
            rw [flag_setCells, hm.flag j]
          · rw [mem_tags_node, not_or, not_exists] at hdm
            have hd₃ : cellAt s₃ d ≠ none := by
              obtain ⟨q, j⟩ := d
              rw [cellAt_setCells] at hd
              split at hd
              · next hq =>
                simp only at hq hd
                subst hq
                rw [hc₃, if_neg fun hj ↦ hdm.1 (by rw [hj])] at hd
                exact hd
              · exact hd
            obtain ⟨hd₂, hdch⟩ := hm.left d hd₃ hdm.2
            obtain ⟨hd, hdi⟩ := hleft d hd₂ hdm.1
            exact ⟨hd, by rw [mem_tags_node, not_or, not_exists]; exact ⟨hdi, hdch⟩⟩
      · next hk =>
        rw [hn] at hk hcell
        obtain ⟨v, rfl⟩ := Kind.hasChildren_node.mp (Bool.eq_false_iff.mpr hk)
        have hch (j : Fin 16) : ch j = empty := by
          by_contra hne
          simpa [Kind.allows] using h.allows j hne
        refine .pure ⟨node (target, k) ref pre (.leaf (.slot v)) ch, hfree, hfirst, rfl, rfl,
          hb.holds hcell htarget₂ h.allows fun j ↦ ?_, he, hroot s₂ ch htarget₂ fun _ ↦ rfl,
          hcount ch fun _ _ ↦ rfl, hcalm, fun d hd hdm ↦ ?_⟩
        · rw [hch j]
          exact linked_empty _
        · rw [mem_tags_node, not_or] at hdm
          obtain ⟨hd, hdi⟩ := hleft d hd hdm.1
          exact ⟨hd, by rw [mem_tags_node, not_or]; exact ⟨hdi, hdm.2⟩⟩
    · rintro _ s' ⟨t', hm⟩
      exact .pure ⟨k, t', rfl, hm⟩

end

/-! ### Splitting a page -/

section
variable [AlloyTrie] {p : Nat}

omit [AlloyTrie] in
private theorem mem_localChildren {cells : Cells} {l : List (Fin 16 × Pointer)} {c : LocalChild}
    (h : c ∈ localChildren cells l) : (c.index, ⟨.cell c.cell, c.rlp⟩) ∈ l := by
  simp only [localChildren, List.mem_map, List.mem_insertionSort, List.mem_filterMap] at h
  obtain ⟨⟨c', n⟩, ⟨⟨i, ptr⟩, hmem, heq⟩, rfl⟩ := h
  obtain ⟨location, rlp⟩ := ptr
  cases location with
  | page q => cases heq
  | cell k =>
    cases heq
    exact hmem

omit [AlloyTrie] in
private theorem nodup_localChildren {cells : Cells} {l : List (Fin 16 × Pointer)}
    (h : (l.map Prod.fst).Nodup) : ((localChildren cells l).map LocalChild.index).Nodup := by
  simp only [localChildren, List.map_map]
  refine (((List.perm_insertionSort _ _).map _).nodup_iff).mpr ?_
  rw [List.map_filterMap]
  refine List.Nodup.sublist ?_ h
  induction l with
  | nil => exact List.Sublist.refl _
  | cons x l ih =>
    obtain ⟨i, location, rlp⟩ := x
    rw [List.map_cons, List.nodup_cons] at h
    cases location with
    | page q => exact (ih h.2).cons _
    | cell k => exact (ih h.2).cons_cons _

omit [AlloyTrie] in
/-- A subtrie on a page of its own. -/
private theorem movedOut {t t' : Trie Loc} {id : Nat} {s₁ s₂ : State Cells} (h : Holds s t)
    (ha : Allocated s id s₁) (hm : Moved s₁ t id 0 s₂ t') :
    Holds (release s₂ id) t' ∧ Evolves s t.tags (release s₂ id) t'.tags ∧
      flag (release s₂ id) t' = flag s t ∧ Balance s t.tags (release s₂ id) t'.tags ∧
      Cleaner s (release s₂ id) ∧ Clears s t.tags (release s₂ id) t'.tags := by
  have hlive : ¬ Vacant s₁ id := fun hv ↦ (ha.vacant' id hv).2 rfl
  have ho₂ : old s₂ id = false := by rw [hm.evolves.old_eq hlive, ha.old_page]
  have he₁ : Evolves s t.tags s₁ t.tags := ha.evolves fun c hc ↦ .inr ⟨hc, h.live c hc⟩
  have he₃ : Evolves s₂ t'.tags (release s₂ id) t'.tags :=
    evolves_release hm.evolves.ready ho₂ hm.holds.live
  refine ⟨hm.holds.release hm.evolves.ready ho₂, (he₁.trans hm.evolves).trans he₃, ?_, ?_, ?_, ?_⟩
  · rw [hm.holds.flag_eq he₃, hm.flag, h.flag_eq he₁]
  · intro q
    have h₁ := ha.orphanCount q
    have h₂ := hm.count q
    have horphans : orphanCount (release s₂ id) q = orphanCount s₁ q := by
      simp only [orphanCount]
      exact congrArg (fun l ↦ (l.map OrphanPage.pageId).count q) hm.cellsOnly.orphans
    have hstray : (release s₂ id).strayPages = s.strayPages := hm.cellsOnly.stray.trans ha.stray
    have hadded : added s (release s₂ id) q = added s s₁ q := by
      simp only [added]
      have : (release s₂ id).engine.pageManager.pageCount = s₁.engine.pageManager.pageCount :=
        hm.cellsOnly.pageCount
      rw [this]
    simp only [Prod.mk.injEq, and_true, @eq_comm _ id q] at h₂
    rw [horphans, hstray, hadded]
    omega
  · intro q hq
    obtain ⟨hq, hne⟩ := dirty_release q hq
    rw [hm.cellsOnly.dirty] at hq
    exact ha.dirty hne hq
  · have hroot (q : Nat) (hq : (q, 0) ∈ t'.tags) : (q, 0) ∈ t.tags ∨ q = id := by
      have hcount := hm.count q
      have hpos := List.count_pos_iff.mpr hq
      by_cases hid : (id, 0) = (q, 0)
      · exact .inr (Prod.mk.inj hid).1.symm
      · rw [if_neg hid, Nat.add_zero] at hcount
        exact .inl (List.count_pos_iff.mp (hcount ▸ hpos))
    refine ⟨fun q hq ↦ ?_, fun c hc hcm ↦ ?_⟩
    · rcases hroot q hq with hq | rfl
      · exact .inl hq
      · exact .inr ha.vacant
    · rw [cellAt_release] at hc
      obtain ⟨hc, hct⟩ := hm.left c hc hcm
      have hcid : c.1 ≠ id := by
        rintro rfl
        exact hc (ha.cellAt_page c.2)
      rw [ha.cellAt_of_ne hcid] at hc
      by_cases hv : Vacant s c.1
      · refine .inr ⟨fun hq ↦ ?_, .inr hv⟩
        rcases hroot c.1 hq with hq | hq
        · exact (h.live _ hq).1 hv
        · exact hcid hq
      · exact .inl ⟨hv, hc, hct⟩

private theorem splitLoop_spec (fuel : Nat) {pre : Nibbles} {kind : Kind} {ch : Fin 16 → Trie Loc}
    (l : List LocalChild) (hl : (l.map LocalChild.index).Nodup) (hs : Ready s)
    (h : HeldBelow s (p, 0) ch) (hlink : ∀ i, (ch i).Linked p)
    (hallows : ∀ i, ch i ≠ empty → kind.allows i)
    (hmem : ∀ c ∈ l, (ch c.index).pointer? = some ⟨.cell c.cell, c.rlp⟩) (ho : old s p = false) :
    Ensures (splitLoop fuel p l (kind.node pre fun i ↦ (ch i).pointer?)) s
      (fun n s' ↦ ∃ ch', n = kind.node pre (fun i ↦ (ch' i).pointer?) ∧ HeldBelow s' (p, 0) ch' ∧
        (∀ i, (ch' i).Linked p) ∧ (∀ i, (ch' i).ref? = (ch i).ref?) ∧
        (∀ i, flag s' (ch' i) = flag s (ch i)) ∧ Cleaner s s' ∧
        ∀ ref pre kind, Evolves s (node (p, 0) ref pre kind ch).tags s'
          (node (p, 0) ref pre kind ch').tags ∧
          Balance s (node (p, 0) ref pre kind ch).tags s' (node (p, 0) ref pre kind ch').tags ∧
          (Full s (node (p, 0) ref pre kind ch).tags →
            Clears s (node (p, 0) ref pre kind ch).tags s' (node (p, 0) ref pre kind ch').tags))
      (OnSplit P) := by
  induction l generalizing s ch with
  | nil =>
    unfold splitLoop
    refine .bind (numFreeBytes_spec fun n ↦ ?_)
    split
    · exact .bind (allocatePage_spec hs fun id t _ ↦ withPage_spec (throw_spec (by simp)))
    · exact .pure ⟨ch, rfl, h, hlink, fun _ ↦ rfl, fun _ ↦ rfl, fun _ ↦ id,
        fun _ _ _ ↦ ⟨.refl hs h.owned, .refl, fun _ ↦ .of_cells (fun c hc ↦ (h.owned c hc).1)
          fun _ hc _ ↦ hc⟩⟩
  | cons c l ih =>
    obtain ⟨hcl, hl⟩ := List.nodup_cons.mp hl
    unfold splitLoop
    refine .bind (numFreeBytes_spec fun n ↦ ?_)
    split
    · refine .bind (allocatePage_spec hs fun id s₁ ha ↦ ?_)
      have he₁ : Evolves s [] s₁ [] := ha.evolves (by simp)
      have hi := h.children c.index
      have hp := hmem c List.mem_cons_self
      obtain ⟨hrlp, ⟨k, hk, hloc, htag⟩ | ⟨q, hloc, -⟩⟩ := pointer?_cases (hlink c.index) hp
      swap
      · cases hloc
      cases hloc
      have hallow : kind.allows c.index := hallows c.index fun he ↦ by simp [he, pointer?] at hp
      refine .bind (withPage_spec (.seq (Q := fun _ s₂ ↦ ∃ t', Moved s₁ (ch c.index) id 0 s₂ t')
        ?_ ?_))
      · refine (moveSubtrieNodes_spec fuel (P := fun n t ↦ P n (release t id)) he₁.ready
          (hi.evolves he₁ (List.disjoint_nil_right _)) htag hk
          (by rw [he₁.old_eq h.live.1, ho]) ha.old_page (fun hv ↦ (ha.vacant' id hv).2 rfl)
          fun d hd ↦ ha.ne (hi.live d hd).1).mono ?_ fun _ _ h ↦ h
        rintro loc s₂ ⟨k', t', -, hm⟩
        have hk' : k' = 0 := hm.first.mpr (ha.cellAt_page 0)
        exact ⟨t', hk' ▸ hm⟩
      · rintro loc s₂ ⟨t', hm⟩
        refine liftNode_spec (P := fun n t ↦ P n (release t id)) fun n hn ↦ ?_
        obtain ⟨hholds, he, hflag, hbal, hclean, hclear⟩ := movedOut hi ha hm
        have hp' : t'.pointer? = some ⟨.page id, c.rlp⟩ := by
          have hr : t'.ref? = some c.rlp := hm.ref.trans hrlp
          have ht := hm.tag
          cases t' with
          | empty => cases ht
          | node d ref pre kind ch =>
            cases ht
            cases hr
            rfl
        rw [Kind.putChild_node hallow hn, ← hp', ← pointers_update]
        obtain ⟨h₃, -⟩ := h.replace he hholds
        have hne (d : LocalChild) (hd : d ∈ l) : d.index ≠ c.index :=
          fun he ↦ hcl (he ▸ List.mem_map_of_mem hd)
        refine (ih hl he.ready h₃ (fun j ↦ ?_) (fun j hj ↦ ?_) (fun d hd ↦ ?_) ?_).mono ?_
          fun _ _ h ↦ h
        · by_cases hj : j = c.index
          · rw [hj, Function.update_self]
            intro d hd hd0
            rw [hm.tag] at hd
            cases hd
            exact absurd rfl hd0
          · rw [Function.update_of_ne hj]
            exact hlink j
        · by_cases hji : j = c.index
          · rw [hji]
            exact hallow
          · rw [Function.update_of_ne hji] at hj
            exact hallows j hj
        · rw [Function.update_of_ne (hne d hd)]
          exact hmem d (List.mem_cons_of_mem _ hd)
        · rw [he.old_eq h.live.1, ho]
        · rintro n s' ⟨ch', rfl, hheld, hlink', href, hflag', hclean', hrest⟩
          refine ⟨ch', rfl, hheld, hlink', fun j ↦ ?_, fun j ↦ ?_,
            fun q hq ↦ hclean q (hclean' q hq), fun ref pre kind ↦ ?_⟩
          · rw [href]
            by_cases hj : j = c.index
            · rw [hj, Function.update_self, hm.ref]
            · rw [Function.update_of_ne hj]
          · rw [hflag']
            by_cases hj : j = c.index
            · rw [hj, Function.update_self, hflag]
            · rw [Function.update_of_ne hj, (h.children j).flag_eq he]
          · obtain ⟨he', hbal', hclear'⟩ := hrest ref pre kind
            refine ⟨(h.evolves he).trans he', hbal.replace.trans hbal' he.count he'.count,
              fun hfull ↦ ?_⟩
            have hc := @HeldBelow.clears _ _ _ _ ref ref pre pre kind kind _ _ _ h hlink h.apart
              (fun _ ↦ hclear) hfull
            exact hc.trans (hclear' (hc.full hfull)) he.vacant
    · exact .pure ⟨ch, rfl, h, hlink, fun _ ↦ rfl, fun _ ↦ rfl, fun _ ↦ id,
        fun _ _ _ ↦ ⟨.refl hs h.owned, .refl, fun _ ↦ .of_cells (fun c hc ↦ (h.owned c hc).1)
          fun _ hc _ ↦ hc⟩⟩

/-- The program is not stopped for a page split. -/
def NoSplit {α : Type} (x : EngineM Cells α) : Prop :=
  ∀ s, Ensures x s (fun _ _ ↦ True) (OnSplit fun _ _ ↦ False)

omit [AlloyTrie] in
private theorem NoSplit.bind {α β : Type} {x : EngineM Cells α} {f : α → EngineM Cells β}
    (hx : NoSplit x) (hf : ∀ a, NoSplit (f a)) : NoSplit (x >>= f) :=
  fun s ↦ .seq (hx s) fun a s' _ ↦ hf a s'

private theorem noSplit_setValue (p i : Nat) (n : Node) : NoSplit (setValue p i n) :=
  fun _ ↦ setValue_spec fun _ _ ↦ trivial

omit [AlloyTrie] in
private theorem noSplit_getValue (p i : Nat) : NoSplit (getValue p i) :=
  fun _ ↦ getValue_spec fun _ _ ↦ trivial

omit [AlloyTrie] in
private theorem noSplit_liftNode {α : Type} (x : Except NodeError α) : NoSplit (liftNode x) :=
  fun _ ↦ liftNode_spec fun _ _ ↦ trivial

omit [AlloyTrie] in
private theorem noSplit_moveChildren {move : Nat → EngineM Cells Location}
    (h : ∀ i, NoSplit (move i)) (l : List (Fin 16))
    (n : Node) : NoSplit (moveChildren move l n) := by
  induction l generalizing n with
  | nil => exact fun _ ↦ trivial
  | cons i l ih =>
    unfold moveChildren
    split
    · exact .bind (h _) fun _ ↦ .bind (noSplit_liftNode _) fun _ ↦ ih _
    · exact ih n

private theorem noSplit_moveSubtrieNodes (source target fuel i : Nat) :
    NoSplit (moveSubtrieNodes source target fuel i) := by
  induction fuel generalizing i with
  | zero => exact fun _ ↦ throw_spec (by simp)
  | succ fuel ih =>
    refine .bind (noSplit_getValue _ _) fun n ↦ .bind (fun _ ↦ deleteValue_spec fun _ _ ↦ trivial)
      fun _ ↦ .bind (fun _ ↦ insertValue_spec fun _ _ _ _ _ ↦ trivial) fun k ↦
      .bind ?_ fun _ _ ↦ trivial
    unfold moveBelow
    split
    · exact .bind (noSplit_getValue _ _) fun _ ↦ .bind (noSplit_moveChildren ih _ _) fun _ ↦
        noSplit_setValue _ _ _
    · exact fun _ ↦ trivial

omit [AlloyTrie] in
private theorem noSplit_withPage {α : Type} {x : EngineM Cells α} (p : Nat) (h : NoSplit x) :
    NoSplit (withPage p x) :=
  fun s ↦ withPage_spec (h s)

private theorem noSplit_splitLoop (fuel p : Nat) (l : List LocalChild) (n : Node) :
    NoSplit (splitLoop fuel p l n) := by
  have hfree : NoSplit (numFreeBytes p) := fun _ ↦ numFreeBytes_spec fun _ ↦ trivial
  have halloc : NoSplit (allocatePage : EngineM Cells Nat) := fun _ ↦
    .intro (fun _ _ _ ↦ trivial) fun e t ht n hn ↦ by
      subst hn
      exact allocatePage_ne_pageSplit n ht
  induction l generalizing n with
  | nil =>
    refine .bind hfree fun _ ↦ ?_
    split
    · exact .bind halloc fun _ ↦ noSplit_withPage _ fun _ ↦ throw_spec (by simp)
    · exact fun _ ↦ trivial
  | cons c l ih =>
    refine .bind hfree fun _ ↦ ?_
    split
    · exact .bind halloc fun _ ↦ .bind (noSplit_withPage _ (.bind
        (noSplit_moveSubtrieNodes _ _ _ _) fun _ ↦ noSplit_liftNode _)) fun _ ↦ ih _
    · exact fun _ ↦ trivial

/-- A split does not ask for another one. -/
theorem noSplit_splitPage (fuel p : Nat) : NoSplit (splitPage fuel p) :=
  .bind (noSplit_getValue _ _) fun _ ↦ .bind (noSplit_liftNode _) fun _ ↦
    .bind (fun _ ↦ trivial) fun _ ↦ .bind (noSplit_splitLoop _ _ _ _) fun _ ↦
    noSplit_setValue _ _ _

/-- Splitting a page keeps the trie. -/
theorem splitPage_spec (fuel : Nat) {t : Trie Loc} (hs : Ready s) (h : Holds s t)
    (ht : t.tag? = some (p, 0)) (ho : old s p = false) :
    Ensures (splitPage fuel p) s (fun _ s' ↦ ∃ t', t'.tag? = some (p, 0) ∧ t'.ref? = t.ref? ∧
      flag s' t' = flag s t ∧ Step s t s' t' []) (OnSplit P) := by
  cases t with
  | empty => cases ht
  | node c ref pre kind ch =>
  cases ht
  refine .bind (getValue_spec fun n hn ↦ .bind (liftNode_spec fun l hl ↦ ?_))
  rw [h.eq_of_cellAt hn] at hl ⊢
  rw [h.enumerateChildren hl]
  refine .bind (cells_spec (.seq (splitLoop_spec fuel _ (nodup_localChildren ?_) hs
    (.of_holds h) h.linked h.allows (fun c hc ↦ ?_) ho) ?_))
  · rw [List.map_filterMap]
    refine (List.nodup_finRange 16).sublist ?_
    generalize List.finRange 16 = l
    induction l with
    | nil => exact List.Sublist.refl _
    | cons i l ih =>
      cases hp : (ch i).pointer? with
      | none =>
        rw [List.filterMap_cons_none (by simp [hp])]
        exact ih.cons _
      | some ptr =>
        rw [List.filterMap_cons_some (b := i) (by simp [hp])]
        exact ih.cons_cons _
  · have hmem := mem_localChildren hc
    rw [List.mem_filterMap] at hmem
    obtain ⟨i, -, hi⟩ := hmem
    obtain ⟨ptr, hptr, heq⟩ := Option.map_eq_some_iff.mp hi
    cases heq
    exact hptr
  · rintro n s₁ ⟨ch', rfl, hheld, hlink, href, hflag, hclean, hrest⟩
    obtain ⟨he, hbal, hclear⟩ := hrest ref pre kind
    refine setValue_spec fun c hc ↦ ?_
    have ho₁ : old s₁ p = false := by rw [he.old_eq h.root_live.1, ho]
    have hallows (j : Fin 16) (hj : ch' j ≠ empty) : kind.allows j := by
      refine h.allows j fun he ↦ hj ?_
      have hr := href j
      rw [he] at hr
      exact ref?_eq_none.mp hr
    obtain ⟨hholds, he₁⟩ := hheld.write ref he.ready ho₁ hallows hlink hc
    refine ⟨node (p, 0) ref pre kind ch', rfl, rfl, ?_, hholds, he.trans he₁, fun q hq ↦ ?_,
      fun _ ↦ hbal.trans (balance_setCells fun _ ↦ rfl) he.count he₁.count,
      fun hfull ↦ (hclear hfull).trans (hheld.clears_write hc) he.vacant⟩
    · rw [flag_setCells, flag_node, flag_node, ho₁, ho, funext hflag]
    · exact hclean q (by simpa using hq)

end

end Layout

end TrieDb

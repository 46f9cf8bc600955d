import TrieDb.Layout.Subtrie

/-!
# Steps on a node and on its children

How an operation on one of the children of a node, followed by a write of the node, is an operation
on the node.
-/

namespace TrieDb.Layout

open Meta Base Engine Trie

variable {s s₁ s' : State Cells} {p i j : Nat} {m : List Mishap}

/-- A trie at a cell of a page of this snapshot. The first cell of the page is in use and does not
belong to a trie further down. -/
structure Placed (s : State Cells) (t : Trie Loc) (p i : Nat) : Prop where
  ready : Ready s
  holds : Holds s t
  tag : t.tag? = some (p, i)
  current : old s p = false
  anchored : i = 0 ∨ cellAt s (p, 0) ≠ none ∧ (p, 0) ∉ t.tags

/-- The tag of the root is one of the tags. -/
theorem mem_tags_of_tag? {α : Type} {t : Trie α} {c : α} (h : t.tag? = some c) : c ∈ t.tags := by
  cases t with
  | empty => cases h
  | node d ref pre kind ch =>
    cases h
    exact mem_tags_node.mpr (.inl rfl)

/-- A location and a reference make a pointer. -/
theorem pointer?_eq_some {t : Trie Loc} {ref : RlpNode} (ht : t.tag? = some (p, i))
    (hr : t.ref? = some ref) : t.pointer? = some ⟨nodeLocation p i, ref⟩ := by
  cases t with
  | empty => cases ht
  | node d ref pre kind ch =>
    cases ht
    cases hr
    rfl

/-- A trie on the same page or at the start of another is linked. -/
theorem linked_of_tag {t : Trie Loc} {q : Nat} (ht : t.tag? = some (q, i)) (h : q = p ∨ i = 0) :
    t.Linked p := by
  intro c hc hc0
  rw [ht] at hc
  cases hc
  exact h.resolve_right hc0

/-- Whether a trie is linked depends on the tag of its root. -/
theorem linked_congr {t t' : Trie Loc} (h : t.Linked p) (ht : t'.tag? = t.tag?) : t'.Linked p :=
  fun c hc ↦ h c (ht ▸ hc)

/-- The cells do not tell by which reference a trie is embedded. -/
private theorem Holds.withRef {t : Trie Loc} (h : Holds s t) (ref : RlpNode) :
    Holds s (t.withRef ref) := by
  cases t with
  | empty => exact h
  | node c ref' pre kind ch => exact ⟨h.stored, h.nodup, h.live, h.mono⟩

/-- The reference of the result does not matter for a step. -/
theorem Step.withRef {t t' : Trie Loc} (h : Step s t s' t' m) (ref : RlpNode) :
    Step s t s' (t'.withRef ref) m := by
  refine ⟨h.holds.withRef ref, ?_, h.cleaner, ?_, ?_⟩
  · rw [tags_withRef]
    exact h.evolves
  · rw [tags_withRef]
    exact h.balance
  · rw [tags_withRef]
    exact h.clears

/-- A step may be said to have abandoned more. -/
theorem Step.weaken {t t' : Trie Loc} {m' : List Mishap} (h : Step s t s' t' m)
    (hm : Mishap.abandoned ∈ m → Mishap.abandoned ∈ m') : Step s t s' t' m' :=
  ⟨h.holds, h.evolves, h.cleaner, fun hm' ↦ h.balance fun ha ↦ hm' (hm ha), h.clears⟩

/-- Flags and the reference do not interfere. -/
theorem flag_withRef (s : State Cells) (t : Trie Loc) (ref : RlpNode) :
    flag s (t.withRef ref) = (flag s t).withRef ref := by
  cases t <;> rfl

namespace Placed

variable {t t' : Trie Loc}

/-- The page of a placed trie is in use. -/
theorem live (h : Placed s t p i) : ¬ Vacant s p ∧ stamp s p ≠ none :=
  h.holds.live _ (mem_tags_of_tag? h.tag)

/-- The page of a placed trie has a first cell. -/
theorem first (h : Placed s t p i) : cellAt s (p, 0) ≠ none := by
  rcases h.anchored with rfl | h₀
  · exact h.holds.cell_ne_none (mem_tags_of_tag? h.tag)
  · exact h₀.1

/-- The trie stays in its place. -/
theorem step (h : Placed s t p i) (hstep : Step s t s' t' m) (ht : t'.tag? = t.tag?) :
    Placed s' t' p i where
  ready := hstep.evolves.ready
  holds := hstep.holds
  tag := ht.trans h.tag
  current := by rw [hstep.evolves.old_eq h.live.1, h.current]
  anchored := by
    rcases h.anchored with h₀ | ⟨h₀, hmem⟩
    · exact .inl h₀
    · refine .inr ⟨?_, fun hm ↦ ?_⟩
      · rw [hstep.evolves.frame _ h.live.1 hmem h₀]
        exact h₀
      · rcases hstep.evolves.new _ hm with hm | hm | hm
        · exact hmem hm
        · exact h.live.1 hm
        · exact h₀ hm

/-- A state that holds more of the same. -/
theorem of_refl (h : Placed s t p i) : Step s t s t [] := .refl h.ready h.holds

section
variable {ref ref' : RlpNode} {pre pre' : Nibbles} {kind kind' : Kind} {ch : Fin 16 → Trie Loc}
  {k : Fin 16}

/-- The first cell is not below the root. -/
theorem first_not_mem (h : Placed s (node (p, i) ref pre kind ch) p i) (k : Fin 16) :
    (p, 0) ∉ (ch k).tags := by
  rcases h.anchored with rfl | h₀
  · exact h.holds.root_not_mem k
  · exact fun hm ↦ h₀.2 (mem_tags_node.mpr (.inr ⟨k, hm⟩))

/-- A child on the same page. -/
theorem child (h : Placed s (node (p, i) ref pre kind ch) p i) (hk : (ch k).tag? = some (p, j)) :
    Placed s (ch k) p j :=
  ⟨h.ready, h.holds.child k, hk, h.current, .inr ⟨h.first, h.first_not_mem k⟩⟩

/-- The recursion does not take the node for an old page. -/
theorem flag_eq (h : Placed s (node (p, i) ref pre kind ch) p i) :
    flag s (node (p, i) ref pre kind ch) = node false ref pre kind fun k ↦ flag s (ch k) := by
  rw [flag_node, h.current, Bool.and_false]

/-- What is read at the root of a placed trie. -/
theorem cell (h : Placed s (node (p, i) ref pre kind ch) p i) {n : Node}
    (hn : cellAt s (p, i) = some n) : n = kind.node pre fun k ↦ (ch k).pointer? :=
  h.holds.eq_of_cellAt hn

/-- What the recursion sees after a step on a child. -/
theorem flag_update (h : Placed s (node (p, i) ref pre kind ch) p i) {R R' : List Loc}
    (he : Evolves s R s' R') : (fun l ↦ flag s' (Function.update ch k t l)) =
      Function.update (fun l ↦ flag s (ch l)) k (flag s' t) := by
  funext l
  by_cases hl : l = k
  · rw [hl, Function.update_self, Function.update_self]
  · rw [Function.update_of_ne hl, Function.update_of_ne hl, (h.holds.child l).flag_eq he]

/-- A new child where the node allows one. -/
theorem allows_update (h : Placed s (node (p, i) ref pre kind ch) p i)
    (hk : t ≠ empty → kind.allows k) (l : Fin 16) (hl : Function.update ch k t l ≠ empty) :
    kind.allows l := by
  by_cases hlk : l = k
  · subst hlk
    rw [Function.update_self] at hl
    exact hk hl
  · rw [Function.update_of_ne hlk] at hl
    exact h.holds.allows l hl

private theorem linked_update (h : Placed s (node (p, i) ref pre kind ch) p i) (hk : t.Linked p)
    (l : Fin 16) : (Function.update ch k t l).Linked p := by
  by_cases hlk : l = k
  · rw [hlk, Function.update_self]
    exact hk
  · rw [Function.update_of_ne hlk]
    exact h.holds.linked l

/-- A step on a child leaves nothing behind on the pages of the node. -/
private theorem clears (h : Placed s (node (p, i) ref pre kind ch) p i)
    (hstep : Step s (ch k) s' t m) (hs : Full s (node (p, i) ref pre kind ch).tags) :
    Clears s (node (p, i) ref pre kind ch).tags s'
      (node (p, i) ref' pre' kind' (Function.update ch k t)).tags :=
  (HeldBelow.of_holds h.holds).clears h.holds.linked h.first_not_mem hstep.clears hs

/-- A step on a child whose pointer stays the same. -/
theorem step_child (h : Placed s (node (p, i) ref pre kind ch) p i)
    (hstep : Step s (ch k) s' t m) (hp : t.pointer? = (ch k).pointer?) (hlink : t.Linked p) :
    Step s (node (p, i) ref pre kind ch) s' (node (p, i) ref pre kind (Function.update ch k t))
      m := by
  obtain ⟨hb, hc⟩ := (HeldBelow.of_holds h.holds).replace hstep.evolves hstep.holds
  refine ⟨hb.holds ?_ ?_ (h.allows_update fun ht ↦ ?_) (h.linked_update hlink),
    (HeldBelow.of_holds h.holds).evolves hstep.evolves, hstep.cleaner,
    fun hm ↦ (hstep.balance hm).replace, h.clears hstep⟩
  · rw [hc, h.holds.cell, pointers_update, hp, Function.update_eq_self]
  · rw [hstep.evolves.old_eq h.live.1, h.current]
  · exact h.holds.allows k fun he ↦ ht (pointer?_eq_none.mp (by rw [hp, he]; rfl))

/-- A step on a child and a write of the node. -/
theorem step_write (h : Placed s (node (p, i) ref pre kind ch) p i) {cells : Cells}
    (hstep : Step s (ch k) s₁ t m) (hlink : t.Linked p)
    (hallows : ∀ l, Function.update ch k t l ≠ empty → kind'.allows l)
    (hc : ∀ l, cells.cell l = if l = i then
      some (kind'.node pre' fun l ↦ (Function.update ch k t l).pointer?) else cellAt s₁ (p, l)) :
    Step s (node (p, i) ref pre kind ch) (s₁.setCells p cells)
      (node (p, i) ref' pre' kind' (Function.update ch k t)) m := by
  obtain ⟨hb, -⟩ := (HeldBelow.of_holds h.holds).replace hstep.evolves hstep.holds
  have ho : old s₁ p = false := by rw [hstep.evolves.old_eq h.live.1, h.current]
  obtain ⟨hholds, he⟩ := hb.write ref' hstep.evolves.ready ho hallows
    (h.linked_update hlink) hc
  have he₁ : Evolves s (node (p, i) ref pre kind ch).tags s₁
      (node (p, i) ref' pre' kind' (Function.update ch k t)).tags :=
    (HeldBelow.of_holds h.holds).evolves hstep.evolves
  refine ⟨hholds, he₁.trans he, fun q hq ↦ hstep.cleaner q (by simpa using hq), fun hm ↦ ?_,
    fun hs ↦ ?_⟩
  · exact (hstep.balance hm).replace.trans (balance_setCells fun _ ↦ rfl) he₁.count he.count
  · have hclears : Clears s (node (p, i) ref pre kind ch).tags s₁
        (node (p, i) ref pre kind (Function.update ch k t)).tags := h.clears hstep hs
    exact hclears.trans (hb.clears_write hc) hstep.evolves.vacant

/-- A write of the node. -/
theorem rewrite (h : Placed s (node (p, i) ref pre kind ch) p i) (ref' : RlpNode) {cells : Cells}
    (hallows : ∀ l, ch l ≠ empty → kind'.allows l)
    (hc : ∀ l, cells.cell l = if l = i then
      some (kind'.node pre' fun l ↦ (ch l).pointer?) else cellAt s (p, l)) :
    Step s (node (p, i) ref pre kind ch) (s.setCells p cells)
      (node (p, i) ref' pre' kind' ch) [] := by
  have hself : Function.update ch 0 (ch 0) = ch := Function.update_eq_self 0 ch
  have hstep : Step s (node (p, i) ref pre kind ch) (s.setCells p cells)
      (node (p, i) ref' pre' kind' (Function.update ch 0 (ch 0))) [] :=
    h.step_write (.refl h.ready (h.holds.child 0)) (h.holds.linked 0) (by rwa [hself])
      (by rwa [hself])
  rwa [hself] at hstep

end

end Placed

section
variable [AlloyTrie]

/-- The flags of a node with its own reference. -/
theorem flag_fresh (s : State Cells) (c : Loc) (pre : Nibbles) (kind : Kind)
    (ch : Fin 16 → Trie Loc) : flag s (fresh c pre kind ch) =
      fresh (decide (c.2 = 0) && old s c.1) pre kind fun k ↦ flag s (ch k) := by
  simp [flag, fresh, Trie.map]

/-- A new leaf on a page of this snapshot. -/
theorem step_insert {t : Trie Loc} (h : Placed s t p i) {k : Nat} {path : Nibbles} {e : Entry}
    {cells : Cells} (hfree : cellAt s (p, k) = none)
    (hc : ∀ l, cells.cell l = if l = k then
      some ((Kind.leaf e).node path fun _ ↦ none) else cellAt s (p, l)) :
    k ≠ 0 ∧ Step s empty (s.setCells p cells) (leaf (p, k) path e) [] := by
  have hk0 : k ≠ 0 := fun h0 ↦ h.first (h0 ▸ hfree)
  have he : Evolves s [] (s.setCells p cells) [(p, k)] := by
    refine evolves_setCells h.ready h.current (by simpa using h.live) (by simpa using hfree)
      fun l _ hl ↦ ?_
    rw [hc, if_neg]
    rintro rfl
    exact hl hfree
  refine ⟨hk0, .node ?_ (by simpa using h.live) (by simpa using h.current)
    (fun l hl ↦ absurd rfl hl) (fun _ ↦ linked_empty p) (fun _ ↦ List.not_mem_nil)
    (fun _ _ _ ↦ List.disjoint_nil_left _) fun _ ↦ .empty, ?_, cleaner_setCells cells, fun _ ↦ ?_,
    fun _ ↦ ?_⟩
  · simp [hc, pointer?]
  · exact he
  · refine balance_setCells fun q ↦ ?_
    show List.count (q, 0) [(p, k)] = 0
    simp [hk0]
  · show Clears s [] (s.setCells p cells) [(p, k)]
    refine clears_setCells (by simpa using h.live.1) (fun q hq ↦ ?_) (by simp) fun j hj hm ↦ ?_
    · exact absurd (Prod.mk.inj (List.mem_singleton.mp hq)).2.symm hk0
    · rw [hc, if_neg fun he ↦ hm (by simp [he])] at hj
      exact ⟨hj, List.not_mem_nil⟩

end

end TrieDb.Layout

import Mathlib.Data.List.Nodup
import Mathlib.Logic.Relation
import TrieDb.Layout.Located
import TrieDb.Trie.Exec

/-!
# How a write operation changes the file

A write operation works on the cells of the trie it was called for, on unused cells of their pages
and on pages that were vacant: past the end of the file or old enough orphans. Everything else that
is in use stays as it is, and pages from before the transaction are never written. The pages that
are in use, orphaned, or lost balance.
-/

namespace TrieDb.Layout

open Meta Base Engine Trie

/-- The node in a cell. -/
def cellAt (s : State Cells) (c : Loc) : Option Node :=
  (s.engine.pageManager.pages c.1).contents.cell c.2

/-- The snapshot id of a page. -/
def stamp (s : State Cells) (q : Nat) : Option Nat :=
  (s.engine.pageManager.pages q).state.snapshotId

/-- The page does not belong to the snapshot that is written. -/
def old (s : State Cells) (q : Nat) : Bool := stamp s q ≠ some s.context.snapshotId

/-- A page is not old exactly when it has the stamp of this transaction. -/
theorem old_eq_false {s : State Cells} {q : Nat} :
    old s q = false ↔ stamp s q = some s.context.snapshotId := by
  rw [old, decide_eq_false_iff_not, not_not]

/-- The orphan list. -/
def orphans (s : State Cells) : List OrphanPage := s.engine.metaManager.orphanPages

/-- The page may be handed out by an allocation. -/
def Vacant (s : State Cells) (q : Nat) : Prop :=
  (∃ o ∈ orphans s, o.orphanedAt ≤ s.engine.aliveSnapshot ∧ o.pageId = q) ∨
    s.engine.pageManager.pageCount < q

/-- Allocations hand out every page once: pages orphaned now are not recycled, and those that may
be recycled are pages of the file, listed once. -/
structure Ready (s : State Cells) : Prop where
  range : s.engine.metaManager.RangeWF
  alive : s.engine.aliveSnapshot < s.context.snapshotId
  nodup : (((orphans s).filter fun o ↦ o.orphanedAt ≤ s.engine.aliveSnapshot).map
    OrphanPage.pageId).Nodup
  below : ∀ o ∈ orphans s, o.orphanedAt ≤ s.engine.aliveSnapshot →
    o.pageId ≤ s.engine.pageManager.pageCount

/-- What a write does to the orphan list, step by step. -/
def ListStep (alive snapshotId : Nat) (m m' : MetadataManager) : Prop :=
  (∃ o, m.pop alive = (o, m')) ∨ ∃ id, m.push ⟨id, snapshotId⟩ = some m'

/-- An operation that owns the cells `R` and leaves the cells `R'`. -/
structure Evolves (s : State Cells) (R : List Loc) (s' : State Cells) (R' : List Loc) : Prop where
  ready : Ready s'
  vacant : ∀ q, Vacant s' q → Vacant s q
  owned : ∀ c ∈ R', ¬ Vacant s' c.1 ∧ stamp s' c.1 ≠ none
  new : ∀ c ∈ R', c ∈ R ∨ Vacant s c.1 ∨ cellAt s c = none
  frame : ∀ c, ¬ Vacant s c.1 → c ∉ R → cellAt s c ≠ none → cellAt s' c = cellAt s c
  stamps : ∀ q, ¬ Vacant s q → stamp s' q = stamp s q
  kept : ∀ q, ¬ Vacant s q → old s q = true →
    (s'.engine.pageManager.pages q).contents = (s.engine.pageManager.pages q).contents
  context : s'.context = { s.context with pageCount := s'.context.pageCount }
  alive : s'.engine.aliveSnapshot = s.engine.aliveSnapshot
  list : Relation.ReflTransGen (ListStep s.engine.aliveSnapshot s.context.snapshotId)
    s.engine.metaManager s'.engine.metaManager
  count : s.engine.pageManager.pageCount ≤ s'.engine.pageManager.pageCount

namespace Evolves

variable {s s₁ s' : State Cells} {R R₁ R' F : List Loc}

/-- The transaction stays the same. -/
theorem snapshotId (h : Evolves s R s' R') : s'.context.snapshotId = s.context.snapshotId := by
  rw [h.context]

/-- A page in use stays as old as it was. -/
theorem old_eq (h : Evolves s R s' R') {q : Nat} (hq : ¬ Vacant s q) : old s' q = old s q := by
  simp only [old, h.stamps q hq, h.snapshotId]

/-- Nothing happens. -/
theorem refl (hs : Ready s) (hR : ∀ c ∈ R, ¬ Vacant s c.1 ∧ stamp s c.1 ≠ none) :
    Evolves s R s R where
  ready := hs
  vacant _ h := h
  owned := hR
  new _ h := .inl h
  frame _ _ _ _ := rfl
  stamps _ _ := rfl
  kept _ _ _ := rfl
  context := rfl
  alive := rfl
  list := .refl
  count := Nat.le_refl _

/-- One operation after the other. -/
theorem trans (h : Evolves s R s₁ R₁) (h' : Evolves s₁ R₁ s' R') : Evolves s R s' R' where
  ready := h'.ready
  vacant q hq := h.vacant q (h'.vacant q hq)
  owned := h'.owned
  new c hc := by
    rcases h'.new c hc with hc | hc | hc
    · exact h.new c hc
    · exact .inr (.inl (h.vacant _ hc))
    · by_cases hR : c ∈ R
      · exact .inl hR
      · by_cases hv : Vacant s c.1
        · exact .inr (.inl hv)
        · by_cases hn : cellAt s c = none
          · exact .inr (.inr hn)
          · exact absurd (h.frame c hv hR hn ▸ hc) hn
  frame c hv hR hn := by
    have hR₁ : c ∉ R₁ := by
      intro hc
      rcases h.new c hc with hc | hc | hc
      · exact hR hc
      · exact hv hc
      · exact hn hc
    have heq := h.frame c hv hR hn
    rw [h'.frame c (fun hv' ↦ hv (h.vacant _ hv')) hR₁ (heq ▸ hn), heq]
  stamps q hq := by rw [h'.stamps q (fun hv ↦ hq (h.vacant q hv)), h.stamps q hq]
  kept q hq ho := by
    rw [h'.kept q (fun hv ↦ hq (h.vacant q hv)) (by rw [h.old_eq hq, ho]), h.kept q hq ho]
  context := by rw [h'.context, h.context]
  alive := by rw [h'.alive, h.alive]
  list := by
    have hl := h'.list
    rw [h.alive, h.snapshotId] at hl
    exact h.list.trans hl
  count := h.count.trans h'.count

/-- An operation may own more than it needs. -/
theorem frame_right (h : Evolves s R s' R') (hF : ∀ c ∈ F, ¬ Vacant s c.1 ∧ stamp s c.1 ≠ none) :
    Evolves s (R ++ F) s' (R' ++ F) :=
  { h with
    owned := by
      intro c hc
      rcases List.mem_append.mp hc with hc | hc
      · exact h.owned c hc
      · refine ⟨fun hv ↦ (hF c hc).1 (h.vacant _ hv), ?_⟩
        rw [h.stamps _ (hF c hc).1]
        exact (hF c hc).2
    new := by
      intro c hc
      rcases List.mem_append.mp hc with hc | hc
      · rcases h.new c hc with hc | hc
        · exact .inl (List.mem_append_left _ hc)
        · exact .inr hc
      · exact .inl (List.mem_append_right _ hc)
    frame := fun c hv hR ↦ h.frame c hv fun hc ↦ hR (List.mem_append_left _ hc) }

/-- Only the owned cells matter, not their order. -/
theorem congr {S S' : List Loc} (h : Evolves s R s' R') (hR : ∀ c, c ∈ R → c ∈ S)
    (hR' : ∀ c, c ∈ S' → c ∈ R') : Evolves s S s' S' :=
  { h with
    owned := fun c hc ↦ h.owned c (hR' c hc)
    new := fun c hc ↦ (h.new c (hR' c hc)).imp (hR c) id
    frame := fun c hv hS ↦ h.frame c hv fun hc ↦ hS (hR c hc) }

end Evolves

/-! ### Tries in the file -/

/-- Below a page from before the transaction there are only such pages. -/
def OldBelow (s : State Cells) : Trie Loc → Prop
  | empty => True
  | node c _ _ _ ch =>
    (old s c.1 = true → ∀ i, ∀ d ∈ (ch i).tags, old s d.1 = true) ∧ ∀ i, OldBelow s (ch i)

/-- The file holds the trie, in cells and pages of its own. -/
structure Holds (s : State Cells) (t : Trie Loc) : Prop where
  stored : t.Stored (cellAt s)
  nodup : t.tags.Nodup
  live : ∀ c ∈ t.tags, ¬ Vacant s c.1 ∧ stamp s c.1 ≠ none
  mono : OldBelow s t

/-- The tags that the write recursion sees: whether a node is the root of an old page. -/
def flag (s : State Cells) (t : Trie Loc) : Trie Bool := t.map fun c ↦ decide (c.2 = 0) && old s c.1

/-- The flag of a node is set on the first cell of an old page. -/
theorem flag_node (s : State Cells) (c : Loc) (ref : RlpNode) (pre : Nibbles) (kind : Kind)
    (ch : Fin 16 → Trie Loc) : flag s (node c ref pre kind ch) =
      node (decide (c.2 = 0) && old s c.1) ref pre kind fun i ↦ flag s (ch i) := rfl

namespace Holds

variable {s s' : State Cells} {t t' : Trie Loc} {R R' : List Loc}

/-- The empty trie is held by every state. -/
protected theorem empty : Holds s empty :=
  ⟨trivial, List.nodup_nil, fun _ h ↦ (List.not_mem_nil h).elim, trivial⟩

section
variable {c : Loc} {ref : RlpNode} {pre : Nibbles} {kind : Kind} {ch : Fin 16 → Trie Loc}

/-- A held trie's children are held. -/
theorem child (h : Holds s (node c ref pre kind ch)) (i : Fin 16) : Holds s (ch i) :=
  ⟨(h.stored.2.2 i).2, (nodup_tags_node.mp h.nodup).2.1 i,
    fun d hd ↦ h.live d (mem_tags_node.mpr (.inr ⟨i, hd⟩)), h.mono.2 i⟩

/-- The cell of a held trie's root. -/
theorem cell (h : Holds s (node c ref pre kind ch)) :
    cellAt s c = some (kind.node pre fun i ↦ (ch i).pointer?) := h.stored.1

/-- The children are linked to the page of the root. -/
theorem linked (h : Holds s (node c ref pre kind ch)) (i : Fin 16) : (ch i).Linked c.1 :=
  (h.stored.2.2 i).1

/-- A child is where its kind of node allows one. -/
theorem allows (h : Holds s (node c ref pre kind ch)) (i : Fin 16) (hi : ch i ≠ empty) :
    kind.allows i := h.stored.2.1 i hi

/-- The root's cell is not one of its children's. -/
theorem root_not_mem (h : Holds s (node c ref pre kind ch)) (i : Fin 16) : c ∉ (ch i).tags :=
  (nodup_tags_node.mp h.nodup).1 i

/-- Two children have no cell in common. -/
theorem disjoint (h : Holds s (node c ref pre kind ch)) {i j : Fin 16} (hij : i ≠ j) :
    (ch i).tags.Disjoint (ch j).tags := (nodup_tags_node.mp h.nodup).2.2 i j hij

/-- The root's page is in use. -/
theorem root_live (h : Holds s (node c ref pre kind ch)) : ¬ Vacant s c.1 ∧ stamp s c.1 ≠ none :=
  h.live c (mem_tags_node.mpr (.inl rfl))

/-- A node on a page of this snapshot, from its children. -/
protected theorem node (hc : cellAt s c = some (kind.node pre fun i ↦ (ch i).pointer?))
    (hlive : ¬ Vacant s c.1 ∧ stamp s c.1 ≠ none) (hold : old s c.1 = false)
    (hallows : ∀ i, ch i ≠ Trie.empty → kind.allows i) (hlink : ∀ i, (ch i).Linked c.1)
    (hroot : ∀ i, c ∉ (ch i).tags) (hdisj : ∀ i j, i ≠ j → (ch i).tags.Disjoint (ch j).tags)
    (h : ∀ i, Holds s (ch i)) : Holds s (.node c ref pre kind ch) where
  stored := ⟨hc, hallows, fun i ↦ ⟨hlink i, (h i).stored⟩⟩
  nodup := nodup_tags_node.mpr ⟨hroot, fun i ↦ (h i).nodup, hdisj⟩
  live d hd := by
    rcases mem_tags_node.mp hd with rfl | ⟨i, hi⟩
    · exact hlive
    · exact (h i).live d hi
  mono := ⟨fun ho ↦ absurd ho (by simp [hold]), fun i ↦ (h i).mono⟩

end

/-- The cells of a trie are in use. -/
theorem cell_ne_none (h : Holds s t) {c : Loc} (hc : c ∈ t.tags) : cellAt s c ≠ none :=
  h.stored.cell_ne_none hc

/-- Another trie stays separate. -/
private theorem disjoint_of_evolves (h : Holds s t) (he : Evolves s R s' R')
    (hd : t.tags.Disjoint R) : t.tags.Disjoint R' := by
  intro c hc hc'
  rcases he.new c hc' with hR | hv | hn
  · exact hd hc hR
  · exact (h.live c hc).1 hv
  · exact h.cell_ne_none hc hn

/-- Whether the pages below are old depends on the pages only. -/
theorem oldBelow_congr (h : ∀ c ∈ t.tags, old s' c.1 = old s c.1) (hm : OldBelow s t) :
    OldBelow s' t := by
  induction t with
  | empty => trivial
  | node c ref pre kind ch ih =>
    refine ⟨fun ho i d hd ↦ ?_, fun i ↦ ih i (fun d hd ↦ ?_) (hm.2 i)⟩
    · rw [h d (mem_tags_node.mpr (.inr ⟨i, hd⟩))]
      rw [h c (mem_tags_node.mpr (.inl rfl))] at ho
      exact hm.1 ho i d hd
    · exact h d (mem_tags_node.mpr (.inr ⟨i, hd⟩))

/-- Another trie is still held. -/
theorem evolves (h : Holds s t) (he : Evolves s R s' R') (hd : t.tags.Disjoint R) :
    Holds s' t where
  stored := h.stored.congr fun c hc ↦
    he.frame c (h.live c hc).1 (fun hR ↦ hd hc hR) (h.cell_ne_none hc)
  nodup := h.nodup
  live c hc := by
    refine ⟨fun hv ↦ (h.live c hc).1 (he.vacant _ hv), ?_⟩
    rw [he.stamps _ (h.live c hc).1]
    exact (h.live c hc).2
  mono := oldBelow_congr (fun c hc ↦ he.old_eq (h.live c hc).1) h.mono

/-- A trie of old pages is still held, whatever was owned. -/
theorem evolves_of_old (h : Holds s t) (he : Evolves s R s' R')
    (ho : ∀ c ∈ t.tags, old s c.1 = true) : Holds s' t where
  stored := h.stored.congr fun c hc ↦ by
    simp only [cellAt, he.kept c.1 (h.live c hc).1 (ho c hc)]
  nodup := h.nodup
  live c hc := by
    refine ⟨fun hv ↦ (h.live c hc).1 (he.vacant _ hv), ?_⟩
    rw [he.stamps _ (h.live c hc).1]
    exact (h.live c hc).2
  mono := oldBelow_congr (fun c hc ↦ he.old_eq (h.live c hc).1) h.mono

/-- Maps of a trie are equal if they agree on its tags. -/
theorem map_congr {β : Type} {f g : Loc → β} (h : ∀ c ∈ t.tags, f c = g c) :
    t.map f = t.map g := by
  induction t with
  | empty => rfl
  | node c ref pre kind ch ih =>
    simp only [Trie.map, h c (mem_tags_node.mpr (.inl rfl))]
    congr 1
    funext i
    exact ih i fun d hd ↦ h d (mem_tags_node.mpr (.inr ⟨i, hd⟩))

/-- The recursion sees the same of a trie that is not touched. -/
theorem flag_eq (h : Holds s t) (he : Evolves s R s' R') : flag s' t = flag s t :=
  map_congr fun c hc ↦ by rw [he.old_eq (h.live c hc).1]

end Holds

/-- The cell of a node and the tries of its children, whatever the cell holds. -/
structure HeldBelow (s : State Cells) (c : Loc) (ch : Fin 16 → Trie Loc) : Prop where
  live : ¬ Vacant s c.1 ∧ stamp s c.1 ≠ none
  inUse : cellAt s c ≠ none
  children : ∀ i, Holds s (ch i)
  apart : ∀ i, c ∉ (ch i).tags
  disjoint : ∀ i j, i ≠ j → (ch i).tags.Disjoint (ch j).tags

namespace HeldBelow

variable {s s' : State Cells} {c : Loc} {ref : RlpNode} {pre : Nibbles} {kind : Kind}
  {ch : Fin 16 → Trie Loc}

/-- What is held below the root of a held trie. -/
theorem of_holds (h : Holds s (node c ref pre kind ch)) : HeldBelow s c ch where
  live := h.root_live
  inUse := h.cell_ne_none (mem_tags_node.mpr (.inl rfl))
  children := h.child
  apart := h.root_not_mem
  disjoint _ _ := h.disjoint

/-- A root whose cell fits holds the trie together. -/
theorem holds (h : HeldBelow s c ch)
    (hc : cellAt s c = some (kind.node pre fun i ↦ (ch i).pointer?)) (hold : old s c.1 = false)
    (hallows : ∀ i, ch i ≠ empty → kind.allows i) (hlink : ∀ i, (ch i).Linked c.1) :
    Holds s (node c ref pre kind ch) :=
  .node hc h.live hold hallows hlink h.apart h.disjoint h.children

/-- All pages of the trie are in use. -/
theorem owned (h : HeldBelow s c ch) :
    ∀ d ∈ (node c ref pre kind ch).tags, ¬ Vacant s d.1 ∧ stamp s d.1 ≠ none := by
  intro d hd
  rcases mem_tags_node.mp hd with rfl | ⟨i, hi⟩
  · exact h.live
  · exact (h.children i).live d hi

variable {i : Fin 16} {t : Trie Loc}

/-- An operation on one of the children leaves the others and the cell alone. -/
theorem replace (h : HeldBelow s c ch) (he : Evolves s (ch i).tags s' t.tags) (ht : Holds s' t) :
    HeldBelow s' c (Function.update ch i t) ∧ cellAt s' c = cellAt s c := by
  have hcell : cellAt s' c = cellAt s c := he.frame c h.live.1 (h.apart i) h.inUse
  have hct : c ∉ t.tags := by
    intro hc
    rcases he.new c hc with hc | hc | hc
    · exact h.apart i hc
    · exact h.live.1 hc
    · exact h.inUse hc
  have hdisj (j : Fin 16) (hj : j ≠ i) : (ch j).tags.Disjoint t.tags :=
    (h.children j).disjoint_of_evolves he (h.disjoint j i hj)
  refine ⟨⟨⟨fun hv ↦ h.live.1 (he.vacant _ hv), ?_⟩, ?_, fun j ↦ ?_, fun j ↦ ?_, fun j k hjk ↦ ?_⟩,
    hcell⟩
  · rw [he.stamps _ h.live.1]
    exact h.live.2
  · rw [hcell]
    exact h.inUse
  · by_cases hj : j = i
    · rw [hj, Function.update_self]
      exact ht
    · rw [Function.update_of_ne hj]
      exact (h.children j).evolves he (h.disjoint j i hj)
  · by_cases hj : j = i
    · rw [hj, Function.update_self]
      exact hct
    · rw [Function.update_of_ne hj]
      exact h.apart j
  · by_cases hj : j = i
    · have hk : k ≠ i := fun hk ↦ hjk (hj.trans hk.symm)
      rw [hj, Function.update_self, Function.update_of_ne hk]
      exact (hdisj k hk).symm
    · rw [Function.update_of_ne hj]
      by_cases hk : k = i
      · rw [hk, Function.update_self]
        exact hdisj j hj
      · rw [Function.update_of_ne hk]
        exact h.disjoint j k hjk

/-- An operation on one of the children as an operation on the whole node. -/
theorem evolves (h : HeldBelow s c ch) (he : Evolves s (ch i).tags s' t.tags)
    {ref' : RlpNode} {pre' : Nibbles} {kind' : Kind} :
    Evolves s (node c ref pre kind ch).tags s'
      (node c ref' pre' kind' (Function.update ch i t)).tags := by
  have hF : ∀ d ∈ (node c ref pre kind ch).tags, ¬ Vacant s d.1 ∧ stamp s d.1 ≠ none := h.owned
  refine (he.frame_right hF).congr (fun d hd ↦ ?_) (fun d hd ↦ ?_)
  · rcases List.mem_append.mp hd with hd | hd
    · exact mem_tags_node.mpr (.inr ⟨i, hd⟩)
    · exact hd
  · rw [List.mem_append]
    rcases mem_tags_node.mp hd with rfl | ⟨j, hj⟩
    · exact .inr (mem_tags_node.mpr (.inl rfl))
    · by_cases hji : j = i
      · rw [hji, Function.update_self] at hj
        exact .inl hj
      · rw [Function.update_of_ne hji] at hj
        exact .inr (mem_tags_node.mpr (.inr ⟨j, hj⟩))

end HeldBelow

/-! ### Balance -/

/-- How often a page is listed as an orphan. -/
def orphanCount (s : State Cells) (q : Nat) : Nat := ((orphans s).map OrphanPage.pageId).count q

/-- Whether a page was added to the file between two states. -/
def added (s s' : State Cells) (q : Nat) : Nat :=
  if s.engine.pageManager.pageCount < q ∧ q ≤ s'.engine.pageManager.pageCount then 1 else 0

/-- Pages that are no longer the root of a subtrie are orphaned or lost, and pages that become the
root of one were orphans or are new. -/
def Balance (s : State Cells) (R : List Loc) (s' : State Cells) (R' : List Loc) : Prop :=
  ∀ q, orphanCount s' q + R'.count (q, 0) + s'.strayPages.count q =
    orphanCount s q + R.count (q, 0) + s.strayPages.count q + added s s' q

namespace Balance

variable {s s₁ s' : State Cells} {R R₁ R' : List Loc}

/-- An operation that orphans, recycles and adds no page. -/
theorem of_same (ho : orphans s' = orphans s)
    (hp : s'.engine.pageManager.pageCount = s.engine.pageManager.pageCount)
    (hs : s'.strayPages = s.strayPages) (hR : ∀ q, R'.count (q, 0) = R.count (q, 0)) :
    Balance s R s' R' := by
  intro q
  have : added s s' q = 0 := if_neg (by omega)
  rw [orphanCount, ho, hs, hR q, this, orphanCount]
  omega

/-- Nothing is listed or lost where nothing happens. -/
theorem refl : Balance s R s R := of_same rfl rfl rfl fun _ ↦ rfl

/-- One balance after the other. -/
theorem trans (h : Balance s R s₁ R₁) (h' : Balance s₁ R₁ s' R')
    (hc : s.engine.pageManager.pageCount ≤ s₁.engine.pageManager.pageCount)
    (hc' : s₁.engine.pageManager.pageCount ≤ s'.engine.pageManager.pageCount) :
    Balance s R s' R' := by
  intro q
  have hq := h q
  have hq' := h' q
  have : added s s' q = added s s₁ q + added s₁ s' q := by
    simp only [added]
    split <;> split <;> split <;> omega
  omega

/-- Cells that are owned throughout do not matter. -/
private theorem congr {S S' : List Loc} (h : Balance s R s' R')
    (hc : ∀ q, S'.count (q, 0) + R.count (q, 0) = S.count (q, 0) + R'.count (q, 0)) :
    Balance s S s' S' := by
  intro q
  have := h q
  have := hc q
  omega

/-- Balance of an operation on one of the children. -/
theorem replace {c : Loc} {ref ref' : RlpNode} {pre pre' : Nibbles} {kind kind' : Kind}
    {ch : Fin 16 → Trie Loc} {i : Fin 16} {t : Trie Loc} (h : Balance s (ch i).tags s' t.tags) :
    Balance s (node c ref pre kind ch).tags s'
      (node c ref' pre' kind' (Function.update ch i t)).tags :=
  h.congr fun q ↦ count_tags_update (q, 0) ch i t

end Balance

/-! ### Leaks -/

/-- No cell leaks: on a page whose first cell is owned, every cell in use is. -/
def Full (s : State Cells) (R : List Loc) : Prop :=
  ∀ c, cellAt s c ≠ none → (c.1, 0) ∈ R → c ∈ R

/-- What an operation leaves behind was not owned before, or is on a page that was given up. -/
structure Clears (s : State Cells) (R : List Loc) (s' : State Cells) (R' : List Loc) : Prop where
  roots : ∀ q, (q, 0) ∈ R' → (q, 0) ∈ R ∨ Vacant s q
  cells : ∀ c, cellAt s' c ≠ none → c ∉ R' → (¬ Vacant s c.1 ∧ cellAt s c ≠ none ∧ c ∉ R) ∨
    (c.1, 0) ∉ R' ∧ ((c.1, 0) ∈ R ∨ Vacant s c.1)

namespace Clears

variable {s s₁ s' : State Cells} {R R₁ R' : List Loc}

/-- No cell leaks afterwards. -/
theorem full (h : Clears s R s' R') (hR : Full s R) : Full s' R' := by
  intro c hc hroot
  by_contra hmem
  rcases h.cells c hc hmem with ⟨hv, hn, hcR⟩ | ⟨hno, -⟩
  · rcases h.roots c.1 hroot with hr | hr
    · exact hcR (hR c hn hr)
    · exact hv hr
  · exact hno hroot

/-- The cells in use stay in use, or do not. -/
theorem of_cells (hR : ∀ c ∈ R, ¬ Vacant s c.1)
    (h : ∀ c, cellAt s' c ≠ none → c ∉ R → cellAt s c ≠ none) : Clears s R s' R where
  roots _ hq := .inl hq
  cells c hc hmem := by
    by_cases hv : Vacant s c.1
    · exact .inr ⟨fun hr ↦ hR _ hr hv, .inr hv⟩
    · exact .inl ⟨hv, h c hc hmem, hmem⟩

/-- One clearing after the other. -/
theorem trans (h : Clears s R s₁ R₁) (h' : Clears s₁ R₁ s' R')
    (hv : ∀ q, Vacant s₁ q → Vacant s q) : Clears s R s' R' where
  roots q hq := by
    rcases h'.roots q hq with hr | hr
    · exact h.roots q hr
    · exact .inr (hv q hr)
  cells c hc hmem := by
    rcases h'.cells c hc hmem with ⟨hv₁, hn₁, hR₁⟩ | ⟨hno, hr⟩
    · rcases h.cells c hn₁ hR₁ with hA | ⟨hno, hr⟩
      · exact .inl hA
      · refine .inr ⟨fun hm ↦ ?_, hr⟩
        rcases h'.roots c.1 hm with hr' | hr'
        · exact hno hr'
        · exact hv₁ hr'
    · refine .inr ⟨hno, ?_⟩
      rcases hr with hr | hr
      · exact h.roots c.1 hr
      · exact .inr (hv c.1 hr)

/-- Cells on other pages may be owned throughout. -/
private theorem frame {S S' : List Loc} {F : Loc → Prop} (h : Clears s R s' R')
    (hS : ∀ c, c ∈ S ↔ c ∈ R ∨ F c) (hS' : ∀ c, c ∈ S' ↔ c ∈ R' ∨ F c)
    (hF : ∀ c, F c → ¬ Vacant s c.1 ∧ (c.1, 0) ∉ R) : Clears s S s' S' where
  roots q hq := by
    rcases (hS' _).mp hq with hr | hr
    · rcases h.roots q hr with hr | hr
      · exact .inl ((hS _).mpr (.inl hr))
      · exact .inr hr
    · exact .inl ((hS _).mpr (.inr hr))
  cells c hc hmem := by
    rw [hS', not_or] at hmem
    rcases h.cells c hc hmem.1 with ⟨hv, hn, hR⟩ | ⟨hno, hr⟩
    · refine .inl ⟨hv, hn, fun hm ↦ ?_⟩
      rcases (hS c).mp hm with hm | hm
      · exact hR hm
      · exact hmem.2 hm
    · refine .inr ⟨fun hm ↦ ?_, hr.imp (fun hm ↦ (hS _).mpr (.inl hm)) id⟩
      rcases (hS' _).mp hm with hm | hm
      · exact hno hm
      · obtain ⟨hlive, hno'⟩ := hF _ hm
        rcases hr with hr | hr
        · exact hno' hr
        · exact hlive hr

end Clears

/-- A part that has its pages for itself does not leak either. -/
private theorem Full.part {s : State Cells} {R S : List Loc} {F : Loc → Prop} (h : Full s S)
    (hS : ∀ c, c ∈ S ↔ c ∈ R ∨ F c) (hF : ∀ c, F c → (c.1, 0) ∉ R) : Full s R := by
  intro c hc hroot
  rcases (hS c).mp (h c hc ((hS _).mpr (.inl hroot))) with hm | hm
  · exact hm
  · exact absurd hroot (hF c hm)

namespace HeldBelow

variable {s s' : State Cells} {p i : Nat} {ref ref' : RlpNode} {pre pre' : Nibbles}
  {kind kind' : Kind} {ch : Fin 16 → Trie Loc} {k : Fin 16} {t : Trie Loc}

/-- The pages below one child are not those of the node or of another child. -/
private theorem separate (h : HeldBelow s (p, i) ch) (hlink : ∀ j, (ch j).Linked p)
    (hfirst : ∀ j, (p, 0) ∉ (ch j).tags) {d : Loc}
    (hd : d = (p, i) ∨ ∃ j, j ≠ k ∧ d ∈ (ch j).tags) :
    ¬ Vacant s d.1 ∧ (d.1, 0) ∉ (ch k).tags := by
  rcases hd with rfl | ⟨j, hj, hd⟩
  · exact ⟨h.live.1, hfirst k⟩
  · refine ⟨((h.children j).live d hd).1, fun hm ↦ ?_⟩
    rcases (h.children j).stored.root_mem (hlink j) hd with hp | hr
    · rw [hp] at hm
      exact hfirst k hm
    · exact h.disjoint j k hj hr hm

/-- The cells of a trie with one child replaced. -/
theorem mem_tags_update {d : Loc} :
    d ∈ (node (p, i) ref pre kind (Function.update ch k t)).tags ↔
      d ∈ t.tags ∨ (d = (p, i) ∨ ∃ j, j ≠ k ∧ d ∈ (ch j).tags) := by
  rw [mem_tags_node]
  constructor
  · rintro (hd | ⟨j, hj⟩)
    · exact .inr (.inl hd)
    · by_cases hjk : j = k
      · rw [hjk, Function.update_self] at hj
        exact .inl hj
      · rw [Function.update_of_ne hjk] at hj
        exact .inr (.inr ⟨j, hjk, hj⟩)
  · rintro (hd | hd | ⟨j, hjk, hj⟩)
    · exact .inr ⟨k, by rwa [Function.update_self]⟩
    · exact .inl hd
    · exact .inr ⟨j, by rwa [Function.update_of_ne hjk]⟩

/-- An operation on one of the children leaves nothing behind on the pages of the node. -/
theorem clears (h : HeldBelow s (p, i) ch) (hlink : ∀ j, (ch j).Linked p)
    (hfirst : ∀ j, (p, 0) ∉ (ch j).tags)
    (hc : Full s (ch k).tags → Clears s (ch k).tags s' t.tags)
    (hs : Full s (node (p, i) ref pre kind ch).tags) :
    Clears s (node (p, i) ref pre kind ch).tags s'
      (node (p, i) ref' pre' kind' (Function.update ch k t)).tags := by
  have hS (c : Loc) : c ∈ (node (p, i) ref pre kind ch).tags ↔
      c ∈ (ch k).tags ∨ (c = (p, i) ∨ ∃ j, j ≠ k ∧ c ∈ (ch j).tags) := by
    rw [← @mem_tags_update p i ref pre kind ch k (ch k) c, Function.update_eq_self]
  have hpart : Full s (ch k).tags :=
    hs.part hS fun c hc ↦ (h.separate hlink hfirst hc).2
  exact (hc hpart).frame hS (fun _ ↦ mem_tags_update) fun c hc ↦ h.separate hlink hfirst hc

end HeldBelow

/-- The page of the file is held as `PageMut`. -/
def dirty (s : State Cells) (q : Nat) : Bool :=
  decide (q ≤ s.engine.pageManager.pageCount) && (s.engine.pageManager.pages q).state.isDirty

/-- No page is left dirty that was not. -/
def Cleaner (s s' : State Cells) : Prop := ∀ q, dirty s' q = true → dirty s q = true

/-- A whole operation on a trie: the pages balance, unless a copy was dropped. -/
structure Step (s : State Cells) (t : Trie Loc) (s' : State Cells) (t' : Trie Loc)
    (m : List Mishap) : Prop where
  holds : Holds s' t'
  evolves : Evolves s t.tags s' t'.tags
  cleaner : Cleaner s s'
  balance : Mishap.abandoned ∉ m → Balance s t.tags s' t'.tags
  clears : Full s t.tags → Clears s t.tags s' t'.tags

/-- The step in which nothing happens. -/
theorem Step.refl {s : State Cells} {t : Trie Loc} (hs : Ready s) (h : Holds s t) :
    Step s t s t [] :=
  ⟨h, .refl hs h.live, fun _ ↦ id, fun _ ↦ .refl,
    fun _ ↦ .of_cells (fun c hc ↦ (h.live c hc).1) fun _ hc _ ↦ hc⟩

/-- One step after the other. -/
theorem Step.trans {s s₁ s' : State Cells} {t t₁ t' : Trie Loc} {m m' : List Mishap}
    (h : Step s t s₁ t₁ m) (h' : Step s₁ t₁ s' t' m') : Step s t s' t' (m ++ m') where
  holds := h'.holds
  evolves := h.evolves.trans h'.evolves
  cleaner q hq := h.cleaner q (h'.cleaner q hq)
  balance hm := by
    rw [List.mem_append, not_or] at hm
    exact (h.balance hm.1).trans (h'.balance hm.2) h.evolves.count h'.evolves.count
  clears hs :=
    (h.clears hs).trans (h'.clears ((h.clears hs).full hs)) h.evolves.vacant

end TrieDb.Layout

import Mathlib.Algebra.BigOperators.Fin
import TrieDb.Trie.Basic

/-!
# Tries in pages

A trie whose nodes are tagged with the page and the cell that hold them, and what it means that
the cells of a file hold it. A child is on the page of its parent or in the first cell of a page of
its own.
-/

namespace TrieDb

open Engine

/-- A page and a cell. -/
abbrev Loc := Nat × Nat

namespace Trie

section
variable {α : Type}

/-- A tag is that of the root or of a child. -/
theorem mem_tags_node {tag : α} {ref : RlpNode} {pre : Nibbles} {kind : Kind}
    {ch : Fin 16 → Trie α} {c : α} :
    c ∈ (node tag ref pre kind ch).tags ↔ c = tag ∨ ∃ i, c ∈ (ch i).tags := by
  simp [tags]

/-- The empty trie has no tags. -/
@[simp] theorem tags_empty : (empty : Trie α).tags = [] := rfl

/-- No tag occurs twice if the root's and the children's are apart. -/
theorem nodup_tags_node {tag : α} {ref : RlpNode} {pre : Nibbles} {kind : Kind}
    {ch : Fin 16 → Trie α} :
    (node tag ref pre kind ch).tags.Nodup ↔
      (∀ i, tag ∉ (ch i).tags) ∧ (∀ i, (ch i).tags.Nodup) ∧
        ∀ i j, i ≠ j → (ch i).tags.Disjoint (ch j).tags := by
  simp only [tags, List.nodup_cons, List.mem_flatMap, List.mem_finRange, true_and, not_exists,
    List.nodup_flatMap, forall_const]
  refine and_congr_right fun _ ↦ and_congr_right fun _ ↦ ?_
  refine ⟨fun h i j hij ↦ ?_, fun h ↦ ?_⟩
  · have hsymm : Std.Symm (Function.onFun List.Disjoint fun i ↦ (ch i).tags) :=
      ⟨fun _ _ hd ↦ List.Disjoint.symm hd⟩
    exact h.forall (List.mem_finRange i) (List.mem_finRange j) hij
  · exact (List.nodup_finRange 16).imp fun {i j} hij ↦ h i j hij

/-- Replacing one child. -/
theorem count_tags_update [BEq α] (c : α) {tag : α} {ref ref' : RlpNode}
    {pre pre' : Nibbles} {kind kind' : Kind} (ch : Fin 16 → Trie α) (i : Fin 16) (t : Trie α) :
    (node tag ref pre kind (Function.update ch i t)).tags.count c + (ch i).tags.count c =
      (node tag ref' pre' kind' ch).tags.count c + t.tags.count c := by
  have hsum (f : Fin 16 → Trie α) : ((List.finRange 16).flatMap fun i ↦ (f i).tags).count c =
      ∑ i, (f i).tags.count c := by
    rw [List.count_flatMap, Fin.sum_univ_def]
    rfl
  simp only [tags, List.count_cons, hsum]
  rw [← Finset.add_sum_erase Finset.univ (fun j ↦ (ch j).tags.count c) (Finset.mem_univ i),
    ← Finset.add_sum_erase Finset.univ (fun j ↦ (Function.update ch i t j).tags.count c)
      (Finset.mem_univ i), Function.update_self]
  have hrest : ∑ j ∈ Finset.univ.erase i, (Function.update ch i t j).tags.count c =
      ∑ j ∈ Finset.univ.erase i, (ch j).tags.count c := by
    refine Finset.sum_congr rfl fun j hj ↦ ?_
    rw [Function.update_of_ne (Finset.ne_of_mem_erase hj)]
  omega

/-- The reference is not among the tags. -/
@[simp] theorem tags_withRef (ref : RlpNode) (t : Trie α) : (t.withRef ref).tags = t.tags := by
  cases t <;> rfl

end

/-- The pointer a parent has to the trie. -/
def pointer? : Trie Loc → Option Pointer
  | empty => none
  | node c ref _ _ _ => some ⟨nodeLocation c.1 c.2, ref⟩

/-- The root can be pointed to from a page. -/
def Linked (p : Nat) (t : Trie Loc) : Prop := ∀ c, t.tag? = some c → c.2 ≠ 0 → c.1 = p

/-- The cells hold the trie. -/
def Stored (cellAt : Loc → Option Node) : Trie Loc → Prop
  | empty => True
  | node c _ pre kind ch =>
    cellAt c = some (kind.node pre fun i ↦ (ch i).pointer?) ∧
      (∀ i, ch i ≠ empty → kind.allows i) ∧ ∀ i, (ch i).Linked c.1 ∧ (ch i).Stored cellAt

/-- The empty trie is linked to every page. -/
@[simp] theorem linked_empty (p : Nat) : (empty : Trie Loc).Linked p := by
  intro c hc
  cases hc

/-- A pointer has the reference of the trie. -/
@[simp] theorem pointer?_map_rlp (t : Trie Loc) : t.pointer?.map Pointer.rlp = t.ref? := by
  cases t <;> rfl

/-- Only the empty trie has no pointer. -/
@[simp] theorem pointer?_eq_none {t : Trie Loc} : t.pointer? = none ↔ t = empty := by
  cases t <;> simp [pointer?]

/-- The pointer is determined by the location and the reference. -/
theorem pointer?_congr {t t' : Trie Loc} (ht : t'.tag? = t.tag?) (hr : t'.ref? = t.ref?) :
    t'.pointer? = t.pointer? := by
  cases t <;> cases t' <;> simp_all [tag?, ref?, pointer?]

/-- Only the cells of the trie matter. -/
theorem Stored.congr {f g : Loc → Option Node} {t : Trie Loc} (h : t.Stored f)
    (hfg : ∀ c ∈ t.tags, g c = f c) : t.Stored g := by
  induction t with
  | empty => trivial
  | node c ref pre kind ch ih =>
    obtain ⟨hc, ha, hch⟩ := h
    refine ⟨?_, ha, fun i ↦ ⟨(hch i).1, ih i (hch i).2 fun d hd ↦ ?_⟩⟩
    · rw [hfg c (mem_tags_node.mpr (.inl rfl)), hc]
    · exact hfg d (mem_tags_node.mpr (.inr ⟨i, hd⟩))

/-- The cells of a stored trie are in use. -/
theorem Stored.cell_ne_none {f : Loc → Option Node} {t : Trie Loc} (h : t.Stored f) {c : Loc}
    (hc : c ∈ t.tags) : f c ≠ none := by
  induction t with
  | empty => cases hc
  | node d ref pre kind ch ih =>
    rcases mem_tags_node.mp hc with rfl | ⟨i, hi⟩
    · rw [h.1]
      exact Option.some_ne_none _
    · exact ih i (h.2.2 i).2 hi

/-- The nodes of a page are below its first cell, unless they are on the page above. -/
theorem Stored.root_mem {f : Loc → Option Node} {t : Trie Loc} {p : Nat} (h : t.Stored f)
    (hl : t.Linked p) {d : Loc} (hd : d ∈ t.tags) : d.1 = p ∨ (d.1, 0) ∈ t.tags := by
  induction t generalizing p with
  | empty => cases hd
  | node c ref pre kind ch ih =>
    have hroot : c.1 = p ∨ (c.1, 0) ∈ (node c ref pre kind ch).tags := by
      by_cases h0 : c.2 = 0
      · exact .inr (mem_tags_node.mpr (.inl (Prod.ext rfl h0.symm)))
      · exact .inl (hl c rfl h0)
    rcases mem_tags_node.mp hd with rfl | ⟨i, hi⟩
    · exact hroot
    · rcases ih i (h.2.2 i).2 (h.2.2 i).1 hi with he | hm
      · rw [he]
        exact hroot
      · exact .inr (mem_tags_node.mpr (.inr ⟨i, hm⟩))

/-- The first cell of every page of a trie belongs to the trie. -/
theorem Stored.root_mem_of_first {f : Loc → Option Node} {t : Trie Loc} {p : Nat}
    (h : t.Stored f) (ht : t.tag? = some (p, 0)) {d : Loc} (hd : d ∈ t.tags) :
    (d.1, 0) ∈ t.tags := by
  have hl : t.Linked p := by
    intro c hc hc0
    rw [ht] at hc
    cases hc
    exact absurd rfl hc0
  rcases h.root_mem hl hd with hp | hm
  · cases t with
    | empty => cases ht
    | node c ref pre kind ch =>
      cases ht
      exact mem_tags_node.mpr (.inl (by rw [hp]))
  · exact hm

end Trie

end TrieDb

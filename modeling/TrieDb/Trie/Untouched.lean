import TrieDb.Trie.Applied

/-!
# What a batch does not touch

A path that no change of a batch stores or deletes keeps its value, for every batch that fits the
trie: also for one with equal paths, and when the recursion stalled.
-/

namespace TrieDb

open Engine (Change Changes)
open Trie

section
variable {pre q r : Nibbles} {cs : Changes} {c : Change}

/-- No change of the batch decides what is stored at the path. -/
def Untouched (cs : Changes) (q : Nibbles) : Prop := ∀ c ∈ cs, ¬ Touches c q

namespace Untouched

private theorem mono {ds : Changes} (h : Untouched cs q) (hs : ∀ c ∈ ds, c ∈ cs) : Untouched ds q :=
  fun c hc ↦ h c (hs c hc)

private theorem of_cons (h : Untouched (c :: cs) q) : Untouched cs q :=
  h.mono fun _ ↦ List.mem_cons_of_mem c

private theorem of_under (h : Untouched (under pre cs) (pre ++ r)) : Untouched cs r := by
  intro c hc ht
  refine h (pre ++ c.1, c.2) (mem_under.mpr ⟨c, hc, rfl⟩) ?_
  obtain heq | ⟨hnone, hp⟩ := ht
  · exact .inl (congrArg (pre ++ ·) heq)
  · exact .inr ⟨hnone, (List.prefix_append_right_inj pre).mpr hp⟩

private theorem of_regroup {g : Fin 16 → Changes} {i : Fin 16}
    (h : Untouched (regroup pre g) (pre ++ i :: r)) : Untouched (g i) r := by
  have happ : pre ++ i :: r = (pre ++ [i]) ++ r := by simp
  rw [happ] at h
  exact of_under (h.mono fun c hc ↦ List.mem_flatMap.mpr ⟨i, List.mem_finRange i, hc⟩)

end Untouched

end

section
variable {q : Nibbles}

/-- Another storage trie that has the same below an untouched path. -/
private theorem lookup_withStorage {ref ref' : RlpNode} {pre : Nibbles} {info : AccountInfo}
    {ch : Fin 16 → Trie Bool} {st : Trie Bool}
    (h : ∀ i r, q = pre ++ i :: r → st.lookup (i :: r) = (ch 0).lookup (i :: r)) :
    (node false ref' pre (.leaf (.account info)) (Function.update ch 0 st)).lookup q =
      (node false ref pre (.leaf (.account info)) ch).lookup q := by
  rcases path_cases pre q with hq | rfl | ⟨i, r, rfl⟩
  · rw [lookup_outside hq, lookup_outside hq]
  · rw [lookup_leaf_self, lookup_leaf_self]
  · rw [lookup_account_append, lookup_account_append, Function.update_self]
    exact h i r rfl

/-- A branch whose children have the same below an untouched path. -/
private theorem lookup_withChildren {ref ref' : RlpNode} {pre : Nibbles}
    {ch ch' : Fin 16 → Trie Bool}
    (h : ∀ i r, q = pre ++ i :: r → (ch' i).lookup r = (ch i).lookup r) :
    (node false ref' pre .branch ch').lookup q = (node false ref pre .branch ch).lookup q := by
  by_cases hq : ∃ i r, q = pre ++ i :: r
  · obtain ⟨i, r, rfl⟩ := hq
    rw [lookup_branch_append, lookup_branch_append]
    exact h i r rfl
  · rw [lookup_branch fun i r he ↦ hq ⟨i, r, he⟩, lookup_branch fun i r he ↦ hq ⟨i, r, he⟩]

end

variable [AlloyTrie] {l : Level} {n : Nat} {q : Nibbles}

/-- A new leaf has nothing at another path. -/
private theorem lookup_leaf_untouched {path : Nibbles} {v : TrieValue} {cs : Changes}
    (hc : (path, some v) ∈ cs)
    (hq : Untouched cs q) : (leaf false path v.entry).lookup q = none := by
  have hne : q ≠ path := by
    rintro rfl
    exact hq _ hc (.inl rfl)
  rw [lookup_leaf, Function.update_of_ne hne]

/-- The first slot of an account is all that is new. -/
private theorem lookup_firstSlot_untouched {ref ref' : RlpNode} {pre path : Nibbles}
    {info : AccountInfo} {ch : Fin 16 → Trie Bool} {v : TrieValue} {cs : Changes}
    (hch : ch 0 = empty)
    (hq : Untouched ((pre ++ path, some v) :: cs) q) :
    (node false ref' pre (.leaf (.account info))
      (Function.update ch 0 (leaf false path v.entry))).lookup q =
      (node false ref pre (.leaf (.account info)) ch).lookup q := by
  apply lookup_withStorage
  rintro i r rfl
  have hsub (c : Change) (hc : c ∈ under pre [(path, some v)]) :
      c ∈ (pre ++ path, some v) :: cs := by
    obtain ⟨d, hd, rfl⟩ := mem_under.mp hc
    rw [List.mem_singleton.mp hd]
    exact List.mem_cons_self
  have hleaf : Untouched [(path, some v)] (i :: r) := (hq.mono hsub).of_under
  rw [lookup_leaf_untouched List.mem_cons_self hleaf, hch, lookup_empty]

omit [AlloyTrie] in
/-- A leaf with another value has the same at another path. -/
private theorem lookup_leaf_update_untouched {ref ref' : RlpNode} {pre : Nibbles} {e : Entry}
    {ch : Fin 16 → Trie Bool} {v : TrieValue} {cs : Changes}
    (ht : (node false ref pre (.leaf e) ch).Rough l n) (hcs : Fits l n ((pre, some v) :: cs))
    (hq : Untouched ((pre, some v) :: cs) q) :
    (node false ref' pre (.leaf v.entry) ch).lookup q =
      (node false ref pre (.leaf e) ch).lookup q := by
  rw [lookup_leaf_update ht (hcs.value List.mem_cons_self),
    Entries.apply_of_not_touches (hq _ List.mem_cons_self)]

/-- The recursion keeps what its batch does not touch. -/
private theorem Exec.lookup_untouched {mode : Mode} {t t' : Trie Bool} {cs : Changes} {o : Out}
    {m : List Mishap} (h : Exec mode t cs o t' m) (ht : t.Rough l n) (hcs : Fits l n cs)
    (hq : Untouched cs q) : t'.lookup q = t.lookup q := by
  induction h generalizing l n q with
  | nil => rfl
  | skipFirst _ _ ih => exact ih ht hcs.of_cons hq.of_cons
  | skipLast _ _ ih =>
    exact ih ht (hcs.mono fun c ↦ List.mem_append_left _) (hq.mono fun c ↦ List.mem_append_left _)
  | aboveStop => rfl
  | above _ hl _ _ _ _ ih =>
    rw [ih (ht.above hl) hcs hq, lookup_above]
  | delete =>
    have hp : ¬ _ <+: q := fun hp ↦ hq _ List.mem_cons_self (.inr ⟨rfl, hp⟩)
    rw [lookup_outside hp, lookup_empty]
  | same _ _ ih => exact ih ht hcs.of_cons hq.of_cons
  | setStop => rfl
  | setNone _ hch _ ih =>
    rw [lookup_withRef, ih ⟨hcs.value List.mem_cons_self, hch, ht.2.2⟩ hcs.of_cons hq.of_cons]
    exact lookup_leaf_update_untouched ht hcs hq
  | setMore _ hch _ _ _ _ ih =>
    rw [ih ⟨hcs.value List.mem_cons_self, hch, ht.2.2⟩ hcs.of_cons hq.of_cons]
    exact lookup_leaf_update_untouched ht hcs hq
  | storage _ hcs' _ _ _ ih =>
    obtain ⟨rfl, hn⟩ := ht.1
    apply lookup_withStorage
    rintro i r rfl
    exact ih (ht.2.2 0) (hcs.storage hn hcs') hq.of_under
  | storageKeep _ hcs' _ _ _ _ ih =>
    obtain ⟨rfl, hn⟩ := ht.1
    apply lookup_withStorage
    rintro i r rfl
    exact ih (ht.2.2 0) (hcs.storage hn hcs') hq.of_under
  | firstSkip _ _ _ ih => exact ih ht hcs.of_cons hq.of_cons
  | firstStop => rfl
  | firstOnly _ hch => exact lookup_firstSlot_untouched hch hq
  | firstMore hp hch _ _ _ ih =>
    rw [ih (ht.withStorage (rough_leaf_new (hcs.firstSlot ht.1 hp))) hcs.of_cons hq.of_cons]
    exact lookup_firstSlot_untouched hch hq
  | @branch ref pre _ _ _ ch' _ _ _ _ ih =>
    have hclean : (cleanup false pre ch').2.lookup = (node false ref pre .branch ch').lookup :=
      lookup_cleanup
    rw [hclean]
    apply lookup_withChildren
    rintro i r rfl
    exact ih i (ht.2 i) (hcs.of_regroup ht.1 i) hq.of_regroup
  | @branchStop _ _ _ _ _ _ _ i₀ _ _ _ _ hch ih =>
    apply lookup_withChildren
    rintro i r rfl
    rcases le_or_gt i i₀ with hi | hi
    · exact ih i hi (ht.2 i) (hcs.of_regroup ht.1 i) hq.of_regroup
    · rw [(hch i hi).1]
  | slotNil => rfl
  | slotChild _ _ _ ih => exact ih ht hcs hq
  | slotSkip => rfl
  | slotStop => rfl
  | slotLeaf => exact lookup_leaf_untouched (by simp) hq
  | slotMore _ _ _ ih =>
    rw [ih (rough_leaf_new (hcs.value (by simp))) (hcs.mono (by simp +contextual))
      (hq.mono (by simp +contextual))]
    exact lookup_leaf_untouched (by simp) hq
  | childLocal _ ih => exact ih ht hcs hq
  | childPage _ _ ih => rw [ih (rough_withTag.mpr ht) hcs hq, lookup_withTag]
  | childAbandon => rfl
  | pageDone _ _ ih => exact ih ht hcs hq
  | pageRetry h _ ih ih' =>
    rw [ih' (h.rough ht hcs) (hcs.mono fun c ↦ List.mem_of_mem_drop)
      (hq.mono fun c ↦ List.mem_of_mem_drop), ih ht hcs hq]

/-- A whole batch keeps what it does not touch. -/
theorem Applied.lookup_untouched {t t' : Trie Bool} {cs : Changes} {m : List Mishap}
    (h : Applied t cs t' m) (ht : t.Rough l n) (hcs : Fits l n cs) (hq : Untouched cs q) :
    t'.lookup q = t.lookup q := by
  cases h with
  | first => exact lookup_leaf_untouched List.mem_cons_self hq
  | firstMore _ h _ =>
    rw [h.lookup_untouched (rough_leaf_new (hcs.value List.mem_cons_self)) hcs.of_cons hq.of_cons]
    exact lookup_leaf_untouched List.mem_cons_self hq
  | root _ h _ => exact h.lookup_untouched ht hcs hq

end TrieDb

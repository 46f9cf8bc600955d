import TrieDb.Trie.Update

/-!
# Depths of leaves

Accounts end 64 nibbles before the end of a full path and slots at its end, whatever the batches
were. The recursion keeps this between any two of its steps.
-/

namespace TrieDb

open Engine (Change Changes)

/-- The trie of all accounts, or the trie of the slots of one. -/
inductive Level where
  | accounts
  | slots
  deriving DecidableEq

/-- The length of a path to an entry, when `n` nibbles are left to the end of a slot. -/
def Level.Admits (l : Level) (n length : Nat) : Entry → Prop
  | .account _ => l = .accounts ∧ length + 64 = n
  | .slot _ => length = n

/-- Changes whose paths have the length of their value, or of any value for a delete. -/
def Fits (l : Level) (n : Nat) (cs : Changes) : Prop :=
  ∀ c ∈ cs, ∃ e, l.Admits n c.1.length e ∧ ∀ v, c.2 = some v → v.entry = e

namespace Trie

/-- All leaves end where they should. -/
def Rough {α : Type} : Trie α → Level → Nat → Prop
  | empty => fun _ _ ↦ True
  | node _ _ pre (.leaf e) ch => fun l n ↦ l.Admits n pre.length e ∧
    (∀ i, ch i ≠ empty → (Kind.leaf e).allows i) ∧ ∀ i, (ch i).Rough .slots 64
  | node _ _ pre .branch ch => fun l n ↦ pre.length < n ∧
    ∀ i, (ch i).Rough l (n - pre.length - 1)

end Trie

open Trie

section
variable {α : Type} {tag tag' : α} {ref ref' : RlpNode} {pre path : Nibbles} {kind : Kind}
  {e : Entry}
  {ch : Fin 16 → Trie α} {t : Trie α} {l : Level} {n : Nat} {c : Change} {cs ds : Changes}
  {g : Fin 16 → Changes} {v : TrieValue}

/-! ### Lengths of paths -/

/-- Accounts and slots have paths of different lengths. -/
theorem Level.Admits.isAccount {e e' : Entry} {length : Nat} (h : l.Admits n length e)
    (h' : l.Admits n length e') : (∃ a a', e = .account a ∧ e' = .account a') ∨
      ∃ v v', e = .slot v ∧ e' = .slot v' := by
  cases e with
  | account a =>
    cases e' with
    | account a' => exact .inl ⟨a, a', rfl, rfl⟩
    | slot v' =>
      simp only [Admits] at h h'
      omega
  | slot v =>
    cases e' with
    | account a' =>
      simp only [Admits] at h h'
      omega
    | slot v' => exact .inr ⟨v, v', rfl, rfl⟩

namespace Fits

/-- Fewer changes fit as well. -/
theorem mono (h : Fits l n cs) (hs : ∀ c ∈ ds, c ∈ cs) : Fits l n ds := fun c hc ↦ h c (hs c hc)

/-- The other changes fit as well. -/
theorem of_cons (h : Fits l n (c :: cs)) : Fits l n cs := h.mono fun _ ↦ List.mem_cons_of_mem c

/-- A value is admitted at the end of its path. -/
theorem value (h : Fits l n cs) (hc : (path, some v) ∈ cs) : l.Admits n path.length v.entry := by
  obtain ⟨e, he, hv⟩ := h _ hc
  rw [hv v rfl]
  exact he

private theorem of_under {m : Nat} (h : Fits l n (under pre cs)) (hn : n = pre.length + m) :
    Fits l m cs := by
  intro c hc
  obtain ⟨e, he, hv⟩ := h _ (mem_under.mpr ⟨c, hc, rfl⟩)
  refine ⟨e, ?_, hv⟩
  cases e with
  | account a =>
    simp only [Level.Admits, List.length_append] at he ⊢
    exact ⟨he.1, by omega⟩
  | slot v =>
    simp only [Level.Admits, List.length_append] at he ⊢
    omega

/-- The changes for a child of a branch. -/
theorem of_regroup (h : Fits l n (regroup pre g)) (hn : pre.length < n) (i : Fin 16) :
    Fits l (n - pre.length - 1) (g i) := by
  have hu : Fits l n (under (pre ++ [i]) (g i)) := by
    apply h.mono
    intro c hc
    obtain ⟨d, hd, rfl⟩ := mem_under.mp hc
    exact mem_regroup.mpr ⟨i, d, hd, by simp⟩
  apply hu.of_under
  simp only [List.length_append, List.length_singleton]
  omega

/-- The slots of an account. -/
theorem storage (h : Fits .accounts n (under pre cs)) (hn : pre.length + 64 = n)
    (hcs : ∀ c ∈ cs, c.1 ≠ []) : Fits .slots 64 cs := by
  intro c hc
  obtain ⟨e, he, hv⟩ := h _ (mem_under.mpr ⟨c, hc, rfl⟩)
  refine ⟨e, ?_, hv⟩
  have hpos := List.length_pos_iff.mpr (hcs c hc)
  cases e with
  | account a =>
    simp only [Level.Admits, List.length_append] at he
    omega
  | slot v =>
    simp only [Level.Admits, List.length_append] at he ⊢
    omega

/-- A change below an account is one of a slot. -/
theorem firstSlot {info : AccountInfo} (h : Fits l n ((pre ++ path, some v) :: cs))
    (he : l.Admits n pre.length (.account info)) (hp : path ≠ []) :
    Level.slots.Admits 64 path.length v.entry := by
  obtain ⟨rfl, hn⟩ := he
  have hone : Fits .accounts n (under pre [(path, some v)]) := by
    apply h.mono
    simp [under]
  exact (hone.storage hn (by simpa using hp)).value (by simp)

end Fits

/-! ### Rearranged nodes -/

namespace Trie

/-- The depths below a branch. -/
theorem rough_branch : (node tag ref pre .branch ch).Rough l n ↔
    pre.length < n ∧ ∀ i, (ch i).Rough l (n - pre.length - 1) := Iff.rfl

/-- The depths at and below a leaf. -/
theorem rough_leaf : (node tag ref pre (.leaf e) ch).Rough l n ↔ l.Admits n pre.length e ∧
    (∀ i, ch i ≠ empty → (Kind.leaf e).allows i) ∧ ∀ i, (ch i).Rough .slots 64 := Iff.rfl

/-- The tag and the reference of the root do not matter. -/
private theorem Rough.congr (h : (node tag ref pre kind ch).Rough l n) :
    (node tag' ref' pre kind ch).Rough l n := by
  cases kind <;> exact h

/-- The tag does not matter. -/
@[simp] theorem rough_withTag : (t.withTag tag).Rough l n ↔ t.Rough l n := by
  cases t with
  | empty => exact Iff.rfl
  | node tag' ref pre kind ch => exact ⟨Rough.congr, Rough.congr⟩

/-- The reference does not matter. -/
@[simp] theorem rough_withRef : (t.withRef ref).Rough l n ↔ t.Rough l n := by
  cases t with
  | empty => exact Iff.rfl
  | node tag' ref pre kind ch => exact ⟨Rough.congr, Rough.congr⟩

/-- Cutting a prefix off a node. -/
private theorem Rough.cut (h : (node tag ref (path ++ pre) kind ch).Rough l n) :
    path.length ≤ n ∧ (node tag' ref' pre kind ch).Rough l (n - path.length) := by
  cases kind with
  | leaf e =>
    obtain ⟨he, hch⟩ := h
    cases e with
    | account a =>
      simp only [Level.Admits, List.length_append] at he
      refine ⟨by omega, ⟨he.1, by omega⟩, hch⟩
    | slot v =>
      simp only [Level.Admits, List.length_append] at he
      refine ⟨by omega, ?_, hch⟩
      simp only [Level.Admits]
      omega
  | branch =>
    obtain ⟨hlt, hch⟩ := h
    rw [List.length_append] at hlt
    refine ⟨by omega, by omega, fun i ↦ ?_⟩
    have hn : n - path.length - pre.length - 1 = n - (path ++ pre).length - 1 := by
      rw [List.length_append]
      omega
    rw [hn]
    exact hch i

/-- Putting a prefix before a node. -/
private theorem Rough.extend {m : Nat} (h : (node tag ref pre kind ch).Rough l m)
    (hn : n = path.length + m) : (node tag' ref' (path ++ pre) kind ch).Rough l n := by
  subst hn
  cases kind with
  | leaf e =>
    obtain ⟨he, hch⟩ := h
    refine ⟨?_, hch⟩
    cases e with
    | account a =>
      simp only [Level.Admits, List.length_append] at he ⊢
      exact ⟨he.1, by omega⟩
    | slot v =>
      simp only [Level.Admits, List.length_append] at he ⊢
      omega
  | branch =>
    obtain ⟨hlt, hch⟩ := h
    rw [rough_branch, List.length_append]
    refine ⟨by omega, fun i ↦ ?_⟩
    have hm : path.length + m - (path.length + pre.length) - 1 = m - pre.length - 1 := by omega
    rw [hm]
    exact hch i

/-- Another storage trie for an account. -/
theorem Rough.withStorage {info : AccountInfo} {st : Trie α}
    (h : (node tag ref pre (.leaf (.account info)) ch).Rough l n) (hst : st.Rough .slots 64) :
    (node tag' ref' pre (.leaf (.account info)) (Function.update ch 0 st)).Rough l n := by
  obtain ⟨he, hall, hch⟩ := h
  refine ⟨he, fun i hi ↦ ?_, fun i ↦ ?_⟩
  · by_cases h0 : i = 0
    · simp [Kind.allows, h0]
    · rw [Function.update_of_ne h0] at hi
      exact hall i hi
  · by_cases h0 : i = 0
    · rw [h0, Function.update_self]
      exact hst
    · rw [Function.update_of_ne h0]
      exact hch i

variable [AlloyTrie]

/-- A new leaf at its depth. -/
theorem rough_leaf_new (h : l.Admits n path.length e) : (leaf tag path e).Rough l n :=
  ⟨h, fun _ hne ↦ absurd rfl hne, fun _ ↦ trivial⟩

/-- A branch put above keeps the depths. -/
theorem Rough.above {length : Nat} (h : (node tag ref pre kind ch).Rough l n)
    (hl : length < pre.length) : (above tag' length (node tag ref pre kind ch)).Rough l n := by
  obtain ⟨i, rest, hdrop⟩ := List.exists_cons_of_ne_nil
    (show pre.drop length ≠ [] by simpa using hl)
  simp only [Trie.above, hdrop]
  have hpre : pre = (pre.take length ++ [i]) ++ rest := by
    rw [List.append_assoc, List.singleton_append, ← hdrop, List.take_append_drop]
  rw [hpre] at h
  have hlen : (pre.take length).length = length := List.length_take_of_le hl.le
  obtain ⟨hle, hcut⟩ := h.cut
  rw [List.length_append, hlen, List.length_singleton] at hle hcut
  rw [rough_branch, hlen]
  refine ⟨by omega, fun j ↦ ?_⟩
  by_cases hj : j = i
  · subst hj
    rw [Function.update_self, Nat.sub_sub]
    exact hcut
  · rw [Function.update_of_ne hj]
    trivial

private theorem Rough.lift {m : Nat} (h : t.Rough l m) (hn : n = path.length + m) :
    (lift tag path t).Rough l n := by
  cases t with
  | empty => trivial
  | node tag' ref pre kind ch => exact h.extend hn

private theorem Rough.cleanup (hn : pre.length < n) (h : ∀ i, (ch i).Rough l (n - pre.length - 1)) :
    (cleanup tag pre ch).2.Rough l n := by
  unfold Trie.cleanup
  split
  · trivial
  · next i _ =>
    apply (h i).lift
    rw [List.length_append, List.length_singleton]
    omega
  · exact ⟨hn, h⟩

end Trie

/-! ### The recursion -/

end

variable [AlloyTrie]

/-- The recursion keeps the leaves where they are. -/
theorem Exec.rough {mode : Mode} {t t' : Trie Bool} {cs : Changes} {o : Out} {m : List Mishap}
    {l : Level} {n : Nat} (h : Exec mode t cs o t' m) (ht : t.Rough l n) (hcs : Fits l n cs) :
    t'.Rough l n := by
  induction h generalizing l n with
  | nil => exact ht
  | skipFirst _ _ ih => exact ih ht hcs.of_cons
  | skipLast _ _ ih => exact ih ht (hcs.mono fun c ↦ List.mem_append_left _)
  | aboveStop => exact ht
  | above _ hl _ _ _ _ ih => exact ih (ht.above hl) hcs
  | delete => trivial
  | same _ _ ih => exact ih ht hcs.of_cons
  | setStop => exact ht
  | setNone _ hch _ ih =>
    rw [rough_withRef]
    exact ih ⟨hcs.value List.mem_cons_self, hch, ht.2.2⟩ hcs.of_cons
  | setMore _ hch _ _ _ _ ih =>
    exact ih ⟨hcs.value List.mem_cons_self, hch, ht.2.2⟩ hcs.of_cons
  | storage _ hcs' _ _ _ ih =>
    obtain ⟨rfl, hn⟩ := ht.1
    exact ht.withStorage (ih (ht.2.2 0) (hcs.storage hn hcs'))
  | storageKeep _ hcs' _ _ _ _ ih =>
    obtain ⟨rfl, hn⟩ := ht.1
    exact ht.withStorage (ih (ht.2.2 0) (hcs.storage hn hcs'))
  | firstSkip _ _ _ ih => exact ih ht hcs.of_cons
  | firstStop => exact ht
  | firstOnly hp _ =>
    exact ht.withStorage (rough_leaf_new (hcs.firstSlot ht.1 hp))
  | firstMore hp _ _ _ _ ih =>
    exact ih (ht.withStorage (rough_leaf_new (hcs.firstSlot ht.1 hp))) hcs.of_cons
  | branch _ _ _ ih =>
    exact Rough.cleanup ht.1 fun i ↦ ih i (ht.2 i) (hcs.of_regroup ht.1 i)
  | @branchStop _ _ _ _ _ _ _ i₀ _ _ _ _ hch ih =>
    refine ⟨ht.1, fun i ↦ ?_⟩
    rcases le_or_gt i i₀ with hi | hi
    · exact ih i hi (ht.2 i) (hcs.of_regroup ht.1 i)
    · rw [(hch i hi).1]
      exact ht.2 i
  | slotNil => exact ht
  | slotChild _ _ _ ih => exact ih ht hcs
  | slotSkip => trivial
  | slotStop => trivial
  | slotLeaf => exact rough_leaf_new (hcs.value (by simp))
  | slotMore _ _ _ ih =>
    exact ih (rough_leaf_new (hcs.value (by simp))) (hcs.mono (by simp +contextual))
  | childLocal _ ih => exact ih ht hcs
  | childPage _ _ ih => exact ih (rough_withTag.mpr ht) hcs
  | childAbandon => exact ht
  | pageDone _ _ ih => exact ih ht hcs
  | pageRetry _ _ ih ih' => exact ih' (ih ht hcs) (hcs.mono fun c ↦ List.mem_of_mem_drop)

end TrieDb

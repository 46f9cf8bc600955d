import Mathlib.Data.List.Perm.Basic
import TrieDb.Context

/-!
# Transaction manager

`src/transaction/manager.rs`: the single-writer flag and the snapshots of the open transactions.
A writer is listed under the snapshot before its own, the one it reads.
-/

namespace TrieDb

/-- `TransactionManager`. -/
structure TransactionManager where
  hasWriter : Bool
  openTxs : List Nat

namespace TransactionManager

open scoped List

/-- `TransactionManager::new`. -/
def new : TransactionManager := ⟨false, []⟩

/-- `min_snapshot_id`. -/
def minSnapshotId (m : TransactionManager) : Option Nat := m.openTxs.min?

/-- `begin_rw`; `none` is the error of a second writer. -/
def beginRw (m : TransactionManager) (snapshotId : Nat) :
    Option (Nat × TransactionManager) :=
  if m.hasWriter then none
  else
    let m' : TransactionManager := ⟨true, m.openTxs ++ [snapshotId - 1]⟩
    m'.minSnapshotId.map (·, m')

/-- `begin_ro`. -/
def beginRo (m : TransactionManager) (snapshotId : Nat) : TransactionManager :=
  { m with openTxs := m.openTxs ++ [snapshotId] }

/-- `Vec::swap_remove`: put the last element in the place of the removed one. -/
def swapRemove (l : List Nat) (i : Nat) : List Nat :=
  match l.getLast? with
  | some last => (l.set i last).dropLast
  | none => []

/-- `remove_tx`; `none` is the panic on a snapshot that is not open. -/
def removeTx (m : TransactionManager) (snapshotId : Nat) (isWriter : Bool) :
    Option TransactionManager :=
  let snapshotId := if isWriter then snapshotId - 1 else snapshotId
  if snapshotId ∈ m.openTxs then
    some ⟨if isWriter then false else m.hasWriter,
      swapRemove m.openTxs (m.openTxs.idxOf snapshotId)⟩
  else none

/-! ### The open transactions as a multiset -/

private theorem perm_set_of_lt {l : List Nat} {i : Nat} (x : Nat)
    (h : i < l.length) : (l[i] :: l.set i x).Perm (x :: l) := by
  have hl : l = l.take i ++ l[i] :: l.drop (i + 1) := by
    rw [← List.drop_eq_getElem_cons h, List.take_append_drop]
  have hs : l.set i x = l.take i ++ x :: l.drop (i + 1) := by
    rw [List.set_eq_take_append_cons_drop, if_pos h]
  calc l[i] :: l.set i x
      = l[i] :: (l.take i ++ x :: l.drop (i + 1)) := by rw [hs]
    _ ~ l[i] :: x :: (l.take i ++ l.drop (i + 1)) := List.perm_middle.cons _
    _ ~ x :: l[i] :: (l.take i ++ l.drop (i + 1)) := List.Perm.swap _ _ _
    _ ~ x :: (l.take i ++ l[i] :: l.drop (i + 1)) := List.perm_middle.symm.cons _
    _ = x :: l := by rw [← hl]

/-- Removing by swapping takes out exactly the element at the index. -/
private theorem swapRemove_perm {l : List Nat} {i : Nat} (h : i < l.length) :
    (l[i] :: swapRemove l i).Perm l := by
  have hne : l ≠ [] := by
    rintro rfl
    simp at h
  obtain ⟨init, last, hl⟩ := (List.eq_nil_or_concat l).resolve_left hne
  rw [List.concat_eq_append] at hl
  subst hl
  simp only [swapRemove, List.getLast?_append, List.getLast?_singleton, Option.some_or]
  by_cases hi : i < init.length
  · rw [List.set_append_left _ _ hi, List.dropLast_concat, List.getElem_append_left hi]
    exact (perm_set_of_lt last hi).trans (List.perm_append_singleton _ _).symm
  · have hi' : i = init.length := by
      simp only [List.length_append, List.length_singleton] at h
      omega
    subst hi'
    simpa using (List.perm_append_singleton _ _).symm

/-- Removing an open snapshot succeeds and takes out one occurrence. -/
theorem removeTx_of_mem {m : TransactionManager} {snapshotId : Nat} {isWriter : Bool}
    (h : (if isWriter then snapshotId - 1 else snapshotId) ∈ m.openTxs) :
    (m.removeTx snapshotId isWriter).isSome := by
  simp only [removeTx, h, if_true, Option.isSome_some]

/-- What a successful removal does. -/
theorem removeTx_eq_some {m m' : TransactionManager} {snapshotId : Nat} {isWriter : Bool}
    (h : m.removeTx snapshotId isWriter = some m') :
    m'.hasWriter = (!isWriter && m.hasWriter) ∧
      ((if isWriter then snapshotId - 1 else snapshotId) :: m'.openTxs).Perm m.openTxs := by
  simp only [removeTx] at h
  generalize (if isWriter then snapshotId - 1 else snapshotId) = id at h ⊢
  split at h
  · next hmem =>
    cases h
    refine ⟨by cases isWriter <;> rfl, ?_⟩
    have hlt := List.idxOf_lt_length_of_mem hmem
    have hp := swapRemove_perm hlt
    rwa [List.getElem_idxOf hlt] at hp
  · cases h

/-- What a successful `begin_rw` does. -/
theorem beginRw_eq_some {m m' : TransactionManager} {snapshotId low : Nat}
    (h : m.beginRw snapshotId = some (low, m')) :
    m.hasWriter = false ∧ m' = ⟨true, m.openTxs ++ [snapshotId - 1]⟩ ∧
      ∀ s ∈ m'.openTxs, low ≤ s := by
  simp only [beginRw] at h
  split at h
  · cases h
  · next hw =>
    simp only [Option.map_eq_some_iff, Prod.mk.injEq] at h
    obtain ⟨a, ha, rfl, rfl⟩ := h
    exact ⟨by simpa using hw, rfl, (List.min?_eq_some_iff.mp ha).2⟩

/-- The threshold that `begin_rw` returns is the snapshot of an open transaction. -/
theorem mem_of_beginRw {m m' : TransactionManager} {snapshotId low : Nat}
    (h : m.beginRw snapshotId = some (low, m')) : low ∈ m.openTxs ++ [snapshotId - 1] := by
  simp only [beginRw] at h
  split at h
  · cases h
  · simp only [Option.map_eq_some_iff, Prod.mk.injEq] at h
    obtain ⟨a, ha, rfl, rfl⟩ := h
    exact (List.min?_eq_some_iff.mp ha).1

/-- `begin_rw` fails only on a second writer. -/
theorem beginRw_eq_none {m : TransactionManager} {snapshotId : Nat}
    (h : m.beginRw snapshotId = none) : m.hasWriter = true := by
  simp only [beginRw] at h
  split at h
  · assumption
  · simp [minSnapshotId, List.min?_eq_none_iff] at h

end TransactionManager

end TrieDb

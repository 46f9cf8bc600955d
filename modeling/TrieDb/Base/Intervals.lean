import Mathlib.Algebra.BigOperators.Fin
import Mathlib.Data.List.Sort

/-!
# Intervals of natural numbers

Half-open intervals `[lo x, hi x)` of a list of things that are pairwise apart: sorted by their ends
they follow each other, and together they are no longer than the range they lie in.
-/

namespace TrieDb.Base

variable {α : Type*} {lo hi : α → Nat} {xs : List α}

/-- Non-empty intervals that are pairwise apart follow each other once sorted by their ends. -/
theorem pairwise_insertionSort_of_apart (hne : ∀ x ∈ xs, lo x < hi x)
    (hapart : xs.Pairwise fun a b ↦ hi a ≤ lo b ∨ hi b ≤ lo a) :
    (xs.insertionSort fun a b ↦ hi a ≤ hi b).Pairwise fun a b ↦ hi a ≤ lo b := by
  have htotal : Std.Total fun a b : α ↦ hi a ≤ hi b := ⟨fun a b ↦ Nat.le_total _ _⟩
  have htrans : IsTrans α fun a b ↦ hi a ≤ hi b := ⟨fun _ _ _ ↦ Nat.le_trans⟩
  have hperm := List.perm_insertionSort (fun a b : α ↦ hi a ≤ hi b) xs
  have hsorted := List.pairwise_insertionSort (fun a b : α ↦ hi a ≤ hi b) xs
  have happ := (hperm.pairwise_iff fun {_ _} h ↦ Or.symm h).mpr hapart
  apply (hsorted.and happ).imp_of_mem
  intro a b ha hb h
  have h1 := hne a (hperm.mem_iff.mp ha)
  have h2 := hne b (hperm.mem_iff.mp hb)
  omega

/-- Intervals that follow each other between two bounds are together no longer than the range. -/
theorem sum_le_of_pairwise {l h : Nat} (hord : xs.Pairwise fun a b ↦ hi a ≤ lo b)
    (hle : ∀ x ∈ xs, lo x ≤ hi x) (hlo : ∀ x ∈ xs, l ≤ lo x) (hhi : ∀ x ∈ xs, hi x ≤ h)
    (hlh : l ≤ h) : l + (xs.map fun x ↦ hi x - lo x).sum ≤ h := by
  induction xs generalizing l with
  | nil => simpa using hlh
  | cons x xs ih =>
    rw [List.pairwise_cons] at hord
    simp only [List.forall_mem_cons] at hle hlo hhi
    have hrest := ih hord.2 hle.2 hord.1 hhi.2 hhi.1
    rw [List.map_cons, List.sum_cons]
    omega

end TrieDb.Base

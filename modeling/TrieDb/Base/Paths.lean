import Mathlib.Data.Set.Insert
import Mathlib.Logic.Relation

/-!
# Paths in a graph

Rules for a descent through a graph that remembers only the nodes between its start and where it is.
A property of all nodes below a node, and the absence of cycles among them, are each split into a
condition on the node and the same property of its successors.
-/

namespace TrieDb.Base

open Relation

variable {ν : Type} {E : ν → ν → Prop} {P : Set ν} {n r : ν}

/-- `t` is `n` or below it. -/
abbrev Below (E : ν → ν → Prop) (n t : ν) : Prop := ReflTransGen E n t

/-- No node below `n` is on the path `P` or on a cycle. -/
def Uncrossed (E : ν → ν → Prop) (P : Set ν) (n : ν) : Prop :=
  ∀ t, Below E n t → t ∉ P ∧ ¬ TransGen E t t

/-- What holds below a node holds of the node and below each of its successors. -/
theorem forall_below_iff {Q : ν → Prop} :
    (∀ t, Below E n t → Q t) ↔ Q n ∧ ∀ c, E n c → ∀ t, Below E c t → Q t := by
  constructor
  · intro h
    exact ⟨h n .refl, fun c hc t ht ↦ h t (.head hc ht)⟩
  · rintro ⟨hn, hc⟩ t ht
    rcases ht.cases_head with rfl | ⟨c, hnc, hct⟩
    · exact hn
    · exact hc c hnc t hct

/-- A descent that does not cross its path goes on with the node added to the path. -/
theorem uncrossed_iff :
    Uncrossed E P n ↔ n ∉ P ∧ ∀ c, E n c → Uncrossed E (insert n P) c := by
  constructor
  · intro h
    refine ⟨(h n .refl).1, fun c hc t ht ↦ ?_⟩
    obtain ⟨hP, hcycle⟩ := h t (.head hc ht)
    refine ⟨?_, hcycle⟩
    rw [Set.mem_insert_iff]
    rintro (rfl | htP)
    · exact hcycle (.head' hc ht)
    · exact hP htP
  · rintro ⟨hn, hc⟩ t ht
    rcases ht.cases_head with rfl | ⟨c, hnc, hct⟩
    · refine ⟨hn, fun hcycle ↦ ?_⟩
      -- the first step of a cycle through `n` leads to a successor from which `n` is seen again
      obtain ⟨c, hnc, hcn⟩ := TransGen.head'_iff.mp hcycle
      exact (hc c hnc n hcn).1 (Set.mem_insert n P)
    · obtain ⟨hP, hcycle⟩ := hc c hnc t hct
      exact ⟨fun htP ↦ hP (Set.mem_insert_of_mem n htP), hcycle⟩

/-- Without edges to the root and with one parent for each node there are no cycles. -/
theorem not_cycle_of_parent (hroot : ∀ s, Below E r s → ¬ E s r)
    (hparent : ∀ s s' t, Below E r s → Below E r s' → E s t → E s' t → s = s') {t : ν}
    (ht : Below E r t) : ¬ TransGen E t t := by
  induction ht with
  | refl =>
    intro hcycle
    obtain ⟨s, hrs, hsr⟩ := TransGen.tail'_iff.mp hcycle
    exact hroot s hrs hsr
  | @tail s t hs hst ih =>
    intro hcycle
    -- the last step of the cycle comes from the one parent, which is then on a cycle as well
    obtain ⟨s', hts', hs't⟩ := TransGen.tail'_iff.mp hcycle
    obtain rfl : s = s' := hparent s s' t hs ((hs.tail hst).trans hts') hst hs't
    exact ih (.head' hst hts')

end TrieDb.Base

import Mathlib.Data.List.Infix
import Mathlib.Order.Lattice

/-!
# Sequences beside each other

Two sequences of ordered symbols of which neither is a prefix of the other part at some symbol, and
the one with the smaller symbol there is to the left. Lexicographic order is this relation together
with the prefix order; unlike it, the relation stays when both sides are extended.
-/

namespace TrieDb.Base

variable {ι : Type} [LinearOrder ι] {i j : ι} {a b c p x y : List ι}

/-- The sequences part, and the first one goes on with a smaller symbol. -/
def Left : List ι → List ι → Prop
  | x :: a, y :: b => x < y ∨ x = y ∧ Left a b
  | _, _ => False

/-- Nothing is to the right of the empty sequence. -/
@[simp] theorem not_nil_left : ¬ Left [] b := by
  cases b <;> exact id

/-- Nothing is to the left of the empty sequence. -/
@[simp] theorem not_left_nil : ¬ Left a [] := by
  cases a <;> exact id

/-- The first symbols decide unless they are equal. -/
theorem left_cons_cons : Left (i :: a) (j :: b) ↔ i < j ∨ i = j ∧ Left a b := Iff.rfl

/-- Whether a sequence, the other or neither is to the left. -/
theorem left_or_prefix (a b : List ι) : Left a b ∨ Left b a ∨ a <+: b ∨ b <+: a := by
  induction a generalizing b with
  | nil => exact .inr (.inr (.inl List.nil_prefix))
  | cons i a ih =>
    cases b with
    | nil => exact .inr (.inr (.inr List.nil_prefix))
    | cons j b =>
      rcases lt_trichotomy i j with h | rfl | h
      · exact .inl (.inl h)
      · rcases ih b with h | h | h | h
        · exact .inl (.inr ⟨rfl, h⟩)
        · exact .inr (.inl (.inr ⟨rfl, h⟩))
        · exact .inr (.inr (.inl (List.cons_prefix_cons.mpr ⟨rfl, h⟩)))
        · exact .inr (.inr (.inr (List.cons_prefix_cons.mpr ⟨rfl, h⟩)))
      · exact .inr (.inl (.inl h))

namespace Left

/-- What follows does not matter. -/
theorem append (h : Left a b) (x y : List ι) : Left (a ++ x) (b ++ y) := by
  induction a generalizing b with
  | nil => exact absurd h not_nil_left
  | cons i a ih =>
    cases b with
    | nil => exact absurd h not_left_nil
    | cons j b => exact h.imp_right fun h ↦ ⟨h.1, ih h.2⟩

/-- What follows on the left does not matter. -/
theorem append_left (h : Left a b) (x : List ι) : Left (a ++ x) b := by
  simpa using h.append x []

/-- What follows on the right does not matter. -/
theorem append_right (h : Left a b) (y : List ι) : Left a (b ++ y) := by
  simpa using h.append [] y

/-- Sequences are apart as soon as their beginnings are. -/
theorem of_prefix (h : Left a b) (ha : a <+: x) (hb : b <+: y) : Left x y := by
  obtain ⟨a', rfl⟩ := ha
  obtain ⟨b', rfl⟩ := hb
  exact h.append a' b'

/-- No sequence is to the left of itself. -/
theorem irrefl (a : List ι) : ¬ Left a a := by
  induction a with
  | nil => exact not_nil_left
  | cons i a ih =>
    rintro (h | h)
    · exact lt_irrefl i h
    · exact ih h.2

/-- A sequence to the left does not begin the other. -/
theorem not_prefix (h : Left a b) : ¬ a <+: b := by
  rintro ⟨x, rfl⟩
  exact irrefl _ (h.append_left x)

/-- A sequence to the right does not begin the other. -/
theorem not_prefix_symm (h : Left a b) : ¬ b <+: a := by
  rintro ⟨x, rfl⟩
  exact irrefl _ (h.append_right x)

/-- To the left of one that is to the left of another. -/
theorem trans (h : Left a b) (h' : Left b c) : Left a c := by
  induction a generalizing b c with
  | nil => exact absurd h not_nil_left
  | cons i a ih =>
    cases b with
    | nil => exact absurd h not_left_nil
    | cons j b =>
      cases c with
      | nil => exact absurd h' not_left_nil
      | cons k c =>
        rcases h with h | ⟨rfl, h⟩
        · rcases h' with h' | ⟨rfl, -⟩
          · exact .inl (h.trans h')
          · exact .inl h
        · rcases h' with h' | ⟨rfl, h'⟩
          · exact .inl h'
          · exact .inr ⟨rfl, ih h h'⟩

/-- No two sequences are to the left of each other. -/
theorem asymm (h : Left a b) : ¬ Left b a := fun h' ↦ irrefl a (h.trans h')

end Left

end TrieDb.Base

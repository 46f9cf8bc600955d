import Mathlib.Data.List.Infix
import Mathlib.Logic.Function.Basic

/-!
# Commitments to finite maps

The radix trie of a map from sequences to values, folded into one result: a single key is a leaf,
and two or more keys fork after their longest common prefix. The fold has a bound on the number of
forks on a path; any bound that is at least the length of the keys gives the same result. What the
trie of a map looks like depends on the map only.
-/

namespace TrieDb.Base.Patricia

variable {ι V R : Type} {g : List ι → Option V} {p p' k : List ι} {v : V}

/-- All keys extend a prefix, and two of them go on differently. -/
def Forks (g : List ι → Option V) (p : List ι) : Prop :=
  (∀ k, g k ≠ none → p <+: k) ∧
    ∃ i j, i ≠ j ∧ (∃ r, g (p ++ i :: r) ≠ none) ∧ ∃ r, g (p ++ j :: r) ≠ none

/-- The map has no keys but one. -/
def Single (g : List ι → Option V) (k : List ι) (v : V) : Prop :=
  g k = some v ∧ ∀ k', g k' ≠ none → k' = k

open Classical in
/-- The result for a map with at most one key. -/
noncomputable def single (leaf : List ι → V → R) (g : List ι → Option V) : Option R :=
  if h : ∃ kv : List ι × V, g kv.1 = some kv.2 then some (leaf h.choose.1 h.choose.2) else none

open Classical in
/-- The result for a map, with at most `n` forks on each path. -/
noncomputable def commit (leaf : List ι → V → R) (branch : List ι → (ι → Option R) → R) :
    Nat → (List ι → Option V) → Option R
  | 0, g => single leaf g
  | n + 1, g =>
    if h : ∃ p, Forks g p then
      some (branch h.choose fun i ↦ commit leaf branch n fun r ↦ g (h.choose ++ i :: r))
    else single leaf g

/-- Keys fork at one place only. -/
theorem Forks.unique (h : Forks g p) (h' : Forks g p') : p = p' := by
  have hle {p p' : List ι} (h : Forks g p) (h' : Forks g p') : p <+: p' := by
    obtain ⟨i, j, hij, ⟨r, hr⟩, ⟨s, hs⟩⟩ := h'.2
    obtain ⟨x, hx⟩ := h.1 _ hr
    obtain ⟨y, hy⟩ := h.1 _ hs
    rcases List.append_eq_append_iff.mp hx with ⟨a, rfl, -⟩ | ⟨a, hp, ha⟩
    · exact List.prefix_append p a
    · rcases List.append_eq_append_iff.mp hy with ⟨b, rfl, -⟩ | ⟨b, hp', hb⟩
      · exact List.prefix_append p b
      · obtain rfl : a = b := List.append_cancel_left (hp.symm.trans hp')
        cases a with
        | nil =>
          rw [List.append_nil] at hp
          rw [hp]
        | cons z a =>
          rw [List.cons_append] at ha hb
          exact absurd ((List.cons.inj ha).1.trans (List.cons.inj hb).1.symm) hij
  exact (hle h h').eq_of_length (le_antisymm (hle h h').length_le (hle h' h).length_le)

/-- The keys of a single entry do not fork. -/
theorem Single.not_forks (h : Single g k v) : ¬ Forks g p := by
  rintro ⟨-, i, j, hij, ⟨r, hr⟩, ⟨s, hs⟩⟩
  have heq := (h.2 _ hr).trans (h.2 _ hs).symm
  exact hij (List.cons.inj (List.append_cancel_left heq)).1

section
variable (leaf : List ι → V → R) (branch : List ι → (ι → Option R) → R)

/-- A single entry commits to its leaf. -/
theorem single_eq (h : Single g k v) : single leaf g = some (leaf k v) := by
  have hex : ∃ kv : List ι × V, g kv.1 = some kv.2 := ⟨(k, v), h.1⟩
  have hspec := hex.choose_spec
  have hk : hex.choose.1 = k := h.2 _ (by rw [hspec]; exact Option.some_ne_none _)
  have hv : hex.choose.2 = v := by
    rw [hk, h.1] at hspec
    exact (Option.some.inj hspec).symm
  rw [single, dif_pos hex, hk, hv]

/-- The empty map. -/
theorem commit_empty (n : Nat) (h : ∀ k, g k = none) : commit leaf branch n g = none := by
  have hs : single leaf g = none := by
    rw [single, dif_neg]
    rintro ⟨kv, hkv⟩
    rw [h] at hkv
    cases hkv
  cases n with
  | zero => exact hs
  | succ n =>
    rw [commit, dif_neg, hs]
    rintro ⟨p, -, i, -, -, ⟨r, hr⟩, -⟩
    exact hr (h _)

/-- A map with one key. -/
theorem commit_single (n : Nat) (h : Single g k v) :
    commit leaf branch n g = some (leaf k v) := by
  cases n with
  | zero => exact single_eq leaf h
  | succ n =>
    rw [commit, dif_neg, single_eq leaf h]
    rintro ⟨p, hp⟩
    exact h.not_forks hp

/-- A map with several keys. -/
theorem commit_forks (n : Nat) (h : Forks g p) : commit leaf branch (n + 1) g =
    some (branch p fun i ↦ commit leaf branch n fun r ↦ g (p ++ i :: r)) := by
  have hex : ∃ p, Forks g p := ⟨p, h⟩
  have hp : hex.choose = p := hex.choose_spec.unique h
  rw [commit, dif_pos hex, hp]

end

end TrieDb.Base.Patricia

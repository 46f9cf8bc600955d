import Mathlib.Data.List.Basic

/-!
# Binary search

The searches of slices in the standard library: `binary_search_by` returns a place where the
comparison is equal, or the place where such an entry would be, and `partition_point` the number of
entries before the first one that fails a test. Both halve an interval and never look at all
entries, so that they are right only where the entries are in order.
-/

namespace TrieDb.Base

variable {α : Type}

/-- Halve an interval of `size` entries from `base` on, with a bound on the number of rounds. -/
def bisect (cmp : α → Ordering) (l : List α) : Nat → Nat → Nat → Nat
  | 0, base, _ => base
  | rounds + 1, base, size =>
    if size ≤ 1 then base
    else
      let mid := base + size / 2
      bisect cmp l rounds (if l[mid]?.map cmp = some .gt then base else mid) (size - size / 2)

/-- `slice::binary_search_by`: `ok` is a place that was found, `error` a place to insert. -/
def binarySearchBy (cmp : α → Ordering) (l : List α) : Except Nat Nat :=
  let base := bisect cmp l l.length 0 l.length
  match l[base]?.map cmp with
  | none => .error 0
  | some .eq => .ok base
  | some .lt => .error (base + 1)
  | some .gt => .error base

/-- `Result::unwrap_or_else(|i| i)`. -/
def eitherIndex : Except Nat Nat → Nat
  | .ok i => i
  | .error i => i

/-- `slice::partition_point`. -/
def partitionPoint (test : α → Bool) (l : List α) : Nat :=
  eitherIndex (binarySearchBy (fun x ↦ if test x then .lt else .gt) l)

section
variable {cmp : α → Ordering} {a b c : List α}

/-- The search ends at the last entry that is not greater. -/
private theorem bisect_eq {low high : List α} (hlow : ∀ x ∈ low, cmp x ≠ .gt)
    (hhigh : ∀ x ∈ high, cmp x = .gt) {rounds base size : Nat} (hrounds : size ≤ rounds)
    (hsize : 0 < size) (hbase : base = 0 ∨ base < low.length)
    (hupper : low.length ≤ base + size) (hlen : base + size ≤ (low ++ high).length) :
    bisect cmp (low ++ high) rounds base size = low.length - 1 := by
  induction rounds generalizing base size with
  | zero => omega
  | succ rounds ih =>
    unfold bisect
    by_cases hone : size ≤ 1
    · rw [if_pos hone]
      omega
    · have hmid : base + size / 2 < (low ++ high).length := by omega
      rw [if_neg hone]
      dsimp only
      by_cases hlt : base + size / 2 < low.length
      · have hget : (low ++ high)[base + size / 2]? = some low[base + size / 2] := by
          rw [List.getElem?_append_left hlt, List.getElem?_eq_getElem hlt]
        have hle : cmp low[base + size / 2] ≠ .gt := hlow _ (List.getElem_mem hlt)
        rw [if_neg (by rw [hget]; simpa using hle)]
        apply ih <;> omega
      · obtain ⟨x, hx, hmem⟩ : ∃ x, (low ++ high)[base + size / 2]? = some x ∧ x ∈ high := by
          rw [List.getElem?_append_right (by omega)]
          rw [List.length_append] at hmid
          exact ⟨_, List.getElem?_eq_getElem (by omega), List.getElem_mem _⟩
        rw [if_pos (by rw [hx]; simpa using hhigh x hmem)]
        apply ih <;> omega

/-- The search in entries of which the first are less, at most one is equal and the others are
greater. -/
theorem binarySearchBy_eq (ha : ∀ x ∈ a, cmp x = .lt) (hb : ∀ x ∈ b, cmp x = .eq)
    (hc : ∀ x ∈ c, cmp x = .gt) (hone : b.length ≤ 1) :
    binarySearchBy cmp (a ++ b ++ c) = if b = [] then .error a.length else .ok a.length := by
  have hlow : ∀ x ∈ a ++ b, cmp x ≠ .gt := by
    intro x hx
    rcases List.mem_append.mp hx with hx | hx
    · rw [ha x hx]
      decide
    · rw [hb x hx]
      decide
  by_cases hnil : a ++ b ++ c = []
  · obtain ⟨hab, rfl⟩ := List.append_eq_nil_iff.mp hnil
    obtain ⟨rfl, rfl⟩ := List.append_eq_nil_iff.mp hab
    rfl
  have hbase : bisect cmp (a ++ b ++ c) (a ++ b ++ c).length 0 (a ++ b ++ c).length =
      (a ++ b).length - 1 := by
    apply bisect_eq hlow hc (Nat.le_refl _) (List.length_pos_iff.mpr hnil) (.inl rfl)
    · simp only [List.length_append]
      omega
    · omega
  unfold binarySearchBy
  rw [hbase]
  dsimp only
  rcases b with _ | ⟨y, _ | ⟨z, b⟩⟩
  · simp only [List.append_nil, if_true]
    rcases List.eq_nil_or_concat a with rfl | ⟨a', x, rfl⟩
    · obtain ⟨x, c', rfl⟩ := List.exists_cons_of_ne_nil hnil
      have hx := hc x List.mem_cons_self
      simp [hx]
    · have hx := ha x (by simp)
      simp [List.append_assoc, hx]
  · have hy := hb y List.mem_cons_self
    simp [List.append_assoc, hy]
  · simp at hone

/-- The number of entries that pass a test, when they come first. -/
theorem partitionPoint_eq {test : α → Bool} (ha : ∀ x ∈ a, test x = true)
    (hc : ∀ x ∈ c, test x = false) : partitionPoint test (a ++ c) = a.length := by
  have h : binarySearchBy (fun x ↦ if test x then .lt else .gt) (a ++ [] ++ c) =
      .error a.length := by
    apply binarySearchBy_eq
    · exact fun x hx ↦ by simp [ha x hx]
    · exact fun x hx ↦ by cases hx
    · exact fun x hx ↦ by simp [hc x hx]
    · exact Nat.zero_le 1
  rw [List.append_nil] at h
  rw [partitionPoint, h]
  rfl

/-- A list in which the entries that pass a test come first. -/
theorem filter_append_filter_not {test : α → Bool} {l : List α}
    (h : l.Pairwise fun x y ↦ test y = true → test x = true) :
    l.filter test ++ l.filter (fun x ↦ !test x) = l := by
  induction l with
  | nil => rfl
  | cons x l ih =>
    obtain ⟨hx, hl⟩ := List.pairwise_cons.mp h
    by_cases htest : test x = true
    · simp [htest, ih hl]
    · have hnone : l.filter test = [] := by
        rw [List.filter_eq_nil_iff]
        exact fun y hy hty ↦ htest (hx y hy hty)
      have hall : l.filter (fun x ↦ !test x) = l := by
        rw [List.filter_eq_self]
        intro y hy
        simpa using fun hty ↦ htest (hx y hy hty)
      simp [htest, hnone, hall]

/-- The number of entries that pass a test, in a list where they come first. -/
theorem partitionPoint_eq_length {test : α → Bool} {l : List α}
    (h : l.Pairwise fun x y ↦ test y = true → test x = true) :
    partitionPoint test l = (l.filter test).length := by
  have hsplit := filter_append_filter_not h
  conv_lhs => rw [← hsplit]
  apply partitionPoint_eq
  · exact fun x hx ↦ (List.mem_filter.mp hx).2
  · intro x hx
    simpa using (List.mem_filter.mp hx).2

/-- In a list with at most one equal entry, which the smaller ones precede and the greater ones
follow, the search ends behind the smaller ones. -/
theorem binarySearchBy_of_pairwise {l : List α}
    (h : l.Pairwise fun x y ↦ cmp x = .lt ∨ cmp y = .gt) :
    ∃ a b c, l = a ++ b ++ c ∧ a = l.filter (cmp · = .lt) ∧ b = l.filter (cmp · = .eq) ∧
      b.length ≤ 1 ∧
      binarySearchBy cmp l = if b = [] then .error a.length else .ok a.length := by
  have hlow : l.Pairwise fun x y ↦ decide (cmp y = .lt) = true → decide (cmp x = .lt) = true := by
    refine h.imp fun {x y} hxy hy ↦ ?_
    rcases hxy with hx | hy'
    · exact decide_eq_true hx
    · rw [hy'] at hy
      cases hy
  have hrest : (l.filter fun x ↦ !decide (cmp x = .lt)).Pairwise fun x y ↦
      decide (cmp y = .eq) = true → decide (cmp x = .eq) = true := by
    refine (h.filter _).imp_of_mem fun {x y} hx hy hxy heq ↦ ?_
    rcases hxy with hx' | hy'
    · rw [List.mem_filter, hx'] at hx
      cases hx.2
    · rw [hy'] at heq
      cases heq
  have hb : (l.filter fun x ↦ !decide (cmp x = .lt)).filter (cmp · = .eq) =
      l.filter (cmp · = .eq) := by
    rw [List.filter_filter]
    refine List.filter_congr fun x _ ↦ ?_
    cases cmp x <;> rfl
  have hsplit := filter_append_filter_not hlow
  have hsplit' := filter_append_filter_not hrest
  rw [hb] at hsplit'
  have hl : l = l.filter (cmp · = .lt) ++ l.filter (cmp · = .eq) ++
      (l.filter fun x ↦ !decide (cmp x = .lt)).filter (fun x ↦ !decide (cmp x = .eq)) := by
    rw [List.append_assoc, hsplit', hsplit]
  have hone : (l.filter (cmp · = .eq)).length ≤ 1 := by
    have hpair := h.filter (cmp · = .eq)
    rcases hf : l.filter (cmp · = .eq) with _ | ⟨x, _ | ⟨y, rest⟩⟩
    · exact Nat.zero_le 1
    · exact Nat.le_refl 1
    · have hx : x ∈ l.filter (cmp · = .eq) := by simp [hf]
      have hy : y ∈ l.filter (cmp · = .eq) := by simp [hf]
      rw [hf] at hpair
      have hxy := (List.pairwise_cons.mp hpair).1 y List.mem_cons_self
      have hx := of_decide_eq_true (List.mem_filter.mp hx).2
      have hy := of_decide_eq_true (List.mem_filter.mp hy).2
      rw [hx, hy] at hxy
      rcases hxy with hxy | hxy <;> cases hxy
  refine ⟨_, _, _, hl, rfl, rfl, hone, ?_⟩
  conv_lhs => rw [hl]
  apply binarySearchBy_eq
  · exact fun x hx ↦ of_decide_eq_true (List.mem_filter.mp hx).2
  · exact fun x hx ↦ of_decide_eq_true (List.mem_filter.mp hx).2
  · intro x hx
    have h₁ := (List.mem_filter.mp hx).2
    have h₂ := (List.mem_filter.mp (List.mem_filter.mp hx).1).2
    cases hc : cmp x with
    | lt => simp [hc] at h₂
    | eq => simp [hc] at h₁
    | gt => rfl
  · exact hone

end

/-- The place of an entry, and of a missing one. -/
example : binarySearchBy (compare · 4) [1, 3, 4, 8] = .ok 2 ∧
    binarySearchBy (compare · 5) [1, 3, 4, 8] = .error 3 := by decide

end TrieDb.Base

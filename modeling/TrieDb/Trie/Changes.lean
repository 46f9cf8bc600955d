import Mathlib.Data.List.Sort
import TrieDb.Trie.Exec

/-!
# Sorted batches

Paths are ordered lexicographically, so the changes below a path are consecutive in a sorted batch:
a batch for a branch falls into one batch for each of its children.
-/

namespace TrieDb

open Engine (Change Changes pathLe commonPrefixLength)

/-! ### Paths -/

/-- The empty path is at most every other. -/
@[simp] theorem pathLe_nil (a : Nibbles) : pathLe [] a = true := by cases a <;> rfl

/-- No other path is at most the empty one. -/
@[simp] theorem pathLe_cons_nil (x : Nibble) (a : Nibbles) : pathLe (x :: a) [] = false := rfl

/-- Paths are ordered by their first nibble, then by the rest. -/
theorem pathLe_cons_cons {x y : Nibble} {a b : Nibbles} :
    pathLe (x :: a) (y :: b) = true ↔ x < y ∨ x = y ∧ pathLe a b = true := by
  simp [pathLe]

/-- A path is at most itself. -/
@[simp] theorem pathLe_refl (a : Nibbles) : pathLe a a = true := by
  induction a with
  | nil => rfl
  | cons x a ih => exact pathLe_cons_cons.mpr (.inr ⟨rfl, ih⟩)

/-- The order of paths is transitive. -/
theorem pathLe_trans {a b c : Nibbles} (hab : pathLe a b = true) (hbc : pathLe b c = true) :
    pathLe a c = true := by
  induction a generalizing b c with
  | nil => exact pathLe_nil c
  | cons x a ih =>
    cases b with
    | nil => cases hab
    | cons y b =>
      cases c with
      | nil => cases hbc
      | cons z c =>
        rw [pathLe_cons_cons] at hab hbc ⊢
        rcases hab with hxy | ⟨rfl, hab⟩
        · rcases hbc with hyz | ⟨rfl, -⟩
          · exact .inl (hxy.trans hyz)
          · exact .inl hxy
        · exact hbc.imp id fun h ↦ ⟨h.1, ih hab h.2⟩

/-- The order of paths is total. -/
theorem pathLe_total (a b : Nibbles) : pathLe a b = true ∨ pathLe b a = true := by
  induction a generalizing b with
  | nil => exact .inl (pathLe_nil b)
  | cons x a ih =>
    cases b with
    | nil => exact .inr (pathLe_nil _)
    | cons y b =>
      rw [pathLe_cons_cons, pathLe_cons_cons]
      rcases lt_trichotomy x y with h | rfl | h
      · exact .inl (.inl h)
      · exact (ih b).imp (fun h ↦ .inr ⟨rfl, h⟩) fun h ↦ .inr ⟨rfl, h⟩
      · exact .inr (.inl h)

/-- A common beginning does not matter. -/
@[simp] theorem pathLe_append (x a b : Nibbles) : pathLe (x ++ a) (x ++ b) = pathLe a b := by
  induction x with
  | nil => rfl
  | cons y x ih => simp [pathLe, ih]

/-- A path that is not below one of its prefixes is that prefix. -/
theorem eq_nil_of_append_pathLe {a b : Nibbles} (h : pathLe (a ++ b) a = true) : b = [] := by
  induction a with
  | nil =>
    cases b with
    | nil => rfl
    | cons x b => cases h
  | cons y a ih =>
    rw [List.cons_append, pathLe_cons_cons] at h
    exact ih (h.resolve_left (lt_irrefl y)).2

/-- What lies between two extensions of a path extends it. -/
theorem prefix_of_between {x a b c : Nibbles} (ha : x <+: a) (hc : x <+: c)
    (hab : pathLe a b = true) (hbc : pathLe b c = true) : x <+: b := by
  induction x generalizing a b c with
  | nil => exact List.nil_prefix
  | cons y x ih =>
    obtain ⟨a, rfl⟩ := ha
    obtain ⟨c, rfl⟩ := hc
    cases b with
    | nil => cases hab
    | cons z b =>
      rw [List.cons_append, pathLe_cons_cons] at hab hbc
      rcases hab with hlt | ⟨rfl, hab⟩
      · rcases hbc with hlt' | ⟨rfl, -⟩
        · exact absurd hlt (lt_asymm hlt')
        · exact absurd hlt (lt_irrefl _)
      · rcases hbc with hlt' | ⟨-, hbc⟩
        · exact absurd hlt' (lt_irrefl _)
        · rw [List.cons_prefix_cons]
          exact ⟨rfl, ih (List.prefix_append x a) (List.prefix_append x c) hab hbc⟩

section
variable (a b : Nibbles)

/-- A common prefix is no longer than the first path. -/
theorem commonPrefixLength_le_left : commonPrefixLength a b ≤ a.length := by
  fun_induction commonPrefixLength a b <;> simp_all

/-- A common prefix is no longer than the second path. -/
theorem commonPrefixLength_le_right : commonPrefixLength a b ≤ b.length := by
  fun_induction commonPrefixLength a b <;> simp_all

/-- A common prefix is one of both paths alike. -/
theorem commonPrefixLength_comm : commonPrefixLength a b = commonPrefixLength b a := by
  induction a generalizing b with
  | nil => cases b <;> rfl
  | cons x a ih =>
    cases b with
    | nil => rfl
    | cons y b => simp only [commonPrefixLength, ih, eq_comm]

/-- The paths agree up to there. -/
theorem take_commonPrefixLength :
    a.take (commonPrefixLength a b) = b.take (commonPrefixLength a b) := by
  fun_induction commonPrefixLength a b <;> simp_all

/-- The paths differ from there on. -/
theorem not_take_succ_isPrefix (h : commonPrefixLength a b < a.length) :
    ¬ a.take (commonPrefixLength a b + 1) <+: b := by
  fun_induction commonPrefixLength a b with
  | case1 x a b ih =>
    rw [List.take_succ_cons, List.cons_prefix_cons]
    exact fun hp ↦ ih (by simpa using h) hp.2
  | case2 x a y b hxy => simpa using hxy
  | case3 a b hab =>
    cases a with
    | nil => simp at h
    | cons x a =>
      cases b with
      | nil => simp
      | cons y b => exact absurd rfl (hab x a y b rfl)

end

/-- A path is a prefix of another one if it agrees with it everywhere. -/
theorem commonPrefixLength_eq_length {a b : Nibbles} :
    commonPrefixLength a b = a.length ↔ a <+: b := by
  constructor
  · intro h
    have ht := take_commonPrefixLength a b
    rw [h, List.take_length] at ht
    rw [ht]
    exact List.take_prefix _ _
  · intro h
    by_contra hne
    have hlt := lt_of_le_of_ne (commonPrefixLength_le_left a b) hne
    exact not_take_succ_isPrefix a b hlt ((List.take_prefix _ _).trans h)

/-- As many nibbles as two paths have in common are a prefix. -/
theorem take_isPrefix_iff {a b : Nibbles} {n : Nat} (hn : n ≤ a.length) :
    a.take n <+: b ↔ n ≤ commonPrefixLength a b := by
  constructor
  · intro h
    by_contra hlt
    rw [Nat.not_le] at hlt
    have htake : a.take (commonPrefixLength a b + 1) <+: a.take n := List.take_prefix_take_left hlt
    exact not_take_succ_isPrefix a b (hlt.trans_le hn) (htake.trans h)
  · intro h
    have htake : a.take n <+: a.take (commonPrefixLength a b) := List.take_prefix_take_left h
    rw [take_commonPrefixLength] at htake
    exact htake.trans (List.take_prefix _ _)

/-! ### Batches -/

/-- A batch in the order of its paths. -/
def Sorted (cs : Changes) : Prop := cs.Pairwise fun a b ↦ pathLe a.1 b.1 = true

/-- The changes with their paths from an offset on. -/
def rel (offset : Nat) (changes : Changes) : Changes :=
  changes.map fun c ↦ (c.1.drop offset, c.2)

section
variable {pre : Nibbles} {cs ds : Changes}

/-- Paths from their start. -/
@[simp] theorem rel_zero (changes : Changes) : rel 0 changes = changes := by simp [rel]

/-- No changes. -/
@[simp] theorem rel_nil (offset : Nat) : rel offset [] = [] := rfl

/-- There are as few changes as before. -/
@[simp] theorem rel_eq_nil {offset : Nat} {changes : Changes} :
    rel offset changes = [] ↔ changes = [] := by simp [rel]

/-- There are as many changes as before. -/
@[simp] theorem length_rel (offset : Nat) (changes : Changes) :
    (rel offset changes).length = changes.length := by simp [rel]

/-- Paths cut twice. -/
theorem rel_add (m n : Nat) (changes : Changes) : rel (m + n) changes = rel n (rel m changes) := by
  simp [rel, List.drop_drop]

/-- The last change is cut like the others. -/
theorem getLastD_rel (offset : Nat) (first : Change) (others : Changes) :
    (rel offset others).getLastD (first.1.drop offset, first.2) =
      ((others.getLastD first).1.drop offset, (others.getLastD first).2) := by
  induction others generalizing first with
  | nil => rfl
  | cons c others ih =>
    rw [List.getLastD_cons, ← ih c]
    exact List.getLastD_cons

/-- There are as many changes as before. -/
@[simp] theorem length_under : (under pre cs).length = cs.length := by simp [under]

/-- A prefix put before the paths is cut again. -/
@[simp] theorem rel_under : rel pre.length (under pre cs) = cs := by
  simp only [rel, under, List.map_map]
  refine (List.map_congr_left fun c _ ↦ ?_).trans (List.map_id cs)
  simp

/-- The changes with a prefix before their paths. -/
theorem mem_under {c : Change} : c ∈ under pre cs ↔ ∃ d ∈ cs, c = (pre ++ d.1, d.2) := by
  simp [under, eq_comm]

/-- Changes that extend a prefix. -/
theorem eq_under (h : ∀ c ∈ cs, pre <+: c.1) : cs = under pre (rel pre.length cs) := by
  simp only [under, rel, List.map_map]
  refine (List.map_id cs).symm.trans (List.map_congr_left fun c hc ↦ ?_)
  simp [List.prefix_iff_eq_append.mp (h c hc)]

namespace Sorted

/-- Fewer changes stay sorted. -/
theorem sublist (h : Sorted cs) (hs : List.Sublist ds cs) : Sorted ds := List.Pairwise.sublist hs h

/-- A prefix before all paths keeps the order. -/
theorem under_iff : Sorted (under pre cs) ↔ Sorted cs := by
  simp only [Sorted, under, List.pairwise_map, pathLe_append]

/-- All changes lie between the first and the last. -/
theorem between {c : Change} {d : Change} (h : Sorted (c :: cs)) (hd : d ∈ c :: cs) :
    pathLe c.1 d.1 = true ∧ pathLe d.1 (cs.getLastD c).1 = true := by
  induction cs generalizing c d with
  | nil =>
    rw [List.mem_singleton] at hd
    simp [hd]
  | cons e cs ih =>
    obtain ⟨hc, hcs⟩ := List.pairwise_cons.mp h
    rw [List.getLastD_cons]
    rcases List.mem_cons.mp hd with rfl | hd
    · exact ⟨pathLe_refl _, pathLe_trans (hc e List.mem_cons_self) (ih hcs List.mem_cons_self).2⟩
    · exact ⟨hc d hd, (ih hcs hd).2⟩

/-- What begins the first and the last path begins all. -/
theorem prefix_of_ends {c d : Change} (h : Sorted (c :: cs)) (hc : pre <+: c.1)
    (hl : pre <+: (cs.getLastD c).1) (hd : d ∈ c :: cs) : pre <+: d.1 :=
  prefix_of_between hc hl (h.between hd).1 (h.between hd).2

/-- What both ends have in common with a path, all changes have. -/
theorem le_commonPrefixLength {c d : Change} {n : Nat} (h : Sorted (c :: cs))
    (hc : n ≤ commonPrefixLength pre c.1) (hl : n ≤ commonPrefixLength pre (cs.getLastD c).1)
    (hd : d ∈ c :: cs) : n ≤ commonPrefixLength pre d.1 := by
  have hn : n ≤ pre.length := hc.trans (commonPrefixLength_le_left _ _)
  rw [← take_isPrefix_iff hn] at hc hl ⊢
  exact h.prefix_of_ends hc hl hd

end Sorted

/-- The batch as the program sorts it. -/
def sortChanges (changes : Changes) : Changes := changes.insertionSort fun a b ↦ pathLe a.1 b.1

/-- Sorted changes are sorted. -/
theorem sorted_sortChanges (changes : Changes) : Sorted (sortChanges changes) := by
  have htotal : Std.Total fun a b : Change ↦ pathLe a.1 b.1 = true :=
    ⟨fun a b ↦ pathLe_total a.1 b.1⟩
  have htrans : IsTrans Change fun a b ↦ pathLe a.1 b.1 = true := ⟨fun _ _ _ ↦ pathLe_trans⟩
  exact List.pairwise_insertionSort _ changes

/-- Sorting keeps the changes. -/
@[simp] theorem mem_sortChanges {changes : Changes} {c : Change} :
    c ∈ sortChanges changes ↔ c ∈ changes := List.mem_insertionSort _

/-! ### The batches for the children of a branch -/

/-- The changes for a child of a branch. -/
def group (cs : Changes) (i : Fin 16) : Changes :=
  (cs.filter fun c ↦ c.1.head? == some i).map fun c ↦ (c.1.tail, c.2)

private theorem filter_split (l : List (Fin 16)) (hl : l.Pairwise (· < ·)) (h : Sorted cs)
    (hcs : ∀ c ∈ cs, ∃ i ∈ l, c.1.head? = some i) :
    cs = l.flatMap fun i ↦ cs.filter fun c ↦ c.1.head? == some i := by
  induction l generalizing cs with
  | nil =>
    cases cs with
    | nil => rfl
    | cons c cs => simpa using hcs c List.mem_cons_self
  | cons i l ih =>
    obtain ⟨hil, hl⟩ := List.pairwise_cons.mp hl
    -- the changes for the first child come first
    have hsplit : cs = cs.filter (fun c ↦ c.1.head? == some i) ++
        cs.filter fun c ↦ !(c.1.head? == some i) := by
      clear ih
      induction cs with
      | nil => rfl
      | cons c cs ih =>
        have hp := List.pairwise_cons.mp h
        by_cases hc : c.1.head? = some i
        · simp only [List.filter_cons, hc, beq_self_eq_true, if_true, Bool.not_true,
            List.cons_append]
          congr 1
          exact ih hp.2 fun d hd ↦ hcs d (List.mem_cons_of_mem _ hd)
        · have hnone : ∀ d ∈ c :: cs, ¬ d.1.head? = some i := by
            intro d hd hdi
            rcases List.mem_cons.mp hd with rfl | hd'
            · exact hc hdi
            · have hle := hp.1 d hd'
              obtain ⟨j, hj, hcj⟩ := hcs c List.mem_cons_self
              have hij : i < j := by
                rcases List.mem_cons.mp hj with rfl | hj
                · exact absurd hcj hc
                · exact hil j hj
              cases hc1 : c.1 with
              | nil => simp [hc1] at hcj
              | cons x xs =>
                cases hd1 : d.1 with
                | nil => simp [hd1] at hdi
                | cons y ys =>
                  simp only [hc1, List.head?_cons, Option.some.injEq] at hcj
                  simp only [hd1, List.head?_cons, Option.some.injEq] at hdi
                  subst hcj hdi
                  rw [hc1, hd1, pathLe_cons_cons] at hle
                  rcases hle with hlt | ⟨heq, -⟩
                  · exact absurd hlt (lt_asymm hij)
                  · exact absurd heq (ne_of_gt hij)
          rw [List.filter_eq_nil_iff.mpr (by simpa using hnone),
            List.filter_eq_self.mpr (by simpa using hnone)]
          rfl
    rw [List.flatMap_cons]
    conv_lhs => rw [hsplit]
    congr 1
    rw [ih hl (h.sublist List.filter_sublist) ?_]
    · rw [ List.flatMap_def, List.flatMap_def]
      congr 1
      refine List.map_congr_left fun j hj ↦ ?_
      rw [List.filter_filter]
      refine List.filter_congr fun c _ ↦ ?_
      have hne : j ≠ i := ne_of_gt (hil j hj)
      by_cases hcj : c.1.head? = some j <;> simp [hcj, hne]
    · intro c hc
      rw [List.mem_filter] at hc
      obtain ⟨j, hj, hcj⟩ := hcs c hc.1
      rcases List.mem_cons.mp hj with rfl | hj
      · simp [hcj] at hc
      · exact ⟨j, hj, hcj⟩

/-- A batch below a branch consists of the batches for its children. -/
theorem eq_regroup (h : Sorted cs) (hcs : ∀ c ∈ cs, c.1 ≠ []) : cs = regroup [] (group cs) := by
  have hsplit := filter_split (List.finRange 16) (List.pairwise_lt_finRange 16) h fun c hc ↦ by
    obtain ⟨i, path, hip⟩ := List.exists_cons_of_ne_nil (hcs c hc)
    exact ⟨i, List.mem_finRange i, by simp [hip]⟩
  conv_lhs => rw [hsplit]
  rw [regroup, List.flatMap_def, List.flatMap_def]
  congr 1
  refine List.map_congr_left fun i _ ↦ ?_
  simp only [group, under, List.map_map]
  refine (List.map_id _).symm.trans (List.map_congr_left fun c hc ↦ ?_)
  obtain ⟨path, v⟩ := c
  rw [List.mem_filter] at hc
  cases path with
  | nil => simp at hc
  | cons j path =>
    have hj : j = i := by simpa using hc.2
    simp [hj]

/-- A prefix before all groups. -/
theorem under_regroup (pre pre' : Nibbles) (g : Fin 16 → Changes) :
    under pre (regroup pre' g) = regroup (pre ++ pre') g := by
  simp only [regroup, under, List.map_flatMap, List.map_map]
  rw [List.flatMap_def, List.flatMap_def]
  congr 1
  refine List.map_congr_left fun i _ ↦ List.map_congr_left fun c _ ↦ ?_
  simp

/-- The batches for the children are sorted. -/
theorem Sorted.group (h : Sorted cs) (i : Fin 16) : Sorted (group cs i) := by
  simp only [TrieDb.group, Sorted, List.pairwise_map]
  refine (h.sublist List.filter_sublist).imp_of_mem fun {a b} ha hb hab ↦ ?_
  rw [List.mem_filter] at ha hb
  obtain ⟨pa, va⟩ := a
  obtain ⟨pb, vb⟩ := b
  cases pa with
  | nil => simp at ha
  | cons x pa =>
    cases pb with
    | nil => simp at hb
    | cons y pb =>
      have hx : x = i := by simpa using ha.2
      have hy : y = i := by simpa using hb.2
      subst hx hy
      simpa [pathLe_cons_cons] using hab

/-! ### A batch stopped in the middle -/

/-- The changes for the children before a place, and `n` of those for the child there. -/
def groupsBefore (g : Fin 16 → Changes) (i₀ : Fin 16) (n : Nat) (i : Fin 16) : Changes :=
  if i < i₀ then g i else if i = i₀ then (g i).take n else []

/-- The other changes. -/
def groupsFrom (g : Fin 16 → Changes) (i₀ : Fin 16) (n : Nat) (i : Fin 16) : Changes :=
  if i < i₀ then [] else if i = i₀ then (g i).drop n else g i

private theorem finRange_split (i : Fin 16) :
    List.finRange 16 = (List.finRange 16).take i ++ i :: (List.finRange 16).drop (i + 1) := by
  revert i
  decide

private theorem lt_of_mem_take {i j : Fin 16} (h : j ∈ (List.finRange 16).take i) : j < i := by
  revert i j
  decide

private theorem lt_of_mem_drop {i j : Fin 16} (h : j ∈ (List.finRange 16).drop (i + 1)) :
    i < j := by
  revert i j
  decide

/-- The place of the changes for one child. -/
private theorem regroup_split (pre : Nibbles) (g : Fin 16 → Changes) (i : Fin 16) : regroup pre g =
    (((List.finRange 16).take i).flatMap fun j ↦ under (pre ++ [j]) (g j)) ++
      (under (pre ++ [i]) (g i) ++
        ((List.finRange 16).drop (i + 1)).flatMap fun j ↦ under (pre ++ [j]) (g j)) := by
  rw [regroup]
  conv_lhs => rw [finRange_split i]
  rw [List.flatMap_append, List.flatMap_cons]

private theorem length_before (pre : Nibbles) (g : Fin 16 → Changes) (i : Fin 16) :
    (((List.finRange 16).take i).flatMap fun j ↦ under (pre ++ [j]) (g j)).length =
      countBefore g i := by
  simp [countBefore, List.length_flatMap, length_under]

/-- The changes up to a group are some of all. -/
theorem countBefore_add_le (pre : Nibbles) (g : Fin 16 → Changes) (i : Fin 16) :
    countBefore g i + (g i).length ≤ (regroup pre g).length := by
  rw [regroup_split pre g i, List.length_append, length_before, List.length_append, length_under]
  omega

private theorem flatMap_under_congr {l : List (Fin 16)} {g g' : Fin 16 → Changes}
    (h : ∀ j ∈ l, g j = g' j) :
    (l.flatMap fun j ↦ under (pre ++ [j]) (g j)) = l.flatMap fun j ↦ under (pre ++ [j]) (g' j) := by
  rw [List.flatMap_def, List.flatMap_def]
  congr 1
  exact List.map_congr_left fun j hj ↦ by rw [h j hj]

private theorem flatMap_under_nil {l : List (Fin 16)} {g : Fin 16 → Changes}
    (h : ∀ j ∈ l, g j = []) : (l.flatMap fun j ↦ under (pre ++ [j]) (g j)) = [] := by
  rw [List.flatMap_eq_nil_iff]
  intro j hj
  rw [h j hj]
  rfl

/-- The changes up to one within a group. -/
theorem take_regroup {g : Fin 16 → Changes} {i : Fin 16} {n : Nat} (hn : n ≤ (g i).length) :
    (regroup pre g).take (countBefore g i + n) = regroup pre (groupsBefore g i n) := by
  have hbefore : ∀ j ∈ (List.finRange 16).take i, g j = groupsBefore g i n j :=
    fun j hj ↦ by simp [groupsBefore, lt_of_mem_take hj]
  have hafter : ∀ j ∈ (List.finRange 16).drop (i + 1), groupsBefore g i n j = [] := fun j hj ↦ by
    have hij := lt_of_mem_drop hj
    simp [groupsBefore, hij.asymm, hij.ne']
  have hself : under (pre ++ [i]) (groupsBefore g i n i) = (under (pre ++ [i]) (g i)).take n := by
    simp [groupsBefore, under, List.map_take]
  rw [regroup_split pre g i, regroup_split pre (groupsBefore g i n) i, ← length_before pre g i,
    List.take_length_add_append, List.take_append_of_le_length (by rwa [length_under]),
    flatMap_under_congr hbefore, flatMap_under_nil hafter, hself, List.append_nil]

/-- The changes from one within a group on. -/
theorem drop_regroup {g : Fin 16 → Changes} {i : Fin 16} {n : Nat} (hn : n ≤ (g i).length) :
    (regroup pre g).drop (countBefore g i + n) = regroup pre (groupsFrom g i n) := by
  have hbefore : ∀ j ∈ (List.finRange 16).take i, groupsFrom g i n j = [] :=
    fun j hj ↦ by simp [groupsFrom, lt_of_mem_take hj]
  have hafter : ∀ j ∈ (List.finRange 16).drop (i + 1), g j = groupsFrom g i n j := fun j hj ↦ by
    have hij := lt_of_mem_drop hj
    simp [groupsFrom, hij.asymm, hij.ne']
  have hself : under (pre ++ [i]) (groupsFrom g i n i) = (under (pre ++ [i]) (g i)).drop n := by
    simp [groupsFrom, under, List.map_drop]
  rw [regroup_split pre g i, regroup_split pre (groupsFrom g i n) i, ← length_before pre g i,
    List.drop_length_add_append, List.drop_append_of_le_length (by rwa [length_under]),
    flatMap_under_congr hafter, flatMap_under_nil hbefore, hself, List.nil_append]

end

end TrieDb

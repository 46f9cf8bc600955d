import TrieDb.Overlay.Slices

/-!
# Frozen overlays

Freezing sorts the inserts with a stable sort and then drops repeated paths in one pass. Each path
keeps the value of its last insert, and every slice of the frozen overlay answers lookups with it.
-/

namespace TrieDb

open Base
open Engine (pathLe)

namespace OverlayStateMut

/-- The value that is kept for an insert; a slot of zero is a tombstone. -/
def stored (value : Option OverlayValue) : Option OverlayValue :=
  if value = some (.storage 0) then none else value

/-- A sequence of calls of `insert`. -/
def insertAll (writes : List OverlayEntry) : OverlayStateMut :=
  writes.foldl (fun m w ↦ m.insert w.1 w.2) ⟨[]⟩

private theorem changes_insertAll (writes : List OverlayEntry) :
    (insertAll writes).changes = writes.map fun w ↦ (w.1, stored w.2) := by
  suffices h : ∀ m : OverlayStateMut, (writes.foldl (fun m w ↦ m.insert w.1 w.2) m).changes =
      m.changes ++ writes.map fun w ↦ (w.1, stored w.2) from h ⟨[]⟩
  induction writes with
  | nil => simp
  | cons w writes ih =>
    intro m
    rw [List.foldl_cons, ih, insert, List.map_cons, List.append_assoc]
    rfl

/-- The last value at a path in a list of changes. -/
def lastAt (l : List OverlayEntry) (p : Nibbles) : Option (Option OverlayValue) :=
  (l.filter fun e ↦ e.1 = p).getLast?.map Prod.snd

section
variable {l : List OverlayEntry} {c : OverlayEntry} {p : Nibbles}

private theorem lastAt_concat :
    lastAt (l ++ [c]) p = if c.1 = p then some c.2 else lastAt l p := by
  unfold lastAt
  rw [List.filter_append]
  by_cases hc : c.1 = p
  · simp [hc]
  · simp [hc]

private theorem lastAt_eq_none : lastAt l p = none ↔ ∀ e ∈ l, e.1 ≠ p := by
  simp [lastAt]

private theorem exists_mem_of_lastAt {v : Option OverlayValue} (h : lastAt l p = some v) :
    (p, v) ∈ l := by
  obtain ⟨e, he, rfl⟩ := Option.map_eq_some_iff.mp h
  obtain ⟨hmem, hp⟩ := List.mem_filter.mp (List.mem_of_getLast? he)
  rw [← of_decide_eq_true hp]
  exact hmem

/-- The last value is the one behind which the path does not come again. -/
private theorem lastAt_split {earlier later : List OverlayEntry} {v : Option OverlayValue}
    (hlater : ∀ e ∈ later, e.1 ≠ p) : lastAt (earlier ++ (p, v) :: later) p = some v := by
  have hnone : later.filter (fun e ↦ e.1 = p) = [] := by
    rw [List.filter_eq_nil_iff]
    intro e he
    simpa using hlater e he
  simp [lastAt, List.filter_append, hnone]

end

/-! ### The sort is stable -/

/-- The changes at one path stay in the order of their inserts. -/
private theorem filter_insertionSort (l : List OverlayEntry) (p : Nibbles) :
    (l.insertionSort fun a b ↦ pathLe a.1 b.1).filter (fun e ↦ e.1 = p) =
      l.filter fun e ↦ e.1 = p := by
  have htotal : Std.Total fun a b : OverlayEntry ↦ pathLe a.1 b.1 = true :=
    ⟨fun a b ↦ pathLe_total a.1 b.1⟩
  have htrans : IsTrans OverlayEntry fun a b ↦ pathLe a.1 b.1 = true :=
    ⟨fun _ _ _ ↦ pathLe_trans⟩
  have hsame : (l.filter fun e ↦ e.1 = p).Pairwise fun a b ↦ pathLe a.1 b.1 = true := by
    refine List.pairwise_of_forall_mem_list fun a ha b hb ↦ ?_
    rw [of_decide_eq_true (List.mem_filter.mp ha).2, of_decide_eq_true (List.mem_filter.mp hb).2]
    exact pathLe_refl p
  have hsub := (List.sublist_insertionSort hsame List.filter_sublist).filter fun e ↦ e.1 = p
  rw [List.filter_filter] at hsub
  simp only [Bool.and_self] at hsub
  refine (hsub.eq_of_length ?_).symm
  exact ((List.perm_insertionSort _ l).filter _).length_eq.symm

private theorem lastAt_insertionSort (l : List OverlayEntry) (p : Nibbles) :
    lastAt (l.insertionSort fun a b ↦ pathLe a.1 b.1) p = lastAt l p := by
  rw [lastAt, filter_insertionSort]
  rfl

/-! ### Repeated paths -/

/-- What the loop of `freeze` holds after a sorted list of changes. -/
structure Deduped (l : List OverlayEntry) (s : List OverlayEntry × Option Nibbles) : Prop where
  last : s.2 = l.getLast?.map Prod.fst
  last' : s.1.getLast?.map Prod.fst = s.2
  increasing : s.1.Pairwise fun x y ↦ comparePath x.1 y.1 = .lt
  mem : ∀ p v, (p, v) ∈ s.1 ↔ lastAt l p = some v

private theorem pathLe_antisymm {a b : Nibbles} (h : pathLe a b = true) (h' : pathLe b a = true) :
    a = b := by
  rw [pathLe_iff] at h h'
  rcases h with h | h
  · rcases h' with h' | h'
    · exact h.eq_of_length (le_antisymm h.length_le h'.length_le)
    · exact absurd h h'.not_prefix_symm
  · rcases h' with h' | h'
    · exact absurd h' h.not_prefix_symm
    · exact absurd h' h.asymm

private theorem comparePath_lt_of_pathLe {a b : Nibbles} (h : pathLe a b = true) (hne : a ≠ b) :
    comparePath a b = .lt := by
  rw [comparePath, if_neg hne, if_pos h]

/-- A path that differs from the last one is new. -/
private theorem not_mem_of_last {l : List OverlayEntry} {c : OverlayEntry}
    (hsorted : (l ++ [c]).Pairwise fun a b ↦ pathLe a.1 b.1 = true)
    (hlast : l.getLast?.map Prod.fst ≠ some c.1) : ∀ e ∈ l, e.1 ≠ c.1 := by
  intro e he heq
  rcases List.eq_nil_or_concat' l with rfl | ⟨l, x, rfl⟩
  · cases he
  · rw [List.getLast?_concat] at hlast
    have hx : pathLe x.1 c.1 = true :=
      (List.pairwise_append.mp hsorted).2.2 x (by simp) c (List.mem_singleton_self c)
    have hex : pathLe e.1 x.1 = true := by
      rcases List.mem_append.mp he with he | he
      · exact (List.pairwise_append.mp (List.pairwise_append.mp hsorted).1).2.2 e he x
          (List.mem_singleton_self x)
      · rw [List.mem_singleton.mp he]
        exact pathLe_refl _
    rw [heq] at hex
    exact hlast (congrArg some (pathLe_antisymm hx hex))

private theorem Deduped.step {l : List OverlayEntry} {c : OverlayEntry}
    {s : List OverlayEntry × Option Nibbles} (h : Deduped l s)
    (hsorted : (l ++ [c]).Pairwise fun a b ↦ pathLe a.1 b.1 = true) :
    Deduped (l ++ [c]) (dedupStep s c) := by
  have hle : ∀ e ∈ l, pathLe e.1 c.1 = true := fun e he ↦
    (List.pairwise_append.mp hsorted).2.2 e he c (List.mem_singleton_self c)
  by_cases hnew : s.2 ≠ some c.1
  · have hfresh := not_mem_of_last hsorted (h.last ▸ hnew)
    rw [dedupStep, if_pos hnew]
    constructor
    · rw [List.getLast?_concat]
      rfl
    · rw [List.getLast?_concat]
      rfl
    · rw [List.pairwise_append]
      refine ⟨h.increasing, List.pairwise_singleton _ _, fun x hx y hy ↦ ?_⟩
      rw [List.mem_singleton.mp hy]
      have hmem := exists_mem_of_lastAt ((h.mem x.1 x.2).mp hx)
      exact comparePath_lt_of_pathLe (hle _ hmem) (hfresh _ hmem)
    · intro p v
      rw [List.mem_append, List.mem_singleton, h.mem, lastAt_concat]
      by_cases hp : c.1 = p
      · subst hp
        rw [if_pos rfl, lastAt_eq_none.mpr hfresh, Prod.ext_iff]
        simp [eq_comm]
      · rw [if_neg hp, Prod.ext_iff]
        simp [Ne.symm hp]
  · -- the path is the one of the last entry, whose value is overwritten
    rw [not_not] at hnew
    have hlast' := h.last'
    rw [hnew] at hlast'
    obtain ⟨x, hx, hxc⟩ := Option.map_eq_some_iff.mp hlast'
    obtain ⟨d, hd⟩ := List.getLast?_eq_some_iff.mp hx
    have hstep : dedupStep s c = (d ++ [c], s.2) := by
      rw [dedupStep, if_neg (not_not.mpr hnew), hx, hd, List.dropLast_concat]
      dsimp only
      rw [hxc]
    have hinc := h.increasing
    rw [hd, List.pairwise_append] at hinc
    rw [hstep]
    constructor
    · rw [List.getLast?_concat, hnew]
      rfl
    · rw [List.getLast?_concat, hnew]
      rfl
    · rw [List.pairwise_append]
      refine ⟨hinc.1, List.pairwise_singleton _ _, fun y hy z hz ↦ ?_⟩
      rw [List.mem_singleton.mp hz, ← hxc]
      exact hinc.2.2 y hy x (List.mem_singleton_self x)
    · intro p v
      have hmem := h.mem p v
      rw [hd, List.mem_append, List.mem_singleton] at hmem
      rw [List.mem_append, List.mem_singleton, lastAt_concat]
      by_cases hp : c.1 = p
      · subst hp
        rw [if_pos rfl, Prod.ext_iff]
        constructor
        · rintro (hv | ⟨-, hv⟩)
          · have hlt := hinc.2.2 _ hv x (List.mem_singleton_self x)
            rw [hxc, comparePath, if_pos rfl] at hlt
            cases hlt
          · exact congrArg some hv.symm
        · intro hv
          exact .inr ⟨rfl, (Option.some.inj hv).symm⟩
      · rw [if_neg hp, ← hmem, Prod.ext_iff, Prod.ext_iff, hxc]
        simp [Ne.symm hp]

private theorem deduped_foldl {l : List OverlayEntry}
    (hsorted : l.Pairwise fun a b ↦ pathLe a.1 b.1 = true) :
    Deduped l (l.foldl dedupStep ([], none)) := by
  induction l using List.reverseRecOn with
  | nil => exact ⟨rfl, rfl, .nil, fun p v ↦ by simp [lastAt]⟩
  | append_singleton l c ih =>
    rw [List.foldl_append]
    exact (ih (List.pairwise_append.mp hsorted).1).step hsorted

/-- The frozen overlay is in order, and holds the last value of each path. -/
private theorem freeze_spec (m : OverlayStateMut) : m.freeze.WF ∧ m.freeze.prefixOffset = 0 ∧
    ∀ p v, (p, v) ∈ m.freeze.effectiveSlice ↔ lastAt m.changes p = some v := by
  have htotal : Std.Total fun a b : OverlayEntry ↦ pathLe a.1 b.1 = true :=
    ⟨fun a b ↦ pathLe_total a.1 b.1⟩
  have htrans : IsTrans OverlayEntry fun a b ↦ pathLe a.1 b.1 = true :=
    ⟨fun _ _ _ ↦ pathLe_trans⟩
  have hdedup := deduped_foldl (List.pairwise_insertionSort
    (fun a b : OverlayEntry ↦ pathLe a.1 b.1 = true) m.changes)
  have hslice : m.freeze.effectiveSlice = m.freeze.data := by
    show (m.freeze.data.take m.freeze.data.length).drop 0 = m.freeze.data
    rw [List.take_length, List.drop_zero]
  refine ⟨⟨Nat.zero_le _, Nat.le_refl _, ?_⟩, rfl, ?_⟩
  · rw [hslice]
    exact hdedup.increasing.imp fun {x y} hxy ↦ ⟨[], x.1, y.1, rfl, rfl, rfl, hxy⟩
  · intro p v
    rw [hslice, ← lastAt_insertionSort]
    exact hdedup.mem p v

end OverlayStateMut

/-! ### Slices of a frozen overlay -/

namespace OverlayState

open OverlayStateMut

/-- The overlays that are cut out of one by calls that do not panic. -/
inductive Derived (o : OverlayState) : OverlayState → Prop
  | refl : Derived o o
  | subSlice {o'} (h : Derived o o') (start stop : Nat) : Derived o (o'.subSlice start stop)
  | before {o'} (h : Derived o o') (q : Nibbles) : Derived o (o'.subSliceByPrefix q).1
  | withPrefix {o'} (h : Derived o o') (q : Nibbles) : Derived o (o'.subSliceByPrefix q).2.1
  | after {o'} (h : Derived o o') (q : Nibbles) : Derived o (o'.subSliceByPrefix q).2.2
  | subSliceForPrefix {o'} (h : Derived o o') (q : Nibbles) : Derived o (o'.subSliceForPrefix q)
  | withPrefixOffset {o' o''} (h : Derived o o') {offset : Nat}
      (hoffset : o'.withPrefixOffset offset = some o'') : Derived o o''

private theorem wf_empty : OverlayState.empty.WF := ⟨Nat.le_refl _, Nat.le_refl _, .nil⟩

section
variable {o o' : OverlayState} {q : Nibbles}

private theorem WF.subSliceForPrefix (h : o.WF) (q : Nibbles) : (o.subSliceForPrefix q).WF := by
  unfold OverlayState.subSliceForPrefix
  split
  · exact wf_empty
  · exact h.subSlice _ _

private theorem subSliceForPrefix_of_not_isEmpty (h : o.isEmpty = false) :
    o.subSliceForPrefix q = (o.subSliceByPrefix q).2.1 := by
  rw [subSliceForPrefix, if_neg (by simp [h])]
  rfl

/-- An empty overlay has no entry for any prefix. -/
private theorem WF.effectiveSlice_subSliceForPrefix (h : o.WF) (q : Nibbles) :
    (o.subSliceForPrefix q).effectiveSlice = (o.subSliceByPrefix q).2.1.effectiveSlice := by
  cases hempty : o.isEmpty with
  | false => rw [subSliceForPrefix_of_not_isEmpty hempty]
  | true =>
    rw [(h.subSliceByPrefix q).2.1, (isEmpty_iff h).mp hempty,
      OverlayState.subSliceForPrefix, if_pos hempty]
    rfl

private theorem Derived.wf (hd : Derived o o') (h : o.WF) : o'.WF := by
  induction hd with
  | refl => exact h
  | subSlice _ start stop ih => exact ih.subSlice start stop
  | before _ q ih => exact ih.subSlice _ _
  | withPrefix _ q ih => exact ih.subSlice _ _
  | after _ q ih => exact ih.subSlice _ _
  | subSliceForPrefix _ q ih => exact ih.subSliceForPrefix q
  | withPrefixOffset _ hoffset ih => exact (ih.withPrefixOffset hoffset).1

private theorem mem_of_mem_subSlice (h : o.WF) {start stop : Nat} {e : OverlayEntry}
    (he : e ∈ (o.subSlice start stop).effectiveSlice) : e ∈ o.effectiveSlice := by
  obtain ⟨a, b, hab⟩ : ∃ a b, (o.subSlice start stop).effectiveSlice =
      (o.effectiveSlice.take b).drop a := ⟨_, _, slice_subSlice h start stop⟩
  rw [hab] at he
  exact List.mem_of_mem_take (List.mem_of_mem_drop he)

/-- What is cut out has only entries of the whole. -/
private theorem Derived.mem (hd : Derived o o') (h : o.WF) {e : OverlayEntry}
    (he : e ∈ o'.effectiveSlice) : e ∈ o.effectiveSlice := by
  induction hd with
  | refl => exact he
  | subSlice hd _ _ ih => exact ih (mem_of_mem_subSlice (hd.wf h) he)
  | before hd _ ih => exact ih (mem_of_mem_subSlice (hd.wf h) he)
  | withPrefix hd _ ih => exact ih (mem_of_mem_subSlice (hd.wf h) he)
  | after hd _ ih => exact ih (mem_of_mem_subSlice (hd.wf h) he)
  | subSliceForPrefix hd q ih =>
    rw [(hd.wf h).effectiveSlice_subSliceForPrefix] at he
    exact ih (mem_of_mem_subSlice (hd.wf h) he)
  | withPrefixOffset hd hoffset ih =>
    rw [((hd.wf h).withPrefixOffset hoffset).2] at he
    exact ih he

/-- A lookup finds the entry whose path is the one looked for, from the offset on. -/
private theorem WF.lookup_eq_some (h : o.WF) {v : Option OverlayValue} :
    o.lookup q = some v ↔ ∃ p, (p, v) ∈ o.effectiveSlice ∧ o.slicePath p = some q := by
  have heq (p : Nibbles) : o.compareWithOffset p q = .eq ↔ o.slicePath p = some q := by
    rw [slicePath_eq_some, compareWithOffset]
    split
    · next hshort => simp [Nat.not_le.mpr hshort]
    · next hlong => simp [comparePath_eq_eq, Nat.not_lt.mp hlong]
  obtain ⟨a, b, c, hl, ha, hb, hone, hsearch⟩ := binarySearchBy_of_pairwise (h.pairwise_compare q)
  have hmem (p : Nibbles) : (p, v) ∈ b ↔ (p, v) ∈ o.effectiveSlice ∧ o.slicePath p = some q := by
    rw [hb, List.mem_filter, decide_eq_true_eq, heq]
  simp only [← hmem]
  rw [lookup, hsearch]
  rcases b with _ | ⟨e, _ | ⟨e', b⟩⟩
  · simp
  · have hget : o.effectiveSlice[a.length]? = some e := by simp [hl]
    simp [hget, Prod.ext_iff, eq_comm]
  · simp at hone

/-- Cutting a slice by a prefix: its entries in order, of which the middle ones extend the prefix.
An offset that is not refused is one that any two entries share. -/
theorem subSliceByPrefix_partition (m : OverlayStateMut) {o : OverlayState}
    (hd : Derived m.freeze o) (q : Nibbles) :
    (o.subSliceByPrefix q).1.effectiveSlice ++ (o.subSliceByPrefix q).2.1.effectiveSlice ++
      (o.subSliceByPrefix q).2.2.effectiveSlice = o.effectiveSlice ∧
    (∀ e ∈ o.effectiveSlice, e ∈ (o.subSliceByPrefix q).2.1.effectiveSlice ↔
      ∃ adjusted, o.slicePath e.1 = some adjusted ∧ q <+: adjusted) ∧
    (∀ e ∈ (o.subSliceByPrefix q).1.effectiveSlice, ∀ adjusted,
      o.slicePath e.1 = some adjusted → comparePath adjusted q = .lt) ∧
    (∀ e ∈ (o.subSliceByPrefix q).2.2.effectiveSlice, ∃ adjusted,
      o.slicePath e.1 = some adjusted ∧ comparePath adjusted q = .gt ∧ ¬ q <+: adjusted) ∧
    (o.subSliceForPrefix q).effectiveSlice = (o.subSliceByPrefix q).2.1.effectiveSlice ∧
    (o.isEmpty = false → o.subSliceForPrefix q = (o.subSliceByPrefix q).2.1) ∧
    ∀ offset o', o.withPrefixOffset offset = some o' →
      o'.effectiveSlice = o.effectiveSlice ∧ o'.prefixOffset = o.prefixOffset + offset ∧
      (∀ x ∈ o.effectiveSlice, ∀ y ∈ o.effectiveSlice,
        x.1.take (o.prefixOffset + offset) = y.1.take (o.prefixOffset + offset)) ∧
      (1 < o.len → ∀ x ∈ o.effectiveSlice, o.prefixOffset + offset ≤ x.1.length) ∧
      o'.effectiveSlice.Pairwise fun x y ↦ ∃ a b, o'.slicePath x.1 = some a ∧
        o'.slicePath y.1 = some b ∧ comparePath a b = .lt := by
  have h := hd.wf m.freeze_spec.1
  obtain ⟨hfirst, hmiddle, hthird⟩ := h.subSliceByPrefix q
  refine ⟨h.partition q, ?_, ?_, ?_, h.effectiveSlice_subSliceForPrefix q,
    subSliceForPrefix_of_not_isEmpty, ?_⟩
  · intro e he
    rw [hmiddle, List.mem_filter, and_iff_right he]
    exact matching_iff
  · intro e he adjusted hadj
    rw [hfirst] at he
    rw [comparePath_eq_lt]
    exact (before_iff hadj).mp (List.mem_filter.mp he).2
  · intro e he
    rw [hthird] at he
    exact after_of_not_notAfter (List.mem_filter.mp he).2
  · intro offset o' ho
    obtain ⟨hwf, rfl⟩ := h.withPrefixOffset ho
    exact ⟨rfl, rfl, hwf.shared, hwf.le_length, hwf.pairwise_slicePath⟩

/-- Three changes below one nibble, cut behind it. -/
theorem subSliceByPrefix_partition_offset :
    let m := insertAll [([1, 3], none), ([1, 2, 4], some (.storage 5)), ([1, 2], none)]
    let o : OverlayState := { m.freeze with prefixOffset := 1 }
    m.freeze.withPrefixOffset 1 = some o ∧
    (o.subSliceByPrefix [2]).2.1.effectiveSlice =
      [([1, 2], none), ([1, 2, 4], some (.storage 5))] ∧
    (o.subSliceByPrefix [2]).1.effectiveSlice ++ (o.subSliceByPrefix [2]).2.1.effectiveSlice ++
      (o.subSliceByPrefix [2]).2.2.effectiveSlice = o.effectiveSlice := by
  intro m o
  have ho : m.freeze.withPrefixOffset 1 = some o := by decide +kernel
  refine ⟨ho, by decide +kernel, ?_⟩
  exact (subSliceByPrefix_partition m (.withPrefixOffset .refl ho) [2]).1

private theorem lookup_freeze (m : OverlayStateMut) (p : Nibbles) :
    m.freeze.lookup p = lastAt m.changes p := by
  obtain ⟨hwf, hoffset, hmem⟩ := m.freeze_spec
  ext v
  rw [hwf.lookup_eq_some, ← hmem]
  have hslice (p' : Nibbles) : m.freeze.slicePath p' = some p ↔ p' = p := by
    simp [slicePath_eq_some, hoffset]
  simp only [hslice, exists_eq_right]

/-- A frozen overlay has one entry for each path, in order, with the value of its last insert. Every
slice answers with it, from the offset on. -/
theorem freeze_keeps_last (writes : List OverlayEntry) :
    (insertAll writes).freeze.effectiveSlice.Pairwise (fun x y ↦ comparePath x.1 y.1 = .lt) ∧
    (∀ p, (insertAll writes).freeze.lookup p = none ↔ ∀ w ∈ writes, w.1 ≠ p) ∧
    (∀ earlier p v later, writes = earlier ++ (p, v) :: later → (∀ w ∈ later, w.1 ≠ p) →
      (insertAll writes).freeze.lookup p =
        some (if v = some (.storage 0) then none else v)) ∧
    ∀ o, Derived (insertAll writes).freeze o →
      (∀ e ∈ o.effectiveSlice, ∀ q, o.slicePath e.1 = some q →
        o.lookup q = (insertAll writes).freeze.lookup e.1) ∧
      ∀ q, o.lookup q = none ↔ ∀ e ∈ o.effectiveSlice, o.slicePath e.1 ≠ some q := by
  obtain ⟨hwf, -, hmem⟩ := (insertAll writes).freeze_spec
  have hlookup := lookup_freeze (insertAll writes)
  refine ⟨hwf.sorted, ?_, ?_, ?_⟩
  · intro p
    rw [hlookup, lastAt_eq_none, changes_insertAll, List.forall_mem_map]
  · intro earlier p v later hwrites hlater
    rw [hlookup, changes_insertAll, hwrites, List.map_append, List.map_cons]
    apply lastAt_split
    rw [List.forall_mem_map]
    exact hlater
  · intro o hd
    constructor
    · intro e he q hq
      rw [hlookup, (hmem e.1 e.2).mp (hd.mem hwf he), (hd.wf hwf).lookup_eq_some]
      exact ⟨e.1, he, hq⟩
    · intro q
      rw [Option.eq_none_iff_forall_ne_some]
      simp only [ne_eq, (hd.wf hwf).lookup_eq_some]
      constructor
      · exact fun hnone e he hq ↦ hnone e.2 ⟨e.1, he, hq⟩
      · rintro hnone v ⟨p, hp, hq⟩
        exact hnone (p, v) hp hq

end

end OverlayState

end TrieDb

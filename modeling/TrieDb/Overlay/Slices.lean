import TrieDb.Base.Left
import TrieDb.Overlay.State

/-!
# Slices of an overlay

The entries of a frozen overlay have strictly increasing paths, each with the value that was
inserted last. A slice of it is cut by a prefix into the entries before it, those that extend it and
those on its right: the two binary searches find the ends of the middle part, although they compare
by different rules.
-/

namespace TrieDb

open Base
open Engine (pathLe)

/-! ### The order of paths -/

section
variable {a b q : Nibbles}

/-- A path is at most another if it begins it or is to its left. -/
theorem pathLe_iff : pathLe a b = true ↔ a <+: b ∨ Left a b := by
  induction a generalizing b with
  | nil => simp
  | cons x a ih =>
    cases b with
    | nil => simp
    | cons y b =>
      rw [pathLe_cons_cons, ih, List.cons_prefix_cons, left_cons_cons]
      tauto

/-- Paths compare as equal when they are. -/
theorem comparePath_eq_eq : comparePath a b = .eq ↔ a = b := by
  unfold comparePath
  split
  · simpa
  · split <;> simpa

/-- Smaller paths are proper prefixes or to the left. -/
theorem comparePath_eq_lt : comparePath a b = .lt ↔ (a <+: b ∧ a ≠ b) ∨ Left a b := by
  unfold comparePath
  split
  · next h =>
    subst h
    simp [Left.irrefl]
  · next h =>
    split
    · next hle =>
      rw [pathLe_iff] at hle
      simpa [h] using hle
    · next hle =>
      rw [pathLe_iff] at hle
      simpa [h] using hle

/-- A path is greater than those that begin it and those to its left. -/
theorem comparePath_eq_gt : comparePath a b = .gt ↔ (b <+: a ∧ a ≠ b) ∨ Left b a := by
  have hexcl : ∀ o : Ordering, o = .gt ↔ o ≠ .eq ∧ o ≠ .lt := by
    intro o
    cases o <;> simp
  rw [hexcl, ne_eq, ne_eq, comparePath_eq_eq, comparePath_eq_lt]
  constructor
  · rintro ⟨hne, hlt⟩
    rw [not_or, not_and_not_right] at hlt
    rcases left_or_prefix a b with h | h | h | h
    · exact absurd h hlt.2
    · exact .inr h
    · exact absurd (hlt.1 h) hne
    · exact .inl ⟨h, hne⟩
  · rintro (⟨h, hne⟩ | h)
    · refine ⟨hne, ?_⟩
      rintro (⟨h', -⟩ | h')
      · exact hne (h'.eq_of_length (le_antisymm h'.length_le h.length_le))
      · exact h'.not_prefix_symm h
    · refine ⟨?_, ?_⟩
      · rintro rfl
        exact Left.irrefl a h
      · rintro (⟨h', -⟩ | h')
        · exact h.not_prefix_symm h'
        · exact h.asymm h'

/-- The test of `find_end_index_with_prefix`: the path is not on the right of the prefix. -/
private theorem pathLe_take_iff :
    pathLe (a.take (min a.length q.length)) q = true ↔ ¬ Left q a := by
  rw [pathLe_iff]
  have htake : a.take (min a.length q.length) <+: a := List.take_prefix _ _
  constructor
  · rintro (h | h) hq
    · by_cases hlen : a.length ≤ q.length
      · rw [Nat.min_eq_left hlen, List.take_length] at h
        exact hq.not_prefix_symm h
      · rw [Nat.min_eq_right (Nat.le_of_not_le hlen)] at h htake
        have heq : a.take q.length = q := h.eq_of_length (by rw [List.length_take]; omega)
        rw [heq] at htake
        exact hq.not_prefix htake
    · exact hq.asymm (h.of_prefix htake List.prefix_rfl)
  · intro hq
    rcases left_or_prefix (a.take (min a.length q.length)) q with h | h | h | h
    · exact .inr h
    · exact absurd (h.of_prefix List.prefix_rfl htake) hq
    · exact .inl h
    · have hlen := h.length_le
      rw [List.length_take] at hlen
      exact .inl ((h.eq_of_length (by rw [List.length_take]; omega)) ▸ List.prefix_rfl)

end

/-- A common beginning does not matter. -/
theorem comparePath_append (p a b : Nibbles) : comparePath (p ++ a) (p ++ b) = comparePath a b := by
  simp [comparePath]

/-- Less than a path that is less than another. -/
theorem comparePath_trans {a b c : Nibbles} (h : comparePath a b = .lt)
    (h' : comparePath b c = .lt) : comparePath a c = .lt := by
  rw [comparePath_eq_lt] at h h' ⊢
  rcases h with ⟨h, hne⟩ | h
  · rcases h' with ⟨h', -⟩ | h'
    · refine .inl ⟨h.trans h', ?_⟩
      rintro rfl
      exact hne (h.eq_of_length (le_antisymm h.length_le h'.length_le))
    · rcases left_or_prefix a c with h'' | h'' | h'' | h''
      · exact .inr h''
      · exact absurd (h''.of_prefix List.prefix_rfl h) h'.asymm
      · refine .inl ⟨h'', ?_⟩
        rintro rfl
        exact h'.not_prefix_symm h
      · exact absurd (h''.trans h) h'.not_prefix_symm
  · rcases h' with ⟨h', -⟩ | h'
    · exact .inr (h.of_prefix List.prefix_rfl h')
    · exact .inr (h.trans h')

/-! ### Slices -/

namespace OverlayState

variable {o o' : OverlayState} {q : Nibbles} {e : OverlayEntry}

/-- The range is one of the data; two entries have strictly increasing paths with the same beginning
up to the offset. -/
structure WF (o : OverlayState) : Prop where
  start_le : o.startIdx ≤ o.endIdx
  end_le : o.endIdx ≤ o.data.length
  increasing : o.effectiveSlice.Pairwise fun x y ↦ ∃ p a b, p.length = o.prefixOffset ∧
    x.1 = p ++ a ∧ y.1 = p ++ b ∧ comparePath a b = .lt

private theorem length_effectiveSlice (h : o.WF) : o.effectiveSlice.length = o.len := by
  rw [effectiveSlice, List.length_drop, List.length_take, len, Nat.min_eq_left h.end_le]

/-- A slice is empty exactly when it has no entries. -/
theorem isEmpty_iff (h : o.WF) : o.isEmpty = true ↔ o.effectiveSlice = [] := by
  rw [← List.length_eq_zero_iff, length_effectiveSlice h, isEmpty, len]
  simp only [decide_eq_true_eq]
  omega

/-- The entries of a part of a slice. -/
private theorem effectiveSlice_subSlice (h : o.WF) {start stop : Nat} (hle : start ≤ stop)
    (hstop : stop ≤ o.effectiveSlice.length) :
    (o.subSlice start stop).effectiveSlice = (o.effectiveSlice.take stop).drop start := by
  rw [length_effectiveSlice h] at hstop
  have hrange : o.startIdx + stop ≤ o.endIdx := by
    have := h.start_le
    rw [len] at hstop
    omega
  simp only [subSlice, effectiveSlice, Nat.min_eq_left hstop, Nat.min_eq_left hle]
  rw [List.take_drop, List.drop_drop, List.take_take, Nat.min_eq_left hrange]

/-- Indices out of range are cut. -/
theorem slice_subSlice (h : o.WF) (start stop : Nat) : (o.subSlice start stop).effectiveSlice =
    (o.effectiveSlice.take (min stop o.len)).drop (min start (min stop o.len)) := by
  have heq : o.subSlice start stop =
      o.subSlice (min start (min stop o.len)) (min stop o.len) := by
    simp [OverlayState.subSlice]
  rw [heq]
  apply effectiveSlice_subSlice h
  · exact Nat.min_le_right _ _
  · rw [length_effectiveSlice h]
    exact Nat.min_le_right _ _

/-- A part of a slice is well formed. -/
theorem WF.subSlice (h : o.WF) (start stop : Nat) : (o.subSlice start stop).WF := by
  constructor
  · simp only [OverlayState.subSlice]
    omega
  · have h₁ := h.start_le
    have h₂ := h.end_le
    simp only [OverlayState.subSlice, len]
    omega
  · rw [slice_subSlice h]
    exact h.increasing.sublist ((List.drop_sublist _ _).trans (List.take_sublist _ _))

/-- The entries of a slice are in strict order. -/
theorem WF.sorted (h : o.WF) :
    o.effectiveSlice.Pairwise fun x y ↦ comparePath x.1 y.1 = .lt := by
  refine h.increasing.imp fun {x y} ⟨p, a, b, _, hx, hy, hab⟩ ↦ ?_
  rw [hx, hy, comparePath_append]
  exact hab

/-- A path that compares as less is at most the other. -/
theorem pathLe_of_comparePath {a b : Nibbles} (h : comparePath a b = .lt) : pathLe a b = true := by
  rw [comparePath_eq_lt] at h
  rw [pathLe_iff]
  exact h.imp_left And.left

/-- All entries lie between the first and the last. -/
private theorem between {l : List OverlayEntry} {first last : OverlayEntry}
    (h : l.Pairwise fun x y ↦ comparePath x.1 y.1 = .lt) (hfirst : l.head? = some first)
    (hlast : l.getLast? = some last) :
    ∀ x ∈ l, pathLe first.1 x.1 = true ∧ pathLe x.1 last.1 = true := by
  intro x hx
  constructor
  · obtain ⟨rest, rfl⟩ := List.head?_eq_some_iff.mp hfirst
    rcases List.mem_cons.mp hx with rfl | hx
    · exact pathLe_refl _
    · exact pathLe_of_comparePath ((List.pairwise_cons.mp h).1 x hx)
  · obtain ⟨rest, rfl⟩ := List.getLast?_eq_some_iff.mp hlast
    rcases List.mem_append.mp hx with hx | hx
    · exact pathLe_of_comparePath
        ((List.pairwise_append.mp h).2.2 x hx last (List.mem_singleton_self _))
    · rw [List.mem_singleton.mp hx]
      exact pathLe_refl _

/-- What is checked of the first and the last path holds of all. -/
private theorem shared_of_ends {l : List OverlayEntry} {first last : OverlayEntry} {n : Nat}
    (h : l.Pairwise fun x y ↦ comparePath x.1 y.1 = .lt) (hfirst : l.head? = some first)
    (hlast : l.getLast? = some last)
    (hends : first.1.take n = last.1.take n) : ∀ x ∈ l, first.1.take n <+: x.1 := by
  intro x hx
  obtain ⟨hle, hle'⟩ := between h hfirst hlast x hx
  apply prefix_of_between (List.take_prefix n first.1) _ hle hle'
  rw [hends]
  exact List.take_prefix n last.1

/-- An offset that is not refused is one up to which any two entries have the same nibbles. -/
theorem WF.withPrefixOffset {offset : Nat} (h : o.WF) (ho : o.withPrefixOffset offset = some o') :
    o'.WF ∧ o' = { o with prefixOffset := o.prefixOffset + offset } := by
  unfold OverlayState.withPrefixOffset at ho
  dsimp only at ho
  split at ho
  · obtain ⟨first, hfirst, ho⟩ := Option.bind_eq_some_iff.mp ho
    obtain ⟨last, hlast, ho⟩ := Option.bind_eq_some_iff.mp ho
    split at ho
    · cases ho
    · next hshort =>
      split at ho
      · cases ho
      · next hends =>
        cases ho
        rw [not_or, Nat.not_lt, Nat.not_lt] at hshort
        have hshared := shared_of_ends h.sorted hfirst hlast (not_not.mp hends)
        refine ⟨⟨h.start_le, h.end_le, ?_⟩, rfl⟩
        refine h.sorted.imp_of_mem fun {x y} hx hy hxy ↦ ?_
        obtain ⟨a, ha⟩ := hshared x hx
        obtain ⟨b, hb⟩ := hshared y hy
        refine ⟨_, a, b, ?_, ha.symm, hb.symm, ?_⟩
        · rw [List.length_take]
          exact Nat.min_eq_left hshort.1
        · rwa [← ha, ← hb, comparePath_append] at hxy
  · next hone =>
    cases ho
    refine ⟨⟨h.start_le, h.end_le, ?_⟩, rfl⟩
    have hshort : o.effectiveSlice.length ≤ 1 := by
      rw [length_effectiveSlice h]
      omega
    show o.effectiveSlice.Pairwise _
    rcases hs : o.effectiveSlice with _ | ⟨x, _ | ⟨y, l⟩⟩
    · exact .nil
    · exact List.pairwise_singleton _ _
    · rw [hs] at hshort
      simp at hshort

/-! ### Cutting by a prefix -/

/-- The entry comes before the prefix, for `find_start_index_with_prefix`. -/
def before (o : OverlayState) (q : Nibbles) (e : OverlayEntry) : Bool :=
  o.compareWithOffset e.1 q = .lt

/-- The entry does not come after the extensions of the prefix, for `find_end_index_with_prefix`. -/
def notAfter (o : OverlayState) (q : Nibbles) (e : OverlayEntry) : Bool :=
  if e.1.length < o.prefixOffset then true
  else
    let adjusted := e.1.drop o.prefixOffset
    pathLe (adjusted.take (min adjusted.length q.length)) q

/-- A path is cut where it reaches the offset. -/
theorem slicePath_eq_some {path adjusted : Nibbles} : o.slicePath path = some adjusted ↔
    o.prefixOffset ≤ path.length ∧ path.drop o.prefixOffset = adjusted := by
  unfold slicePath
  split
  · next h => simp [Nat.not_le.mpr h]
  · next h => simp [Nat.not_lt.mp h]

section
variable {path adjusted : Nibbles} {v : Option OverlayValue}

/-- The entries before a prefix are those that begin it or are to its left. -/
theorem before_iff (h : o.slicePath path = some adjusted) :
    o.before q (path, v) = true ↔ (adjusted <+: q ∧ adjusted ≠ q) ∨ Left adjusted q := by
  obtain ⟨hlen, rfl⟩ := slicePath_eq_some.mp h
  rw [before, decide_eq_true_eq, compareWithOffset, if_neg (Nat.not_lt.mpr hlen), comparePath_eq_lt]

private theorem notAfter_iff (h : o.slicePath path = some adjusted) :
    o.notAfter q (path, v) = true ↔ ¬ Left q adjusted := by
  obtain ⟨hlen, rfl⟩ := slicePath_eq_some.mp h
  rw [notAfter, if_neg (Nat.not_lt.mpr hlen), pathLe_take_iff]

private theorem matches_iff (h : o.slicePath path = some adjusted) :
    (o.before q (path, v) = false ∧ o.notAfter q (path, v) = true) ↔ q <+: adjusted := by
  rw [← Bool.not_eq_true, before_iff h, notAfter_iff h, not_or, not_and_not_right]
  constructor
  · rintro ⟨⟨hp, hl⟩, hr⟩
    rcases left_or_prefix adjusted q with h' | h' | h' | h'
    · exact absurd h' hl
    · exact absurd h' hr
    · exact hp h' ▸ List.prefix_rfl
    · exact h'
  · intro hq
    refine ⟨⟨fun hp ↦ hp.eq_of_length (le_antisymm hp.length_le hq.length_le), ?_⟩, ?_⟩
    · exact fun hl ↦ hl.not_prefix_symm hq
    · exact fun hl ↦ hl.not_prefix hq

end

/-- A path that is shorter than the offset comes before every prefix. -/
private theorem before_of_short (h : o.slicePath e.1 = none) :
    o.before q e = true ∧ o.notAfter q e = true := by
  have hlen : e.1.length < o.prefixOffset := by
    by_contra hlen
    rw [slicePath, if_neg hlen] at h
    cases h
  constructor
  · rw [before, compareWithOffset, if_pos hlen]
    rfl
  · rw [notAfter, if_pos hlen]

/-- The middle part of a slice. -/
def matching (o : OverlayState) (q : Nibbles) (e : OverlayEntry) : Bool :=
  !o.before q e && o.notAfter q e

private theorem notAfter_of_before (h : o.before q e = true) : o.notAfter q e = true := by
  cases hs : o.slicePath e.1 with
  | none => exact (before_of_short hs).2
  | some adjusted =>
    obtain ⟨path, v⟩ := e
    rw [before_iff hs] at h
    rw [notAfter_iff hs]
    rcases h with ⟨h, -⟩ | h
    · exact fun hl ↦ hl.not_prefix_symm h
    · exact h.asymm

/-- Greater one way is less the other. -/
theorem comparePath_gt_iff {a b : Nibbles} : comparePath a b = .gt ↔ comparePath b a = .lt := by
  rw [comparePath_eq_gt, comparePath_eq_lt, ne_comm]

private theorem compareWithOffset_append {p a : Nibbles} (hp : p.length = o.prefixOffset) :
    o.compareWithOffset (p ++ a) q = comparePath a q := by
  rw [compareWithOffset, if_neg, ← hp, List.drop_left]
  rw [List.length_append]
  omega

/-- The comparisons of the search for the start are in order. -/
theorem WF.pairwise_compare (h : o.WF) (q : Nibbles) : o.effectiveSlice.Pairwise fun x y ↦
    o.compareWithOffset x.1 q = .lt ∨ o.compareWithOffset y.1 q = .gt := by
  refine h.increasing.imp fun {x y} ⟨p, a, b, hp, hx, hy, hab⟩ ↦ ?_
  rw [hx, hy, compareWithOffset_append hp, compareWithOffset_append hp, comparePath_gt_iff]
  cases haq : comparePath a q with
  | lt => exact .inl rfl
  | eq =>
    rw [comparePath_eq_eq] at haq
    subst haq
    exact .inr hab
  | gt =>
    rw [comparePath_gt_iff] at haq
    exact .inr (comparePath_trans haq hab)

/-- The tests of the search for the end are in order. -/
private theorem WF.pairwise_notAfter (h : o.WF) (q : Nibbles) : o.effectiveSlice.Pairwise fun x y ↦
    o.notAfter q y = true → o.notAfter q x = true := by
  refine h.increasing.imp fun {x y} ⟨p, a, b, hp, hx, hy, hab⟩ ↦ ?_
  have hadj (path c : Nibbles) (hpath : path = p ++ c) : o.slicePath path = some c := by
    rw [slicePath_eq_some, hpath, ← hp]
    exact ⟨by simp, List.drop_left⟩
  obtain ⟨x, v⟩ := x
  obtain ⟨y, w⟩ := y
  rw [notAfter_iff (hadj x a hx), notAfter_iff (hadj y b hy)]
  intro hb ha
  rw [comparePath_eq_lt] at hab
  rcases hab with ⟨hab, -⟩ | hab
  · exact hb (ha.of_prefix List.prefix_rfl hab)
  · exact hb (ha.trans hab)

private theorem WF.pairwise_before (h : o.WF) (q : Nibbles) : o.effectiveSlice.Pairwise fun x y ↦
    o.before q y = true → o.before q x = true := by
  refine (h.pairwise_compare q).imp fun {x y} hxy hy ↦ ?_
  rw [before, decide_eq_true_eq] at hy ⊢
  rcases hxy with hx | hy'
  · exact hx
  · rw [hy'] at hy
    cases hy

private theorem WF.findStart (h : o.WF) (q : Nibbles) :
    o.findStartIndexWithPrefix o.effectiveSlice q =
      (o.effectiveSlice.filter (o.before q)).length := by
  obtain ⟨a, b, c, -, ha, -, -, hsearch⟩ := binarySearchBy_of_pairwise (h.pairwise_compare q)
  rw [findStartIndexWithPrefix, hsearch]
  have hlen : a.length = (o.effectiveSlice.filter (o.before q)).length := by rw [ha]; rfl
  split
  · exact hlen
  · exact hlen

private theorem WF.findEnd (h : o.WF) (q : Nibbles) :
    o.findEndIndexWithPrefix o.effectiveSlice q =
      (o.effectiveSlice.filter (o.notAfter q)).length :=
  partitionPoint_eq_length (h.pairwise_notAfter q)

/-- A list without its first entries that pass a test. -/
private theorem drop_length_filter {test : OverlayEntry → Bool} {l : List OverlayEntry}
    (h : l.Pairwise fun x y ↦ test y = true → test x = true) :
    l.take (l.filter test).length = l.filter test ∧
      l.drop (l.filter test).length = l.filter fun x ↦ !test x := by
  have hsplit := filter_append_filter_not h
  constructor
  · exact (congrArg (List.take (l.filter test).length) hsplit.symm).trans List.take_left
  · exact (congrArg (List.drop (l.filter test).length) hsplit.symm).trans List.drop_left

/-- The entries that are not after the prefix. -/
private theorem filter_before_append_matching (h : o.WF) (q : Nibbles) :
    o.effectiveSlice.filter (o.before q) ++ o.effectiveSlice.filter (o.matching q) =
      o.effectiveSlice.filter (o.notAfter q) := by
  have hsub : (o.effectiveSlice.filter (o.notAfter q)).filter (o.before q) =
      o.effectiveSlice.filter (o.before q) := by
    rw [List.filter_filter]
    refine List.filter_congr fun e _ ↦ ?_
    cases hb : o.before q e with
    | false => rfl
    | true => rw [notAfter_of_before hb, Bool.and_self]
  have hpair : (o.effectiveSlice.filter (o.notAfter q)).Pairwise fun x y ↦
      o.before q y = true → o.before q x = true := (h.pairwise_before q).filter _
  have hsplit := filter_append_filter_not hpair
  rw [hsub, List.filter_filter] at hsplit
  exact hsplit

/-- The entries before the prefix, those that extend it and those after it. -/
theorem WF.subSliceByPrefix (h : o.WF) (q : Nibbles) :
    (o.subSliceByPrefix q).1.effectiveSlice = o.effectiveSlice.filter (o.before q) ∧
    (o.subSliceByPrefix q).2.1.effectiveSlice = o.effectiveSlice.filter (o.matching q) ∧
    (o.subSliceByPrefix q).2.2.effectiveSlice =
      o.effectiveSlice.filter fun e ↦ !o.notAfter q e := by
  obtain ⟨htake, -⟩ := drop_length_filter (h.pairwise_before q)
  obtain ⟨htake', hdrop'⟩ := drop_length_filter (h.pairwise_notAfter q)
  have hsplit := filter_before_append_matching h q
  have hle : (o.effectiveSlice.filter (o.before q)).length ≤
      (o.effectiveSlice.filter (o.notAfter q)).length := by
    rw [← hsplit, List.length_append]
    exact Nat.le_add_right _ _
  have hle' := List.length_filter_le (o.notAfter q) o.effectiveSlice
  simp only [OverlayState.subSliceByPrefix, h.findStart, h.findEnd]
  refine ⟨?_, ?_, ?_⟩
  · rw [effectiveSlice_subSlice h (Nat.zero_le _) (hle.trans hle'), List.drop_zero, htake]
  · rw [effectiveSlice_subSlice h hle hle', htake', ← hsplit, List.drop_left]
  · rw [effectiveSlice_subSlice h hle' (Nat.le_refl _), List.take_length, hdrop']

/-- The entries of the middle part. -/
theorem matching_iff : o.matching q e = true ↔
    ∃ adjusted, o.slicePath e.1 = some adjusted ∧ q <+: adjusted := by
  cases hs : o.slicePath e.1 with
  | none => simp [matching, before_of_short hs]
  | some adjusted =>
    have h := matches_iff (o := o) (q := q) (v := e.2) hs
    simpa [matching] using h

/-- The entries of the last part. -/
theorem after_of_not_notAfter (h : (!o.notAfter q e) = true) : ∃ adjusted,
    o.slicePath e.1 = some adjusted ∧ comparePath adjusted q = .gt ∧ ¬ q <+: adjusted := by
  rw [Bool.not_eq_true'] at h
  cases hs : o.slicePath e.1 with
  | none =>
    rw [(before_of_short hs).2] at h
    cases h
  | some adjusted =>
    have hleft : Left q adjusted := by
      by_contra hleft
      rw [show e = (e.1, e.2) from rfl, (notAfter_iff hs).mpr hleft] at h
      cases h
    exact ⟨adjusted, rfl, comparePath_eq_gt.mpr (.inr hleft), hleft.not_prefix⟩

/-- The three parts in order are the slice. -/
theorem WF.partition (h : o.WF) (q : Nibbles) :
    (o.subSliceByPrefix q).1.effectiveSlice ++ (o.subSliceByPrefix q).2.1.effectiveSlice ++
      (o.subSliceByPrefix q).2.2.effectiveSlice = o.effectiveSlice := by
  obtain ⟨hfirst, hmiddle, hthird⟩ := h.subSliceByPrefix q
  rw [hfirst, hmiddle, hthird, filter_before_append_matching h,
    filter_append_filter_not (h.pairwise_notAfter q)]

/-- The entries have the nibbles before the offset in common. -/
theorem WF.shared (h : o.WF) : ∀ x ∈ o.effectiveSlice, ∀ y ∈ o.effectiveSlice,
    x.1.take o.prefixOffset = y.1.take o.prefixOffset := by
  have hsymm : Std.Symm fun x y : OverlayEntry ↦
      x.1.take o.prefixOffset = y.1.take o.prefixOffset := ⟨fun _ _ hxy ↦ hxy.symm⟩
  have hpair : o.effectiveSlice.Pairwise fun x y ↦
      x.1.take o.prefixOffset = y.1.take o.prefixOffset := by
    refine h.increasing.imp fun {x y} ⟨p, a, b, hp, hx, hy, _⟩ ↦ ?_
    rw [hx, hy, ← hp, List.take_left, List.take_left]
  intro x hx y hy
  by_cases hxy : x = y
  · rw [hxy]
  · exact hpair.forall hx hy hxy

/-- Two entries are as long as the offset. -/
theorem WF.le_length (h : o.WF) (hlen : 1 < o.len) :
    ∀ x ∈ o.effectiveSlice, o.prefixOffset ≤ x.1.length := by
  have hinc := h.increasing
  rw [← length_effectiveSlice h] at hlen
  rcases hs : o.effectiveSlice with _ | ⟨x, _ | ⟨y, l⟩⟩
  · simp [hs] at hlen
  · simp [hs] at hlen
  · rw [hs] at hinc
    have hle : ∀ z ∈ y :: l, o.prefixOffset ≤ x.1.length ∧ o.prefixOffset ≤ z.1.length := by
      intro z hz
      obtain ⟨p, a, b, hp, hx, hz, -⟩ := (List.pairwise_cons.mp hinc).1 z hz
      rw [hx, hz, ← hp, List.length_append, List.length_append]
      exact ⟨Nat.le_add_right _ _, Nat.le_add_right _ _⟩
    intro z hz
    rcases List.mem_cons.mp hz with rfl | hz
    · exact (hle y List.mem_cons_self).1
    · exact (hle z hz).2

/-- The paths from the offset on are in order. -/
theorem WF.pairwise_slicePath (h : o.WF) : o.effectiveSlice.Pairwise fun x y ↦ ∃ a b,
    o.slicePath x.1 = some a ∧ o.slicePath y.1 = some b ∧ comparePath a b = .lt := by
  refine h.increasing.imp fun {x y} ⟨p, a, b, hp, hx, hy, hab⟩ ↦ ⟨a, b, ?_, ?_, hab⟩
  · rw [slicePath_eq_some, hx, ← hp]
    exact ⟨by simp, List.drop_left⟩
  · rw [slicePath_eq_some, hy, ← hp]
    exact ⟨by simp, List.drop_left⟩

end OverlayState

end TrieDb

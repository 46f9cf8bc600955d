import TrieDb.Trie.Changes

/-!
# Batches as map updates

A state is a partial map from paths to entries. A batch stores values and removes keys; removing an
account also removes the slots below its path. The order of a batch does not matter when its paths
are distinct and no delete lies above a stored value.
-/

namespace TrieDb

open Engine (Change Changes pathLe)

/-- What is stored at each path. -/
abbrev Entries := Nibbles → Option Entry

namespace Entries

/-- One change: a value is stored at its path, a delete removes what lies at or below its path. -/
def apply (f : Entries) (c : Change) : Entries :=
  match c.2 with
  | some v => Function.update f c.1 (some v.entry)
  | none => fun q ↦ if c.1 <+: q then none else f q

/-- A batch of changes, one after the other. -/
def update (f : Entries) (cs : Changes) : Entries := cs.foldl apply f

end Entries

/-- Whether a change decides what is stored at a path. -/
def Touches (c : Change) (q : Nibbles) : Prop := c.1 = q ∨ c.2 = none ∧ c.1 <+: q

/-- A sorted batch with distinct paths and no delete above a stored value. -/
structure Batch (cs : Changes) : Prop where
  sorted : Sorted cs
  distinct : (cs.map Prod.fst).Nodup
  alone : ∀ c ∈ cs, ∀ d ∈ cs, c.2 = none → d.2 ≠ none → ¬ c.1 <+: d.1

/-- Nothing is stored below a missing key that the batch deletes. -/
def Proper (f : Entries) (cs : Changes) : Prop :=
  ∀ p, (p, none) ∈ cs → f p = none → ∀ q, p <+: q → f q = none

/-- The batch stores another value at a path than the present one. -/
def Pending (f : Entries) (cs : Changes) (q : Nibbles) : Prop :=
  ∃ v, (q, some v) ∈ cs ∧ f q ≠ some v.entry

section
variable {f f' : Entries} {c d : Change} {cs ds es : Changes} {pre p q r : Nibbles} {v : TrieValue}
  {i : Fin 16} {g : Fin 16 → Changes}

/-! ### Paths of changes -/

/-- A change touches what is behind its path. -/
theorem Touches.isPrefix (h : Touches c q) : c.1 <+: q :=
  h.elim (fun h ↦ h ▸ List.prefix_rfl) And.right

/-- A value touches its path. -/
theorem touches_value : Touches (p, some v) q ↔ p = q := by simp [Touches]

/-- A deletion touches all that is behind its path. -/
theorem touches_delete : Touches (p, none) q ↔ p <+: q := by
  constructor
  · exact Touches.isPrefix
  · exact fun h ↦ .inr ⟨rfl, h⟩

private theorem touches_append : Touches (pre ++ p, c.2) (pre ++ q) ↔ Touches (p, c.2) q := by
  simp [Touches, List.prefix_append_right_inj]

/-- A path leaves a prefix, ends there or goes on. -/
theorem path_cases (pre q : Nibbles) : ¬ pre <+: q ∨ q = pre ∨ ∃ i r, q = pre ++ i :: r := by
  by_cases h : pre <+: q
  · obtain ⟨r, rfl⟩ := h
    cases r with
    | nil => exact .inr (.inl (List.append_nil pre))
    | cons i r => exact .inr (.inr ⟨i, r, rfl⟩)
  · exact .inl h

/-! ### Updates -/

namespace Entries

/-- The entry at a path that a change touches. -/
theorem apply_of_touches (h : Touches c q) : f.apply c q = c.2.map TrieValue.entry := by
  obtain ⟨p, v⟩ := c
  cases v with
  | none => simp [apply, touches_delete.mp h]
  | some v =>
    rw [touches_value] at h
    simp [apply, h]

/-- The entry at a path that a change does not touch. -/
theorem apply_of_not_touches (h : ¬ Touches c q) : f.apply c q = f q := by
  obtain ⟨p, v⟩ := c
  cases v with
  | none =>
    rw [touches_delete] at h
    simp [apply, h]
  | some v =>
    rw [touches_value] at h
    simp [apply, Function.update_of_ne (Ne.symm h)]

/-- Storing a value removes nothing. -/
theorem apply_value_ne_none (h : f q ≠ none) : f.apply (p, some v) q ≠ none := by
  by_cases hq : Touches (p, some v) q
  · rw [apply_of_touches hq]
    exact Option.some_ne_none _
  · rwa [apply_of_not_touches hq]

/-- Writing what is there changes nothing. -/
theorem apply_eq_self (h : f p = some v.entry) : f.apply (p, some v) = f := by
  simp [apply, ← h]

/-- The first change comes first. -/
@[simp] theorem update_cons : f.update (c :: cs) = (f.apply c).update cs := rfl

/-- One list of changes after the other. -/
theorem update_append : f.update (cs ++ ds) = (f.update cs).update ds := List.foldl_append

/-- The entry at a path that no change touches. -/
theorem update_of_not_touches (h : ∀ c ∈ cs, ¬ Touches c q) : f.update cs q = f q := by
  induction cs generalizing f with
  | nil => rfl
  | cons c cs ih =>
    rw [update_cons, ih fun d hd ↦ h d (List.mem_cons_of_mem _ hd),
      apply_of_not_touches (h c List.mem_cons_self)]

private theorem update_of_agree {x : Option TrieValue} (h : ∀ c ∈ cs, Touches c q → c.2 = x)
    (h₀ : f q = x.map TrieValue.entry ∨ ∃ c ∈ cs, Touches c q) :
    f.update cs q = x.map TrieValue.entry := by
  induction cs generalizing f with
  | nil => exact h₀.resolve_right (by simp)
  | cons c cs ih =>
    rw [update_cons]
    apply ih fun d hd ↦ h d (List.mem_cons_of_mem _ hd)
    by_cases hc : Touches c q
    · rw [apply_of_touches hc, h c List.mem_cons_self hc]
      exact .inl rfl
    · rw [apply_of_not_touches hc]
      refine h₀.imp id ?_
      rintro ⟨d, hd, hdq⟩
      rcases List.mem_cons.mp hd with rfl | hd
      · exact absurd hdq hc
      · exact ⟨d, hd, hdq⟩

end Entries

namespace Batch

/-- Fewer changes are a batch. -/
theorem sublist (h : Batch cs) (hs : List.Sublist ds cs) : Batch ds where
  sorted := h.sorted.sublist hs
  distinct := h.distinct.sublist (hs.map _)
  alone := fun c hc d hd ↦ h.alone c (hs.subset hc) d (hs.subset hd)

/-- The other changes are a batch. -/
theorem of_cons (h : Batch (c :: cs)) : Batch cs := h.sublist (List.sublist_cons_self c cs)

/-- The change at a path is determined. -/
private theorem eq_of_path (h : Batch cs) (hc : c ∈ cs) (hd : d ∈ cs) (hp : c.1 = d.1) : c = d :=
  List.inj_on_of_nodup_map h.distinct hc hd hp

/-- The changes that decide about a path agree. -/
private theorem agree (h : Batch cs) (hc : c ∈ cs) (hd : d ∈ cs) (hcq : Touches c q)
    (hdq : Touches d q) : c.2 = d.2 := by
  rcases hcq with hcq | ⟨hc', hcq⟩
  · rcases hdq with hdq | ⟨hd', hdq⟩
    · rw [h.eq_of_path hc hd (hcq.trans hdq.symm)]
    · by_contra hne
      exact h.alone d hd c hc hd' (fun h ↦ hne (h.trans hd'.symm)) (hcq ▸ hdq)
  · rcases hdq with hdq | ⟨hd', -⟩
    · by_contra hne
      exact h.alone c hc d hd hc' (fun h ↦ hne (hc'.trans h.symm)) (hdq ▸ hcq)
    · rw [hc', hd']

/-- The one change that touches a path decides its entry. -/
theorem update_of_touches (h : Batch cs) (hc : c ∈ cs) (hq : Touches c q) :
    f.update cs q = c.2.map TrieValue.entry :=
  Entries.update_of_agree (fun _ hd hdq ↦ h.agree hd hc hdq hq) (.inr ⟨c, hc, hq⟩)

/-- A value of the batch is its entry. -/
theorem update_of_value (h : Batch cs) (hc : (q, some v) ∈ cs) :
    f.update cs q = some v.entry :=
  h.update_of_touches hc (.inl rfl)

/-- The order of the changes does not matter. -/
theorem update_perm (h : Batch cs) (hp : cs.Perm ds) : f.update ds = f.update cs := by
  funext q
  by_cases hmem : ∃ c ∈ cs, Touches c q
  · obtain ⟨c, hc, hcq⟩ := hmem
    rw [h.update_of_touches hc hcq]
    exact Entries.update_of_agree (fun d hd hdq ↦ h.agree (hp.symm.subset hd) hc hdq hcq)
      (.inr ⟨c, hp.subset hc, hcq⟩)
  · rw [Entries.update_of_not_touches fun d hd hdq ↦ hmem ⟨d, hp.symm.subset hd, hdq⟩,
      Entries.update_of_not_touches fun d hd hdq ↦ hmem ⟨d, hd, hdq⟩]

/-! Parts of a batch -/

/-- A prefix before all paths keeps a batch. -/
theorem under_iff : Batch (under pre cs) ↔ Batch cs := by
  have hmap : (under pre cs).map Prod.fst = (cs.map Prod.fst).map (pre ++ ·) := by
    simp [under, List.map_map]
  constructor
  · intro h
    refine ⟨Sorted.under_iff.mp h.sorted, ?_, fun c hc d hd hcn hdn hp ↦ ?_⟩
    · have := h.distinct
      rw [hmap] at this
      exact this.of_map _
    · exact h.alone _ (mem_under.mpr ⟨c, hc, rfl⟩) _ (mem_under.mpr ⟨d, hd, rfl⟩) hcn hdn
        ((List.prefix_append_right_inj pre).mpr hp)
  · intro h
    refine ⟨Sorted.under_iff.mpr h.sorted, ?_, fun c hc d hd hcn hdn hp ↦ ?_⟩
    · rw [hmap]
      exact h.distinct.map fun a b hab ↦ List.append_cancel_left hab
    · obtain ⟨c', hc', rfl⟩ := mem_under.mp hc
      obtain ⟨d', hd', rfl⟩ := mem_under.mp hd
      exact h.alone c' hc' d' hd' hcn hdn ((List.prefix_append_right_inj pre).mp hp)

/-- The changes of a group are a batch. -/
theorem of_regroup (h : Batch (regroup pre g)) (i : Fin 16) : Batch (g i) := by
  have hs : List.Sublist (under (pre ++ [i]) (g i)) (regroup pre g) :=
    List.sublist_flatten_of_mem (List.mem_map_of_mem (List.mem_finRange i))
  exact under_iff.mp (h.sublist hs)

end Batch

/-- The changes of all groups. -/
theorem mem_regroup : c ∈ regroup pre g ↔ ∃ i, ∃ d ∈ g i, c = (pre ++ i :: d.1, d.2) := by
  simp only [regroup, List.mem_flatMap, List.mem_finRange, true_and, mem_under]
  simp

/-- A change behind the prefix is in its group. -/
theorem mem_regroup_append {x : Option TrieValue} :
    (pre ++ i :: r, x) ∈ regroup pre g ↔ (r, x) ∈ g i := by
  rw [mem_regroup]
  constructor
  · rintro ⟨j, d, hd, hc⟩
    obtain ⟨hpath, hx⟩ := Prod.mk.inj hc
    obtain ⟨hj, hr⟩ := List.cons.inj (List.append_cancel_left hpath)
    rw [hj, hr, hx]
    exact hd
  · exact fun h ↦ ⟨i, _, h, rfl⟩

namespace Entries

/-- Changes with a prefix before them update what is behind the prefix. -/
theorem update_under : f.update (under pre cs) (pre ++ r) = update (fun r ↦ f (pre ++ r)) cs r := by
  induction cs generalizing f with
  | nil => rfl
  | cons c cs ih =>
    have happly :
        (fun r ↦ f.apply (pre ++ c.1, c.2) (pre ++ r)) = apply (fun r ↦ f (pre ++ r)) c := by
      funext r
      by_cases h : Touches c r
      · rw [apply_of_touches h, apply_of_touches (touches_append.mpr h)]
      · rw [apply_of_not_touches h, apply_of_not_touches fun h' ↦ h (touches_append.mp h')]
    rw [update_cons, ← happly]
    exact ih

/-- What is stored at the empty path does not matter elsewhere. -/
theorem update_congr_below (h : ∀ j s, f (j :: s) = f' (j :: s)) :
    f.update cs (i :: r) = f'.update cs (i :: r) := by
  induction cs generalizing f f' with
  | nil => exact h i r
  | cons c cs ih =>
    apply ih
    intro j s
    by_cases hc : Touches c (j :: s)
    · rw [apply_of_touches hc, apply_of_touches hc]
    · rw [apply_of_not_touches hc, apply_of_not_touches hc, h]

/-- Changes below a prefix leave the other paths alone. -/
theorem update_under_outside (h : ¬ pre <+: q) : f.update (under pre cs) q = f q := by
  apply update_of_not_touches
  intro c hc hcq
  obtain ⟨d, -, rfl⟩ := mem_under.mp hc
  exact h ((List.prefix_append pre d.1).trans hcq.isPrefix)

end Entries

/-- The changes for one child of a branch decide what it stores. -/
theorem Batch.update_regroup (h : Batch (regroup pre g)) :
    f.update (regroup pre g) (pre ++ i :: r) =
      Entries.update (fun r ↦ f (pre ++ i :: r)) (g i) r := by
  have htouch {j : Fin 16} {d : Change} :
      Touches (pre ++ j :: d.1, d.2) (pre ++ i :: r) ↔ j = i ∧ Touches d r := by
    simp only [Touches, List.prefix_append_right_inj, List.cons_prefix_cons,
      List.append_cancel_left_eq,
      List.cons.injEq]
    tauto
  by_cases hmem : ∃ d ∈ g i, Touches d r
  · obtain ⟨d, hd, hdr⟩ := hmem
    rw [(h.of_regroup i).update_of_touches hd hdr]
    have hd' : (pre ++ i :: d.1, d.2) ∈ regroup pre g := mem_regroup.mpr ⟨i, d, hd, rfl⟩
    exact h.update_of_touches (c := (pre ++ i :: d.1, d.2)) hd' (htouch.mpr ⟨rfl, hdr⟩)
  · rw [Entries.update_of_not_touches fun d hd hdr ↦ hmem ⟨d, hd, hdr⟩]
    apply Entries.update_of_not_touches
    intro c hc hcq
    obtain ⟨j, d, hd, rfl⟩ := mem_regroup.mp hc
    obtain ⟨rfl, hdr⟩ := htouch.mp hcq
    exact hmem ⟨d, hd, hdr⟩

/-! ### Changes without effect -/

/-- Applying again what has been applied already. -/
private theorem Batch.update_update (h : Batch cs) (hs : ∀ c ∈ es, c ∈ cs) (hcs : ∀ c ∈ ds, c ∈ cs)
    (hall : ∀ c ∈ cs, c ∈ ds ∨ c ∈ es) : (f.update ds).update es = f.update cs := by
  funext q
  by_cases hmem : ∃ c ∈ cs, Touches c q
  · obtain ⟨c, hc, hcq⟩ := hmem
    rw [h.update_of_touches hc hcq]
    apply Entries.update_of_agree fun d hd hdq ↦ h.agree (hs d hd) hc hdq hcq
    rcases hall c hc with hc' | hc'
    · exact .inl (Entries.update_of_agree (fun d hd hdq ↦ h.agree (hcs d hd) hc hdq hcq)
        (.inr ⟨c, hc', hcq⟩))
    · exact .inr ⟨c, hc', hcq⟩
  · rw [Entries.update_of_not_touches fun d hd hdq ↦ hmem ⟨d, hs d hd, hdq⟩,
      Entries.update_of_not_touches fun d hd hdq ↦ hmem ⟨d, hcs d hd, hdq⟩,
      Entries.update_of_not_touches fun d hd hdq ↦ hmem ⟨d, hd, hdq⟩]

/-- A restart with the changes from `n` on, when at least the first `n` have been applied. -/
theorem Batch.update_restart {n k : Nat} (h : Batch cs) (hnk : n ≤ k) :
    (f.update (cs.take k)).update (cs.drop n) = f.update cs := by
  apply h.update_update (fun c hc ↦ List.mem_of_mem_drop hc) fun c hc ↦ List.mem_of_mem_take hc
  intro c hc
  rw [← List.take_append_drop k cs, List.mem_append] at hc
  rcases hc with hc | hc
  · exact .inl hc
  · refine .inr (List.drop_subset_drop_left cs hnk hc)

/-- A part of the batch stores nothing at a key that the batch deletes. -/
theorem Batch.update_eq_none (h : Batch cs) (hp : (p, none) ∈ cs) (hds : ∀ c ∈ ds, c ∈ cs)
    (hf : f p = none) : f.update ds p = none :=
  Entries.update_of_agree (x := none)
    (fun d hd hdp ↦ h.agree (hds d hd) hp hdp (.inl rfl)) (.inl hf)

/-- Nothing above a stored value is removed. -/
theorem Batch.update_ne_none (h : Batch cs) (hq : (q, some v) ∈ cs) (hr : r <+: q)
    (hds : ∀ c ∈ ds, c ∈ cs) (hf : f r ≠ none) : f.update ds r ≠ none := by
  by_cases hmem : ∃ c ∈ ds, Touches c r
  · obtain ⟨c, hc, hcr⟩ := hmem
    have hval : ∀ d ∈ ds, Touches d r → d.2 = c.2 :=
      fun d hd hdr ↦ h.agree (hds d hd) (hds c hc) hdr hcr
    rw [Entries.update_of_agree hval (.inr ⟨c, hc, hcr⟩)]
    intro hnone
    rw [Option.map_eq_none_iff] at hnone
    exact h.alone c (hds c hc) _ hq hnone (by simp) (hcr.isPrefix.trans hr)
  · rwa [Entries.update_of_not_touches fun c hc hcr ↦ hmem ⟨c, hc, hcr⟩]

namespace Proper

/-- Fewer changes are proper. -/
theorem mono (h : Proper f cs) (hs : ∀ c ∈ ds, c ∈ cs) : Proper f ds :=
  fun p hp ↦ h p (hs _ hp)

private theorem of_cons (h : Proper f (c :: cs)) :
    Proper f cs := h.mono fun _ ↦ List.mem_cons_of_mem c

/-- A delete of a missing key has no effect. -/
theorem apply_eq (h : Proper f cs) (hp : (p, none) ∈ cs) (hf : f p = none) :
    f.apply (p, none) = f := by
  funext q
  by_cases hpq : p <+: q
  · rw [Entries.apply_of_touches (touches_delete.mpr hpq), h p hp hf q hpq]
    rfl
  · exact Entries.apply_of_not_touches fun h ↦ hpq (touches_delete.mp h)

/-- A part of the batch may be applied first. -/
theorem update (h : Proper f cs) (hb : Batch cs) (hds : ∀ c ∈ ds, c ∈ cs) :
    Proper (f.update ds) cs := by
  intro p hp hf q hpq
  by_cases hq : ∃ c ∈ ds, Touches c q
  · obtain ⟨c, hc, hcq⟩ := hq
    have hcp : c.2 = none := hb.agree (hds c hc) hp hcq (touches_delete.mpr hpq)
    rw [Entries.update_of_agree (fun d hd hdq ↦
      hb.agree (hds d hd) hp hdq (touches_delete.mpr hpq)) (.inr ⟨c, hc, hcq⟩)]
    rfl
  · have hq' : ∀ c ∈ ds, ¬ Touches c q := fun c hc hcq ↦ hq ⟨c, hc, hcq⟩
    rw [Entries.update_of_not_touches hq']
    refine h p hp ?_ q hpq
    rwa [Entries.update_of_not_touches] at hf
    intro c hc hcp
    have hcn : c.2 = none := hb.agree (hds c hc) hp hcp (touches_delete.mpr List.prefix_rfl)
    exact hq' c hc (.inr ⟨hcn, hcp.isPrefix.trans hpq⟩)

/-- After the first change the others are proper. -/
theorem apply (h : Proper f (c :: cs)) (hb : Batch (c :: cs)) : Proper (f.apply c) cs := by
  have hc : ∀ d ∈ [c], d ∈ c :: cs := by simp
  exact (h.update hb hc).of_cons

/-- Deletes of missing keys have no effect. -/
theorem update_eq (h : Proper f cs) (hcs : ∀ c ∈ cs, c.2 = none ∧ f c.1 = none) :
    f.update cs = f := by
  induction cs with
  | nil => rfl
  | cons c cs ih =>
    obtain ⟨p, v⟩ := c
    obtain ⟨rfl, hf⟩ := hcs _ List.mem_cons_self
    rw [Entries.update_cons, h.apply_eq List.mem_cons_self hf]
    exact ih h.of_cons fun d hd ↦ hcs d (List.mem_cons_of_mem _ hd)

end Proper

/-! ### Values to store -/

namespace Pending

private theorem mono (h : Pending f ds q) (hs : ∀ c ∈ ds, c ∈ cs) : Pending f cs q := by
  obtain ⟨v, hv, hne⟩ := h
  exact ⟨v, hs _ hv, hne⟩

/-- Counting less leaves more to do. -/
theorem drop_append {k : Nat} (ds : Changes) (h : Pending f (cs.drop k) q) :
    Pending f ((ds ++ cs).drop k) q := by
  have hd := List.drop_subset_drop_left (ds ++ cs) (Nat.le_add_left k ds.length)
  rw [List.drop_length_add_append] at hd
  exact h.mono hd

/-- What is pending stays so with a change before. -/
theorem drop_cons {k : Nat} (c : Change) (h : Pending f (cs.drop k) q) :
    Pending f ((c :: cs).drop k) q :=
  h.drop_append [c]

/-- What is pending stays so with changes behind. -/
theorem drop_append_right {k : Nat} (ds : Changes) (h : Pending f (cs.drop k) q) :
    Pending f ((cs ++ ds).drop k) q := by
  rw [List.drop_append]
  exact h.mono fun c ↦ List.mem_append_left _

end Pending

/-- No value is left when the batch has no effect. -/
theorem Batch.not_pending (h : Batch cs) (hf : f.update cs = f) : ¬ Pending f cs q := by
  rintro ⟨v, hv, hne⟩
  apply hne
  rw [← hf]
  exact h.update_of_value hv

end

end TrieDb

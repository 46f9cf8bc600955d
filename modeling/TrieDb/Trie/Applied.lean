import TrieDb.Trie.Fresh
import TrieDb.Trie.Stall

/-!
# Whole batches

What a batch does to a trie in which every branch has two children and every node is embedded by
its reference: the same holds afterwards, and the contents are updated.
-/

namespace TrieDb

open Engine (Change Changes pathLe)
open Trie

/-! ### Finished tries -/

namespace Trie

variable {α β : Type}

/-- Every branch has at least two children. -/
def Branched : Trie α → Prop
  | empty => True
  | node _ _ _ kind ch => (kind = .branch → 2 ≤ (occupied ch).length) ∧ ∀ i, (ch i).Branched

/-- Every node is embedded by the reference its contents have. -/
def Hashed [AlloyTrie] : Trie α → Prop
  | empty => True
  | node _ ref pre kind ch => (ref = kind.rlp pre fun i ↦ (ch i).ref?) ∧ ∀ i, (ch i).Hashed

/-- New tags keep the occupied children. -/
@[simp] theorem occupied_map (f : α → β) (ch : Fin 16 → Trie α) :
    occupied (fun i ↦ (ch i).map f) = occupied ch := by
  simp [occupied]

/-- New tags keep the depths. -/
theorem rough_map {f : α → β} {t : Trie α} {l : Level} {n : Nat} :
    (t.map f).Rough l n ↔ t.Rough l n := by
  induction t generalizing l n with
  | empty => exact Iff.rfl
  | node tag ref pre kind ch ih =>
    cases kind with
    | leaf e => simp only [map, rough_leaf, ne_eq, map_eq_empty, ih]
    | branch => simp only [map, rough_branch, ih]

/-- New tags keep the branches. -/
theorem branched_map {f : α → β} {t : Trie α} : (t.map f).Branched ↔ t.Branched := by
  induction t with
  | empty => exact Iff.rfl
  | node tag ref pre kind ch ih => simp only [map, Branched, occupied_map, ih]

/-- New tags keep the references. -/
theorem hashed_map [AlloyTrie] {f : α → β} {t : Trie α} : (t.map f).Hashed ↔ t.Hashed := by
  induction t with
  | empty => exact Iff.rfl
  | node tag ref pre kind ch ih => simp only [map, Hashed, ref?_map, ih]

private theorem tidy_false {P : RlpNode → Nibbles → Kind → (Fin 16 → Trie Bool) → Prop} {tag : Bool}
    {ref : RlpNode} {pre : Nibbles} {kind : Kind} {ch : Fin 16 → Trie Bool} :
    ((node tag ref pre kind ch).Tidy P fun _ ↦ False) ↔
      P ref pre kind ch ∧ ∀ i, (ch i).Tidy P fun _ ↦ False := by
  constructor
  · rintro ⟨h, hch⟩
    refine ⟨h.resolve_right fun ⟨_, _, hr⟩ ↦ hr, fun i ↦ (hch i).of_not ?_⟩
    rintro q ⟨-, hq⟩
    cases kind with
    | leaf e => exact hq.2
    | branch => exact hq
  · rintro ⟨h, hch⟩
    exact ⟨.inl h, fun i ↦ (hch i).of_false⟩

private theorem full_iff {t : Trie Bool} : t.Full ↔ t.Branched := by
  induction t with
  | empty => exact Iff.rfl
  | node tag ref pre kind ch ih =>
    rw [Full, tidy_false, Branched]
    exact and_congr Iff.rfl (forall_congr' ih)

private theorem fresh_iff [AlloyTrie] {t : Trie Bool} :
    (t.Tidy Fresh fun _ ↦ False) ↔ t.Hashed := by
  induction t with
  | empty => exact Iff.rfl
  | node tag ref pre kind ch ih =>
    rw [tidy_false, Hashed]
    exact and_congr Iff.rfl (forall_congr' ih)

private theorem branched_leaf [AlloyTrie] {tag : α} {path : Nibbles} {e : Entry} :
    (leaf tag path e).Branched :=
  ⟨(fun h ↦ by cases h), fun _ ↦ trivial⟩

private theorem hashed_leaf [AlloyTrie] {tag : α} {path : Nibbles} {e : Entry} :
    (leaf tag path e).Hashed :=
  ⟨rfl, fun _ ↦ trivial⟩

/-- Values are stored at the lengths of accounts and of slots. -/
theorem Rough.admits {t : Trie α} {l : Level} {n : Nat} {q : Nibbles} {e : Entry} (h : t.Rough l n)
    (hq : t.lookup q = some e) : l.Admits n q.length e := by
  induction t generalizing l n q with
  | empty => cases hq
  | node tag ref pre kind ch ih =>
    rcases path_cases pre q with hp | rfl | ⟨i, r, rfl⟩
    · rw [lookup_outside hp] at hq
      cases hq
    · cases kind with
      | leaf e' =>
        rw [lookup_leaf_self, Option.some.injEq] at hq
        exact hq ▸ h.1
      | branch =>
        rw [lookup_branch_self] at hq
        cases hq
    · rcases kind with (info | v) | _
      · rw [lookup_account_append] at hq
        have hadmits := ih 0 (h.2.2 0) hq
        have hpre := h.1.2
        cases e with
        | account info' => cases hadmits.1
        | slot v =>
          have hlen : (i :: r).length = 64 := hadmits
          show (pre ++ i :: r).length = n
          rw [List.length_append]
          omega
      · rw [lookup_slot_append] at hq
        cases hq
      · rw [lookup_branch_append] at hq
        have hadmits := ih i (h.2 i) hq
        have hpre := h.1
        cases e with
        | account info =>
          refine ⟨hadmits.1, ?_⟩
          have hlen := hadmits.2
          rw [List.length_append, List.length_cons]
          omega
        | slot v =>
          have hlen : r.length = n - pre.length - 1 := hadmits
          show (pre ++ i :: r).length = n
          rw [List.length_append, List.length_cons]
          omega

end Trie

/-! ### Contents and batches -/

/-- Slots are stored under accounts only; `n` nibbles are left to the end of a slot. -/
def Housed (n : Nat) (f : Entries) : Prop :=
  ∀ a s, a.length + 64 = n → s ≠ [] → f (a ++ s) ≠ none → f a ≠ none

/-- All keys have the length of an account or of a slot. -/
def Keyed (f : Entries) : Prop := ∀ q, f q ≠ none → q.length = 64 ∨ q.length = 128

/-- A batch as `set_values` expects it: distinct paths of accounts and slots, no account deleted
together with a value for one of its slots, and values for slots only under accounts that exist or
are stored by the batch. -/
structure Admissible (f : Entries) (changes : Changes) : Prop where
  fits : Fits .accounts 128 changes
  distinct : (changes.map Prod.fst).Nodup
  alone : ∀ a s v, a.length = 64 → s ≠ [] → (a, none) ∈ changes → (a ++ s, some v) ∉ changes
  grounded : Grounded 128 f changes

/-- An account without slots gets exactly one, and a later one of its slots is deleted. -/
def Stalls (f : Entries) (changes : Changes) : Prop :=
  ∃ a s p v, a.length = 64 ∧ s ≠ [] ∧ p ≠ [] ∧ (a ++ s, some v) ∈ changes ∧
    (a ++ p, none) ∈ changes ∧ pathLe s p = true ∧ (∀ q, q ≠ [] → f (a ++ q) = none) ∧
    ∀ s' v', s' ≠ [] → (a ++ s', some v') ∈ changes → s' = s

section
variable {f : Entries} {changes cs : Changes} {t : Trie Bool} {n : Nat}

/-- A trie with its leaves at their depths has accounts and slots at their paths. -/
theorem Trie.Rough.keyed {α : Type} {t : Trie α} (h : t.Rough .accounts 128) : Keyed t.lookup := by
  intro q hq
  obtain ⟨e, he⟩ := Option.ne_none_iff_exists'.mp hq
  have hadmits := h.admits he
  cases e with
  | account info =>
    have := hadmits.2
    omega
  | slot v => exact .inr hadmits

/-- The lengths of the paths of a batch. -/
theorem Fits.length (h : Fits .accounts 128 changes) {c : Change} (hc : c ∈ changes) :
    c.1.length = 64 ∨ c.1.length = 128 := by
  obtain ⟨e, he, -⟩ := h c hc
  cases e with
  | account a =>
    have := he.2
    omega
  | slot v =>
    have : c.1.length = 128 := he
    omega

namespace Admissible

/-- An admissible batch is one when it is sorted. -/
theorem batch (h : Admissible f changes) : Batch (sortChanges changes) := by
  refine ⟨sorted_sortChanges changes, ?_, ?_⟩
  · exact ((List.perm_insertionSort _ changes).map Prod.fst).nodup_iff.mpr h.distinct
  · rintro ⟨p, x⟩ hc ⟨q, y⟩ hd hx hy hpq
    rw [mem_sortChanges] at hc hd
    obtain ⟨s, rfl⟩ := hpq
    have hp := h.fits.length hc
    have hq := h.fits.length hd
    simp only [List.length_append] at hp hq
    simp only at hx
    subst hx
    obtain ⟨v, rfl⟩ := Option.ne_none_iff_exists'.mp hy
    by_cases hs : s = []
    · subst hs
      rw [List.append_nil] at hd
      have := List.inj_on_of_nodup_map h.distinct hc hd rfl
      cases this
    · have hpos := List.length_pos_iff.mpr hs
      exact h.alone p s v (by omega) hs hc hd

/-- A delete of a missing account has nothing below it. -/
private theorem proper (h : Admissible f changes) (hh : Housed 128 f) (hf : Keyed f) :
    Proper f (sortChanges changes) := by
  intro p hp hnone q hpq
  by_contra hq
  rw [mem_sortChanges] at hp
  obtain ⟨s, rfl⟩ := hpq
  have hlp := h.fits.length hp
  have hlq := hf _ hq
  simp only [List.length_append] at hlp hlq
  by_cases hs : s = []
  · subst hs
    rw [List.append_nil] at hq
    exact hq hnone
  · have hpos := List.length_pos_iff.mpr hs
    exact hh p s (by omega) hs hq hnone

/-- The batch in the order of its paths suits the trie. -/
theorem suits (h : Admissible t.lookup changes) (ht : t.Rough .accounts 128)
    (hh : Housed 128 t.lookup) : Suits .accounts 128 t (sortChanges changes) where
  rough := ht
  fits := h.fits.mono fun _ ↦ mem_sortChanges.mp
  batch := h.batch
  proper := h.proper hh ht.keyed

/-- Sorting an admissible batch does not change what it does. -/
theorem update_sortChanges (h : Admissible f changes) :
    f.update (sortChanges changes) = f.update changes :=
  (h.batch.update_perm (List.perm_insertionSort _ changes)).symm

/-- Slots stay under accounts. -/
theorem housed (h : Admissible f changes) (hh : Housed 128 f) : Housed 128 (f.update changes) := by
  rw [← h.update_sortChanges]
  intro a s ha hs hne
  by_cases hslot : ∃ c ∈ sortChanges changes, Touches c (a ++ s)
  · obtain ⟨⟨p, x⟩, hc, hq⟩ := hslot
    rw [h.batch.update_of_touches hc hq] at hne
    obtain ⟨v, rfl⟩ : ∃ v, x = some v := by
      cases x with
      | none => exact absurd rfl hne
      | some v => exact ⟨v, rfl⟩
    rw [touches_value] at hq
    subst hq
    rcases h.grounded a s v ha hs (mem_sortChanges.mp hc) with hf | ⟨w, hw⟩
    · exact h.batch.update_ne_none hc (List.prefix_append a s) (fun _ ↦ id) hf
    · rw [h.batch.update_of_value (mem_sortChanges.mpr hw)]
      exact Option.some_ne_none _
  · rw [not_exists] at hslot
    have hslot (c : Change) (hc : c ∈ sortChanges changes) : ¬ Touches c (a ++ s) :=
      fun hq ↦ hslot c ⟨hc, hq⟩
    rw [Entries.update_of_not_touches hslot] at hne
    have hfa := hh a s ha hs hne
    by_cases hacc : ∃ c ∈ sortChanges changes, Touches c a
    · obtain ⟨⟨p, x⟩, hc, hq⟩ := hacc
      rw [h.batch.update_of_touches hc hq]
      cases x with
      | none =>
        exact absurd (touches_delete.mpr (hq.isPrefix.trans (List.prefix_append a s))) (hslot _ hc)
      | some v => exact Option.some_ne_none _
    · rw [Entries.update_of_not_touches fun c hc hq ↦ hacc ⟨c, hc, hq⟩]
      exact hfa

end Admissible

/-- Where a batch does not stall, the recursion does not. -/
theorem noStall_of_not_stalls (h : ¬ Stalls t.lookup changes) (ht : t.Rough .accounts 128)
    (hh : Housed 128 t.lookup) : NoStall 128 t (sortChanges changes) := by
  intro a s p v ha hs hp hsv hpn hle
  by_contra hcon
  rw [not_or, not_not] at hcon
  rw [mem_sortChanges] at hsv hpn
  apply h
  refine ⟨a, s, p, v, by omega, hs, hp, hsv, hpn, hle, fun q hq ↦ ?_, fun s' v' hs' hsv' ↦ ?_⟩
  · by_contra hlook
    exact storage_ne_empty ht ha hq (hh a q ha hq hlook) hlook hcon.1
  · by_contra hne
    exact hcon.2 ⟨s', v', hne, hs', mem_sortChanges.mpr hsv'⟩

/-- A batch that only deletes what is there does not stall. -/
theorem not_stalls (h : ∀ p, (p, none) ∈ changes → f p ≠ none) : ¬ Stalls f changes := by
  rintro ⟨a, s, p, v, -, -, hp, -, hpn, -, hnone, -⟩
  exact h _ hpn (hnone p hp)

/-- Deletes of missing keys that a batch does not mention. -/
structure Absent (f : Entries) (changes deletes : Changes) : Prop where
  isDelete : ∀ c ∈ deletes, c.2 = none
  length : ∀ c ∈ deletes, c.1.length = 64 ∨ c.1.length = 128
  absent : ∀ c ∈ deletes, f c.1 = none
  other : ∀ c ∈ deletes, c.1 ∉ changes.map Prod.fst
  distinct : (deletes.map Prod.fst).Nodup

/-- Whether a batch is admissible does not depend on its order. -/
theorem Admissible.perm {ds : Changes} (h : Admissible f cs) (hp : cs.Perm ds) :
    Admissible f ds where
  fits := h.fits.mono fun _ hc ↦ hp.symm.subset hc
  distinct := (hp.map _).nodup_iff.mp h.distinct
  alone a s v ha hs hn hv := h.alone a s v ha hs (hp.symm.subset hn) (hp.symm.subset hv)
  grounded a s v ha hs hv := by
    obtain hf | ⟨w, hw⟩ := h.grounded a s v ha hs (hp.symm.subset hv)
    · exact .inl hf
    · exact .inr ⟨w, hp.subset hw⟩

/-- What an admissible batch does does not depend on its order. -/
theorem Admissible.update_perm {ds : Changes} (h : Admissible f cs) (hp : cs.Perm ds) :
    f.update ds = f.update cs := by
  rw [← h.update_sortChanges]
  exact h.batch.update_perm ((List.perm_insertionSort _ cs).trans hp)

namespace Absent

variable {deletes : Changes}

private theorem fits (h : Absent f changes deletes) : Fits .accounts 128 deletes := by
  intro c hc
  have hvalue (e : Entry) (v : TrieValue) (hv : c.2 = some v) : v.entry = e := by
    rw [h.isDelete c hc] at hv
    cases hv
  rcases h.length c hc with hlen | hlen
  · exact ⟨.account ⟨0, 0, .zero⟩, ⟨rfl, by omega⟩, hvalue _⟩
  · exact ⟨.slot 0, hlen, hvalue _⟩

private theorem not_mem_value (h : Absent f changes deletes) {q : Nibbles} {v : TrieValue} :
    (q, some v) ∉ deletes := by
  intro hv
  cases h.isDelete _ hv

/-- The keys are still missing after the batch. -/
private theorem update_eq_none (h : Absent f changes deletes) (hc : Admissible f changes)
    {c : Change} (hmem : c ∈ deletes) : f.update changes c.1 = none := by
  rw [← hc.update_sortChanges]
  by_cases htouch : ∃ d ∈ sortChanges changes, Touches d c.1
  · obtain ⟨d, hd, hq⟩ := htouch
    rw [hc.batch.update_of_touches hd hq]
    rcases hq with hq | hq
    · exact absurd (hq ▸ List.mem_map_of_mem (mem_sortChanges.mp hd)) (h.other c hmem)
    · rw [hq.1]
      rfl
  · rw [Entries.update_of_not_touches fun d hd hq ↦ htouch ⟨d, hd, hq⟩]
    exact h.absent c hmem

/-- The deletes have no effect. -/
theorem update_eq (h : Absent f changes deletes) (hc : Admissible f changes) (hh : Housed 128 f)
    (hk : Keyed (f.update changes)) : f.update (changes ++ deletes) = f.update changes := by
  have hd : Admissible (f.update changes) deletes := by
    refine ⟨h.fits, h.distinct, ?_, ?_⟩
    · exact fun a s v _ _ _ hv ↦ h.not_mem_value hv
    · exact fun a s v _ _ hv ↦ absurd hv h.not_mem_value
  rw [Entries.update_append, ← hd.update_sortChanges]
  apply (hd.proper (hc.housed hh) hk).update_eq
  intro c hmem
  rw [mem_sortChanges] at hmem
  exact ⟨h.isDelete c hmem, h.update_eq_none hc hmem⟩

/-- A part of a batch that does not stall does not stall. -/
theorem not_stalls (h : Absent f changes deletes) (hs : ¬ Stalls f (changes ++ deletes)) :
    ¬ Stalls f changes := by
  rintro ⟨a, s, p, v, ha, hs', hp, hv, hn, hle, hnone, honly⟩
  apply hs
  refine ⟨a, s, p, v, ha, hs', hp, List.mem_append_left _ hv, List.mem_append_left _ hn, hle, hnone,
    ?_⟩
  intro s'' v' hne hv'
  exact honly s'' v' hne ((List.mem_append.mp hv').resolve_right h.not_mem_value)

end Absent

/-- Whether a batch stalls does not depend on its order. -/
theorem Stalls.perm {ds : Changes} (h : Stalls f cs) (hp : cs.Perm ds) : Stalls f ds := by
  obtain ⟨a, s, p, v, ha, hs, hp', hv, hn, hle, hnone, honly⟩ := h
  exact ⟨a, s, p, v, ha, hs, hp', hp.subset hv, hp.subset hn, hle, hnone,
    fun s' v' hs' hv' ↦ honly s' v' hs' (hp.symm.subset hv')⟩

end

/-! ### The recursion on whole batches -/

section
variable [AlloyTrie] {t t' : Trie Bool} {changes cs : Changes} {m : List Mishap} {l : Level}
  {n : Nat}

namespace Applied

/-- Changes keep the leaves at their depths. -/
theorem rough (h : Applied t cs t' m) (ht : t.Rough l n) (hcs : Fits l n cs) : t'.Rough l n := by
  cases h with
  | first => exact rough_leaf_new (hcs.value List.mem_cons_self)
  | firstMore _ h _ => exact h.rough (rough_leaf_new (hcs.value List.mem_cons_self)) hcs.of_cons
  | root _ h _ => exact h.rough ht hcs

/-- Changes leave no branch with fewer than two children. -/
theorem branched (h : Applied t cs t' m) (ht : t.Rough l n) (hcs : Fits l n cs)
    (hb : t.Branched) : t'.Branched := by
  have hfinish {t : Trie Bool} {cs : Changes} {o : Out} (h : Exec .child t cs o t' m)
      (ht : t.Rough l n) (hcs : Fits l n cs) (hb : t.Branched) (ho : o.ended) : t'.Branched := by
    have h' := h.tidy_forked ht hcs (full_iff.mpr hb).of_false
    rw [Out.rest_eq_nil ho] at h'
    exact full_iff.mp (h'.of_not fun _ ↦ Pending.not_nil)
  cases h with
  | first => exact branched_leaf
  | firstMore _ h ho =>
    exact hfinish h (rough_leaf_new (hcs.value List.mem_cons_self)) hcs.of_cons branched_leaf ho
  | root _ h ho => exact hfinish h ht hcs hb ho

/-- Changes that do not stall update the contents. -/
theorem lookup_eq (h : Applied t cs t' m) (hs : Suits l n t cs) (hm : .stalled ∉ m) :
    t'.lookup = Entries.update t.lookup cs := by
  cases h with
  | first => exact lookup_leaf
  | @firstMore path v cs o t' m _ h ho =>
    have hs' : Suits l n (leaf false path v.entry) cs := Suits.newLeaf (show Suits l n empty
      ([] ++ (path, some v) :: cs) from hs)
    rw [(h.sound hs' hm).done ho, lookup_leaf]
    rfl
  | root _ h ho => exact (h.sound hs hm).done ho

/-- Changes that do not stall leave the references right. -/
theorem hashed (h : Applied t cs t' m) (hs : Suits l n t cs) (hm : .stalled ∉ m) (hh : t.Hashed) :
    t'.Hashed := by
  have hfinish {t : Trie Bool} {cs : Changes} {o : Out} (h : Exec .child t cs o t' m)
      (hs : Suits l n t cs) (hh : t.Hashed) (ho : o.ended) : t'.Hashed := by
    have hf : t.Tidy Fresh (Pending t.lookup cs) := (fresh_iff.mpr hh).of_false
    exact fresh_iff.mp
      ((h.refreshed hs hm hf.below).tidy_of_ended hf (h.sound hs hm).done hs.batch ho)
  cases h with
  | first => exact hashed_leaf
  | @firstMore path v cs o t' m _ h ho =>
    have hs' : Suits l n (leaf false path v.entry) cs := Suits.newLeaf (show Suits l n empty
      ([] ++ (path, some v) :: cs) from hs)
    exact hfinish h hs' hashed_leaf ho
  | root _ h ho => exact hfinish h hs hh ho

/-- Changes that cannot stall do not. -/
theorem not_stalled (h : Applied t cs t' m) (hs : Suits .accounts n t cs)
    (hg : Grounded n t.lookup cs) (hns : NoStall n t cs) : .stalled ∉ m := by
  cases h with
  | first => exact List.not_mem_nil
  | @firstMore path v cs o t' m _ h ho =>
    have hs' : Suits .accounts n (leaf false path v.entry) cs := Suits.newLeaf (show
      Suits .accounts n empty ([] ++ (path, some v) :: cs) from hs)
    exact (h.flows hs' hg.newLeaf (hns.newLeaf hg hs.batch.sorted)).1
  | root _ h ho => exact (h.flows hs hg hns).1

end Applied

end

end TrieDb

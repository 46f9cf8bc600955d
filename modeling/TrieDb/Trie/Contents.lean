import TrieDb.Trie.Shape

/-!
# What the write recursion stores

A finished part of the recursion has updated the contents of its trie by its batch; a part that
stopped for a page split has applied at least the changes it counts and has left a value to store.
Both hold unless the recursion stalled, that is stored the first slot of an account and reported no
change.
-/

namespace TrieDb

open Engine (Change Changes)
open Trie

namespace Trie

variable {α : Type} {tag : α} {ref : RlpNode} {pre path q r : Nibbles} {kind : Kind} {e : Entry}
  {ch : Fin 16 → Trie α} {t : Trie α}

/-! ### Contents of rearranged nodes -/

/-- A branch holds nothing beside the paths of its children. -/
theorem lookup_branch (hq : ∀ i r, q ≠ pre ++ i :: r) :
    (node tag ref pre .branch ch).lookup q = none := by
  rcases path_cases pre q with h | rfl | ⟨i, r, rfl⟩
  · exact lookup_outside h
  · exact lookup_branch_self ..
  · exact absurd rfl (hq i r)

/-- The occupied children are those that are not empty. -/
theorem mem_occupied {i : Fin 16} : i ∈ occupied ch ↔ ch i ≠ empty := by
  simp [occupied]

variable [AlloyTrie]

private theorem lookup_only_child {tag' : α} {ref' : RlpNode} {i : Fin 16} :
    (node tag' ref' pre .branch
      (Function.update (fun _ ↦ empty) i (fresh tag path kind ch))).lookup =
      (node tag ref (pre ++ i :: path) kind ch).lookup := by
  funext q
  by_cases hq : ∃ j r, q = pre ++ j :: r
  · obtain ⟨j, r, rfl⟩ := hq
    rw [lookup_branch_append]
    by_cases hj : j = i
    · subst hj
      rw [Function.update_self, fresh, lookup, lookup]
      simp
    · rw [Function.update_of_ne hj, lookup_empty, lookup_outside]
      intro hp
      rw [List.prefix_append_right_inj, List.cons_prefix_cons] at hp
      exact hj hp.1.symm
  · rw [lookup_branch fun j r h ↦ hq ⟨j, r, h⟩, lookup_outside]
    rintro ⟨s, rfl⟩
    exact hq ⟨i, path ++ s, by simp⟩

/-- A new branch above a node changes no values. -/
theorem lookup_above {tag' : α} {length : Nat} :
    (above tag' length (node tag ref pre kind ch)).lookup = (node tag ref pre kind ch).lookup := by
  simp only [above]
  split
  · next i rest hdrop =>
    rw [lookup_only_child, ← hdrop, List.take_append_drop]
  · rfl

private theorem lookup_lift_append : (lift tag path t).lookup (path ++ r) = t.lookup r := by
  cases t with
  | empty => rfl
  | node tag' ref pre kind ch =>
    simp only [lift, fresh, lookup, List.prefix_append_right_inj, List.length_append]
    rw [← List.drop_drop, List.drop_left]

private theorem lookup_lift_outside (h : ¬ path <+: q) : (lift tag path t).lookup q = none := by
  cases t with
  | empty => rfl
  | node tag' ref pre kind ch =>
    exact lookup_outside fun hp ↦ h ((List.prefix_append _ _).trans hp)

/-- Removing or merging a branch changes no values. -/
theorem lookup_cleanup : (cleanup tag pre ch).2.lookup = (node tag ref pre .branch ch).lookup := by
  have hout (q : Nibbles) (l : List (Fin 16)) (hl : occupied ch = l) (i : Fin 16) (r : Nibbles)
      (hq : q = pre ++ i :: r) (hi : i ∉ l) : (node tag ref pre .branch ch).lookup q = none := by
    have he : ch i = empty := by
      by_contra hne
      exact hi (hl ▸ mem_occupied.mpr hne)
    rw [hq, lookup_branch_append, he, lookup_empty]
  funext q
  unfold cleanup
  split
  · next hocc =>
    by_cases hq : ∃ i r, q = pre ++ i :: r
    · obtain ⟨i, r, hq⟩ := hq
      rw [hout q [] hocc i r hq List.not_mem_nil]
      rfl
    · rw [lookup_branch fun i r h ↦ hq ⟨i, r, h⟩]
      rfl
  · next i hocc =>
    by_cases hq : ∃ j r, q = pre ++ j :: r
    · obtain ⟨j, r, hq⟩ := hq
      by_cases hj : j = i
      · subst hj
        rw [hq, lookup_branch_append]
        have hpath : pre ++ j :: r = (pre ++ [j]) ++ r := by simp
        rw [hpath, lookup_lift_append]
      · rw [hout q [i] hocc j r hq (by simpa using hj)]
        apply lookup_lift_outside
        rintro ⟨s, hs⟩
        rw [hq, List.append_assoc, List.append_cancel_left_eq] at hs
        exact hj (by simpa using (List.cons.inj hs).1.symm)
    · rw [lookup_branch fun i r h ↦ hq ⟨i, r, h⟩]
      apply lookup_lift_outside
      rintro ⟨s, hs⟩
      exact hq ⟨i, s, by simpa using hs.symm⟩
  · rfl

/-- A cleanup reports a change. -/
theorem cleanup_ended : (cleanup tag pre ch).1.ended = true ∧ (cleanup tag pre ch).1 ≠ .none := by
  unfold cleanup
  split <;> simp [Out.ended]

/-- A cleanup reports a deletion exactly when nothing is left. -/
theorem cleanup_delete : (cleanup tag pre ch).1 = .delete ↔ (cleanup tag pre ch).2 = empty := by
  unfold cleanup
  split
  · simp
  · next i hocc =>
    have hi : ch i ≠ empty := mem_occupied.mp (hocc ▸ List.mem_singleton_self i)
    cases hc : ch i with
    | empty => exact absurd hc hi
    | node tag' ref pre kind ch' => simp [lift, fresh]
  · simp [fresh]

/-! ### Contents of updated nodes -/

/-- A leaf holds one entry. -/
theorem lookup_leaf : (leaf tag path e).lookup = Function.update (fun _ ↦ none) path (some e) := by
  funext q
  rcases path_cases path q with h | rfl | ⟨i, r, rfl⟩
  · have hne : q ≠ path := fun he ↦ h (he ▸ List.prefix_rfl)
    rw [leaf, fresh, lookup_outside h, Function.update_of_ne hne]
  · rw [leaf, fresh, lookup_leaf_self, Function.update_self]
  · rw [Function.update_of_ne (by simp), leaf, fresh]
    cases e with
    | account a => rw [lookup_account_append, lookup_empty]
    | slot v => rw [lookup_slot_append]

end Trie

section
variable {α : Type} {tag tag' : α} {ref ref' : RlpNode} {pre : Nibbles} {kind : Kind}
  {ch ch' : Fin 16 → Trie α} {cs : Changes} {g : Fin 16 → Changes} {info : AccountInfo}

/-- A branch whose children have been updated. -/
private theorem lookup_branch_update (hb : Batch (regroup pre g))
    (h : ∀ i, (ch' i).lookup = Entries.update (ch i).lookup (g i)) :
    (node tag' ref' pre .branch ch').lookup =
      Entries.update (node tag ref pre .branch ch).lookup (regroup pre g) := by
  funext q
  by_cases hq : ∃ i r, q = pre ++ i :: r
  · obtain ⟨i, r, rfl⟩ := hq
    rw [lookup_branch_append, hb.update_regroup, h i]
    simp only [lookup_branch_append]
  · have hq' : ∀ i r, q ≠ pre ++ i :: r := fun i r h ↦ hq ⟨i, r, h⟩
    rw [lookup_branch hq', Entries.update_of_not_touches, lookup_branch hq']
    intro c hc hcq
    obtain ⟨i, d, -, rfl⟩ := mem_regroup.mp hc
    obtain ⟨s, hs⟩ := hcq.isPrefix
    exact hq ⟨i, d.1 ++ s, by simp [← hs]⟩

/-- An account whose storage has been updated. -/
private theorem lookup_account_update {st : Trie α} (hcs : ∀ c ∈ cs, c.1 ≠ [])
    (h : st.lookup = Entries.update (ch 0).lookup cs) :
    (node tag' ref' pre (.leaf (.account info)) (Function.update ch 0 st)).lookup =
      Entries.update (node tag ref pre (.leaf (.account info)) ch).lookup (under pre cs) := by
  funext q
  rcases path_cases pre q with hq | rfl | ⟨i, r, rfl⟩
  · rw [lookup_outside hq, Entries.update_under_outside hq, lookup_outside hq]
  · rw [lookup_leaf_self, Entries.update_of_not_touches, lookup_leaf_self]
    intro c hc hcq
    obtain ⟨d, hd, rfl⟩ := mem_under.mp hc
    have hl := hcq.isPrefix.length_le
    rw [List.length_append] at hl
    exact hcs d hd (List.eq_nil_of_length_eq_zero (by omega))
  · rw [lookup_account_append, Function.update_self, Entries.update_under, h]
    apply Entries.update_congr_below
    intro j s
    rw [lookup_account_append]

/-- A leaf with another value. -/
theorem lookup_leaf_update {e : Entry} {v : TrieValue} {l : Level} {n : Nat}
    (h : (node tag ref pre (.leaf e) ch).Rough l n) (hv : l.Admits n pre.length v.entry) :
    (node tag' ref' pre (.leaf v.entry) ch).lookup =
      Entries.apply (node tag ref pre (.leaf e) ch).lookup (pre, some v) := by
  funext q
  rcases path_cases pre q with hq | rfl | ⟨i, r, rfl⟩
  · have hne : ¬ Touches (pre, some v) q := fun ht ↦ hq ht.isPrefix
    rw [Entries.apply_of_not_touches hne, lookup_outside hq, lookup_outside hq]
  · rw [Entries.apply_of_touches (touches_value.mpr rfl), lookup_leaf_self]
    rfl
  · have hne : ¬ Touches (pre, some v) (pre ++ i :: r) := by simp [touches_value]
    rw [Entries.apply_of_not_touches hne]
    rcases h.1.isAccount hv with ⟨a, a', rfl, ha⟩ | ⟨x, x', rfl, hx⟩
    · rw [ha, lookup_account_append, lookup_account_append]
    · rw [hx, lookup_slot_append, lookup_slot_append]

end

/-! ### The recursion -/

/-- What a part of the recursion has done to the contents. -/
structure Sound (mode : Mode) (f : Entries) (cs : Changes) (o : Out) (f' : Entries) : Prop where
  done : o.ended → f' = f.update cs
  kept : mode ≠ .slot → o = .none → f' = f
  stopped : ∀ n, o = .stop n → ∃ k, n ≤ k ∧ k ≤ cs.length ∧ f' = f.update (cs.take k)

namespace Sound

variable {mode : Mode} {f f' : Entries} {c : Change} {cs ds : Changes} {o : Out} {p : Nibbles}
  {v : TrieValue}

/-- A finished part that reports a change. -/
private theorem of_done (ho : o.ended) (hn : o ≠ .none) (h : f' = f.update cs) :
    Sound mode f cs o f' where
  done := fun _ ↦ h
  kept := fun _ h ↦ absurd h hn
  stopped := fun n hs ↦ by simp [hs, Out.ended] at ho

/-- A finished part that reports nothing. -/
private theorem of_kept (h : f.update cs = f) : Sound mode f cs .none f where
  done := fun _ ↦ h.symm
  kept := fun _ _ ↦ rfl
  stopped := fun n hs ↦ by cases hs

/-- A stop before the first change. -/
private theorem of_stop : Sound mode f cs (.stop 0) f where
  done := fun h ↦ by cases h
  kept := fun _ h ↦ by cases h
  stopped := fun n hs ↦ by
    cases hs
    exact ⟨0, le_rfl, Nat.zero_le _, rfl⟩

/-- Changes before the others are applied first. -/
private theorem append (h : Sound mode (f.update ds) cs o f')
    (hk : mode ≠ .slot → o = .none → f' = f) : Sound mode f (ds ++ cs) o f' where
  done := fun ho ↦ by rw [h.done ho, Entries.update_append]
  kept := hk
  stopped := fun n hs ↦ by
    obtain ⟨k, hnk, hk, hf⟩ := h.stopped n hs
    refine ⟨ds.length + k, by omega, ?_, ?_⟩
    · rw [List.length_append]
      omega
    · rw [hf, List.take_length_add_append, Entries.update_append]

private theorem cons (h : Sound mode (f.apply c) cs o f') (hk : mode ≠ .slot → o = .none → f' = f) :
    Sound mode f (c :: cs) o f' :=
  (append h hk : Sound mode f ([c] ++ cs) o f')

/-- A first change without effect. -/
private theorem skip (h : Sound mode f cs o f') (hc : f.apply c = f) :
    Sound mode f (c :: cs) o f' := by
  rw [← hc] at h
  exact h.cons fun hm ho ↦ (h.kept hm ho).trans hc

/-- A last change without effect. -/
private theorem skipLast (h : Sound mode f cs o f') (hc : (f.update cs).apply c = f.update cs) :
    Sound mode f (cs ++ [c]) o f' where
  done := fun ho ↦ by
    rw [h.done ho, Entries.update_append, Entries.update_cons, hc]
    rfl
  kept := h.kept
  stopped := fun n hs ↦ by
    obtain ⟨k, hnk, hk, hf⟩ := h.stopped n hs
    refine ⟨k, hnk, ?_, ?_⟩
    · rw [List.length_append]
      omega
    · rw [hf, List.take_append_of_le_length hk]

/-- Parts on pages at hand, on whole pages and on children report alike. -/
private theorem of_mode {mode' : Mode} (h : Sound mode f cs o f') (hm : mode ≠ .slot) :
    Sound mode' f cs o f' :=
  ⟨h.done, fun _ ↦ h.kept hm, h.stopped⟩

end Sound

section
variable {α : Type} {tag tag' : α} {ref ref' : RlpNode} {pre : Nibbles} {ch : Fin 16 → Trie α}
  {cs : Changes} {info : AccountInfo} {st : Trie α} {o : Out}

/-- The slots of an account are proper if the whole batch is. -/
private theorem Proper.storage
    (h : Proper (node tag ref pre (.leaf (.account info)) ch).lookup (under pre cs))
    (hcs : ∀ c ∈ cs, c.1 ≠ []) : Proper (ch 0).lookup cs := by
  intro p hp hf q hpq
  have hlook (r : Nibbles) (hr : r ≠ []) :
      (node tag ref pre (.leaf (.account info)) ch).lookup (pre ++ r) = (ch 0).lookup r := by
    obtain ⟨i, r, rfl⟩ := List.exists_cons_of_ne_nil hr
    exact lookup_account_append ..
  have hp0 := hcs _ hp
  have hq0 : q ≠ [] := fun h ↦ hp0 (List.prefix_nil.mp (h ▸ hpq))
  rw [← hlook q hq0]
  apply h (pre ++ p) (mem_under.mpr ⟨_, hp, rfl⟩)
  · rw [hlook p hp0, hf]
  · exact (List.prefix_append_right_inj pre).mpr hpq

/-- The changes for a child of a branch are proper if the whole batch is. -/
private theorem Proper.branch {g : Fin 16 → Changes}
    (h : Proper (node tag ref pre .branch ch).lookup (regroup pre g)) (i : Fin 16) :
    Proper (ch i).lookup (g i) := by
  intro p hp hf q hpq
  rw [← lookup_branch_append tag ref pre q i ch]
  apply h (pre ++ i :: p) (mem_regroup.mpr ⟨i, _, hp, rfl⟩)
  · rw [lookup_branch_append, hf]
  · rw [List.prefix_append_right_inj, List.cons_prefix_cons]
    exact ⟨rfl, hpq⟩

/-- What happened to the storage of an account happened to the account. -/
theorem Sound.storage (h : Sound .child (ch 0).lookup cs o st.lookup) (hcs : ∀ c ∈ cs, c.1 ≠ []) :
    Sound .node (node tag ref pre (.leaf (.account info)) ch).lookup (under pre cs) o
      (node tag' ref' pre (.leaf (.account info)) (Function.update ch 0 st)).lookup where
  done := fun ho ↦ lookup_account_update hcs (h.done ho)
  kept := fun _ ho ↦ by
    have hf : st.lookup = Entries.update (ch 0).lookup [] := h.kept (by simp) ho
    exact (lookup_account_update (by simp) hf :
      _ = Entries.update (node tag ref pre (.leaf (.account info)) ch).lookup (under pre []))
  stopped := fun n hs ↦ by
    obtain ⟨k, hnk, hk, hf⟩ := h.stopped n hs
    refine ⟨k, hnk, by rwa [length_under], ?_⟩
    rw [under, ← List.map_take]
    exact lookup_account_update (fun c hc ↦ hcs c (List.mem_of_mem_take hc)) hf

/-- What happened to the children of a branch before a stop happened to the branch. -/
private theorem Sound.branchStop {ch' : Fin 16 → Trie α} {g : Fin 16 → Changes} {o : Fin 16 → Out}
    {i₀ : Fin 16} {n : Nat} (hb : Batch (regroup pre g))
    (h : ∀ i ≤ i₀, Sound .slot (ch i).lookup (g i) (o i) (ch' i).lookup)
    (ho : ∀ i < i₀, (o i).ended) (hn : o i₀ = .stop n) (hch : ∀ i, i₀ < i → ch' i = ch i) :
    Sound .node (node tag ref pre .branch ch).lookup (regroup pre g) (.stop (countBefore g i₀ + n))
      (node tag' ref' pre .branch ch').lookup := by
  have hs := h i₀ le_rfl
  rw [hn] at hs
  refine ⟨(fun h ↦ by cases h), (fun _ h ↦ by cases h), fun _ h ↦ ?_⟩
  cases h
  obtain ⟨k, hnk, hk, hf⟩ := hs.stopped n rfl
  refine ⟨countBefore g i₀ + k, by omega, ?_, ?_⟩
  · have hle := countBefore_add_le pre g i₀
    omega
  · rw [take_regroup hk]
    apply lookup_branch_update
    · rw [← take_regroup hk]
      exact hb.sublist (List.take_sublist _ _)
    · intro i
      unfold groupsBefore
      rcases lt_trichotomy i i₀ with hi | rfl | hi
      · rw [if_pos hi, (h i hi.le).done (ho i hi)]
      · rw [if_neg (lt_irrefl i), if_pos rfl, hf]
      · rw [if_neg hi.asymm, if_neg hi.ne', hch i hi]
        rfl

end

/-! ### Batches that suit a trie -/

/-- A batch for a trie in which all paths have their lengths. -/
structure Suits (l : Level) (n : Nat) (t : Trie Bool) (cs : Changes) : Prop where
  rough : t.Rough l n
  fits : Fits l n cs
  batch : Batch cs
  proper : Proper t.lookup cs

namespace Suits

variable {l : Level} {n : Nat} {t : Trie Bool} {c : Change} {cs ds : Changes} {ref : RlpNode}
  {pre path : Nibbles} {kind : Kind} {e : Entry} {info : AccountInfo} {ch : Fin 16 → Trie Bool}
  {v : TrieValue} {g : Fin 16 → Changes}

/-- Fewer changes suit as well. -/
theorem sublist (h : Suits l n t cs) (hs : List.Sublist ds cs) : Suits l n t ds :=
  ⟨h.rough, h.fits.mono fun _ hc ↦ hs.subset hc, h.batch.sublist hs,
    h.proper.mono fun _ hc ↦ hs.subset hc⟩

/-- The other changes suit as well. -/
theorem tail (h : Suits l n t (c :: cs)) : Suits l n t cs := h.sublist (List.sublist_cons_self c cs)

/-- The tag does not matter. -/
theorem withTag (h : Suits l n t cs) : Suits l n (t.withTag false) cs := by
  have hlook : (t.withTag false).lookup = t.lookup := funext fun q ↦ lookup_withTag ..
  exact ⟨rough_withTag.mpr h.rough, h.fits, h.batch, hlook ▸ h.proper⟩

/-- What a value for a leaf does. -/
theorem lookup_afterValue (h : Suits l n (node false ref pre (.leaf e) ch) ((pre, some v) :: cs)) :
    (node false ref pre (.leaf v.entry) ch).lookup =
      Entries.apply (node false ref pre (.leaf e) ch).lookup (pre, some v) :=
  lookup_leaf_update h.rough (h.fits.value List.mem_cons_self)

/-- After a leaf has been replaced the other changes suit. -/
theorem afterValue (h : Suits l n (node false ref pre (.leaf e) ch) ((pre, some v) :: cs))
    (hch : ∀ i, ch i ≠ empty → (Kind.leaf v.entry).allows i) :
    Suits l n (node false ref pre (.leaf v.entry) ch) cs :=
  ⟨⟨h.fits.value List.mem_cons_self, hch, h.rough.2.2⟩, h.fits.of_cons, h.batch.of_cons,
    h.lookup_afterValue ▸ h.proper.apply h.batch⟩

/-- Changes below an account suit its storage. -/
theorem storage (h : Suits l n (node false ref pre (.leaf (.account info)) ch) (under pre cs))
    (hcs : ∀ c ∈ cs, c.1 ≠ []) : Suits .slots 64 (ch 0) cs := by
  obtain ⟨rfl, hn⟩ := h.rough.1
  exact ⟨h.rough.2.2 0, h.fits.storage hn hcs, Batch.under_iff.mp h.batch, h.proper.storage hcs⟩

/-- The changes of a group suit the child. -/
theorem branch (h : Suits l n (node false ref pre .branch ch) (regroup pre g)) (i : Fin 16) :
    Suits l (n - pre.length - 1) (ch i) (g i) :=
  ⟨h.rough.2 i, h.fits.of_regroup h.rough.1 i, h.batch.of_regroup i, h.proper.branch i⟩

end Suits

/-- What happens nowhere does not happen at a child. -/
theorem not_mem_of_flatMap {m : Fin 16 → List Mishap} {x : Mishap}
    (h : x ∉ (List.finRange 16).flatMap m) (i : Fin 16) : x ∉ m i :=
  fun hi ↦ h (List.mem_flatMap.mpr ⟨i, List.mem_finRange i, hi⟩)

/-! ### Applying batches -/

variable [AlloyTrie]

/-- A leaf stores its value. -/
theorem eq_leaf_of_value? {α : Type} {tag : α} {ref : RlpNode} {pre : Nibbles}
    {kind : Kind} {ch : Fin 16 → Trie α} {v : TrieValue}
    (h : (node tag ref pre kind ch).value? = some v) : kind = .leaf v.entry := by
  rcases kind with (a | x) | _
  · simp only [value?, Option.some.injEq] at h
    rw [← h]
    rfl
  · simp only [value?, Option.some.injEq] at h
    rw [← h]
    rfl
  · cases h

omit [AlloyTrie] in
private theorem lookup_noStorage {α : Type} {tag : α} {ref : RlpNode} {pre path : Nibbles}
    {info : AccountInfo} {ch : Fin 16 → Trie α} (hp : path ≠ []) (hch : ch 0 = empty) :
    (node tag ref pre (.leaf (.account info)) ch).lookup (pre ++ path) = none := by
  obtain ⟨i, r, rfl⟩ := List.exists_cons_of_ne_nil hp
  rw [lookup_account_append, hch, lookup_empty]

/-- The first slot of an account. -/
theorem lookup_firstSlot {α : Type} {tag tag' tag'' : α} {ref ref' : RlpNode} {pre path : Nibbles}
    {info : AccountInfo} {ch : Fin 16 → Trie α} {v : TrieValue} (hp : path ≠ [])
    (hch : ch 0 = empty) :
    (node tag' ref' pre (.leaf (.account info))
      (Function.update ch 0 (leaf tag'' path v.entry))).lookup =
      Entries.apply (node tag ref pre (.leaf (.account info)) ch).lookup (pre ++ path, some v) := by
  have hlook : (leaf tag'' path v.entry).lookup =
      Entries.update (ch 0).lookup [(path, some v)] := by
    rw [lookup_leaf, hch]
    rfl
  exact lookup_account_update (by simpa using hp) hlook

/-- A page is worked on until the batch is finished. -/
theorem Exec.ended_of_page {mode : Mode} {t t' : Trie Bool} {cs : Changes} {o : Out}
    {m : List Mishap} (h : Exec mode t cs o t' m) (hm : mode = .page) : o.ended := by
  induction h with
  | pageDone _ ho _ => exact ho
  | pageRetry _ _ _ ih => exact ih rfl
  | _ => cases hm

/-- A stop leaves a value to store. -/
theorem Exec.pending {mode : Mode} {t t' : Trie Bool} {cs : Changes} {k : Nat} {m : List Mishap}
    (h : Exec mode t cs (.stop k) t' m) : ∃ q, Pending t'.lookup (cs.drop k) q := by
  generalize ho : Out.stop k = o at h
  induction h generalizing k with
  | skipFirst _ _ ih => exact (ih ho).imp fun _ ↦ Pending.drop_cons _
  | skipLast _ _ ih => exact (ih ho).imp fun _ ↦ Pending.drop_append_right _
  | aboveStop hc hd =>
    cases ho
    exact ⟨_, _, hc, by simp [lookup_outside hd]⟩
  | above _ _ _ _ _ _ ih => exact ih ho
  | same _ _ ih => exact (ih ho).imp fun _ ↦ Pending.drop_cons _
  | setStop hv =>
    cases ho
    exact ⟨_, _, List.mem_cons_self, by simpa using Ne.symm hv⟩
  | setMore _ _ _ _ _ _ ih => exact (ih ho).imp fun _ ↦ Pending.drop_cons _
  | @storageKeep _ pre _ _ _ _ _ _ _ hcs _ _ _ _ ih =>
    obtain ⟨p, v, hp, hne⟩ := ih ho
    obtain ⟨i, r, rfl⟩ := List.exists_cons_of_ne_nil (hcs _ (List.mem_of_mem_drop hp))
    refine ⟨pre ++ i :: r, v, ?_, ?_⟩
    · rw [under, ← List.map_drop]
      exact mem_under.mpr ⟨_, hp, rfl⟩
    · rwa [lookup_account_append, Function.update_self]
  | firstSkip _ _ _ ih => exact (ih ho).imp fun _ ↦ Pending.drop_cons _
  | firstStop hp hch =>
    cases ho
    exact ⟨_, _, List.mem_cons_self, by simp [lookup_noStorage hp hch]⟩
  | firstMore _ _ _ _ _ ih => exact (ih ho).imp fun _ ↦ Pending.drop_cons _
  | branch =>
    have hended := congrArg Out.ended ho
    rw [cleanup_ended.1] at hended
    cases hended
  | @branchStop ref pre ch g o ch' m i₀ n _ _ hn _ ih =>
    cases ho
    obtain ⟨p, v, hp, hne⟩ := ih i₀ le_rfl hn.symm
    have hlt : n ≤ (g i₀).length := by
      by_contra hlt
      rw [List.drop_eq_nil_of_le (not_le.mp hlt).le] at hp
      cases hp
    refine ⟨pre ++ i₀ :: p, v, ?_, ?_⟩
    · rw [drop_regroup hlt, mem_regroup_append]
      simpa [groupsFrom] using hp
    · rwa [lookup_branch_append]
  | slotChild _ _ _ ih => exact ih ho
  | @slotStop ds path v cs _ =>
    cases ho
    exact ⟨path, v, by simp, by simp⟩
  | slotMore _ _ _ ih =>
    exact (ih ho).imp fun _ h ↦ (h.drop_cons _).drop_append _
  | childLocal _ ih => exact ih ho
  | childPage _ _ ih => exact ih ho
  | pageDone _ _ ih => exact ih ho
  | pageRetry _ h' _ _ =>
    subst ho
    cases h'.ended_of_page rfl
  | _ => cases ho

/-- The number of changes counted as handled. -/
theorem Exec.stop_lt {mode : Mode} {t t' : Trie Bool} {cs : Changes} {k : Nat} {m : List Mishap}
    (h : Exec mode t cs (.stop k) t' m) : k < cs.length := by
  obtain ⟨p, v, hp, -⟩ := h.pending
  by_contra hk
  rw [List.drop_eq_nil_of_le (not_lt.mp hk)] at hp
  cases hp

namespace Suits

variable {l : Level} {n : Nat} {cs ds : Changes} {ref : RlpNode} {pre path : Nibbles} {kind : Kind}
  {info : AccountInfo} {ch : Fin 16 → Trie Bool} {v : TrieValue}

/-- After a branch has been put above, the changes suit. -/
theorem above {length : Nat} (h : Suits l n (node false ref pre kind ch) cs)
    (hl : length < pre.length) :
    Suits l n (Trie.above false length (node false ref pre kind ch)) cs := by
  have hlook : (Trie.above false length (node false ref pre kind ch)).lookup =
    (node false ref pre kind ch).lookup := lookup_above
  exact ⟨h.rough.above hl, h.fits, h.batch, hlook ▸ h.proper⟩

/-- After the first slot has been created the other changes suit. -/
theorem firstSlot
    (h : Suits l n (node false ref pre (.leaf (.account info)) ch) ((pre ++ path, some v) :: cs))
    (hp : path ≠ []) (hch : ch 0 = empty) :
    Suits l n (node false ref pre (.leaf (.account info))
      (Function.update ch 0 (leaf false path v.entry))) cs := by
  have hlook : (node false ref pre (.leaf (.account info))
      (Function.update ch 0 (leaf false path v.entry))).lookup =
    Entries.apply (node false ref pre (.leaf (.account info)) ch).lookup (pre ++ path, some v) :=
    lookup_firstSlot hp hch
  exact ⟨h.rough.withStorage (rough_leaf_new (h.fits.firstSlot h.rough.1 hp)), h.fits.of_cons,
    h.batch.of_cons, hlook ▸ h.proper.apply h.batch⟩

/-- After the first leaf has been created the other changes suit. -/
theorem newLeaf (h : Suits l n empty (ds ++ (path, some v) :: cs)) :
    Suits l n (leaf false path v.entry) cs := by
  have h' : Suits l n empty ((path, some v) :: cs) := h.sublist (List.sublist_append_right _ _)
  have hlook : (leaf false path v.entry).lookup =
    Entries.apply (empty : Trie Bool).lookup (path, some v) := lookup_leaf
  exact ⟨rough_leaf_new (h'.fits.value List.mem_cons_self), h'.fits.of_cons, h'.batch.of_cons,
    hlook ▸ h'.proper.apply h'.batch⟩

end Suits

/-- A restart suits the trie that a stop left. -/
theorem Exec.suits_restart {mode : Mode} {t t₁ : Trie Bool} {cs : Changes} {k : Nat}
    {m : List Mishap} {l : Level} {n : Nat} (h : Exec mode t cs (.stop k) t₁ m)
    (hs : Suits l n t cs) (hsound : Sound mode t.lookup cs (.stop k) t₁.lookup) :
    Suits l n t₁ (cs.drop k) := by
  obtain ⟨k', -, -, hf⟩ := hsound.stopped k rfl
  have hdrop : ∀ c ∈ cs.drop k, c ∈ cs := fun c ↦ List.mem_of_mem_drop
  refine ⟨h.rough hs.rough hs.fits, hs.fits.mono hdrop, hs.batch.sublist (List.drop_sublist _ _),
    ?_⟩
  rw [hf]
  exact (hs.proper.update hs.batch fun c ↦ List.mem_of_mem_take).mono hdrop

/-- A restart reports a change. -/
theorem Exec.restart_ne_none {t t₁ t' : Trie Bool} {cs : Changes} {k : Nat} {m : List Mishap}
    {o : Out} (h : Exec .node t cs (.stop k) t₁ m) (hb : Batch cs)
    (hs : Sound .page t₁.lookup (cs.drop k) o t'.lookup) : o ≠ .none := by
  rintro rfl
  obtain ⟨q, hq⟩ := h.pending
  exact (hb.sublist (List.drop_sublist _ _)).not_pending
    ((hs.done rfl).symm.trans (hs.kept (by simp) rfl)) hq

/-- The recursion applies its batch, unless it stalls. -/
theorem Exec.sound {mode : Mode} {t t' : Trie Bool} {cs : Changes} {o : Out} {m : List Mishap}
    {l : Level} {n : Nat} (h : Exec mode t cs o t' m) (hs : Suits l n t cs) (hm : .stalled ∉ m) :
    Sound mode t.lookup cs o t'.lookup := by
  induction h generalizing l n with
  | nil => exact .of_kept rfl
  | skipFirst hd _ ih =>
    apply (ih hs.tail hm).skip
    exact hs.proper.apply_eq List.mem_cons_self (lookup_outside hd)
  | @skipLast ref pre kind ch path cs o t' m hd _ ih =>
    have hsub : ∀ c ∈ cs, c ∈ cs ++ [(path, none)] := fun c ↦ List.mem_append_left _
    have hlast : (path, none) ∈ cs ++ [(path, none)] := by simp
    apply (ih (hs.sublist (List.sublist_append_left _ _)) hm).skipLast
    exact (hs.proper.update hs.batch hsub).apply_eq hlast
      (hs.batch.update_eq_none hlast hsub (lookup_outside hd))
  | aboveStop => exact .of_stop
  | above _ hl _ _ _ _ ih =>
    have h' := ih (hs.above hl) hm
    rwa [lookup_above] at h'
  | @delete ref pre kind ch =>
    apply Sound.of_done rfl (by simp)
    funext q
    by_cases hq : pre <+: q
    · exact (Entries.apply_of_touches (touches_delete.mpr hq)).symm
    · have hq' : ¬ Touches (pre, none) q := fun h ↦ hq h.isPrefix
      refine ((Entries.apply_of_not_touches hq').trans ?_).symm
      exact lookup_outside hq
  | same hv _ ih =>
    cases eq_leaf_of_value? hv
    apply (ih hs.tail hm).skip
    exact Entries.apply_eq_self (lookup_leaf_self ..)
  | setStop => exact .of_stop
  | setNone _ hch _ ih =>
    have h' := ih (hs.afterValue hch) hm
    rw [hs.lookup_afterValue] at h'
    apply Sound.of_done rfl (by simp)
    rw [Entries.update_cons, ← h'.done rfl]
    exact funext fun q ↦ lookup_withRef ..
  | setMore _ hch _ _ ho _ ih =>
    have h' := ih (hs.afterValue hch) hm
    rw [hs.lookup_afterValue] at h'
    exact h'.cons fun _ h ↦ absurd h ho
  | @storage _ _ _ _ _ o _ _ _ hcs _ _ ho ih =>
    have ho' : o.ended := by rcases ho with rfl | rfl <;> rfl
    exact .of_done rfl (by simp) (lookup_account_update hcs ((ih (hs.storage hcs) hm).done ho'))
  | storageKeep _ hcs _ _ _ _ ih => exact (ih (hs.storage hcs) hm).storage hcs
  | firstSkip hp hch _ ih =>
    apply (ih hs.tail hm).skip
    exact hs.proper.apply_eq List.mem_cons_self (lookup_noStorage hp hch)
  | firstStop => exact .of_stop
  | firstOnly hp hch => exact .of_done rfl (by simp) (lookup_firstSlot hp hch)
  | @firstMore ref pre info ch path v cs o t' m hp hch _ _ _ ih =>
    have ho : o ≠ .none := by
      rintro rfl
      simp at hm
    rw [if_neg ho] at hm
    have h' := ih (hs.firstSlot hp hch) hm
    rw [lookup_firstSlot hp hch] at h'
    exact h'.cons fun _ h ↦ absurd h ho
  | @branch ref pre ch g o ch' m _ _ ho ih =>
    apply Sound.of_done cleanup_ended.1 cleanup_ended.2
    have hclean : (cleanup false pre ch').2.lookup = (node false ref pre .branch ch').lookup :=
      lookup_cleanup
    rw [hclean]
    apply lookup_branch_update hs.batch
    intro i
    exact (ih i (hs.branch i) (not_mem_of_flatMap hm i)).done (ho i)
  | branchStop _ ho hn hch ih =>
    apply Sound.branchStop hs.batch (fun i hi ↦ ?_) ho hn fun i hi ↦ (hch i hi).1
    exact ih i hi (hs.branch i) (not_mem_of_flatMap hm i)
  | slotNil => exact .of_kept rfl
  | slotChild _ _ _ ih => exact (ih hs hm).of_mode (by simp)
  | slotSkip hn => exact .of_kept (hs.proper.update_eq fun c hc ↦ ⟨hn c hc, rfl⟩)
  | slotStop => exact .of_stop
  | @slotLeaf ds path v hds =>
    have h' : Sound .slot (Entries.update (empty : Trie Bool).lookup ds) [(path, some v)] .update
        (leaf false path v.entry).lookup := by
      rw [(hs.proper.mono fun c ↦ List.mem_append_left _).update_eq fun c hc ↦ ⟨hds c hc, rfl⟩]
      exact .of_done rfl (by simp) lookup_leaf
    exact h'.append fun hm ↦ absurd rfl hm
  | @slotMore ds path v cs o t' m hds _ _ ih =>
    have h' : Sound .slot (Entries.update (empty : Trie Bool).lookup ds) ((path, some v) :: cs) o
        t'.lookup := by
      rw [(hs.proper.mono fun c ↦ List.mem_append_left _).update_eq fun c hc ↦ ⟨hds c hc, rfl⟩]
      have h' := ih hs.newLeaf hm
      rw [lookup_leaf] at h'
      exact Sound.cons (h'.of_mode (by simp)) fun hm ↦ absurd rfl hm
    exact h'.append fun hm ↦ absurd rfl hm
  | childLocal _ ih => exact (ih hs hm).of_mode (by simp)
  | @childPage t cs o t' m _ _ ih =>
    have hlook : (t.withTag false).lookup = t.lookup := funext fun q ↦ lookup_withTag ..
    have h' := ih hs.withTag hm
    rw [hlook] at h'
    exact h'.of_mode (by simp)
  | @childAbandon t cs t' m _ _ ih =>
    have hlook : (t.withTag false).lookup = t.lookup := funext fun q ↦ lookup_withTag ..
    have h' := ih hs.withTag fun h ↦ hm (List.mem_cons_of_mem _ h)
    rw [hlook] at h'
    exact .of_kept ((h'.done rfl).symm.trans (h'.kept (by simp) rfl))
  | pageDone _ _ ih => exact (ih hs hm).of_mode (by simp)
  | pageRetry h h' ih ih' =>
    rw [List.mem_append, not_or] at hm
    have hs₁ := ih hs hm.1
    have hs₂ := ih' (h.suits_restart hs hs₁) hm.2
    obtain ⟨k, hnk, -, hf⟩ := hs₁.stopped _ rfl
    apply Sound.of_done (h'.ended_of_page rfl) (h.restart_ne_none hs.batch hs₂)
    rw [hs₂.done (h'.ended_of_page rfl), hf, hs.batch.update_restart hnk]

end TrieDb

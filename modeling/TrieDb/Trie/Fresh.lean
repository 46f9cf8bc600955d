import TrieDb.Trie.Tidy

/-!
# References

After a finished part of the recursion every node is embedded by the reference its contents have,
the root included when a change is reported; when none is reported, neither the contents nor the
reference of the root have changed.
-/

namespace TrieDb

open Engine (Change Changes)
open Trie

variable [AlloyTrie]

namespace Trie

/-- A node is embedded by the reference its contents have. -/
def Fresh (ref : RlpNode) (pre : Nibbles) (kind : Kind) (ch : Fin 16 → Trie Bool) : Prop :=
  ref = kind.rlp pre fun i ↦ (ch i).ref?

/-- The nodes below the root are embedded by their references or have a path below them. -/
def FreshBelow (t : Trie Bool) (W : Nibbles → Prop) : Prop :=
  match t with
  | empty => True
  | node tag _ pre kind ch => ∀ i, (ch i).Tidy Fresh fun q ↦ tag = false ∧ pathsBelow pre kind W i q

omit [AlloyTrie] in
/-- The root is on a page of the transaction and has a path below it. -/
def RootAbove (t : Trie Bool) (W : Nibbles → Prop) : Prop :=
  ∃ ref pre kind ch, t = node false ref pre kind ch ∧ ∃ r, W (pre ++ r)

variable {t : Trie Bool} {tag : Bool} {ref ref' : RlpNode} {pre path : Nibbles} {kind : Kind}
  {e : Entry} {ch : Fin 16 → Trie Bool} {W W' : Nibbles → Prop}

/-- A tidy trie is tidy below its root. -/
theorem Tidy.below (h : t.Tidy Fresh W) : t.FreshBelow W := by
  cases t with
  | empty => trivial
  | node => exact h.2

private theorem FreshBelow.mono (h : t.FreshBelow W) (hW : ∀ q, W q → W' q) : t.FreshBelow W' := by
  cases t with
  | empty => trivial
  | node tag ref pre kind ch =>
    intro i
    apply (h i).mono
    rintro q ⟨htag, hq⟩
    refine ⟨htag, ?_⟩
    cases kind with
    | leaf e => exact ⟨hq.1, hW _ hq.2⟩
    | branch => exact hW _ hq

private theorem FreshBelow.of_not (h : t.FreshBelow W) (hW : ∀ q, ¬ W q) : t.FreshBelow W' :=
  h.mono fun q hq ↦ absurd hq (hW q)

private theorem FreshBelow.withTag (h : t.FreshBelow W) : (t.withTag false).FreshBelow W := by
  cases t with
  | empty => trivial
  | node tag ref pre kind ch => exact fun i ↦ (h i).mono fun q hq ↦ ⟨rfl, hq.2⟩

private theorem FreshBelow.of_old (h : t.FreshBelow W) (ht : t.tag? = some true) :
    t.FreshBelow W' := by
  cases t with
  | empty => trivial
  | node tag ref pre kind ch =>
    have htag : tag = true := Option.some.inj ht
    intro i
    apply (h i).mono
    rintro q ⟨hf, -⟩
    rw [htag] at hf
    cases hf

/-- A trie whose root is embedded by its reference too. -/
private theorem FreshBelow.tidy (h : t.FreshBelow W) (hr : t.ref? = t.rlp) : t.Tidy Fresh W := by
  cases t with
  | empty => trivial
  | node tag ref pre kind ch => exact ⟨.inl (Option.some.inj hr), h⟩

/-- A trie with something to be stored below its root. -/
private theorem FreshBelow.tidy_of_rootAbove (h : t.FreshBelow W) (hr : t.RootAbove W) :
    t.Tidy Fresh W := by
  obtain ⟨ref, pre, kind, ch, rfl, r, hW⟩ := hr
  exact ⟨.inr ⟨rfl, r, hW⟩, h⟩

/-- The root of a trie in which nothing is to be stored. -/
private theorem Tidy.ref?_eq (h : t.Tidy Fresh W) (hW : ∀ q, ¬ W q) : t.ref? = t.rlp := by
  cases t with
  | empty => rfl
  | node tag ref pre kind ch =>
    have hr : Fresh ref pre kind ch := h.1.resolve_right fun ⟨_, r, hr⟩ ↦ hW _ hr
    exact congrArg some hr

private theorem FreshBelow.above {length : Nat} (h : (node false ref pre kind ch).FreshBelow W)
    (hl : length < pre.length) :
    (above false length (node false ref pre kind ch)).FreshBelow W := by
  obtain ⟨i, rest, hdrop⟩ := List.exists_cons_of_ne_nil
    (show pre.drop length ≠ [] by simpa using hl)
  have hpre : pre = pre.take length ++ i :: rest := by
    rw [← hdrop, List.take_append_drop]
  simp only [Trie.above, hdrop]
  intro j
  by_cases hj : j = i
  · subst hj
    rw [Function.update_self]
    refine ⟨.inl rfl, fun k ↦ (h k).mono ?_⟩
    rintro q ⟨-, hq⟩
    rw [hpre, pathsBelow_append] at hq
    refine ⟨rfl, ?_⟩
    cases kind with
    | leaf e => exact ⟨hq.1, rfl, hq.2⟩
    | branch => exact ⟨rfl, hq⟩
  · rw [Function.update_of_ne hj]
    trivial

/-- A leaf with another value. -/
private theorem FreshBelow.afterValue {e' : Entry} {f : Entries} {v : TrieValue} {cs : Changes}
    (h : (node false ref pre (.leaf e) ch).FreshBelow (Pending f ((pre, some v) :: cs))) :
    (node false ref' pre (.leaf e') ch).FreshBelow (Pending (f.apply (pre, some v)) cs) := by
  intro i
  apply (h i).mono
  rintro q ⟨-, hq, hpend⟩
  exact ⟨rfl, hq, hpend.of_cons_apply (by simpa using hq)⟩

/-- An account with another storage trie. -/
private theorem freshBelow_account {info : AccountInfo} {st : Trie Bool} {l : Level} {n : Nat}
    (h : (node false ref pre (.leaf (.account info)) ch).Rough l n)
    (hst : st.Tidy Fresh fun q ↦ q ≠ [] ∧ W (pre ++ q)) :
    (node false ref' pre (.leaf (.account info)) (Function.update ch 0 st)).FreshBelow W := by
  intro i
  by_cases hi : i = 0
  · rw [hi, Function.update_self]
    exact hst.mono fun q hq ↦ ⟨rfl, hq⟩
  · have hempty : ch i = empty := by
      by_contra hne
      have := h.2.1 i hne
      simp [Kind.allows, hi] at this
    rw [Function.update_of_ne hi, hempty]
    trivial

/-- The root of a collapsed branch is new. -/
private theorem cleanup_update (h : (cleanup false pre ch).1 = .update) :
    (cleanup false pre ch).2.ref? = (cleanup false pre ch).2.rlp := by
  unfold cleanup at h ⊢
  split
  · next hocc =>
    simp [hocc] at h
  · next i _ =>
    cases ch i <;> rfl
  · rfl

private theorem freshBelow_cleanup (h : ∀ i, (ch i).Tidy Fresh fun _ ↦ False) :
    (cleanup false pre ch).2.FreshBelow W := by
  unfold cleanup
  split
  · trivial
  · next i _ =>
    have hi := h i
    cases hc : ch i with
    | empty => trivial
    | node tag ref pre' kind ch' =>
      rw [hc] at hi
      intro j
      apply (hi.2 j).mono
      rintro q ⟨-, hq⟩
      cases kind with
      | leaf e => exact absurd hq.2 id
      | branch => exact absurd hq id
  · exact fun i ↦ (h i).of_false

/-- The encoding does not depend on the reference to the root. -/
@[simp] theorem rlp_withRef : (t.withRef ref).rlp = t.rlp := by cases t <;> rfl

/-- The encoding does not depend on the tag. -/
@[simp] theorem rlp_withTag : (t.withTag tag).rlp = t.rlp := by cases t <;> rfl

omit [AlloyTrie] in
/-- The reference does not depend on the tag. -/
@[simp] theorem ref?_withTag : (t.withTag tag).ref? = t.ref? := by cases t <;> rfl

private theorem FreshBelow.withRef (h : t.FreshBelow W) : (t.withRef ref).FreshBelow W := by
  cases t with
  | empty => trivial
  | node => exact h

omit [AlloyTrie] in
/-- All changes lie below the root. -/
private theorem rootAbove_of_all {f : Entries} {cs : Changes} (hall : ∀ c ∈ cs, pre <+: c.1)
    (hq : ∃ q, Pending f cs q) : (node false ref pre kind ch).RootAbove (Pending f cs) := by
  obtain ⟨q, hq⟩ := hq
  obtain ⟨v, hv, -⟩ := id hq
  obtain ⟨r, rfl⟩ := hall _ hv
  exact ⟨ref, pre, kind, ch, rfl, r, hq⟩

end Trie

/-! ### The recursion -/

/-- What a part of the recursion has done to the references. -/
structure Refreshed (mode : Mode) (t : Trie Bool) (cs : Changes) (o : Out) (t' : Trie Bool) :
    Prop where
  kept : mode ≠ .slot ∨ t ≠ empty → o = .none →
    t'.ref? = t.ref? ∧ t'.rlp = t.rlp ∧ t'.lookup = t.lookup
  added : mode = .slot → t = empty → o = .none → t'.ref? = t'.rlp
  updated : o = .update → t'.ref? = t'.rlp
  deleted : o = .delete → t' = empty
  stopped : ∀ k, o = .stop k → t' = t ∧ k = 0 ∨ t'.ref? = t'.rlp ∨
    t'.RootAbove (Pending t'.lookup (o.rest cs))
  below : t'.FreshBelow (Pending t'.lookup (o.rest cs))

namespace Refreshed

variable {mode : Mode} {t t' : Trie Bool} {cs ds : Changes} {o : Out}

private theorem mono (h : Refreshed mode t cs o t')
    (hs : ∀ q, Pending t'.lookup (o.rest cs) q → Pending t'.lookup (o.rest ds) q) :
    Refreshed mode t ds o t' where
  kept := h.kept
  added := h.added
  updated := h.updated
  deleted := h.deleted
  stopped := fun k ho ↦ (h.stopped k ho).imp id (Or.imp id fun ⟨ref, pre, kind, ch, ht, r, hr⟩ ↦
    ⟨ref, pre, kind, ch, ht, r, hs _ hr⟩)
  below := h.below.mono hs

private theorem cons (h : Refreshed mode t cs o t') (c : Change) :
    Refreshed mode t (c :: cs) o t' :=
  h.mono fun _ ↦ Pending.rest_cons c

private theorem of_mode {mode' : Mode} (h : Refreshed mode t cs o t') (hm : mode ≠ .slot)
    (hm' : mode' ≠ .slot ∨ t ≠ empty) : Refreshed mode' t cs o t' where
  kept := fun _ ↦ h.kept (.inl hm)
  added := fun he ht ↦ hm'.elim (absurd he) (absurd ht)
  updated := h.updated
  deleted := h.deleted
  stopped := h.stopped
  below := h.below

/-- Nothing has happened. -/
private theorem refl (h : t.FreshBelow (Pending t.lookup (o.rest cs)))
    (ho : o = .none ∨ o = .stop 0) : Refreshed mode t cs o t where
  kept := fun _ _ ↦ ⟨rfl, rfl, rfl⟩
  added := fun _ ht _ ↦ by rw [ht]; rfl
  updated := fun hu ↦ by rcases ho with rfl | rfl <;> cases hu
  deleted := fun hd ↦ by rcases ho with rfl | rfl <;> cases hd
  stopped := fun k hk ↦ by
    rcases ho with rfl | rfl
    · cases hk
    · cases hk
      exact .inl ⟨rfl, rfl⟩
  below := h

/-- A new root. -/
private theorem of_update (hr : t'.ref? = t'.rlp) (h : t'.FreshBelow (Pending t'.lookup [])) :
    Refreshed mode t cs .update t' where
  kept := fun _ ho ↦ by cases ho
  added := fun _ _ ho ↦ by cases ho
  updated := fun _ ↦ hr
  deleted := fun ho ↦ by cases ho
  stopped := fun _ ho ↦ by cases ho
  below := h

/-- The root has been changed before the rest of the recursion. -/
private theorem of_start {t₂ : Trie Bool} (h : Refreshed .node t₂ cs o t') (hm : mode ≠ .slot)
    (ho : o ≠ .none) (ht : o = .stop 0 → t' = t₂ → t'.RootAbove (Pending t'.lookup (o.rest cs))) :
    Refreshed mode t cs o t' where
  kept := fun _ h ↦ absurd h ho
  added := fun h ↦ absurd h hm
  updated := h.updated
  deleted := h.deleted
  stopped := fun k hk ↦ by
    rcases h.stopped k hk with ⟨he, rfl⟩ | h'
    · exact .inr (.inr (ht hk he))
    · exact .inr h'
  below := h.below

/-- A finished page. -/
private theorem of_ended (hm : mode ≠ .slot) (ho : o.ended) (hn : o ≠ .none)
    (hu : o = .update → t'.ref? = t'.rlp) (hd : o = .delete → t' = empty)
    (h : t'.FreshBelow fun _ ↦ False) : Refreshed mode t cs o t' where
  kept := fun _ h ↦ absurd h hn
  added := fun h ↦ absurd h hm
  updated := hu
  deleted := hd
  stopped := fun k hk ↦ by simp [hk, Out.ended] at ho
  below := h.mono fun _ ↦ False.elim

/-- The references in a child after a part of the recursion on it. -/
private theorem tidy (h : Refreshed mode t cs o t') (ht : t.Tidy Fresh (Pending t.lookup cs))
    (hs : o.ended → t'.lookup = Entries.update t.lookup cs) (hb : Batch cs) :
    t'.Tidy Fresh (Pending t'.lookup (o.rest cs)) := by
  cases o with
  | none =>
    apply h.below.tidy
    by_cases hm : mode = .slot ∧ t = empty
    · exact h.added hm.1 hm.2 rfl
    · obtain ⟨hr, hrlp, hlook⟩ := h.kept (by tauto) rfl
      have hnot (q : Nibbles) : ¬ Pending t.lookup cs q :=
        hb.not_pending ((hs rfl).symm.trans hlook)
      rw [hr, hrlp]
      exact ht.ref?_eq hnot
  | update => exact h.below.tidy (h.updated rfl)
  | delete =>
    rw [h.deleted rfl]
    trivial
  | stop k =>
    rcases h.stopped k rfl with ⟨rfl, rfl⟩ | hr | hr
    · exact ht
    · exact h.below.tidy hr
    · exact h.below.tidy_of_rootAbove hr

/-- A finished child. -/
theorem tidy_of_ended (h : Refreshed mode t cs o t') (ht : t.Tidy Fresh (Pending t.lookup cs))
    (hs : o.ended → t'.lookup = Entries.update t.lookup cs) (hb : Batch cs) (ho : o.ended) :
    t'.Tidy Fresh fun _ ↦ False := by
  have h' := h.tidy ht hs hb
  rw [Out.rest_eq_nil ho] at h'
  exact h'.of_not fun _ ↦ Pending.not_nil

end Refreshed

/-- The recursion keeps the references up to date. -/
theorem Exec.refreshed {mode : Mode} {t t' : Trie Bool} {cs : Changes} {o : Out} {m : List Mishap}
    {l : Level} {n : Nat} (h : Exec mode t cs o t' m) (hs : Suits l n t cs) (hm : .stalled ∉ m)
    (hf : t.FreshBelow (Pending t.lookup cs)) : Refreshed mode t cs o t' := by
  induction h generalizing l n with
  | nil => exact .refl hf (.inl rfl)
  | skipFirst _ _ ih => exact (ih hs.tail hm (hf.mono fun _ ↦ Pending.of_cons_delete)).cons _
  | skipLast _ _ ih =>
    exact (ih (hs.sublist (List.sublist_append_left _ _)) hm
      (hf.mono fun _ ↦ Pending.of_append_delete)).mono fun _ ↦ Pending.rest_append_right _
  | aboveStop => exact .refl hf (.inr rfl)
  | @above ref pre kind ch path v cs length o t' m hc hl hp hd hall h ih =>
    have hlook : (Trie.above false length (node false ref pre kind ch)).lookup =
      (node false ref pre kind ch).lookup := lookup_above
    have hsuits := hs.above hl
    have hsound := h.sound hsuits hm
    -- the value beside the node is stored, so a change is reported
    have ho : o ≠ .none := by
      rintro rfl
      refine hs.batch.not_pending ((hsound.done rfl).symm.trans (hsound.kept (by simp) rfl))
        ⟨v, hc, ?_⟩
      rw [hlook, lookup_outside fun h ↦ hd ((List.take_prefix _ _).trans h)]
      exact Option.some_ne_none _ ∘ Eq.symm
    refine (ih hsuits hm (hlook ▸ hf.above hl)).of_start (by simp) ho ?_
    rintro rfl rfl
    have hq := h.pending
    obtain ⟨i, rest, hdrop⟩ := List.exists_cons_of_ne_nil
      (show pre.drop length ≠ [] by simpa using hl)
    simp only [Trie.above, hdrop] at hq ⊢
    exact rootAbove_of_all hall hq
  | delete => exact .of_ended (by simp) rfl (by simp) (fun h ↦ by cases h) (fun _ ↦ rfl) trivial
  | same hv _ ih =>
    cases eq_leaf_of_value? hv
    refine (ih hs.tail hm (hf.mono fun q hq ↦ ?_)).cons _
    exact hq.of_cons_stored (lookup_leaf_self ..)
  | setStop => exact .refl hf (.inr rfl)
  | @setNone ref pre e ch v cs t' m _ hch _ ih =>
    have h' := ih (hs.afterValue hch) hm (hs.lookup_afterValue ▸ hf.afterValue)
    obtain ⟨hr, hrlp, -⟩ := h'.kept (.inl (by simp)) rfl
    apply Refreshed.of_update
    · rw [rlp_withRef, hrlp]
      cases t' with
      | empty => cases hr
      | node => rfl
    · exact (h'.below.of_not fun _ ↦ Pending.not_nil).withRef
  | @setMore ref pre e ch v cs o t' m _ hch hall h ho ho' ih =>
    have h' := ih (hs.afterValue hch) hm (hs.lookup_afterValue ▸ hf.afterValue)
    refine (h'.of_start (by simp) ho ?_).cons _
    rintro rfl rfl
    exact rootAbove_of_all hall h.pending
  | @storage ref pre info ch cs o st m _ hcs _ h ho ih =>
    have hf₀ : (ch 0).Tidy Fresh (Pending (ch 0).lookup cs) :=
      (hf 0).mono fun q hq ↦ (pathsBelow_account hcs).mp hq.2
    have ho' : o.ended := by rcases ho with rfl | rfl <;> rfl
    have hst := (ih (hs.storage hcs) hm hf₀.below).tidy_of_ended hf₀
      (h.sound (hs.storage hcs) hm).done (hs.storage hcs).batch ho'
    exact .of_update rfl (freshBelow_account hs.rough hst.of_false)
  | @storageKeep ref pre info ch cs o st m _ hcs _ h ho ho' ih =>
    have hf₀ : (ch 0).Tidy Fresh (Pending (ch 0).lookup cs) :=
      (hf 0).mono fun q hq ↦ (pathsBelow_account hcs).mp hq.2
    have hst := ih (hs.storage hcs) hm hf₀.below
    have hsound := h.sound (hs.storage hcs) hm
    have hrest : ∀ c ∈ o.rest cs, c.1 ≠ [] := fun c hc ↦ hcs c (Out.mem_of_mem_rest hc)
    have hup {q : Nibbles} (hq : Pending st.lookup (o.rest cs) q) :
        q ≠ [] ∧ Pending (node false ref pre (.leaf (.account info))
          (Function.update ch 0 st)).lookup (o.rest (under pre cs)) (pre ++ q) := by
      rw [Out.rest_under]
      apply (pathsBelow_account (i := 0) hrest).mpr
      rwa [Function.update_self]
    refine ⟨fun _ hn ↦ ⟨rfl, ?_, ?_⟩, (fun hm ↦ by cases hm), fun h ↦ absurd h ho,
      fun h ↦ absurd h ho', fun k hk ↦ .inr (.inr ?_), ?_⟩
    · have hrefs : (fun i ↦ (Function.update ch 0 st i).ref?) = fun i ↦ (ch i).ref? := by
        funext i
        by_cases hi : i = 0
        · rw [hi, Function.update_self, (hst.kept (.inl (by simp)) hn).1]
        · rw [Function.update_of_ne hi]
      simp only [rlp, hrefs]
    · exact (hsound.storage hcs).kept (by simp) hn
    · subst hk
      obtain ⟨q, hq⟩ := h.pending
      exact ⟨ref, pre, _, _, rfl, q, (hup hq).2⟩
    · exact freshBelow_account hs.rough ((hst.tidy hf₀ hsound.done (hs.storage hcs).batch).mono
        fun q hq ↦ hup hq)
  | firstSkip _ _ _ ih => exact (ih hs.tail hm (hf.mono fun _ ↦ Pending.of_cons_delete)).cons _
  | firstStop => exact .refl hf (.inr rfl)
  | firstOnly =>
    exact .of_update rfl (freshBelow_account hs.rough (tidy_leaf rfl))
  | @firstMore ref pre info ch path v cs o t' m hp hch _ hall h ih =>
    have ho : o ≠ .none := by
      rintro rfl
      simp at hm
    rw [if_neg ho] at hm
    refine ((ih (hs.firstSlot hp hch) hm
      (freshBelow_account hs.rough (tidy_leaf rfl))).of_start (by simp) ho ?_).cons _
    rintro rfl rfl
    exact rootAbove_of_all hall h.pending
  | @branch ref pre ch g o ch' m _ h ho ih =>
    have hchild (i : Fin 16) : (ch' i).Tidy Fresh fun _ ↦ False := by
      have hi : (ch i).Tidy Fresh (Pending (ch i).lookup (g i)) :=
        (hf i).mono fun q hq ↦ pathsBelow_branch.mp hq.2
      have hmi := not_mem_of_flatMap hm i
      exact (ih i (hs.branch i) hmi hi.below).tidy_of_ended hi ((h i).sound (hs.branch i) hmi).done
        (hs.branch i).batch (ho i)
    exact .of_ended (by simp) cleanup_ended.1 cleanup_ended.2 cleanup_update cleanup_delete.mp
      (freshBelow_cleanup hchild)
  | @branchStop ref pre ch g o ch' m i₀ k h ho hn hch ih =>
    have h₀ := h i₀ le_rfl
    rw [hn] at h₀
    have hin (i : Fin 16) : (ch i).Tidy Fresh (Pending (ch i).lookup (g i)) :=
      (hf i).mono fun q hq ↦ pathsBelow_branch.mp hq.2
    have hchild {i : Fin 16} (hi : i ≤ i₀) :
        (ch' i).Tidy Fresh (Pending (ch' i).lookup ((o i).rest (g i))) := by
      have hmi := not_mem_of_flatMap hm i
      exact (ih i hi (hs.branch i) hmi (hin i).below).tidy (hin i)
        ((h i hi).sound (hs.branch i) hmi).done (hs.branch i).batch
    refine ⟨(fun _ hn ↦ by cases hn), (fun hm ↦ by cases hm), (fun h ↦ by cases h),
      (fun h ↦ by cases h), fun _ _ ↦ .inr (.inr ?_), ?_⟩
    · simp only [Out.rest, drop_regroup h₀.stop_lt.le]
      obtain ⟨q, hq⟩ := h₀.pending
      refine ⟨ref, pre, _, _, rfl, i₀ :: q, pathsBelow_branch.mpr ?_⟩
      simpa [groupsFrom] using hq
    · simp only [Out.rest, drop_regroup h₀.stop_lt.le]
      intro i
      apply Tidy.mono (W := Pending (ch' i).lookup (groupsFrom g i₀ k i))
      · unfold groupsFrom
        rcases lt_trichotomy i i₀ with hi | rfl | hi
        · rw [if_pos hi, ← Out.rest_eq_nil (ho i hi)]
          exact hchild hi.le
        · rw [if_neg (lt_irrefl i), if_pos rfl]
          have hi := hchild (le_refl i)
          rwa [hn] at hi
        · rw [if_neg hi.asymm, if_neg hi.ne', (hch i hi).1]
          exact hin i
      · exact fun q hq ↦ ⟨rfl, pathsBelow_branch.mpr hq⟩
  | slotNil => exact .refl hf (.inl rfl)
  | slotChild ht _ _ ih => exact (ih hs hm hf).of_mode (by simp) (.inr ht)
  | slotSkip => exact .refl trivial (.inl rfl)
  | slotStop => exact .refl trivial (.inr rfl)
  | slotLeaf => exact .of_update rfl (tidy_leaf rfl).below
  | @slotMore ds path v cs o t' m _ _ h ih =>
    have h' := ih hs.newLeaf hm (tidy_leaf rfl).below
    have hnew : Refreshed .slot empty cs o t' := by
      refine ⟨fun hne ↦ ?_, fun _ _ hn ↦ ?_, h'.updated, h'.deleted, fun k hk ↦ ?_, h'.below⟩
      · rcases hne with hne | hne <;> exact absurd rfl hne
      · obtain ⟨hr, hrlp, -⟩ := h'.kept (.inl (by simp)) hn
        rw [hr, hrlp]
        rfl
      · rcases h'.stopped k hk with ⟨rfl, -⟩ | hr
        · exact .inr (.inl rfl)
        · exact .inr hr
    exact hnew.mono fun _ hq ↦ (hq.rest_cons _).rest_append _
  | childLocal _ ih => exact (ih hs hm hf).of_mode (by simp) (.inl (by simp))
  | @childPage t cs o t' m _ h ih =>
    have hlook : (t.withTag false).lookup = t.lookup := funext fun q ↦ lookup_withTag ..
    have h' := ih hs.withTag hm (hlook ▸ hf.withTag)
    have ho := h.ended_of_page rfl
    refine ⟨fun _ hn ↦ ?_, (fun hm ↦ by cases hm), h'.updated, h'.deleted,
      (fun k hk ↦ by simp [hk, Out.ended] at ho), h'.below⟩
    have hk := h'.kept (.inl (by simp)) hn
    rwa [ref?_withTag, rlp_withTag, hlook] at hk
  | childAbandon ht => exact .refl (hf.of_old ht) (.inl rfl)
  | pageDone _ _ ih => exact (ih hs hm hf).of_mode (by simp) (.inl (by simp))
  | pageRetry h h' ih ih' =>
    rw [List.mem_append, not_or] at hm
    have hs₁ := h.suits_restart hs (h.sound hs hm.1)
    have hr := ih' hs₁ hm.2 (ih hs hm.1 hf).below
    have ho := h'.ended_of_page rfl
    have hbelow := hr.below
    rw [Out.rest_eq_nil ho] at hbelow
    exact .of_ended (by simp) ho (h.restart_ne_none hs.batch (h'.sound hs₁ hm.2)) hr.updated
      hr.deleted (hbelow.of_not fun _ ↦ Pending.not_nil)

end TrieDb

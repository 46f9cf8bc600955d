import TrieDb.Trie.Contents

/-!
# Unfinished nodes

Between a stop and the restart after it, branches may have fewer than two children and nodes may be
embedded by outdated references. Every such node has a value to be stored below it and is on a page
of the present transaction, so the restart comes back to it.
-/

namespace TrieDb

open Engine (Change Changes)
open Trie

/-- The paths below a child, seen from the child. -/
def pathsBelow (pre : Nibbles) (kind : Kind) (W : Nibbles → Prop) (i : Fin 16)
    (q : Nibbles) : Prop :=
  match kind with
  | .branch => W (pre ++ i :: q)
  | .leaf _ => q ≠ [] ∧ W (pre ++ q)

namespace Trie

/-- Every node has a property or lies above one of the given paths, the latter only on pages of the
present transaction. -/
def Tidy (P : RlpNode → Nibbles → Kind → (Fin 16 → Trie Bool) → Prop) :
    Trie Bool → (Nibbles → Prop) → Prop
  | empty => fun _ ↦ True
  | node tag ref pre kind ch => fun W ↦
    (P ref pre kind ch ∨ tag = false ∧ ∃ r, W (pre ++ r)) ∧
      ∀ i, (ch i).Tidy P fun q ↦ tag = false ∧ pathsBelow pre kind W i q

/-- A branch has at least two children. -/
def Forked (_ : RlpNode) (_ : Nibbles) (kind : Kind) (ch : Fin 16 → Trie Bool) : Prop :=
  kind = .branch → 2 ≤ (occupied ch).length

/-- All branches have at least two children. -/
def Full (t : Trie Bool) : Prop := t.Tidy Forked fun _ ↦ False

section
variable {P : RlpNode → Nibbles → Kind → (Fin 16 → Trie Bool) → Prop} {W W' : Nibbles → Prop}
  {t : Trie Bool} {tag : Bool} {ref ref' : RlpNode} {pre path : Nibbles} {kind : Kind} {e : Entry}
  {ch : Fin 16 → Trie Bool} {f : Entries} {cs : Changes} {g : Fin 16 → Changes}

/-- More may be pending. -/
theorem Tidy.mono (h : t.Tidy P W) (hW : ∀ q, W q → W' q) : t.Tidy P W' := by
  induction t generalizing W W' with
  | empty => trivial
  | node tag ref pre kind ch ih =>
    refine ⟨h.1.imp id fun ⟨htag, r, hr⟩ ↦ ⟨htag, r, hW _ hr⟩, fun i ↦ ?_⟩
    apply ih i (h.2 i)
    rintro q ⟨htag, hq⟩
    refine ⟨htag, ?_⟩
    cases kind with
    | leaf e => exact ⟨hq.1, hW _ hq.2⟩
    | branch => exact hW _ hq

/-- A trie without unfinished nodes. -/
theorem Tidy.of_false (h : t.Tidy P fun _ ↦ False) : t.Tidy P W := h.mono fun _ ↦ False.elim

/-- Nothing is unfinished when nothing is left to do. -/
theorem Tidy.of_not (h : t.Tidy P W) (hW : ∀ q, ¬ W q) : t.Tidy P fun _ ↦ False := h.mono hW

/-- Pages from before the transaction are finished. -/
private theorem Tidy.of_old (h : t.Tidy P W) (ht : t.tag? = some true) :
    t.Tidy P fun _ ↦ False := by
  cases t with
  | empty => trivial
  | node tag ref pre kind ch =>
    have htag : tag = true := Option.some.inj ht
    refine ⟨.inl (h.1.resolve_right fun hr ↦ ?_), fun i ↦ ?_⟩
    · rw [htag] at hr
      cases hr.1
    · apply (h.2 i).mono
      rintro q ⟨hf, -⟩
      rw [htag] at hf
      cases hf

/-- Copying a page. -/
private theorem Tidy.withTag (h : t.Tidy P W) : (t.withTag false).Tidy P W := by
  cases t with
  | empty => trivial
  | node tag ref pre kind ch =>
    exact ⟨h.1.imp id fun ⟨_, hr⟩ ↦ ⟨rfl, hr⟩, fun i ↦ (h.2 i).mono fun q ⟨_, hq⟩ ↦ ⟨rfl, hq⟩⟩

/-- A longer prefix only moves the paths. -/
theorem pathsBelow_append {i j : Fin 16} {q : Nibbles} :
    pathsBelow (path ++ i :: pre) kind W j q ↔
      pathsBelow pre kind (fun q ↦ W (path ++ i :: q)) j q := by
  cases kind <;> simp [pathsBelow]

/-- The values to be stored below a child of a branch. -/
theorem pathsBelow_branch {q : Nibbles} {i : Fin 16} :
    pathsBelow pre .branch (Pending (node tag ref pre .branch ch).lookup (regroup pre g)) i q ↔
      Pending (ch i).lookup (g i) q := by
  simp only [pathsBelow, Pending, mem_regroup_append, lookup_branch_append]

/-- The slots to be stored below an account. -/
theorem pathsBelow_account {q : Nibbles} {i : Fin 16} {info : AccountInfo}
    (hcs : ∀ c ∈ cs, c.1 ≠ []) :
    pathsBelow pre (.leaf (.account info))
      (Pending (node tag ref pre (.leaf (.account info)) ch).lookup (under pre cs)) i q ↔
      Pending (ch 0).lookup cs q := by
  constructor
  · rintro ⟨hq, v, hv, hne⟩
    obtain ⟨j, r, rfl⟩ := List.exists_cons_of_ne_nil hq
    obtain ⟨d, hd, heq⟩ := mem_under.mp hv
    obtain ⟨hpath, hx⟩ := Prod.mk.inj heq
    rw [lookup_account_append] at hne
    refine ⟨v, ?_, hne⟩
    rw [List.append_cancel_left hpath, hx]
    exact hd
  · rintro ⟨v, hv, hne⟩
    have hq := hcs _ hv
    obtain ⟨j, r, rfl⟩ := List.exists_cons_of_ne_nil hq
    refine ⟨hq, v, mem_under.mpr ⟨_, hv, rfl⟩, ?_⟩
    rwa [lookup_account_append]

end

end Trie

/-- The changes that a restart starts with. -/
def Out.rest : Out → Changes → Changes
  | stop k, cs => cs.drop k
  | _, _ => []

section
variable {f f' : Entries} {c : Change} {cs ds : Changes} {o : Out} {p q : Nibbles} {v : TrieValue}

/-- The rest of changes with a prefix before them. -/
theorem Out.rest_under {pre : Nibbles} : o.rest (under pre cs) = under pre (o.rest cs) := by
  cases o with
  | stop k => simp [rest, under, List.map_drop]
  | _ => rfl

/-- The rest is some of the changes. -/
theorem Out.mem_of_mem_rest (h : c ∈ o.rest cs) : c ∈ cs := by
  cases o with
  | stop k => exact List.mem_of_mem_drop h
  | _ => cases h

/-- Nothing is left at the end. -/
theorem Out.rest_eq_nil (ho : o.ended) : o.rest cs = [] := by
  cases o with
  | stop => cases ho
  | _ => rfl

namespace Pending

/-- Nothing is pending without changes. -/
theorem not_nil : ¬ Pending f [] q := fun ⟨_, hv, _⟩ ↦ by cases hv

/-- What is pending stays so with changes before. -/
theorem rest_append (ds : Changes) (h : Pending f (o.rest cs) q) :
    Pending f (o.rest (ds ++ cs)) q := by
  cases o with
  | stop k => exact h.drop_append ds
  | _ => exact h

/-- What is pending stays so with a change before. -/
theorem rest_cons (c : Change) (h : Pending f (o.rest cs) q) : Pending f (o.rest (c :: cs)) q :=
  h.rest_append [c]

/-- What is pending stays so with changes behind. -/
theorem rest_append_right (ds : Changes) (h : Pending f (o.rest cs) q) :
    Pending f (o.rest (cs ++ ds)) q := by
  cases o with
  | stop k => exact h.drop_append_right ds
  | _ => exact h

/-- A delete stores no value. -/
theorem of_cons_delete (h : Pending f ((p, none) :: cs) q) : Pending f cs q := by
  obtain ⟨v, hv, hne⟩ := h
  exact ⟨v, by simpa using hv, hne⟩

/-- A deletion leaves nothing pending. -/
theorem of_append_delete (h : Pending f (cs ++ [(p, none)]) q) : Pending f cs q := by
  obtain ⟨v, hv, hne⟩ := h
  exact ⟨v, by simpa using hv, hne⟩

/-- A value that is stored already. -/
theorem of_cons_stored (h : Pending f ((p, some v) :: cs) q) (hp : f p = some v.entry) :
    Pending f cs q := by
  obtain ⟨v', hv, hne⟩ := h
  rcases List.mem_cons.mp hv with heq | hv
  · obtain ⟨rfl, hv'⟩ := Prod.mk.inj heq
    cases hv'
    exact absurd hp hne
  · exact ⟨v', hv, hne⟩

/-- Storing a value leaves the others. -/
theorem of_cons_apply (h : Pending f ((p, some v) :: cs) q) (hq : q ≠ p) :
    Pending (f.apply (p, some v)) cs q := by
  obtain ⟨v', hv, hne⟩ := h
  rcases List.mem_cons.mp hv with heq | hv
  · exact absurd (Prod.mk.inj heq).1 hq
  · refine ⟨v', hv, ?_⟩
    rwa [Entries.apply_of_not_touches fun ht ↦ hq (touches_value.mp ht).symm]

end Pending

end

section
variable [AlloyTrie] {P : RlpNode → Nibbles → Kind → (Fin 16 → Trie Bool) → Prop}
  {W W' : Nibbles → Prop} {ref ref' : RlpNode} {pre path : Nibbles} {kind : Kind} {e : Entry}
  {ch ch' : Fin 16 → Trie Bool} {t : Trie Bool}

namespace Trie

/-- New leaves have no children. -/
theorem tidy_leaf (hP : P ((Kind.leaf e).rlp path fun _ ↦ none) path (.leaf e) fun _ ↦ empty) :
    (leaf false path e).Tidy P W :=
  ⟨.inl hP, fun _ ↦ trivial⟩

/-- A new branch above a node, with a value to be stored beside the node. -/
private theorem Tidy.above {length : Nat} (h : (node false ref pre kind ch).Tidy P W)
    (hl : length < pre.length) (hp : pre.take length <+: path) (hW : W path)
    (hP : ∀ i rest, pre.drop length = i :: rest → P ref pre kind ch →
      P (kind.rlp rest fun i ↦ (ch i).ref?) rest kind ch) :
    (above false length (node false ref pre kind ch)).Tidy P W := by
  obtain ⟨i, rest, hdrop⟩ := List.exists_cons_of_ne_nil
    (show pre.drop length ≠ [] by simpa using hl)
  have hpre : pre = pre.take length ++ i :: rest := by
    rw [← hdrop, List.take_append_drop]
  obtain ⟨r, hr⟩ := hp
  simp only [Trie.above, hdrop]
  refine ⟨.inr ⟨rfl, r, hr ▸ hW⟩, fun j ↦ ?_⟩
  by_cases hj : j = i
  · subst hj
    rw [Function.update_self]
    refine ⟨h.1.imp (hP j rest hdrop) ?_, fun k ↦ (h.2 k).mono ?_⟩
    · rintro ⟨-, r, hr⟩
      rw [hpre, List.append_assoc] at hr
      exact ⟨rfl, r, rfl, hr⟩
    · rintro q ⟨-, hq⟩
      rw [hpre, pathsBelow_append] at hq
      refine ⟨rfl, ?_⟩
      cases kind with
      | leaf e => exact ⟨hq.1, rfl, hq.2⟩
      | branch => exact ⟨rfl, hq⟩
  · rw [Function.update_of_ne hj]
    trivial

end Trie

end

/-! ### Branches with two children -/

namespace Trie

section
variable {ref ref' : RlpNode} {pre : Nibbles} {e : Entry} {ch : Fin 16 → Trie Bool}
  {W : Nibbles → Prop}

/-- A leaf is no branch. -/
private theorem tidy_forked_leaf (h : ∀ i, (ch i).Tidy Forked fun q ↦ q ≠ [] ∧ W (pre ++ q)) :
    (node false ref pre (.leaf e) ch).Tidy Forked W :=
  ⟨.inl (fun hk ↦ by cases hk), fun i ↦ (h i).mono fun _ hq ↦ ⟨rfl, hq⟩⟩

private theorem Tidy.leaf_child (h : (node false ref pre (.leaf e) ch).Tidy Forked W) (i : Fin 16) :
    (ch i).Tidy Forked fun q ↦ q ≠ [] ∧ W (pre ++ q) :=
  (h.2 i).mono fun _ hq ↦ hq.2

/-- An account with another storage trie. -/
private theorem tidy_forked_account {info : AccountInfo} {st : Trie Bool} {l : Level} {n : Nat}
    (h : (node false ref pre (.leaf (.account info)) ch).Rough l n)
    (hst : st.Tidy Forked fun q ↦ q ≠ [] ∧ W (pre ++ q)) :
    (node false ref' pre (.leaf (.account info)) (Function.update ch 0 st)).Tidy Forked W := by
  apply tidy_forked_leaf
  intro i
  by_cases hi : i = 0
  · rw [hi, Function.update_self]
    exact hst
  · have hempty : ch i = empty := by
      by_contra hne
      have := h.2.1 i hne
      simp [Kind.allows, hi] at this
    rw [Function.update_of_ne hi, hempty]
    trivial

/-- A leaf with another value. -/
private theorem Tidy.afterValue {e' : Entry} {f : Entries} {v : TrieValue} {cs : Changes}
    (h : (node false ref pre (.leaf e) ch).Tidy Forked (Pending f ((pre, some v) :: cs))) :
    (node false ref' pre (.leaf e') ch).Tidy Forked (Pending (f.apply (pre, some v)) cs) := by
  apply tidy_forked_leaf
  intro i
  apply (h.leaf_child i).mono
  rintro q ⟨hq, hpend⟩
  exact ⟨hq, hpend.of_cons_apply (by simpa using hq)⟩

private theorem Tidy.withRef {t : Trie Bool} (h : t.Tidy Forked W) :
    (t.withRef ref).Tidy Forked W := by
  cases t with
  | empty => trivial
  | node => exact h

private theorem Full.lift [AlloyTrie] {t : Trie Bool} {path : Nibbles} (h : t.Full) :
    (lift false path t).Full := by
  cases t with
  | empty => trivial
  | node tag ref pre kind ch =>
    refine ⟨.inl (h.1.resolve_right fun ⟨_, _, hr⟩ ↦ hr), fun i ↦ (h.2 i).mono ?_⟩
    rintro q ⟨-, hq⟩
    cases kind with
    | leaf e => exact absurd hq.2 id
    | branch => exact absurd hq id

private theorem Full.cleanup [AlloyTrie] (h : ∀ i, (ch i).Full) :
    (cleanup false pre ch).2.Full := by
  unfold Trie.cleanup
  split
  · trivial
  · next i _ => exact (h i).lift
  · next h₀ h₁ =>
    refine ⟨.inl fun _ ↦ ?_, fun i ↦ (h i).of_false⟩
    -- neither no child nor a single one
    cases hocc : occupied ch with
    | nil => exact absurd hocc h₀
    | cons i l =>
      cases l with
      | nil => exact absurd hocc (h₁ i)
      | cons j l => simp

end

end Trie

variable [AlloyTrie]

/-- The recursion leaves unfinished branches only where it comes back to. -/
theorem Exec.tidy_forked {mode : Mode} {t t' : Trie Bool} {cs : Changes} {o : Out}
    {m : List Mishap} {l : Level} {n : Nat} (h : Exec mode t cs o t' m) (ht : t.Rough l n)
    (hcs : Fits l n cs) (hW : t.Tidy Forked (Pending t.lookup cs)) :
    t'.Tidy Forked (Pending t'.lookup (o.rest cs)) := by
  induction h generalizing l n with
  | nil => exact hW
  | skipFirst _ _ ih =>
    exact (ih ht hcs.of_cons (hW.mono fun _ ↦ Pending.of_cons_delete)).mono
      fun _ ↦ Pending.rest_cons _
  | skipLast _ _ ih =>
    exact (ih ht (hcs.mono fun c ↦ List.mem_append_left _)
      (hW.mono fun _ ↦ Pending.of_append_delete)).mono fun _ ↦ Pending.rest_append_right _
  | aboveStop => exact hW
  | @above ref pre kind ch path v cs length o t' m hc hl hp hd _ _ ih =>
    have hlook : (Trie.above false length (node false ref pre kind ch)).lookup =
      (node false ref pre kind ch).lookup := lookup_above
    have hpath : Pending (node false ref pre kind ch).lookup cs path := by
      refine ⟨v, hc, ?_⟩
      rw [lookup_outside fun h ↦ hd ((List.take_prefix _ _).trans h)]
      exact Option.some_ne_none _ ∘ Eq.symm
    apply ih (ht.above hl) hcs
    rw [hlook]
    exact hW.above hl hp hpath fun _ _ _ ↦ id
  | delete => trivial
  | same hv _ ih =>
    cases eq_leaf_of_value? hv
    refine (ih ht hcs.of_cons (hW.mono fun q hq ↦ ?_)).mono fun _ ↦ Pending.rest_cons _
    exact hq.of_cons_stored (lookup_leaf_self ..)
  | setStop => exact hW
  | @setNone ref pre e ch v cs t' m _ hch _ ih =>
    have hv := hcs.value List.mem_cons_self
    have hlook : (node false ref pre (.leaf v.entry) ch).lookup =
      Entries.apply (node false ref pre (.leaf e) ch).lookup (pre, some v) :=
      lookup_leaf_update ht hv
    have h' := ih ⟨hv, hch, ht.2.2⟩ hcs.of_cons (hlook ▸ hW.afterValue)
    exact ((h'.of_not fun _ ↦ Pending.not_nil).of_false).withRef
  | @setMore ref pre e ch v cs o t' m _ hch _ _ _ _ ih =>
    have hv := hcs.value List.mem_cons_self
    have hlook : (node false ref pre (.leaf v.entry) ch).lookup =
      Entries.apply (node false ref pre (.leaf e) ch).lookup (pre, some v) :=
      lookup_leaf_update ht hv
    exact (ih ⟨hv, hch, ht.2.2⟩ hcs.of_cons (hlook ▸ hW.afterValue)).mono
      fun _ ↦ Pending.rest_cons _
  | @storage ref pre info ch cs o st m _ hcs' _ _ ho ih =>
    obtain ⟨rfl, hn⟩ := ht.1
    have hst := ih (ht.2.2 0) (hcs.storage hn hcs')
      ((hW.2 0).mono fun q hq ↦ (pathsBelow_account hcs').mp hq.2)
    have ho' : o.ended := by rcases ho with rfl | rfl <;> rfl
    rw [Out.rest_eq_nil ho'] at hst
    exact tidy_forked_account ht (hst.of_not fun _ ↦ Pending.not_nil).of_false
  | @storageKeep ref pre info ch cs o st m _ hcs' _ _ _ _ ih =>
    obtain ⟨rfl, hn⟩ := ht.1
    have hst := ih (ht.2.2 0) (hcs.storage hn hcs')
      ((hW.2 0).mono fun q hq ↦ (pathsBelow_account hcs').mp hq.2)
    apply tidy_forked_account ht
    apply hst.mono
    intro q hq
    rw [Out.rest_under]
    have hrest : ∀ c ∈ o.rest cs, c.1 ≠ [] := fun c hc ↦ hcs' c (Out.mem_of_mem_rest hc)
    apply (pathsBelow_account (i := 0) hrest).mpr
    rwa [Function.update_self]
  | firstSkip _ _ _ ih =>
    exact (ih ht hcs.of_cons (hW.mono fun _ ↦ Pending.of_cons_delete)).mono
      fun _ ↦ Pending.rest_cons _
  | firstStop => exact hW
  | firstOnly => exact tidy_forked_account ht (tidy_leaf fun hk ↦ by cases hk)
  | @firstMore ref pre info ch path v cs o t' m hp hch _ _ _ ih =>
    refine (ih (ht.withStorage (rough_leaf_new (hcs.firstSlot ht.1 hp))) hcs.of_cons
      (tidy_forked_account ht (tidy_leaf fun hk ↦ by cases hk))).mono ?_
    exact fun _ ↦ Pending.rest_cons _
  | @branch ref pre ch g o ch' m _ _ ho ih =>
    rw [Out.rest_eq_nil cleanup_ended.1]
    apply Tidy.of_false
    apply Full.cleanup
    intro i
    have hi := ih i (ht.2 i) (hcs.of_regroup ht.1 i)
      ((hW.2 i).mono fun q hq ↦ pathsBelow_branch.mp hq.2)
    rw [Out.rest_eq_nil (ho i)] at hi
    exact hi.of_not fun _ ↦ Pending.not_nil
  | @branchStop ref pre ch g o ch' m i₀ k h ho hn hch ih =>
    have h₀ := h i₀ le_rfl
    rw [hn] at h₀
    have hchild {i : Fin 16} (hi : i ≤ i₀) := ih i hi (ht.2 i) (hcs.of_regroup ht.1 i)
      ((hW.2 i).mono fun q hq ↦ pathsBelow_branch.mp hq.2)
    simp only [Out.rest, drop_regroup h₀.stop_lt.le]
    constructor
    · obtain ⟨q, hq⟩ := h₀.pending
      refine .inr ⟨rfl, i₀ :: q, pathsBelow_branch.mpr ?_⟩
      simpa [groupsFrom] using hq
    · intro i
      apply Tidy.mono (W := Pending (ch' i).lookup (groupsFrom g i₀ k i))
      · unfold groupsFrom
        rcases lt_trichotomy i i₀ with hi | rfl | hi
        · rw [if_pos hi, ← Out.rest_eq_nil (ho i hi)]
          exact hchild hi.le
        · rw [if_neg (lt_irrefl i), if_pos rfl]
          have hi := hchild (le_refl i)
          rwa [hn] at hi
        · rw [if_neg hi.asymm, if_neg hi.ne', (hch i hi).1]
          exact (hW.2 i).mono fun q hq ↦ pathsBelow_branch.mp hq.2
      · exact fun q hq ↦ ⟨rfl, pathsBelow_branch.mpr hq⟩
  | slotNil => exact hW
  | slotChild _ _ _ ih => exact ih ht hcs hW
  | slotSkip => trivial
  | slotStop => trivial
  | slotLeaf => exact tidy_leaf fun hk ↦ by cases hk
  | slotMore _ _ _ ih =>
    refine (ih (rough_leaf_new (hcs.value (by simp))) (hcs.mono (by simp +contextual))
      (tidy_leaf fun hk ↦ by cases hk)).mono ?_
    exact fun _ hq ↦ (hq.rest_cons _).rest_append _
  | childLocal _ ih => exact ih ht hcs hW
  | @childPage t cs o t' m _ _ ih =>
    have hlook : (t.withTag false).lookup = t.lookup := funext fun q ↦ lookup_withTag ..
    exact ih (rough_withTag.mpr ht) hcs (hlook ▸ hW.withTag)
  | childAbandon ht' => exact (hW.of_old ht').of_false
  | pageDone _ _ ih => exact ih ht hcs hW
  | pageRetry h h' ih ih' =>
    have h₁ := ih' (h.rough ht hcs) (hcs.mono fun c ↦ List.mem_of_mem_drop) (ih ht hcs hW)
    rw [Out.rest_eq_nil (h'.ended_of_page rfl)] at h₁
    exact (h₁.of_not fun _ ↦ Pending.not_nil).of_false

end TrieDb

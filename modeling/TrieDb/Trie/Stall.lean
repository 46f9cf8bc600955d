import TrieDb.Trie.Contents

/-!
# Accounts that get their first slot

The recursion stalls when a batch stores exactly one slot of an account without storage and deletes
a later slot of the same account. It does not stall on any other batch; this is shown for whole
runs, restarts included.
-/

namespace TrieDb

open Engine (Change Changes pathLe)
open Trie

namespace Trie

variable {α : Type}

/-- The storage trie of the account at a path. -/
def storage : Trie α → Nibbles → Trie α
  | empty => fun _ ↦ empty
  | node _ _ pre (.leaf (.account _)) ch => fun a ↦ if a = pre then ch 0 else empty
  | node _ _ _ (.leaf (.slot _)) _ => fun _ ↦ empty
  | node _ _ pre .branch ch => fun a ↦
    if pre <+: a then
      match a.drop pre.length with
      | i :: r => (ch i).storage r
      | [] => empty
    else empty

end Trie

/-- No account without storage gets exactly one slot together with a delete of a later one; `n`
nibbles are left to the end of a slot. -/
def NoStall (n : Nat) (t : Trie Bool) (cs : Changes) : Prop :=
  ∀ a s p v, a.length + 64 = n → s ≠ [] → p ≠ [] → (a ++ s, some v) ∈ cs → (a ++ p, none) ∈ cs →
    pathLe s p = true →
    t.storage a ≠ empty ∨ ∃ s' v', s' ≠ s ∧ s' ≠ [] ∧ (a ++ s', some v') ∈ cs

/-- Slots are stored under accounts that exist or are stored too. -/
def Grounded (n : Nat) (f : Entries) (cs : Changes) : Prop :=
  ∀ a s v, a.length + 64 = n → s ≠ [] → (a ++ s, some v) ∈ cs →
    f a ≠ none ∨ ∃ w, (a, some w) ∈ cs

section
variable {α : Type} {tag tag' : α} {ref ref' : RlpNode} {pre path a r : Nibbles} {kind : Kind}
  {ch : Fin 16 → Trie α} {i : Fin 16} {info : AccountInfo} {t : Trie α} {l : Level} {n : Nat}

namespace Trie

/-- The empty trie has no storage. -/
@[simp] theorem storage_empty : (empty : Trie α).storage a = empty := rfl

/-- The storage of an account is its child. -/
@[simp] theorem storage_account_self :
    (node tag ref pre (.leaf (.account info)) ch).storage pre = ch 0 := by
  simp [storage]

private theorem storage_account_ne (h : a ≠ pre) :
    (node tag ref pre (.leaf (.account info)) ch).storage a = empty := by
  simp [storage, h]

/-- Storage below a branch is that below the child. -/
@[simp] theorem storage_branch_append :
    (node tag ref pre .branch ch).storage (pre ++ i :: r) = (ch i).storage r := by
  simp [storage]

private theorem storage_branch (h : ∀ i r, a ≠ pre ++ i :: r) :
    (node tag ref pre .branch ch).storage a = empty := by
  simp only [storage]
  split
  · next hp =>
    obtain ⟨s, rfl⟩ := hp
    cases s with
    | nil => simp
    | cons i r => exact absurd rfl (h i r)
  · rfl

/-- The tag does not matter. -/
@[simp] theorem storage_withTag : (t.withTag tag).storage = t.storage := by
  cases t with
  | empty => rfl
  | node tag' ref pre kind ch => rcases kind with (_ | _) | _ <;> simp only [withTag, storage]

/-- An account with a slot below it has storage. -/
theorem storage_ne_empty {s : Nibbles} (ht : t.Rough .accounts n) (ha : a.length + 64 = n)
    (hs : s ≠ []) (hla : t.lookup a ≠ none) (hls : t.lookup (a ++ s) ≠ none) :
    t.storage a ≠ empty := by
  induction t generalizing a n with
  | empty => exact absurd rfl hla
  | node tag ref pre kind ch ih =>
    rcases path_cases pre a with hpa | rfl | ⟨i, r, rfl⟩
    · exact absurd (lookup_outside hpa) hla
    · obtain ⟨j, s, rfl⟩ := List.exists_cons_of_ne_nil hs
      rcases kind with (info | v) | _
      · rw [lookup_account_append] at hls
        rw [storage_account_self]
        exact fun he ↦ hls (by rw [he, lookup_empty])
      · exact absurd (lookup_slot_append ..) hls
      · exact absurd (lookup_branch_self ..) hla
    · rcases kind with (info | v) | _
      · have := ht.1.2
        rw [List.length_append, List.length_cons] at ha
        omega
      · exact absurd (lookup_slot_append ..) hla
      · rw [storage_branch_append]
        rw [lookup_branch_append] at hla
        rw [List.append_assoc, List.cons_append, lookup_branch_append] at hls
        apply ih i (ht.2 i) _ hla hls
        rw [List.length_append, List.length_cons] at ha
        omega

/-- Storage belongs to an account. -/
private theorem lookup_ne_none_of_storage (h : t.storage a ≠ empty) : t.lookup a ≠ none := by
  induction t generalizing a with
  | empty => exact absurd rfl h
  | node tag ref pre kind ch ih =>
    rcases kind with (info | v) | _
    · by_cases hp : a = pre
      · rw [hp, lookup_leaf_self]
        exact Option.some_ne_none _
      · exact absurd (storage_account_ne hp) h
    · exact absurd rfl h
    · by_cases hq : ∃ i r, a = pre ++ i :: r
      · obtain ⟨i, r, rfl⟩ := hq
        rw [storage_branch_append] at h
        rw [lookup_branch_append]
        exact ih i h
      · exact absurd (storage_branch fun i r h ↦ hq ⟨i, r, h⟩) h

/-- Storage is found below the prefix of a node. -/
private theorem storage_outside (h : ¬ pre <+: a) :
    (node tag ref pre kind ch).storage a = empty := by
  rcases kind with (info | v) | _
  · exact storage_account_ne fun he ↦ h (he ▸ List.prefix_rfl)
  · rfl
  · apply storage_branch
    rintro i r rfl
    exact h (List.prefix_append _ _)

/-- A longer prefix only moves the storage. -/
private theorem storage_append {path : Nibbles} :
    (node tag ref (path ++ pre) kind ch).storage (path ++ a) =
      (node tag' ref' pre kind ch).storage a := by
  rcases kind with (info | v) | _
  · by_cases h : a = pre
    · rw [h, storage_account_self, storage_account_self]
    · rw [storage_account_ne h, storage_account_ne fun he ↦ h (List.append_cancel_left he)]
  · rfl
  · by_cases hq : ∃ i r, a = pre ++ i :: r
    · obtain ⟨i, r, rfl⟩ := hq
      rw [← List.append_assoc, storage_branch_append, storage_branch_append]
    · rw [storage_branch fun i r h ↦ hq ⟨i, r, h⟩]
      apply storage_branch
      intro i r h
      rw [List.append_assoc] at h
      exact hq ⟨i, r, List.append_cancel_left h⟩

variable [AlloyTrie]

private theorem storage_above {length : Nat} :
    (above tag' length (node tag ref pre kind ch)).storage =
      (node tag ref pre kind ch).storage := by
  simp only [above]
  split
  · next i rest hdrop =>
    have hpre : pre = pre.take length ++ i :: rest := by rw [← hdrop, List.take_append_drop]
    generalize pre.take length = p at hpre ⊢
    subst hpre
    funext a
    by_cases hq : ∃ j r, a = p ++ j :: r
    · obtain ⟨j, r, rfl⟩ := hq
      rw [storage_branch_append]
      by_cases hj : j = i
      · subst hj
        have hmove : (node tag ref (p ++ j :: rest) kind ch).storage (p ++ j :: r) =
            (node tag ref ((p ++ [j]) ++ rest) kind ch).storage ((p ++ [j]) ++ r) := by
          simp
        rw [Function.update_self, hmove, storage_append]
        rfl
      · rw [Function.update_of_ne hj, storage_empty, storage_outside]
        intro hp
        rw [List.prefix_append_right_inj, List.cons_prefix_cons] at hp
        exact hj hp.1.symm
    · rw [storage_branch fun j r h ↦ hq ⟨j, r, h⟩, storage_outside]
      rintro ⟨s, rfl⟩
      exact hq ⟨i, rest ++ s, by simp⟩
  · rfl

end Trie

end

/-! ### Batches without stalls -/

section
variable {t t' : Trie Bool} {f f' : Entries} {cs ds : Changes} {n : Nat} {c d : Change}

/-- Accounts come before their slots. -/
private theorem Sorted.eq_of_isPrefix (h : Sorted (c :: cs)) (hd : d ∈ cs) (hp : d.1 <+: c.1) :
    d.1 = c.1 := by
  obtain ⟨r, hr⟩ := hp
  have hle := (List.pairwise_cons.mp h).1 d hd
  rw [← hr] at hle
  rw [← hr, eq_nil_of_append_pathLe hle, List.append_nil]

private theorem NoStall.weaken (h : NoStall n t cs) (hsub : ∀ c ∈ ds, c ∈ cs)
    (hback : ∀ a s v, a.length + 64 = n → s ≠ [] → (a ++ s, some v) ∈ cs →
      (a ++ s, some v) ∈ ds ∨ t'.storage a ≠ empty)
    (hst : ∀ a s v, a.length + 64 = n → s ≠ [] → (a ++ s, some v) ∈ cs → t.storage a ≠ empty →
      t'.storage a ≠ empty) : NoStall n t' ds := by
  intro a s p v ha hs hp hsv hpn hle
  rcases h a s p v ha hs hp (hsub _ hsv) (hsub _ hpn) hle with hne | ⟨s', v', hne, hs', hsv'⟩
  · exact .inl (hst a s v ha hs (hsub _ hsv) hne)
  · rcases hback a s' v' ha hs' hsv' with hmem | hne'
    · exact .inr ⟨s', v', hne, hs', hmem⟩
    · exact .inl hne'

private theorem Grounded.weaken (h : Grounded n f cs) (hsub : ∀ c ∈ ds, c ∈ cs)
    (hf : ∀ a s v, a.length + 64 = n → s ≠ [] → (a ++ s, some v) ∈ cs → f a ≠ none → f' a ≠ none)
    (hback : ∀ a w, a.length + 64 = n → (a, some w) ∈ cs → (a, some w) ∈ ds ∨ f' a ≠ none) :
    Grounded n f' ds := by
  intro a s v ha hs hsv
  rcases h a s v ha hs (hsub _ hsv) with hne | ⟨w, hw⟩
  · exact .inl (hf a s v ha hs (hsub _ hsv) hne)
  · exact (hback a w ha hw).symm.imp id fun h ↦ ⟨w, h⟩

/-- Deletes do not matter for the accounts of slots. -/
theorem Grounded.of_values (h : Grounded n f cs) (hsub : ∀ c ∈ ds, c ∈ cs)
    (hval : ∀ p v, (p, some v) ∈ cs → (p, some v) ∈ ds) : Grounded n f ds :=
  h.weaken hsub (fun _ _ _ _ _ _ ↦ id) fun a w _ hw ↦ .inl (hval a w hw)

/-- Leaving out deletes. -/
private theorem NoStall.of_values (h : NoStall n t cs) (hsub : ∀ c ∈ ds, c ∈ cs)
    (hval : ∀ p v, (p, some v) ∈ cs → (p, some v) ∈ ds) : NoStall n t ds :=
  h.weaken hsub (fun _ _ v _ _ hv ↦ .inl (hval _ v hv)) fun _ _ _ _ _ _ ↦ id

/-- The first stored value is not a slot whose account is missing. -/
private theorem Grounded.not_slot {path : Nibbles} {v : TrieValue} {a s : Nibbles}
    (h : Grounded n f ((path, some v) :: cs)) (hsort : Sorted ((path, some v) :: cs))
    (hf : ∀ a, a <+: path → a ≠ path → f a = none) (ha : a.length + 64 = n) (hs : s ≠ []) :
    path ≠ a ++ s := by
  rintro rfl
  have hne : a ≠ a ++ s := by simpa using hs
  rcases h a s v ha hs List.mem_cons_self with hfa | ⟨w, hw⟩
  · exact hfa (hf a (List.prefix_append a s) hne)
  · rcases List.mem_cons.mp hw with heq | hw
    · exact hne (Prod.mk.inj heq).1
    · exact hne (hsort.eq_of_isPrefix hw (List.prefix_append a s))

/-- A value for a node is not a slot for the accounts above it. -/
private theorem Grounded.of_node_value {ref : RlpNode} {pre : Nibbles} {kind : Kind}
    {ch : Fin 16 → Trie Bool} {v : TrieValue}
    (h : Grounded n (node false ref pre kind ch).lookup ((pre, some v) :: cs))
    (hsort : Sorted ((pre, some v) :: cs)) :
    ∀ a s v', a.length + 64 = n → s ≠ [] → (a ++ s, some v') ∈ (pre, some v) :: cs →
      (a ++ s, some v') ∈ cs := by
  intro a s v' ha hs hmem
  rcases List.mem_cons.mp hmem with heq | hmem
  · have hnone : ∀ a, a <+: pre → a ≠ pre → (node false ref pre kind ch).lookup a = none :=
      fun a hp hne ↦ lookup_outside fun hp' ↦
        hne (hp.eq_of_length (le_antisymm hp.length_le hp'.length_le))
    exact absurd (Prod.mk.inj heq).1.symm (h.not_slot hsort hnone ha hs)
  · exact hmem

private theorem storage_leaf_update {ref : RlpNode} {pre : Nibbles} {ch : Fin 16 → Trie Bool}
    {e e' : Entry} {l : Level} (he : l.Admits n pre.length e) (he' : l.Admits n pre.length e') :
    (node false ref pre (.leaf e') ch).storage = (node false ref pre (.leaf e) ch).storage := by
  rcases he.isAccount he' with ⟨a, a', rfl, rfl⟩ | ⟨x, x', rfl, rfl⟩
  · rfl
  · rfl

private theorem Grounded.afterValue {ref : RlpNode} {pre : Nibbles} {e : Entry} {v : TrieValue}
    {ch : Fin 16 → Trie Bool}
    (h : Grounded n (node false ref pre (.leaf e) ch).lookup ((pre, some v) :: cs))
    (hlook : (node false ref pre (.leaf v.entry) ch).lookup =
      Entries.apply (node false ref pre (.leaf e) ch).lookup (pre, some v)) :
    Grounded n (node false ref pre (.leaf v.entry) ch).lookup cs := by
  apply h.weaken fun _ ↦ List.mem_cons_of_mem _
  · intro a s v' _ _ _ hne
    rw [hlook]
    exact Entries.apply_value_ne_none hne
  · intro a w _ hw
    rcases List.mem_cons.mp hw with heq | hmem
    · obtain ⟨rfl, -⟩ := Prod.mk.inj heq
      exact .inr (by simp)
    · exact .inl hmem

private theorem NoStall.afterValue {ref : RlpNode} {pre : Nibbles} {e : Entry} {v : TrieValue}
    {ch : Fin 16 → Trie Bool} {l : Level}
    (h : NoStall n (node false ref pre (.leaf e) ch) ((pre, some v) :: cs))
    (hg : Grounded n (node false ref pre (.leaf e) ch).lookup ((pre, some v) :: cs))
    (hsort : Sorted ((pre, some v) :: cs)) (he : l.Admits n pre.length e)
    (hv : l.Admits n pre.length v.entry) :
    NoStall n (node false ref pre (.leaf v.entry) ch) cs := by
  apply h.weaken fun _ ↦ List.mem_cons_of_mem _
  · exact fun a s v' ha hs hmem ↦ .inl (hg.of_node_value hsort a s v' ha hs hmem)
  · intro a s v' _ _ _ hne
    rwa [storage_leaf_update he hv]

private theorem NoStall.withTag (h : NoStall n t cs) : NoStall n (t.withTag false) cs := by
  unfold NoStall
  rwa [storage_withTag]

private theorem NoStall.branch {ref : RlpNode} {pre : Nibbles} {ch : Fin 16 → Trie Bool}
    {g : Fin 16 → Changes} (h : NoStall n (node false ref pre .branch ch) (regroup pre g))
    (hn : pre.length < n) (i : Fin 16) : NoStall (n - pre.length - 1) (ch i) (g i) := by
  intro a s p v ha hs hp hsv hpn hle
  have hmem {r : Nibbles} {x : Option TrieValue} :
      (pre ++ i :: a ++ r, x) ∈ regroup pre g ↔ (a ++ r, x) ∈ g i := by
    rw [List.append_assoc, List.cons_append]
    exact mem_regroup_append
  have hlen : (pre ++ i :: a).length + 64 = n := by
    rw [List.length_append, List.length_cons]
    omega
  have hcase := h (pre ++ i :: a) s p v hlen hs hp (hmem.mpr hsv) (hmem.mpr hpn) hle
  rw [storage_branch_append] at hcase
  refine hcase.imp id ?_
  rintro ⟨s', v', hne, hs', hsv'⟩
  exact ⟨s', v', hne, hs', hmem.mp hsv'⟩

private theorem Grounded.branch {ref : RlpNode} {pre : Nibbles} {ch : Fin 16 → Trie Bool}
    {g : Fin 16 → Changes}
    (h : Grounded n (node false ref pre .branch ch).lookup (regroup pre g))
    (hn : pre.length < n) (i : Fin 16) : Grounded (n - pre.length - 1) (ch i).lookup (g i) := by
  intro a s v ha hs hsv
  have hlen : (pre ++ i :: a).length + 64 = n := by
    rw [List.length_append, List.length_cons]
    omega
  have hmem : (pre ++ i :: a ++ s, some v) ∈ regroup pre g := by
    rw [List.append_assoc, List.cons_append]
    exact mem_regroup_append.mpr hsv
  rcases h (pre ++ i :: a) s v hlen hs hmem with hf | ⟨w, hw⟩
  · rw [lookup_branch_append] at hf
    exact .inl hf
  · exact .inr ⟨w, mem_regroup_append.mp hw⟩

end

section
variable {t t₁ : Trie Bool} {f : Entries} {cs : Changes} {n k₀ k : Nat}

private theorem mem_take_or_drop (k₀ : Nat) {c : Change} (hc : c ∈ cs) :
    c ∈ cs.take k₀ ∨ c ∈ cs.drop k₀ := by
  rwa [← List.mem_append, List.take_append_drop]

/-- The accounts of the changes that are left have been stored or are left too. -/
private theorem Grounded.restart {f' : Entries} (h : Grounded n f cs) (hb : Batch cs) (hnk : k₀ ≤ k)
    (hf : f' = f.update (cs.take k)) : Grounded n f' (cs.drop k₀) := by
  have htake : ∀ c ∈ cs.take k, c ∈ cs := fun c ↦ List.mem_of_mem_take
  apply h.weaken fun c ↦ List.mem_of_mem_drop
  · intro a s v _ _ hv hne
    rw [hf]
    exact hb.update_ne_none hv (List.prefix_append a s) htake hne
  · intro a w _ hw
    rcases mem_take_or_drop k₀ hw with hmem | hmem
    · right
      rw [hf, (hb.sublist (List.take_sublist _ _)).update_of_value
        (List.take_subset_take_left cs hnk hmem)]
      exact Option.some_ne_none _
    · exact .inl hmem

/-- A restart does not stall either. -/
private theorem NoStall.restart (h : NoStall n t cs) (hb : Batch cs) (hg : Grounded n t.lookup cs)
    (ht₁ : t₁.Rough .accounts n) (hnk : k₀ ≤ k)
    (hf : t₁.lookup = Entries.update t.lookup (cs.take k))
    (hst : ∀ a s v, a.length + 64 = n → s ≠ [] → (a ++ s, some v) ∈ cs →
      t.storage a ≠ empty → t₁.storage a ≠ empty) : NoStall n t₁ (cs.drop k₀) := by
  have htake : ∀ c ∈ cs.take k, c ∈ cs := fun c ↦ List.mem_of_mem_take
  have hbt : Batch (cs.take k) := hb.sublist (List.take_sublist _ _)
  apply h.weaken (fun c ↦ List.mem_of_mem_drop) _ hst
  intro a s v ha hs hv
  rcases mem_take_or_drop k₀ hv with hmem | hmem
  · -- the slot has been stored, and so has its account
    have hmem' := List.take_subset_take_left cs hnk hmem
    right
    apply storage_ne_empty ht₁ ha hs
    · rcases hg a s v ha hs hv with hne | ⟨w, hw⟩
      · rw [hf]
        exact hb.update_ne_none hv (List.prefix_append a s) htake hne
      · rcases mem_take_or_drop k hw with hw' | hw'
        · rw [hf, hbt.update_of_value hw']
          exact Option.some_ne_none _
        · have hle := List.pairwise_append.mp ((List.take_append_drop k cs).symm ▸ hb.sorted)
          have := hle.2.2 _ hmem' _ hw'
          exact absurd (eq_nil_of_append_pathLe this) hs
    · rw [hf, hbt.update_of_value hmem']
      exact Option.some_ne_none _
  · exact .inl hmem

end

/-- No stall, and storage that is to be written stays until it is. -/
def Flows (n : Nat) (t : Trie Bool) (cs : Changes) (o : Out) (t' : Trie Bool) (m : List Mishap) :
    Prop :=
  .stalled ∉ m ∧ ∀ k, o = .stop k → ∀ a s v, a.length + 64 = n → s ≠ [] → (a ++ s, some v) ∈ cs →
    t.storage a ≠ empty → t'.storage a ≠ empty

private theorem Flows.weaken {n : Nat} {t t₂ t' : Trie Bool} {cs ds : Changes} {o : Out}
    {m : List Mishap} (h : Flows n t₂ ds o t' m) (hst : ∀ a s v, a.length + 64 = n → s ≠ [] →
      (a ++ s, some v) ∈ cs → t.storage a ≠ empty → (a ++ s, some v) ∈ ds ∧ t₂.storage a ≠ empty) :
    Flows n t cs o t' m :=
  ⟨h.1, fun k ho a s v ha hs hv hne ↦
    h.2 k ho a s v ha hs (hst a s v ha hs hv hne).1 (hst a s v ha hs hv hne).2⟩

private theorem Flows.of_values {n : Nat} {t t' : Trie Bool} {cs ds : Changes} {o : Out}
    {m : List Mishap} (h : Flows n t ds o t' m)
    (hval : ∀ p v, (p, some v) ∈ cs → (p, some v) ∈ ds) :
    Flows n t cs o t' m :=
  h.weaken fun _ _ v _ _ hv hne ↦ ⟨hval _ v hv, hne⟩

/-- A finished part that did not stall. -/
private theorem Flows.of_ended {n : Nat} {t t' : Trie Bool} {cs : Changes} {o : Out}
    {m : List Mishap} (hm : .stalled ∉ m) (ho : o.ended) : Flows n t cs o t' m :=
  ⟨hm, fun k h ↦ by simp [h, Out.ended] at ho⟩

/-- A part that stopped at once. -/
private theorem Flows.of_stop {n : Nat} {t : Trie Bool} {cs : Changes} {o : Out} :
    Flows n t cs o t [] :=
  ⟨by simp, fun _ _ _ _ _ _ _ _ ↦ id⟩

/-! ### The recursion -/

variable [AlloyTrie]

/-- The recursion removes a trie only when it says so. -/
private theorem Exec.ne_empty {mode : Mode} {t t' : Trie Bool} {cs : Changes} {o : Out}
    {m : List Mishap} (h : Exec mode t cs o t' m) (ht : t ≠ empty)
    (ho : o ≠ .delete) : t' ≠ empty := by
  have habove {length : Nat} {ref : RlpNode} {pre : Nibbles} {kind : Kind}
      {ch : Fin 16 → Trie Bool} :
      Trie.above false length (node false ref pre kind ch) ≠ empty := by
    simp only [Trie.above]
    split <;> simp
  have htag {t : Trie Bool} (ht : t ≠ empty) : t.withTag false ≠ empty := by
    cases t with
    | empty => exact absurd rfl ht
    | node => simp [withTag]
  induction h with
  | nil => exact ht
  | skipFirst _ _ ih => exact ih ht ho
  | skipLast _ _ ih => exact ih ht ho
  | aboveStop => exact ht
  | above _ _ _ _ _ _ ih => exact ih habove ho
  | delete => exact absurd rfl ho
  | same _ _ ih => exact ih ht ho
  | setStop => exact ht
  | @setNone _ _ _ _ _ _ t' _ _ _ _ ih =>
    have ht' : t' ≠ empty := ih (by simp) (by simp)
    cases t' with
    | empty => exact absurd rfl ht'
    | node => simp [withRef]
  | setMore _ _ _ _ _ _ ih => exact ih (by simp) ho
  | storage => simp [fresh]
  | storageKeep => simp
  | firstSkip _ _ _ ih => exact ih ht ho
  | firstStop => exact ht
  | firstOnly => simp [fresh]
  | firstMore _ _ _ _ _ ih => exact ih (by simp) ho
  | branch => exact fun he ↦ ho (cleanup_delete.mpr he)
  | branchStop => simp
  | slotNil => exact ht
  | slotChild _ _ _ ih => exact ih ht ho
  | slotSkip => exact ht
  | slotStop => exact ht
  | slotLeaf => simp [leaf, fresh]
  | slotMore _ _ _ ih => exact ih (by simp [leaf, fresh]) ho
  | childLocal _ ih => exact ih ht ho
  | childPage _ _ ih => exact ih (htag ht) ho
  | childAbandon => exact ht
  | pageDone _ _ ih => exact ih ht ho
  | pageRetry _ _ ih ih' => exact ih' (ih ht (by simp)) ho

/-- Below an account nothing stalls. -/
private theorem Exec.not_stalled_slots {mode : Mode} {t t' : Trie Bool} {cs : Changes} {o : Out}
    {m : List Mishap} {n : Nat} (h : Exec mode t cs o t' m) (ht : t.Rough .slots n)
    (hcs : Fits .slots n cs) : .stalled ∉ m := by
  induction h generalizing n with
  | nil => simp
  | skipFirst _ _ ih => exact ih ht hcs.of_cons
  | skipLast _ _ ih => exact ih ht (hcs.mono fun c ↦ List.mem_append_left _)
  | aboveStop => simp
  | above _ hl _ _ _ _ ih => exact ih (ht.above hl) hcs
  | delete => simp
  | same _ _ ih => exact ih ht hcs.of_cons
  | setStop => simp
  | setNone _ hch _ ih => exact ih ⟨hcs.value List.mem_cons_self, hch, ht.2.2⟩ hcs.of_cons
  | setMore _ hch _ _ _ _ ih => exact ih ⟨hcs.value List.mem_cons_self, hch, ht.2.2⟩ hcs.of_cons
  | storage => cases ht.1.1
  | storageKeep => cases ht.1.1
  | firstSkip => cases ht.1.1
  | firstStop => simp
  | firstOnly => simp
  | firstMore => cases ht.1.1
  | branch _ _ _ ih =>
    rw [List.mem_flatMap]
    rintro ⟨i, -, hi⟩
    exact ih i (ht.2 i) (hcs.of_regroup ht.1 i) hi
  | @branchStop _ _ _ _ _ _ _ i₀ _ _ _ _ hch ih =>
    rw [List.mem_flatMap]
    rintro ⟨i, -, hi⟩
    rcases le_or_gt i i₀ with hle | hlt
    · exact ih i hle (ht.2 i) (hcs.of_regroup ht.1 i) hi
    · simp [(hch i hlt).2] at hi
  | slotNil => simp
  | slotChild _ _ _ ih => exact ih ht hcs
  | slotSkip => simp
  | slotStop => simp
  | slotLeaf => simp
  | slotMore _ _ _ ih =>
    exact ih (rough_leaf_new (hcs.value (by simp))) (hcs.mono (by simp +contextual))
  | childLocal _ ih => exact ih ht hcs
  | childPage _ _ ih => exact ih (rough_withTag.mpr ht) hcs
  | childAbandon _ _ ih =>
    rw [List.mem_cons, not_or]
    exact ⟨by simp, ih (rough_withTag.mpr ht) hcs⟩
  | pageDone _ _ ih => exact ih ht hcs
  | pageRetry h _ ih ih' =>
    rw [List.mem_append, not_or]
    exact ⟨ih ht hcs, ih' (h.rough ht hcs) (hcs.mono fun c ↦ List.mem_of_mem_drop)⟩

section
variable {n : Nat} {ref : RlpNode} {pre path : Nibbles} {info : AccountInfo}
  {ch : Fin 16 → Trie Bool} {v : TrieValue} {cs : Changes}

omit [AlloyTrie] in
private theorem storage_of_noStorage {a : Nibbles} (hch : ch 0 = empty) :
    (node false ref pre (.leaf (.account info)) ch).storage a = empty := by
  by_cases ha : a = pre
  · rw [ha, storage_account_self, hch]
  · exact storage_account_ne ha

private theorem Grounded.afterFirst
    (h : Grounded n (node false ref pre (.leaf (.account info)) ch).lookup
      ((pre ++ path, some v) :: cs)) (hlen : pre.length + 64 = n) (hp : path ≠ [])
    (hch : ch 0 = empty) :
    Grounded n (node false ref pre (.leaf (.account info))
      (Function.update ch 0 (leaf false path v.entry))).lookup cs := by
  have hlook : (node false ref pre (.leaf (.account info))
      (Function.update ch 0 (leaf false path v.entry))).lookup =
    Entries.apply (node false ref pre (.leaf (.account info)) ch).lookup (pre ++ path, some v) :=
    lookup_firstSlot hp hch
  apply h.weaken fun _ ↦ List.mem_cons_of_mem _
  · intro a s v' _ _ _ hf
    rw [hlook]
    exact Entries.apply_value_ne_none hf
  · intro a w ha hw
    rcases List.mem_cons.mp hw with heq | hmem
    · obtain ⟨rfl, -⟩ := Prod.mk.inj heq
      rw [List.length_append] at ha
      exact absurd (List.eq_nil_of_length_eq_zero (by omega)) hp
    · exact .inl hmem

private theorem NoStall.afterFirst
    (h : NoStall n (node false ref pre (.leaf (.account info)) ch) ((pre ++ path, some v) :: cs))
    (hlen : pre.length + 64 = n) (hch : ch 0 = empty) :
    NoStall n (node false ref pre (.leaf (.account info))
      (Function.update ch 0 (leaf false path v.entry))) cs := by
  apply h.weaken fun _ ↦ List.mem_cons_of_mem _
  · intro a s v' ha hs hmem
    rcases List.mem_cons.mp hmem with heq | hmem
    · have hpre : a = pre := (List.append_inj (Prod.mk.inj heq).1 (by omega)).1
      rw [hpre, storage_account_self, Function.update_self]
      exact .inr (by simp [leaf, fresh])
    · exact .inl hmem
  · intro a s v' _ _ _ hst
    exact absurd (storage_of_noStorage hch) hst

/-- After the first leaf has been created the other changes are grounded. -/
theorem Grounded.newLeaf
    (h : Grounded n (empty : Trie Bool).lookup ((path, some v) :: cs)) :
    Grounded n (leaf false path v.entry).lookup cs := by
  apply h.weaken (fun _ ↦ List.mem_cons_of_mem _) (fun _ _ _ _ _ _ h ↦ absurd rfl h)
  intro a w _ hw
  rcases List.mem_cons.mp hw with heq | hmem
  · obtain ⟨rfl, -⟩ := Prod.mk.inj heq
    exact .inr (by simp [leaf, fresh])
  · exact .inl hmem

/-- After the first leaf has been created the other changes do not stall. -/
theorem NoStall.newLeaf (h : NoStall n empty ((path, some v) :: cs))
    (hg : Grounded n (empty : Trie Bool).lookup ((path, some v) :: cs))
    (hsort : Sorted ((path, some v) :: cs)) : NoStall n (leaf false path v.entry) cs := by
  apply h.weaken (fun _ ↦ List.mem_cons_of_mem _) _ fun _ _ _ _ _ _ h ↦ absurd rfl h
  intro a s v' ha hs hmem
  rcases List.mem_cons.mp hmem with heq | hmem
  · exact absurd (Prod.mk.inj heq).1.symm (hg.not_slot hsort (fun _ _ _ ↦ rfl) ha hs)
  · exact .inl hmem

end

/-- The changes after the first slot of an account are not all without effect. -/
private theorem NoStall.not_firstNone {n : Nat} {ref : RlpNode} {pre path : Nibbles}
    {info : AccountInfo} {ch : Fin 16 → Trie Bool} {v : TrieValue} {cs : Changes}
    (h : NoStall n (node false ref pre (.leaf (.account info)) ch) ((pre ++ path, some v) :: cs))
    (hb : Batch ((pre ++ path, some v) :: cs)) (hp : path ≠ []) (hch : ch 0 = empty) (hne : cs ≠ [])
    (hall : ∀ c ∈ cs, pre <+: c.1) (hlen : pre.length + 64 = n) :
    Entries.update (node false ref pre (.leaf (.account info))
      (Function.update ch 0 (leaf false path v.entry))).lookup cs ≠
      (node false ref pre (.leaf (.account info))
        (Function.update ch 0 (leaf false path v.entry))).lookup := by
  intro heq
  have hbelow : ∀ c ∈ cs, ∃ r, r ≠ [] ∧ c.1 = pre ++ r := by
    intro c hc
    obtain ⟨r, hr⟩ := hall c hc
    refine ⟨r, ?_, hr.symm⟩
    rintro rfl
    rw [List.append_nil] at hr
    have := hb.sorted.eq_of_isPrefix hc (hr ▸ List.prefix_append pre path)
    rw [← hr] at this
    exact hp (List.self_eq_append_right.mp this)
  -- a value among them would be stored beside the first slot
  have hdel : ∀ c ∈ cs, c.2 = none := by
    intro c hc
    obtain ⟨r, hr, hpath⟩ := hbelow c hc
    obtain ⟨q, x⟩ := c
    cases x with
    | none => rfl
    | some w =>
      subst hpath
      have hstored := congrFun heq (pre ++ r)
      rw [hb.of_cons.update_of_value hc] at hstored
      obtain ⟨i, r, rfl⟩ := List.exists_cons_of_ne_nil hr
      rw [lookup_account_append, Function.update_self, lookup_leaf] at hstored
      by_cases hrp : i :: r = path
      · have hnodup := (List.nodup_cons.mp hb.distinct).1
        have hmem : (pre ++ i :: r) ∈ cs.map Prod.fst := List.mem_map.mpr ⟨_, hc, rfl⟩
        exact absurd (hrp ▸ hmem) hnodup
      · rw [Function.update_of_ne hrp] at hstored
        cases hstored
  obtain ⟨c, hc⟩ := List.exists_mem_of_ne_nil cs hne
  obtain ⟨r, hr, hpath⟩ := hbelow c hc
  have hle : pathLe path r = true := by
    have hle := (List.pairwise_cons.mp hb.sorted).1 c hc
    rw [hpath] at hle
    simpa using hle
  have hmem : (pre ++ r, none) ∈ (pre ++ path, some v) :: cs := by
    rw [← hpath, ← hdel c hc]
    exact List.mem_cons_of_mem _ hc
  rcases h pre path r v hlen hp hr List.mem_cons_self hmem hle with hst | ⟨s', v', hne', hs', hsv⟩
  · rw [storage_account_self] at hst
    exact hst hch
  · rcases List.mem_cons.mp hsv with heq' | hsv
    · exact hne' (List.append_cancel_left (Prod.mk.inj heq').1)
    · cases hdel _ hsv

/-- The recursion does not stall. -/
theorem Exec.flows {mode : Mode} {t t' : Trie Bool} {cs : Changes} {o : Out} {m : List Mishap}
    {n : Nat} (h : Exec mode t cs o t' m) (hs : Suits .accounts n t cs)
    (hg : Grounded n t.lookup cs) (hns : NoStall n t cs) : Flows n t cs o t' m := by
  induction h generalizing n with
  | nil => exact .of_stop
  | @skipFirst ref pre kind ch path cs o t' m _ _ ih =>
    have hval : ∀ p v, (p, some v) ∈ (path, none) :: cs → (p, some v) ∈ cs :=
      fun p v hv ↦ by simpa using hv
    exact (ih hs.tail (hg.of_values (fun _ ↦ List.mem_cons_of_mem _) hval)
      (hns.of_values (fun _ ↦ List.mem_cons_of_mem _) hval)).of_values hval
  | @skipLast ref pre kind ch path cs o t' m _ _ ih =>
    have hsub : ∀ c ∈ cs, c ∈ cs ++ [(path, none)] := fun c ↦ List.mem_append_left _
    have hval : ∀ p v, (p, some v) ∈ cs ++ [(path, none)] → (p, some v) ∈ cs :=
      fun p v hv ↦ by simpa using hv
    exact (ih (hs.sublist (List.sublist_append_left _ _)) (hg.of_values hsub hval)
      (hns.of_values hsub hval)).of_values hval
  | aboveStop => exact .of_stop
  | @above ref pre kind ch _ _ cs length o t' m _ hl _ _ _ _ ih =>
    have hlook : (Trie.above false length (node false ref pre kind ch)).lookup =
      (node false ref pre kind ch).lookup := lookup_above
    have hst : (Trie.above false length (node false ref pre kind ch)).storage =
      (node false ref pre kind ch).storage := storage_above
    have hns' : NoStall n (Trie.above false length (node false ref pre kind ch)) cs := by
      unfold NoStall
      rwa [hst]
    refine (ih (hs.above hl) (hlook ▸ hg) hns').weaken ?_
    intro a s v _ _ hv hne
    exact ⟨hv, by rwa [hst]⟩
  | delete => exact .of_ended (by simp) rfl
  | @same ref pre kind ch v cs o t' m hv _ ih =>
    cases eq_leaf_of_value? hv
    have hval := hg.of_node_value hs.batch.sorted
    have hg' : Grounded n (node false ref pre (.leaf v.entry) ch).lookup cs :=
      hg.weaken (fun _ ↦ List.mem_cons_of_mem _) (fun _ _ _ _ _ _ ↦ id) fun a w _ hw ↦ by
        rcases List.mem_cons.mp hw with heq | hmem
        · obtain ⟨rfl, -⟩ := Prod.mk.inj heq
          exact .inr (by simp)
        · exact .inl hmem
    have hns' : NoStall n (node false ref pre (.leaf v.entry) ch) cs :=
      hns.weaken (fun _ ↦ List.mem_cons_of_mem _)
        (fun a s v' ha hs hmem ↦ .inl (hval a s v' ha hs hmem)) fun _ _ _ _ _ _ ↦ id
    exact (ih hs.tail hg' hns').weaken
      fun a s v' ha hs hmem hne ↦ ⟨hval a s v' ha hs hmem, hne⟩
  | setStop => exact .of_stop
  | setNone _ hch _ ih =>
    have hv := hs.fits.value List.mem_cons_self
    exact .of_ended (ih (hs.afterValue hch) (hg.afterValue hs.lookup_afterValue)
      (hns.afterValue hg hs.batch.sorted hs.rough.1 hv)).1 rfl
  | setMore _ hch _ _ _ _ ih =>
    have hv := hs.fits.value List.mem_cons_self
    have hval := hg.of_node_value hs.batch.sorted
    refine (ih (hs.afterValue hch) (hg.afterValue hs.lookup_afterValue)
      (hns.afterValue hg hs.batch.sorted hs.rough.1 hv)).weaken ?_
    intro a s v' ha hs' hmem hne
    exact ⟨hval a s v' ha hs' hmem, by rwa [storage_leaf_update hs.rough.1 hv]⟩
  | storage _ hcs _ h _ _ =>
    exact .of_ended (h.not_stalled_slots (hs.storage hcs).rough (hs.storage hcs).fits) rfl
  | @storageKeep ref pre info ch cs o st m _ hcs hch h _ hdel _ =>
    refine ⟨h.not_stalled_slots (hs.storage hcs).rough (hs.storage hcs).fits, ?_⟩
    rintro k - a s v - - - hne
    by_cases ha : a = pre
    · rw [ha, storage_account_self, Function.update_self]
      exact h.ne_empty hch hdel
    · exact absurd (storage_account_ne ha) hne
  | @firstSkip ref pre info ch path cs o t' m _ _ _ ih =>
    have hval : ∀ p v, (p, some v) ∈ (pre ++ path, none) :: cs → (p, some v) ∈ cs :=
      fun p v hv ↦ by simpa using hv
    exact (ih hs.tail (hg.of_values (fun _ ↦ List.mem_cons_of_mem _) hval)
      (hns.of_values (fun _ ↦ List.mem_cons_of_mem _) hval)).of_values hval
  | firstStop => exact .of_stop
  | firstOnly => exact .of_ended (by simp) rfl
  | @firstMore ref pre info ch path v cs o t' m hp hch hne hall h ih =>
    have hlen := hs.rough.1.2
    have hsuits := hs.firstSlot hp hch
    have hflow := ih hsuits (hg.afterFirst hlen hp hch) (hns.afterFirst hlen hch)
    have hsound := h.sound hsuits hflow.1
    have ho : o ≠ .none := by
      rintro rfl
      exact hns.not_firstNone hs.batch hp hch hne hall hlen
        ((hsound.done rfl).symm.trans (hsound.kept (by simp) rfl))
    rw [if_neg ho]
    apply hflow.weaken
    intro a s v' _ _ _ hst
    exact absurd (storage_of_noStorage hch) hst
  | branch _ _ _ ih =>
    refine .of_ended ?_ cleanup_ended.1
    rw [List.mem_flatMap]
    rintro ⟨i, -, hi⟩
    exact (ih i (hs.branch i) (hg.branch hs.rough.1 i) (hns.branch hs.rough.1 i)).1 hi
  | @branchStop ref pre ch g o ch' m i₀ k h ho hn hch ih =>
    have hflow (i : Fin 16) (hi : i ≤ i₀) :=
      ih i hi (hs.branch i) (hg.branch hs.rough.1 i) (hns.branch hs.rough.1 i)
    constructor
    · rw [List.mem_flatMap]
      rintro ⟨i, -, hi⟩
      rcases le_or_gt i i₀ with hle | hlt
      · exact (hflow i hle).1 hi
      · simp [(hch i hlt).2] at hi
    · rintro - - a s v ha hs' hmem hne
      by_cases hq : ∃ i r, a = pre ++ i :: r
      · obtain ⟨i, r, rfl⟩ := hq
        rw [storage_branch_append] at hne ⊢
        rw [List.append_assoc, List.cons_append, mem_regroup_append] at hmem
        have hlen : r.length + 64 = n - pre.length - 1 := by
          rw [List.length_append, List.length_cons] at ha
          omega
        have hb := (hs.branch i).batch
        rcases lt_trichotomy i i₀ with hi | rfl | hi
        · -- the child is finished, so the slot is stored
          have hsound := (h i hi.le).sound (hs.branch i) (hflow i hi.le).1
          apply storage_ne_empty ((h i hi.le).rough (hs.branch i).rough (hs.branch i).fits) hlen hs'
          · rw [hsound.done (ho i hi)]
            exact hb.update_ne_none hmem (List.prefix_append r s) (fun _ ↦ id)
              (lookup_ne_none_of_storage hne)
          · rw [hsound.done (ho i hi), hb.update_of_value hmem]
            exact Option.some_ne_none _
        · exact (hflow i le_rfl).2 k hn r s v hlen hs' hmem hne
        · rwa [(hch i hi).1]
      · exact absurd (storage_branch fun i r h ↦ hq ⟨i, r, h⟩) hne
  | slotNil => exact .of_stop
  | slotChild _ _ _ ih => exact ih hs hg hns
  | slotSkip => exact .of_stop
  | slotStop => exact .of_stop
  | slotLeaf => exact .of_ended (by simp) rfl
  | @slotMore ds path v cs o t' m hds _ _ ih =>
    have hsub : ∀ c ∈ (path, some v) :: cs, c ∈ ds ++ (path, some v) :: cs :=
      fun c ↦ List.mem_append_right _
    have hval : ∀ p v', (p, some v') ∈ ds ++ (path, some v) :: cs →
        (p, some v') ∈ (path, some v) :: cs := by
      intro p v' hmem
      rcases List.mem_append.mp hmem with hmem | hmem
      · cases hds _ hmem
      · exact hmem
    have hsort := (hs.batch.sublist (List.sublist_append_right _ _)).sorted
    have hg' := hg.of_values hsub hval
    refine (ih hs.newLeaf hg'.newLeaf ((hns.of_values hsub hval).newLeaf hg' hsort)).weaken ?_
    exact fun _ _ _ _ _ _ h ↦ absurd rfl h
  | childLocal _ ih => exact ih hs hg hns
  | @childPage t cs o t' m _ h ih =>
    have hlook : (t.withTag false).lookup = t.lookup := funext fun q ↦ lookup_withTag ..
    exact .of_ended (ih hs.withTag (hlook ▸ hg) hns.withTag).1 (h.ended_of_page rfl)
  | @childAbandon t cs t' m _ _ ih =>
    have hlook : (t.withTag false).lookup = t.lookup := funext fun q ↦ lookup_withTag ..
    refine .of_ended ?_ rfl
    rw [List.mem_cons, not_or]
    exact ⟨by simp, (ih hs.withTag (hlook ▸ hg) hns.withTag).1⟩
  | pageDone _ _ ih => exact ih hs hg hns
  | pageRetry h h' ih ih' =>
    have hflow := ih hs hg hns
    have hsound := h.sound hs hflow.1
    have hs₁ := h.suits_restart hs hsound
    obtain ⟨k, hnk, -, hf⟩ := hsound.stopped _ rfl
    have hns₁ := hns.restart hs.batch hg hs₁.rough hnk hf (hflow.2 _ rfl)
    refine .of_ended ?_ (h'.ended_of_page rfl)
    rw [List.mem_append, not_or]
    exact ⟨hflow.1, (ih' hs₁ (hg.restart hs.batch hnk hf) hns₁).1⟩

end TrieDb

import TrieDb.Layout.Handlers

/-!
# The leaf handlers of the write recursion

A change at a node itself, and the slots of an account.
-/

namespace TrieDb.Layout

open Meta Base Engine Trie

variable [AlloyTrie] {s s₁ s' : State Cells} {p i : Nat} {t t' : Trie Loc} {cs : Changes}
  {m : List Mishap} {P : Nat → State Cells → Prop} {ref : RlpNode} {pre : Nibbles} {kind : Kind}
  {ch : Fin 16 → Trie Loc} {visit : Changes → Nat → Nat → Nat → EngineM Cells PointerChange}

/-! ### Deleting a node -/

omit [AlloyTrie] in
private theorem giveUp_spec (fuel : Nat) {Q : Unit → State Cells → Prop}
    (h : Placed s (node (p, i) ref pre kind ch) p i)
    (hQ : ∀ s', Evolves s (node (p, i) ref pre kind ch).tags s' [] →
      Balance s (node (p, i) ref pre kind ch).tags s' [] → Cleaner s s' →
      (∀ c, cellAt s' c ≠ none → cellAt s c ≠ none ∧ (c ∈ (node (p, i) ref pre kind ch).tags →
        c = (p, i) ∨ (c.1, 0) ∈ (node (p, i) ref pre kind ch).tags)) → Q () s') :
    Ensures (giveUp fuel p i (kind.node pre fun l ↦ (ch l).pointer?)) s Q (OnSplit P) := by
  have hnil : Evolves s (node (p, i) ref pre kind ch).tags s [] :=
    h.of_refl.evolves.congr (fun _ h ↦ h) (by simp)
  unfold giveUp
  split
  · refine (deleteSubtrie_spec fuel h.ready h.holds h.tag h.current).mono ?_ fun _ _ h ↦ h
    exact fun _ s' he ↦ hQ s' he.evolves (he.balance fun _ ↦ by simp) he.cleaner fun c hc ↦
      ⟨he.remains c hc, fun hm ↦ .inr (he.left c hm hc)⟩
  · next hk =>
    -- a storage leaf is the only node without places for children
    obtain ⟨v, rfl⟩ := Kind.hasChildren_node.mp (Bool.eq_false_iff.mpr hk)
    have htags := h.holds.tags_of_slot
    have hcells (c : Loc) (hc : cellAt s c ≠ none) : cellAt s c ≠ none ∧
        (c ∈ (node (p, i) ref pre (.leaf (.slot v)) ch).tags →
          c = (p, i) ∨ (c.1, 0) ∈ (node (p, i) ref pre (.leaf (.slot v)) ch).tags) := by
      rw [htags]
      exact ⟨hc, fun hm ↦ .inl (List.mem_singleton.mp hm)⟩
    split
    · next hi =>
      have hr : Ready { s with strayPages := p :: s.strayPages } :=
        ⟨h.ready.range, h.ready.alive, h.ready.nodup, h.ready.below⟩
      refine ensures_modify (hQ _ ⟨hr, fun _ h ↦ h, by simp, by simp, fun _ _ _ _ ↦ rfl,
        fun _ _ ↦ rfl, fun _ _ _ ↦ rfl, rfl, rfl, .refl, Nat.le_refl _⟩ (fun q ↦ ?_) (fun _ ↦ id)
        hcells)
      have horphans : orphanCount { s with strayPages := p :: s.strayPages } q = orphanCount s q :=
        rfl
      have hadded : added s { s with strayPages := p :: s.strayPages } q = 0 :=
        if_neg fun hc ↦ absurd (hc.1.trans_le hc.2) (Nat.lt_irrefl _)
      rw [horphans, hadded, htags]
      simp only [List.count_nil, List.count_cons, beq_iff_eq, Prod.mk.injEq, hi, and_true]
      omega
    · next hi =>
      refine .pure (hQ s hnil (.of_same rfl rfl rfl fun q ↦ ?_) (fun _ ↦ id) hcells)
      rw [htags]
      simp [hi]

private theorem deleteNode_spec (fuel : Nat) {changes : Changes} {offset : Nat}
    (h : Placed s (node (p, i) ref pre kind ch) p i)
    (hcs : changes.length = 1 → rel offset changes = [(pre, none)]) :
    Ensures (deleteNode fuel changes p i (kind.node pre fun l ↦ (ch l).pointer?)) s
      (Done .node s (node (p, i) ref pre kind ch) (rel offset changes)) (OnSplit P) := by
  refine .bind (giveUp_spec fuel h fun s₁ he hbal hclean hcells ↦
    .bind (deleteValue_spec fun c hc ↦ ?_))
  have hlive : ∀ c ∈ [(p, i)], ¬ Vacant s c.1 ∧ stamp s c.1 ≠ none := by simpa using h.live
  have he₁ : Evolves s (node (p, i) ref pre kind ch).tags s₁ [(p, i)] := by
    refine (he.frame_right hlive).congr (fun d hd ↦ ?_) (by simp)
    rcases List.mem_append.mp hd with hd | hd
    · exact hd
    · rw [List.mem_singleton.mp hd]
      exact mem_tags_node.mpr (.inl rfl)
  have ho : old s₁ p = false := by rw [he.old_eq h.live.1, h.current]
  have h₂ := erased_deleteValue (fun _ ↦ False) he.ready ho hc
  split
  · next hlen =>
    refine .pure ⟨empty, .delete, [], ?_, ⟨.empty, he₁.trans h₂.evolves,
      fun q hq ↦ hclean q (h₂.cleaner q hq), fun _ ↦ ?_, fun _ ↦ ?_⟩, rfl, rfl⟩
    · rw [hcs hlen, h.flag_eq]
      exact .delete
    · exact hbal.trans (h₂.balance fun _ ↦ by simp) he.count h₂.evolves.count
    · refine ⟨fun _ hq ↦ (List.not_mem_nil hq).elim, fun d hd _ ↦ ?_⟩
      by_cases hv : Vacant s d.1
      · exact .inr ⟨List.not_mem_nil, .inr hv⟩
      · obtain ⟨hn, hroot⟩ := hcells d (h₂.remains d hd)
        by_cases hm : d ∈ (node (p, i) ref pre kind ch).tags
        · rcases hroot hm with rfl | hr
          · exact absurd (h₂.left _ List.mem_cons_self hd) id
          · exact .inr ⟨List.not_mem_nil, .inl hr⟩
        · exact .inl ⟨hv, hn, hm⟩
  · exact throw_spec (by simp)

/-! ### Writing a value -/

/-- The value of a node. -/
private theorem value_node (h : Holds s (node (p, i) ref pre kind ch)) {v : TrieValue}
    (hv : (kind.node pre fun l ↦ (ch l).pointer?).value = .ok v) :
    (node false ref pre kind fun l ↦ flag s (ch l)).value? = some v := by
  rcases kind with (info | u) | _
  · cases hv
    have hr : Node.storageRootHash (ch 0).pointer? =
        ((flag s (ch 0)).ref?.bind RlpNode.asHash).getD emptyRootHash := by
      simp only [flag, ref?_map]
      cases ch 0 <;> rfl
    simp only [value?, hr]
  · cases hv
    rfl
  · cases hv

omit [AlloyTrie] in
/-- The leaf that replaces a node keeps the children. -/
private theorem replacement {α : Type} {Q : α → State Cells → Prop} {v : TrieValue}
    {f : Node → EngineM Cells α} (h : Holds s (node (p, i) ref pre kind ch))
    (hf : ∀ e, kind = .leaf e → (∀ l, ch l ≠ empty → (Kind.leaf v.entry).allows l) →
      Ensures (f ((Kind.leaf v.entry).node pre fun l ↦ (ch l).pointer?)) s Q (OnSplit P)) :
    Ensures (do
      let new ← liftNode (Node.newLeaf pre v)
      let new ← match if (kind.node pre fun l ↦ (ch l).pointer?).hasChildren then
          (kind.node pre fun l ↦ (ch l).pointer?).directChild else .ok none with
        | .ok (some child) => liftNode (new.setChild 0 child)
        | .ok none => pure new
        | .error e => throw (.nodeError e)
      f new) s Q (OnSplit P) := by
  refine .bind (liftNode_spec fun new hnew ↦ ?_)
  have hnew := newLeaf_eq_ok hnew
  have hempty (hall : ∀ l, ch l = empty) :
      new = (Kind.leaf v.entry).node pre fun l ↦ (ch l).pointer? := by
    rw [hnew]
    simp only [hall, pointer?]
  rcases kind with (info | u) | _
  · simp only [Kind.node, Node.hasChildren, Node.directChild, if_true]
    have hzero (l : Fin 16) (hl : ch l ≠ empty) : l = 0 := by
      simpa [Kind.allows] using h.allows l hl
    cases hp : (ch 0).pointer? with
    | none =>
      have hall (l : Fin 16) : ch l = empty := by
        by_contra hl
        have h0 := hzero l hl
        rw [h0] at hl
        exact hl (pointer?_eq_none.mp hp)
      refine .bind (.pure ?_)
      rw [hempty hall]
      exact hf _ rfl fun l hl ↦ absurd (hall l) hl
    | some pointer =>
      refine .bind (liftNode_spec fun new' hnew' ↦ ?_)
      rw [hnew] at hnew'
      cases hv : v.entry with
      | slot u =>
        rw [hv] at hnew'
        cases hnew'
      | account info' =>
        have hpointers : Function.update (fun _ ↦ none) 0 (some pointer) =
            fun l ↦ (ch l).pointer? := by
          funext l
          by_cases hl : l = 0
          · rw [hl, Function.update_self, hp]
          · rw [Function.update_of_ne hl, eq_comm]
            exact pointer?_eq_none.mpr (by_contra fun hne ↦ hl (hzero l hne))
        have hnew' := Kind.putChild_node (by rw [hv]; rfl) hnew'
        rw [hpointers] at hnew'
        rw [hnew']
        refine hf _ rfl fun l hl ↦ ?_
        rw [hv]
        simpa [Kind.allows] using hzero l hl
  · have hall (l : Fin 16) : ch l = empty := by
      by_contra hl
      simpa [Kind.allows] using h.allows l hl
    refine .bind (.pure ?_)
    rw [hempty hall]
    exact hf _ rfl fun l hl ↦ absurd (hall l) hl
  · exact .bind (throw_spec (by simp))

private theorem replaceNode_spec (hv : Visits visit) (fuel : Nat) {rest : Changes} {offset : Nat}
    {v : TrieValue} (h : Placed s (node (p, i) ref pre kind ch) p i)
    (hcs : Sorted (rel offset rest)) (hall : ∀ c ∈ rel offset rest, pre <+: c.1)
    (hne : (node false ref pre kind fun l ↦ flag s (ch l)).value? ≠ some v) :
    Ensures (replaceNode fuel visit rest offset p i (kind.node pre fun l ↦ (ch l).pointer?) pre v) s
      (Done .node s (node (p, i) ref pre kind ch) ((pre, some v) :: rel offset rest))
      (OnSplit (Halted .node s (node (p, i) ref pre kind ch) p
        ((pre, some v) :: rel offset rest))) := by
  refine replacement h.holds fun e he hallows ↦ .bind (numFreeBytes_spec fun free ↦ ?_)
  subst he
  have hallows' (l : Fin 16) (hl : flag s (ch l) ≠ empty) : (Kind.leaf v.entry).allows l :=
    hallows l fun he ↦ hl (by rw [he]; rfl)
  split
  · next hfree =>
    have hve : v.entry ≠ e := by
      rintro rfl
      simp at hfree
    refine splitAndRestart_spec fuel p fun s' hs' ↦ ⟨s, _, [], fuel, ?_, h.of_refl, rfl, rfl, hs'⟩
    rw [h.flag_eq]
    exact .setStop hve
  · refine .bind (setValue_spec fun c hc ↦ ?_)
    have hstep := h.rewrite ref hallows hc
    have h₁ := h.step hstep rfl
    have hflag : flag (s.setCells p c) (node (p, i) ref pre (.leaf v.entry) ch) =
        node false ref pre (.leaf v.entry) fun l ↦ flag s (ch l) := by
      rw [h₁.flag_eq]
      simp only [flag_setCells]
    have hrefs : (fun l ↦ (flag s (ch l)).ref?) = fun l ↦ (ch l).ref? := by
      funext l
      exact ref?_map _ _
    split
    · next hrest =>
      rw [List.isEmpty_iff] at hrest
      subst hrest
      refine .pure ⟨_, .update, [], ?_,
        hstep.withRef ((Kind.leaf v.entry).rlp pre fun l ↦ (ch l).ref?),
        rfl, ?_, .inl rfl⟩
      · rw [h.flag_eq, flag_withRef, hflag, ← hrefs]
        exact .setNone hne hallows' .nil
      · rw [toRlpNode_eq]
        rfl
    · refine .seq ((hv _ _ rest offset p i h₁ hcs).mono (fun _ _ h ↦ h) ?_) ?_
      · intro er s' hh n hn
        obtain ⟨s₂, t₂, m, fuel', he, hstep₂, htag, href, hsplit⟩ := hh n hn
        rw [hflag] at he
        refine ⟨s₂, t₂, m, fuel', ?_, by simpa using hstep.trans hstep₂, htag, href, hsplit⟩
        rw [h.flag_eq]
        exact .setMore hne hallows' hall he (by simp) (by simp)
      · rintro change s₂ ⟨t₂, o, m, he, hstep₂, hr⟩
        rw [hflag] at he
        cases change with
        | none =>
          rw [hr.1] at he
          refine .pure ⟨t₂.withRef ((Kind.leaf v.entry).rlp pre fun l ↦ (ch l).ref?), .update, m,
            ?_,
            by simpa using (hstep.trans hstep₂).withRef _, rfl, ?_, .inl ?_⟩
          · rw [h.flag_eq, flag_withRef, ← hrefs]
            exact .setNone hne hallows' he
          · have ht := hr.2.1
            rw [toRlpNode_eq]
            cases t₂ with
            | empty => cases ht
            | node c₂ ref₂ pre₂ kind₂ ch₂ =>
              cases ht
              rfl
          · have ht := hr.2.1
            cases t₂ with
            | empty => cases ht
            | node c₂ ref₂ pre₂ kind₂ ch₂ => exact ht
        | update pointer =>
          refine .pure ⟨t₂, o, m, ?_, by simpa using hstep.trans hstep₂, hr⟩
          rw [h.flag_eq]
          exact .setMore hne hallows' hall he (by rw [hr.1]; simp) (by rw [hr.1]; simp)
        | delete => exact throw_spec (by simp)

/-- A change at the node itself. -/
theorem handleExactPrefixMatch_spec (hv : Visits visit) (fuel : Nat) {changes : Changes}
    {offset : Nat} {value : Option TrieValue} (h : Placed s (node (p, i) ref pre kind ch) p i)
    (hcs : rel offset changes = (pre, value) :: rel offset (changes.drop 1))
    (hsorted : Sorted (rel offset changes)) (hall : ∀ c ∈ rel offset changes, pre <+: c.1) :
    Ensures (handleExactPrefixMatch fuel visit changes offset p i
        (kind.node pre fun l ↦ (ch l).pointer?) pre value) s
      (Done .node s (node (p, i) ref pre kind ch) (rel offset changes))
      (OnSplit (Halted .node s (node (p, i) ref pre kind ch) p (rel offset changes))) := by
  have hrest : Sorted (rel offset (changes.drop 1)) := by
    rw [hcs] at hsorted
    exact hsorted.sublist (List.sublist_cons_self _ _)
  cases value with
  | none =>
    refine deleteNode_spec fuel h fun hlen ↦ ?_
    rw [hcs]
    have : changes.drop 1 = [] := List.drop_eq_nil_iff.mpr (Nat.le_of_eq hlen)
    rw [this]
    rfl
  | some v =>
    rw [hcs]
    refine .bind (liftNode_spec fun u hu ↦ ?_)
    have hu := value_node h.holds hu
    split
    · next huv =>
      subst huv
      split
      · next hempty =>
        rw [List.isEmpty_iff.mp hempty]
        refine .pure ⟨_, .none, [], ?_, h.of_refl, rfl, rfl, rfl⟩
        rw [h.flag_eq]
        exact .same hu .nil
      · refine (hv _ _ _ offset p i h hrest).mono ?_ ?_
        · rintro change s' ⟨t', o, m, he, hstep, hr⟩
          rw [h.flag_eq] at he
          exact ⟨t', o, m, by rw [h.flag_eq]; exact .same hu he, hstep, hr⟩
        · intro e s' hh n hn
          obtain ⟨s₁, t₁, m, fuel', he, hstep⟩ := hh n hn
          rw [h.flag_eq] at he
          exact ⟨s₁, t₁, m, fuel', by rw [h.flag_eq]; exact .same hu he, hstep⟩
    · next huv =>
      have hall' : ∀ c ∈ rel offset (changes.drop 1), pre <+: c.1 := by
        rw [hcs] at hall
        exact fun c hc ↦ hall c (List.mem_cons_of_mem _ hc)
      refine replaceNode_spec hv fuel h hrest hall' ?_
      rw [hu]
      exact fun he ↦ huv (Option.some.inj he)

/-! ### The slots of an account -/

section
variable {info : AccountInfo}

omit [AlloyTrie] in
/-- The changes below an account. -/
private theorem rel_account {offset : Nat} {changes cs : Changes}
    (hcs : rel offset changes = under pre cs) : rel (offset + pre.length) changes = cs := by
  rw [rel_add, hcs, rel_under]

/-- Slots of an account without storage. -/
private theorem createFirstStorageNode_spec (hv : Visits visit) (fuel : Nat) {changes cs : Changes}
    {offset : Nat} (h : Placed s (node (p, i) ref pre (.leaf (.account info)) ch) p i)
    (hch : ch 0 = empty) (hcs : rel offset changes = under pre cs) (hne : ∀ c ∈ cs, c.1 ≠ [])
    (hsorted : Sorted (rel offset changes)) :
    Ensures (createFirstStorageNode fuel visit changes offset p i
        ((Kind.leaf (.account info)).node pre fun l ↦ (ch l).pointer?) pre) s
      (Done .node s (node (p, i) ref pre (.leaf (.account info)) ch) (rel offset changes))
      (OnSplit (Halted .node s (node (p, i) ref pre (.leaf (.account info)) ch) p
        (rel offset changes))) := by
  have hempty : flag s (ch 0) = empty := by rw [hch]; rfl
  cases changes with
  | nil => exact .pure ⟨_, .none, [], .nil, h.of_refl, rfl, rfl, rfl⟩
  | cons c rest =>
  have hrel := rel_account hcs
  obtain ⟨path, v⟩ := c
  -- the first change
  have hpath : path.drop (offset + pre.length) ≠ [] :=
    hne (path.drop (offset + pre.length), v) (by rw [← hrel]; exact List.mem_cons_self)
  have hfirst : path.drop offset = pre ++ path.drop (offset + pre.length) := by
    have hc := hcs
    rw [← hrel] at hc
    have := List.head_eq_of_cons_eq hc
    exact (Prod.mk.inj this).1
  have hcons : rel offset ((path, v) :: rest) =
      (pre ++ path.drop (offset + pre.length), v) :: rel offset rest := by
    rw [← hfirst]
    rfl
  have hrest : Sorted (rel offset rest) := hsorted.sublist (List.sublist_cons_self _ _)
  rw [hcons]
  cases v with
  | none =>
    refine (hv s _ rest offset p i h hrest).mono ?_ ?_
    · rintro change s' ⟨t', o, m, he, hstep, hr⟩
      refine ⟨t', o, m, ?_, hstep, hr⟩
      rw [h.flag_eq] at he ⊢
      exact .firstSkip hpath hempty he
    · intro e s' hh n hn
      obtain ⟨s₁, t₁, m, fuel', he, hstep⟩ := hh n hn
      refine ⟨s₁, t₁, m, fuel', ?_, hstep⟩
      rw [h.flag_eq] at he ⊢
      exact .firstSkip hpath hempty he
  | some v =>
    refine .bind (liftNode_spec fun new hnew ↦ .bind (numFreeBytes_spec fun free ↦ ?_))
    split
    · refine splitAndRestart_spec fuel p fun s' hs' ↦ ⟨s, _, [], fuel, ?_, h.of_refl, rfl, rfl, hs'⟩
      rw [h.flag_eq]
      exact .firstStop hpath hempty
    · refine insertChild_spec h hch rfl (newLeaf_eq_ok hnew) fun c s₁ hc0 hstep hflag ↦ ?_
      have h₁ := h.step hstep rfl
      have hflag₁ : flag s₁ (node (p, i) ref pre (.leaf (.account info))
          (Function.update ch 0 (leaf (p, c) (path.drop (offset + pre.length)) v.entry))) =
          node false ref pre (.leaf (.account info)) (Function.update (fun l ↦ flag s (ch l)) 0
            (leaf false (path.drop (offset + pre.length)) v.entry)) := by
        rw [h₁.flag_eq, h.flag_update hstep.evolves, hflag]
      split
      · next hempty' =>
        rw [List.isEmpty_iff.mp hempty']
        refine .pure ⟨_, .update, [], ?_, hstep.withRef ((Kind.leaf (.account info)).rlp pre fun l ↦
          (Function.update ch 0 (leaf (p, c) (path.drop (offset + pre.length)) v.entry) l).ref?),
          rfl, ?_, .inl rfl⟩
        · rw [h.flag_eq, flag_withRef, hflag₁]
          have hrefs : (fun l ↦ (Function.update ch 0
              (leaf (p, c) (path.drop (offset + pre.length)) v.entry) l).ref?) =
              fun l ↦ (Function.update (fun l ↦ flag s (ch l)) 0
                (leaf false (path.drop (offset + pre.length)) v.entry) l).ref? := by
            funext l
            by_cases hl : l = 0
            · subst hl
              simp only [Function.update_self]
              rfl
            · simp only [Function.update_of_ne hl]
              exact (ref?_map _ _).symm
          rw [hrefs]
          exact .firstOnly hpath hempty
        · rw [toRlpNode_eq]
          rfl
      · next hempty' =>
        have hrest' : rel offset rest ≠ [] := by simpa using hempty'
        have hall : ∀ c ∈ rel offset rest, pre <+: c.1 := by
          intro c hc
          have hmem : c ∈ under pre cs := by
            rw [← hcs]
            exact List.mem_cons_of_mem _ hc
          obtain ⟨d, -, rfl⟩ := mem_under.mp hmem
          exact List.prefix_append pre d.1
        refine (hv s₁ _ rest offset p i h₁ hrest).mono ?_ ?_
        · rintro change s' ⟨t', o, m, he, hstep', hr⟩
          rw [hflag₁] at he
          refine ⟨t', o, if o = .none then .stalled :: m else m, ?_, ?_, hr⟩
          · rw [h.flag_eq]
            exact .firstMore hpath hempty hrest' hall he
          · refine (hstep.trans hstep').weaken fun hm ↦ ?_
            split <;> simpa using hm
        · intro e s' hh n hn
          obtain ⟨s₂, t₂, m, fuel', he, hstep', htag, href, hsplit⟩ := hh n hn
          rw [hflag₁] at he
          refine ⟨s₂, t₂, m, fuel', ?_, by simpa using hstep.trans hstep', htag, href, hsplit⟩
          rw [h.flag_eq]
          exact .firstMore hpath hempty hrest' hall he

/-- The slots of an account. -/
theorem handleAccountNodeTraversal_spec (hv : Visits visit) (fuel : Nat) {changes cs : Changes}
    {offset : Nat} (h : Placed s (node (p, i) ref pre (.leaf (.account info)) ch) p i)
    (hcs : rel offset changes = under pre cs) (hnil : cs ≠ []) (hne : ∀ c ∈ cs, c.1 ≠ [])
    (hsorted : Sorted (rel offset changes)) :
    Ensures (handleAccountNodeTraversal fuel visit changes offset p i
        ((Kind.leaf (.account info)).node pre fun l ↦ (ch l).pointer?) pre) s
      (Done .node s (node (p, i) ref pre (.leaf (.account info)) ch) (rel offset changes))
      (OnSplit (Halted .node s (node (p, i) ref pre (.leaf (.account info)) ch) p
        (rel offset changes))) := by
  have hrel := rel_account hcs
  refine .bind (liftNode_spec fun ptr hptr ↦ ?_)
  have hptr : ptr = (ch 0).pointer? := by
    cases hptr
    rfl
  subst hptr
  cases hp : (ch 0).pointer? with
  | none => exact createFirstStorageNode_spec hv fuel h (pointer?_eq_none.mp hp) hcs hne hsorted
  | some pointer =>
    have hch : flag s (ch 0) ≠ empty := fun he ↦ by
      simp [map_eq_empty.mp he, pointer?] at hp
    have hsorted' : Sorted (rel (offset + pre.length) changes) := by
      rw [hrel]
      rw [hcs] at hsorted
      exact Sorted.under_iff.mp hsorted
    rw [hcs]
    refine .seq ((visitChild_spec hv h hp hsorted').mono (fun _ _ h ↦ h) ?_) ?_
    · intro e s' hh n hn
      obtain ⟨s₁, t₁, m, fuel', he, hstep, htag, href, hsplit⟩ := hh n hn
      rw [hrel] at he
      have hstep₁ := h.step_child hstep (pointer?_congr htag href)
        (linked_congr (h.holds.linked 0) htag)
      refine ⟨s₁, _, m, fuel', ?_, hstep₁, rfl, rfl, hsplit⟩
      rw [h.flag_eq, (h.step hstep₁ rfl).flag_eq, h.flag_update hstep.evolves]
      exact .storageKeep hnil hne hch he (by simp) (by simp)
    · rintro change s₁ ⟨t₁, o, m, he, hstep, hr⟩
      rw [hrel] at he
      -- the account points to its storage as before, or is written
      have hkeep (hc : change = .none) : Done .node s
          (node (p, i) ref pre (.leaf (.account info)) ch) (under pre cs) .none s₁ := by
        subst hc
        have hstep₁ := h.step_child hstep (pointer?_congr hr.2.1 hr.2.2)
          (hr.linked (h.holds.linked 0))
        rw [hr.1] at he
        refine ⟨_, .none, m, ?_, hstep₁, rfl, rfl, rfl⟩
        rw [h.flag_eq, (h.step hstep₁ rfl).flag_eq, h.flag_update hstep.evolves]
        exact .storageKeep hnil hne hch he (by simp) (by simp)
      have hwrite (ho : o = .update ∨ o = .delete) : Ensures (do
          let node ← applyPointerChange ((Kind.leaf (.account info)).node pre fun l ↦
            (ch l).pointer?) p i 0 change
          pure (.update ⟨nodeLocation p i, node.toRlpNode⟩)) s₁
          (Done .node s (node (p, i) ref pre (.leaf (.account info)) ch) (under pre cs))
          (OnSplit (Halted .node s (node (p, i) ref pre (.leaf (.account info)) ch) p
            (under pre cs))) := by
        refine .seq (applyPointerChange_spec h hstep hr rfl ((Kind.leaf (.account info)).rlp pre
          fun l ↦ (Function.update ch 0 t₁ l).ref?)) ?_
        rintro n s' ⟨rfl, hstep', hflag⟩
        refine .pure ⟨_, .update, m, ?_, hstep', rfl, ?_, .inl rfl⟩
        · rw [h.flag_eq]
          have hf : flag s' (fresh (p, i) pre (.leaf (.account info)) (Function.update ch 0 t₁)) =
              fresh false pre (.leaf (.account info))
                (Function.update (fun l ↦ flag s (ch l)) 0 (flag s₁ t₁)) := by
            rw [flag_fresh, (h.step hstep' rfl).current, Bool.and_false]
            simp only [hflag]
            rw [h.flag_update hstep.evolves]
          change Exec _ _ _ _
            (flag s' (fresh (p, i) pre (.leaf (.account info)) (Function.update ch 0 t₁))) _
          rw [hf]
          exact .storage hnil hne hch he ho
        · rw [toRlpNode_eq]
          rfl
      cases change with
      | none => exact .pure (hkeep rfl)
      | update pointer => exact hwrite (.inl hr.1)
      | delete => exact hwrite (.inr hr.1)

end

end TrieDb.Layout

import TrieDb.Layout.Write

/-!
# The trie of a transaction

A transaction knows the trie through the page and the hash of its root. `set_values` applies a
batch of changes to it as the recursion on tries says, whatever the layout of the pages.
-/

namespace TrieDb.Layout

open Meta Base Engine Trie

variable {s s₁ s' : State Cells} {t t₁ t' : Trie Loc} {m m' : List Mishap}

/-- The context knows the trie by the first cell of a page. A new file has no root page and the
hash zero. -/
def Anchored (s : State Cells) : Trie Loc → Prop
  | empty => s.context.rootNodePageId = none
  | node c ref _ _ _ => c.2 = 0 ∧ s.context.rootNodePageId = some c.1 ∧
      ref.asHash = some s.context.rootNodeHash

/-- The context knows the trie by its root hash also when it is empty. -/
def Rooted [AlloyTrie] (s : State Cells) (t : Trie Loc) : Prop :=
  Anchored s t ∧ (t = empty → s.context.rootNodeHash = emptyRootHash)

/-- States that differ in the context of the transaction, but not in its snapshot. -/
structure Recontext (s s' : State Cells) : Prop where
  engine : s'.engine = s.engine
  strayPages : s'.strayPages = s.strayPages
  snapshotId : s'.context.snapshotId = s.context.snapshotId

namespace Recontext

private theorem stamp (h : Recontext s s') (q : Nat) : stamp s' q = stamp s q := by
  rw [Layout.stamp, Layout.stamp, h.engine]

private theorem old (h : Recontext s s') (q : Nat) : old s' q = old s q := by
  rw [Layout.old, Layout.old, h.stamp, h.snapshotId]

/-- A new context sees the same cells. -/
theorem cellAt (h : Recontext s s') : cellAt s' = cellAt s := by
  funext c
  rw [Layout.cellAt, Layout.cellAt, h.engine]

private theorem vacant (h : Recontext s s') (q : Nat) : Vacant s' q ↔ Vacant s q := by
  rw [Vacant, Vacant, orphans, orphans, h.engine]

private theorem flag (h : Recontext s s') (t : Trie Loc) : flag s' t = flag s t :=
  Holds.map_congr fun c _ ↦ by rw [h.old]

private theorem dirty (h : Recontext s s') (q : Nat) : dirty s' q = dirty s q := by
  rw [Layout.dirty, Layout.dirty, h.engine]

/-- A new context is as ready. -/
theorem ready (h : Recontext s s') (hs : Ready s) : Ready s' := by
  constructor
  · rw [h.engine]
    exact hs.range
  · rw [h.engine, h.snapshotId]
    exact hs.alive
  · rw [orphans, h.engine]
    exact hs.nodup
  · rw [orphans, h.engine]
    exact hs.below

/-- A new context holds the same tries. -/
theorem holds (h : Recontext s s') (ht : Holds s t) : Holds s' t := by
  constructor
  · rw [h.cellAt]
    exact ht.stored
  · exact ht.nodup
  · intro c hc
    rw [h.vacant, h.stamp]
    exact ht.live c hc
  · exact Holds.oldBelow_congr (fun c _ ↦ h.old c.1) ht.mono

private theorem release (h : Recontext s s') (p : Nat) :
    Recontext (release s p) (release s' p) := by
  constructor
  · unfold Layout.release
    rw [State.setPages, State.setPages, h.engine]
  · exact h.strayPages
  · exact h.snapshotId

end Recontext

/-- What a call of `set_values` does to the pages, besides leaving the trie `t'`. -/
structure Written (s : State Cells) (t : Trie Loc) (s' : State Cells) (t' : Trie Loc)
    (m : List Mishap) : Prop where
  ready : Ready s'
  holds : Holds s' t'
  snapshotId : s'.context.snapshotId = s.context.snapshotId
  vacant : ∀ q, Vacant s' q → Vacant s q
  stamps : ∀ q, ¬ Vacant s q → stamp s' q = stamp s q
  kept : ∀ q, ¬ Vacant s q → old s q = true →
    (s'.engine.pageManager.pages q).contents = (s.engine.pageManager.pages q).contents
  alive : s'.engine.aliveSnapshot = s.engine.aliveSnapshot
  list : Relation.ReflTransGen (ListStep s.engine.aliveSnapshot s.context.snapshotId)
    s.engine.metaManager s'.engine.metaManager
  count : s.engine.pageManager.pageCount ≤ s'.engine.pageManager.pageCount
  cleaner : Cleaner s s'
  balance : Mishap.abandoned ∉ m → Balance s t.tags s' t'.tags
  full : Full s t.tags → Full s' t'.tags

namespace Written

private theorem of_step (h : Step s t s' t' m) : Written s t s' t' m where
  ready := h.evolves.ready
  holds := h.holds
  snapshotId := h.evolves.snapshotId
  vacant := h.evolves.vacant
  stamps := h.evolves.stamps
  kept := h.evolves.kept
  alive := h.evolves.alive
  list := h.evolves.list
  count := h.evolves.count
  cleaner := h.cleaner
  balance := h.balance
  full hs := (h.clears hs).full hs

private theorem old_eq (h : Written s t s' t' m) {q : Nat} (hq : ¬ Vacant s q) :
    old s' q = old s q := by
  rw [Layout.old, Layout.old, h.stamps q hq, h.snapshotId]

/-- A trie of old pages is still held. -/
theorem holds_of_old {u : Trie Loc} (h : Written s t s' t' m) (hu : Holds s u)
    (ho : ∀ c ∈ u.tags, old s c.1 = true) : Holds s' u where
  stored := hu.stored.congr fun c hc ↦ by
    simp only [cellAt, h.kept c.1 (hu.live c hc).1 (ho c hc)]
  nodup := hu.nodup
  live c hc := by
    refine ⟨fun hv ↦ (hu.live c hc).1 (h.vacant _ hv), ?_⟩
    rw [h.stamps _ (hu.live c hc).1]
    exact (hu.live c hc).2
  mono := Holds.oldBelow_congr (fun c hc ↦ h.old_eq (hu.live c hc).1) hu.mono

private theorem trans (h : Written s t s₁ t₁ m) (h' : Written s₁ t₁ s' t' m') :
    Written s t s' t' (m ++ m') where
  ready := h'.ready
  holds := h'.holds
  snapshotId := h'.snapshotId.trans h.snapshotId
  vacant q hq := h.vacant q (h'.vacant q hq)
  stamps q hq := by rw [h'.stamps q fun hv ↦ hq (h.vacant q hv), h.stamps q hq]
  kept q hq ho := by
    rw [h'.kept q (fun hv ↦ hq (h.vacant q hv)) (by rw [h.old_eq hq, ho]), h.kept q hq ho]
  alive := h'.alive.trans h.alive
  list := by
    have hl := h'.list
    rw [h.alive, h.snapshotId] at hl
    exact h.list.trans hl
  count := h.count.trans h'.count
  cleaner q hq := h.cleaner q (h'.cleaner q hq)
  balance hm := by
    rw [List.mem_append, not_or] at hm
    exact (h.balance hm.1).trans (h'.balance hm.2) h.count h'.count
  full hs := h'.full (h.full hs)

/-- The context may change. -/
private theorem of_recontext (hs : Ready s) (ht : Holds s t) (h : Recontext s s') :
    Written s t s' t [] where
  ready := h.ready hs
  holds := h.holds ht
  snapshotId := h.snapshotId
  vacant q hq := (h.vacant q).mp hq
  stamps q _ := h.stamp q
  kept q _ _ := by rw [h.engine]
  alive := by rw [h.engine]
  list := by
    rw [h.engine]
  count := by rw [h.engine]
  cleaner q hq := by rwa [← h.dirty]
  balance _ := by
    apply Balance.of_same
    · rw [orphans, h.engine, orphans]
    · rw [h.engine]
    · exact h.strayPages
    · exact fun _ ↦ rfl
  full hs c hc := hs c (by rwa [← h.cellAt])

end Written

variable [AlloyTrie]

/-- A whole batch on the trie of the transaction. -/
def Wrote (s : State Cells) (t : Trie Loc) (cs : Changes) (s' : State Cells) : Prop :=
  ∃ t' m, Applied (flag s t) cs (flag s' t') m ∧ Written s t s' t' m ∧ Rooted s' t'

/-- A pointer to the first cell of a page becomes the root of the context. -/
private theorem setRoot_spec {P : Nat → State Cells → Prop} {pointer : Pointer}
    (hp : t.pointer? = some pointer) (ht : ∃ q, t.tag? = some (q, 0)) :
    Ensures (setRoot pointer) s (fun _ s' ↦ Recontext s s' ∧ Rooted s' t) (OnSplit P) := by
  cases t with
  | empty => cases hp
  | node c ref pre kind ch =>
    obtain ⟨q, hq⟩ := ht
    cases hq
    cases hp
    unfold setRoot rootHash
    cases hash : ref.asHash with
    | none => exact throw_spec (by simp)
    | some h =>
      apply ensures_modify
      exact ⟨⟨rfl, rfl, rfl⟩, ⟨rfl, rfl, hash⟩, (fun h ↦ by cases h)⟩

omit [AlloyTrie] in
/-- The root of a trie that is not empty is the first cell of the root page. -/
theorem Anchored.tag (h : Anchored s t) (ht : t ≠ empty) :
    ∃ q, t.tag? = some (q, 0) ∧ s.context.rootNodePageId = some q := by
  cases t with
  | empty => exact absurd rfl ht
  | node c ref pre kind ch =>
    obtain ⟨h0, hp, -⟩ := h
    exact ⟨c.1, congrArg some (Prod.ext rfl h0), hp⟩

/-- Sorted changes on a trie that has a root. -/
private theorem setValuesAtRoot_spec {P : Nat → State Cells → Prop} (fuel : Nat) {changes : Changes}
    (hs : Ready s) (h : Holds s t) (hr : Anchored s t) (ht : t ≠ empty) (hcs : Sorted changes) :
    Ensures (setValuesAtRoot fuel changes) s (fun _ s' ↦ ∃ o t' m,
      Exec .child (flag s t) changes o (flag s' t') m ∧ o.ended = true ∧ Written s t s' t' m ∧
        Rooted s' t') (OnSplit P) := by
  obtain ⟨q, htag, hpage⟩ := hr.tag ht
  unfold setValuesAtRoot
  apply Ensures.bind
  apply ensures_modify
  -- the trie is the same with the locations forgotten
  generalize hs₀ : ({ s with context := invalidateCache changes s.context } : State Cells) = s₀
  have hrec : Recontext s s₀ := by
    subst hs₀
    exact ⟨rfl, rfl, rfl⟩
  have hr₀ : Anchored s₀ t := by
    subst hs₀
    cases t <;> exact hr
  have hpage₀ : s₀.context.rootNodePageId = some q := by
    subst hs₀
    exact hpage
  apply Ensures.bind
  apply Ensures.get
  rw [hpage₀]
  have hstart := Written.of_recontext hs h hrec
  have hrel : rel 0 changes = changes := rel_zero changes
  refine (setValuesInPage_spec (visits_setValuesInClonedPage fuel) hstart.ready hstart.holds htag
    (hrel.symm ▸ hcs)).seq ?_
  rintro change s₁ ⟨t', o, m, he, hstep, hrep⟩
  rw [hrel, hrec.flag] at he
  have hwritten : Written s t s₁ t' m := hstart.trans (.of_step hstep)
  have hended := hrep.ended
  -- what the context is told about the root
  have hfinish {s' : State Cells} (hrec' : Recontext s₁ s') (hroot : Rooted s' t') :
      ∃ o t' m, Exec .child (flag s t) changes o (flag s' t') m ∧ o.ended = true ∧
        Written s t s' t' m ∧ Rooted s' t' := by
    have hw := hwritten.trans (.of_recontext hwritten.ready hwritten.holds hrec')
    rw [List.append_nil] at hw
    exact ⟨o, t', m, by rw [hrec'.flag]; exact he, hended, hw, hroot⟩
  cases change with
  | none =>
    apply Ensures.pure
    apply hfinish ⟨rfl, rfl, rfl⟩
    obtain ⟨-, htag', href'⟩ := hrep
    rw [htag] at htag'
    cases t with
    | empty => cases htag
    | node c ref pre kind ch =>
      cases t' with
      | empty => cases htag'
      | node c' ref' pre' kind' ch' =>
        cases htag
        cases htag'
        cases href'
        obtain ⟨-, h1, h2⟩ := hr₀
        refine ⟨⟨rfl, ?_, ?_⟩, (fun h ↦ by cases h)⟩
        · rw [hstep.evolves.context]
          exact h1
        · rw [hstep.evolves.context]
          exact h2
  | update pointer =>
    refine (setRoot_spec hrep.2.1 ?_).mono (fun _ s' h ↦ hfinish h.1 h.2) fun _ _ h ↦ h
    rcases hrep.2.2 with htag' | htag'
    · exact ⟨q, htag'.trans htag⟩
    · exact htag'
  | delete =>
    apply ensures_modify
    refine hfinish ?_ ?_
    · exact ⟨rfl, rfl, rfl⟩
    · rw [hrep.2]
      exact ⟨rfl, fun _ ↦ rfl⟩

omit [AlloyTrie] in
/-- The first cell of a new page. -/
private theorem eq_zero_of_allocated {p k : Nat} (h : Allocated s p s₁)
    (hk : (s₁.engine.pageManager.pages p).contents.nextFreeCellIndex = .ok k) : k = 0 := by
  rw [h.page] at hk
  cases hk
  rfl

/-- A leaf in the first cell of a new page. -/
private theorem Allocated.leaf {p : Nat} {path : Nibbles} {e : Entry} {cells : Cells}
    (h : Allocated s p s₁)
    (hc : ∀ l, cells.cell l = if l = 0 then
      some ((Kind.leaf e).node path fun _ ↦ none) else cellAt s₁ (p, l)) :
    Step s empty (release (s₁.setCells p cells) p) (Trie.leaf (p, 0) path e) [] := by
  have hcur : old (s₁.setCells p cells) p = false := by
    rw [old_setCells]
    exact h.old_page
  have halloc : Evolves s [] s₁ [] := h.evolves (by simp)
  have hlive : ¬ Vacant s₁ p ∧ stamp s₁ p ≠ none := by
    constructor
    · exact fun hv ↦ (h.vacant' p hv).2 rfl
    · rw [old_eq_false.mp h.old_page]
      exact Option.some_ne_none _
  have hstore : Evolves s₁ [] (s₁.setCells p cells) [(p, 0)] := by
    apply evolves_setCells h.ready h.old_page
    · simpa using hlive
    · simp [h.cellAt_page]
    · intro l _ hl
      exact absurd (h.cellAt_page l) hl
  have hholds : Holds (s₁.setCells p cells) (Trie.leaf (p, 0) path e) := by
    apply Holds.node
    · simp [hc, pointer?]
    · simpa using hlive
    · exact hcur
    · exact fun l hl ↦ absurd rfl hl
    · exact fun _ ↦ linked_empty p
    · exact fun _ ↦ List.not_mem_nil
    · exact fun _ _ _ ↦ List.disjoint_nil_left _
    · exact fun _ ↦ .empty
  have hrel : Evolves (s₁.setCells p cells) [(p, 0)] (release (s₁.setCells p cells) p) [(p, 0)] :=
    evolves_release hstore.ready hcur hstore.owned
  constructor
  · exact hholds.release hstore.ready hcur
  · exact (halloc.trans hstore).trans hrel
  · intro q hq
    obtain ⟨hq, hne⟩ := dirty_release q hq
    rw [dirty_setCells] at hq
    exact h.dirty hne hq
  · intro _ q
    have horphans := h.orphanCount q
    have hcount :
        Layout.orphanCount (release (s₁.setCells p cells) p) q = Layout.orphanCount s₁ q :=
      rfl
    have hadded : added s (release (s₁.setCells p cells) p) q = added s s₁ q := rfl
    have hstray : (release (s₁.setCells p cells) p).strayPages = s.strayPages := h.stray
    have htags : ((Trie.leaf (p, 0) path e).tags.count (q, 0)) = if q = p then 1 else 0 := by
      show List.count (q, 0) [(p, 0)] = _
      by_cases hqp : q = p
      · simp [hqp]
      · simp [hqp, Ne.symm hqp]
    rw [hcount, hadded, hstray, htags, tags_empty, List.count_nil]
    omega
  · intro _
    show Clears s [] (release (s₁.setCells p cells) p) [(p, 0)]
    constructor
    · intro q hq
      rw [(Prod.mk.inj (List.mem_singleton.mp hq)).1]
      exact .inr h.vacant
    · rintro ⟨q, l⟩ hl hm
      rw [cellAt_release, cellAt_setCells] at hl
      by_cases hq : q = p
      · subst hq
        rw [if_pos rfl, hc, h.cellAt_page] at hl
        split at hl
        · next hl0 =>
          have heq : (q, l) = (q, 0) := Prod.ext rfl hl0
          exact absurd (List.mem_singleton.mpr heq) hm
        · exact absurd rfl hl
      · rw [if_neg hq, h.cellAt_of_ne hq] at hl
        by_cases hv : Vacant s q
        · exact .inr ⟨by simpa using hq, .inr hv⟩
        · exact .inl ⟨hv, hl, List.not_mem_nil⟩

/-- The first value of an empty trie. -/
private theorem setFirstValue_spec {P : Nat → State Cells → Prop} {changes : Changes}
    (hs : Ready s) :
    Ensures (setFirstValue changes) s (fun rest s' ↦ ∃ path v t', changes = (path, some v) :: rest ∧
      flag s' t' = Trie.leaf false path v.entry ∧ Written s empty s' t' [] ∧ Rooted s' t')
      (OnSplit P) := by
  unfold setFirstValue
  apply Ensures.bind
  apply allocatePage_spec hs
  intro p s₁ ha
  apply withPage_spec
  match changes with
  | [] => exact throw_spec (by simp)
  | (path, none) :: rest => exact throw_spec (by simp)
  | (path, some v) :: rest =>
    apply Ensures.bind
    unfold initializeEmptyTrie
    apply Ensures.bind
    apply liftNode_spec
    intro new hnew
    have hnew := newLeaf_eq_ok hnew
    apply Ensures.bind
    apply insertValue_spec
    intro k cells hk hfree hcells
    obtain rfl := eq_zero_of_allocated ha hk
    rw [if_pos rfl]
    apply Ensures.pure
    have hstep := ha.leaf (hnew ▸ hcells)
    apply Ensures.bind
    refine (setRoot_spec (t := Trie.leaf (p, 0) path v.entry) ?_ ⟨p, rfl⟩).mono ?_ fun _ _ h ↦ h
    · simp only [Trie.leaf, fresh, pointer?, hnew, Kind.toRlpNode_node, nodeLocation]
      rfl
    · rintro _ s₂ ⟨hrec, hroot⟩
      apply Ensures.pure
      have hrec' := hrec.release p
      have hw := (Written.of_step hstep).trans
        (.of_recontext hstep.evolves.ready hstep.holds hrec')
      refine ⟨path, v, Trie.leaf (p, 0) path v.entry, rfl, ?_, hw, hroot⟩
      have hold : old (release (s₁.setCells p cells) p) p = false := by
        rw [old, stamp_release (ha.ready.setCells cells) (by rw [old_setCells]; exact ha.old_page)]
        have := ha.old_page
        rwa [← old_setCells (p := p) cells p, old] at this
      have hflag : flag (release s₂ p) (Trie.leaf (p, 0) path v.entry) =
          Trie.leaf false path v.entry := by
        rw [hrec'.flag, Trie.leaf, flag_fresh, hold]
        rfl
      exact hflag

/-- `set_values` applies the batch in the order of its paths. -/
theorem setValues_spec (fuel : Nat) {changes : Changes} (hs : Ready s) (h : Holds s t)
    (hr : Anchored s t) :
    Ensures (setValues fuel changes) s (fun _ s' ↦ Wrote s t (sortChanges changes) s')
      fun _ _ ↦ True := by
  have herror {e : Error} {s' : State Cells} :
      OnSplit (fun _ _ ↦ True) e s' → True := fun _ ↦ trivial
  have hsorted := sorted_sortChanges changes
  unfold setValues
  simp only
  apply Ensures.bind
  apply Ensures.get
  cases ht : t with
  | empty =>
    subst ht
    have hr : s.context.rootNodePageId = none := hr
    rw [hr]
    refine ((setFirstValue_spec hs).mono (fun _ _ h ↦ h) fun _ _ ↦ herror).seq ?_
    rintro rest s₁ ⟨path, v, t₁, hcs, hflag, hw, hr₁⟩
    have hcs : sortChanges changes = (path, some v) :: rest := hcs
    by_cases hrest : rest = []
    · subst hrest
      apply Ensures.pure
      refine ⟨t₁, [], ?_, hw, hr₁⟩
      rw [hcs, hflag]
      exact .first
    · simp only [List.isEmpty_iff, hrest, if_false]
      have hne : t₁ ≠ empty := by
        rintro rfl
        cases hflag
      rw [hcs] at hsorted ⊢
      refine (setValuesAtRoot_spec fuel hw.ready hw.holds hr₁.1 hne
        (hsorted.sublist (List.sublist_cons_self _ _))).mono ?_ fun _ _ ↦ herror
      rintro _ s' ⟨o, t', m, he, ho, hw', hr'⟩
      rw [hflag] at he
      exact ⟨t', m, .firstMore hrest he ho, hw.trans hw', hr'⟩
  | node c ref pre kind ch =>
    have hne : t ≠ empty := by
      rw [ht]
      simp
    rw [← ht]
    obtain ⟨q, -, hpage⟩ := hr.tag hne
    rw [hpage]
    refine (setValuesAtRoot_spec fuel hs h hr hne hsorted).mono ?_ fun _ _ ↦ herror
    rintro _ s' ⟨o, t', m, he, ho, hw, hr'⟩
    refine ⟨t', m, .root ?_ he ho, hw, hr'⟩
    rw [flag, ne_eq, map_eq_empty]
    exact hne

end TrieDb.Layout

import TrieDb.Layout.Evolve

/-!
# Page operations on stored tries

Specifications of the page operations in terms of cells: what follows an operation may rely on what
the operation did. An error other than a page split ends the whole operation and needs no
specification.
-/

namespace TrieDb.Engine.State

/-- Replace the cells of a page. -/
def setCells (s : State Cells) (p : Nat) (cells : Cells) : State Cells :=
  s.setPages (s.engine.pageManager.setPage p
    { s.engine.pageManager.pages p with contents := cells })

end TrieDb.Engine.State

namespace TrieDb.Layout

open Meta Base Engine Trie

/-- A condition on page splits only. -/
def OnSplit (P : Nat → State Cells → Prop) (e : Error) (s : State Cells) : Prop :=
  ∀ n, e = .pageSplit n → P n s

variable {s s' : State Cells} {p i : Nat} {P : Nat → State Cells → Prop} {α : Type}

/-! ### Cells -/

/-- The cells after those of a page have been replaced. -/
@[simp] theorem cellAt_setCells (cells : Cells) (c : Loc) :
    cellAt (s.setCells p cells) c = if c.1 = p then cells.cell c.2 else cellAt s c := by
  simp only [cellAt, State.setCells, State.pageManager_setPages]
  by_cases hc : c.1 = p
  · rw [if_pos hc, hc, PageManager.pages_setPage_self]
  · rw [if_neg hc, PageManager.pages_setPage_of_ne _ _ hc]

/-- The cells written last remain. -/
@[simp] theorem setCells_setCells (c c' : Cells) :
    (s.setCells p c).setCells p c' = s.setCells p c' := by
  simp [State.setCells, State.setPages, PageManager.setPage]

private theorem state_setCells (cells : Cells) (q : Nat) :
    ((s.setCells p cells).engine.pageManager.pages q).state =
      (s.engine.pageManager.pages q).state := by
  simp only [State.setCells, State.pageManager_setPages]
  by_cases hq : q = p
  · rw [hq, PageManager.pages_setPage_self]
  · rw [PageManager.pages_setPage_of_ne _ _ hq]

/-- A write into a page keeps its stamp. -/
@[simp] theorem stamp_setCells (cells : Cells) (q : Nat) :
    stamp (s.setCells p cells) q = stamp s q := by
  rw [stamp, state_setCells, stamp]

/-- A write into a page keeps its dirty flag. -/
@[simp] theorem dirty_setCells (cells : Cells) (q : Nat) :
    dirty (s.setCells p cells) q = dirty s q := by
  rw [dirty, state_setCells, dirty]
  rfl

/-- A write into a page makes no page old. -/
@[simp] theorem old_setCells (cells : Cells) (q : Nat) :
    old (s.setCells p cells) q = old s q := by
  rw [old, stamp_setCells, old]
  rfl

/-- A write into a page keeps the flags of a trie. -/
@[simp] theorem flag_setCells (cells : Cells) (t : Trie Loc) :
    flag (s.setCells p cells) t = flag s t :=
  Holds.map_congr fun c _ ↦ by rw [old_setCells]

/-- A write into a page makes no page vacant. -/
@[simp] theorem vacant_setCells (cells : Cells) (q : Nat) :
    Vacant (s.setCells p cells) q ↔ Vacant s q := Iff.rfl

/-- A write into a page keeps the state ready. -/
theorem Ready.setCells (h : Ready s) (cells : Cells) : Ready (s.setCells p cells) :=
  ⟨h.range, h.alive, h.nodup, h.below⟩

/-- Writing to a page of this snapshot. -/
theorem evolves_setCells {R R' : List Loc} {cells : Cells} (hs : Ready s) (ho : old s p = false)
    (hR' : ∀ c ∈ R', ¬ Vacant s c.1 ∧ stamp s c.1 ≠ none)
    (hnew : ∀ c ∈ R', c ∈ R ∨ cellAt s c = none)
    (hframe : ∀ j, (p, j) ∉ R → cellAt s (p, j) ≠ none → cells.cell j = cellAt s (p, j)) :
    Evolves s R (s.setCells p cells) R' where
  ready := hs.setCells cells
  vacant _ h := h
  owned c hc := by simpa using hR' c hc
  new c hc := (hnew c hc).imp id .inr
  frame c _ hR hn := by
    obtain ⟨q, j⟩ := c
    by_cases hq : q = p
    · subst hq
      simpa using hframe j hR hn
    · simp [hq]
  stamps q _ := stamp_setCells cells q
  kept q _ hq := by
    have hne : q ≠ p := by
      intro h
      rw [h, ho] at hq
      cases hq
    simp only [State.setCells, State.pageManager_setPages]
    rw [PageManager.pages_setPage_of_ne _ _ hne]
  context := rfl
  alive := rfl
  list := .refl
  count := Nat.le_refl _

/-- A write into a page neither lists nor loses one. -/
theorem balance_setCells {R R' : List Loc} {cells : Cells}
    (h : ∀ q, R'.count (q, 0) = R.count (q, 0)) : Balance s R (s.setCells p cells) R' :=
  .of_same rfl rfl rfl h

/-- Writing to a page leaves nothing behind if what is in use was so and was not owned. -/
theorem clears_setCells {R R' : List Loc} {cells : Cells} (hR' : ∀ c ∈ R', ¬ Vacant s c.1)
    (hroots : ∀ q, (q, 0) ∈ R' → (q, 0) ∈ R) (hothers : ∀ c ∈ R, c.1 ≠ p → c ∈ R')
    (hcells : ∀ j, cells.cell j ≠ none → (p, j) ∉ R' → cellAt s (p, j) ≠ none ∧ (p, j) ∉ R) :
    Clears s R (s.setCells p cells) R' where
  roots q hq := .inl (hroots q hq)
  cells c hc hmem := by
    obtain ⟨q, j⟩ := c
    by_cases hv : Vacant s q
    · exact .inr ⟨fun hr ↦ hR' _ hr hv, .inr hv⟩
    · left
      rw [cellAt_setCells] at hc
      by_cases hq : q = p
      · subst hq
        obtain ⟨hn, hR⟩ := hcells j (by simpa using hc) hmem
        exact ⟨hv, hn, hR⟩
      · exact ⟨hv, by simpa [hq] using hc, fun hR ↦ hmem (hothers _ hR hq)⟩

/-- A write into a page makes no page dirty. -/
theorem cleaner_setCells (cells : Cells) : Cleaner s (s.setCells p cells) := fun q hq ↦ by
  simpa using hq

/-! ### Specifications -/

section
variable {Q : α → State Cells → Prop}

/-- An error that is no split may end a run in any state. -/
theorem throw_spec {e : Error} (he : ∀ n, e ≠ .pageSplit n) :
    Ensures (throw e : EngineM Cells α) s Q (OnSplit P) := fun n hn ↦ absurd hn (he n)

/-- A node operation, of which only the success matters. -/
theorem liftNode_spec {x : Except NodeError α} (h : ∀ a, x = .ok a → Q a s) :
    Ensures (liftNode x) s Q (OnSplit P) := by
  cases x with
  | ok a => exact h a rfl
  | error e => exact throw_spec (by simp)

private theorem liftPage_spec {x : Except PageError α} (h : ∀ a, x = .ok a → Q a s) :
    Ensures (liftPage x) s Q (OnSplit P) := by
  cases x with
  | ok a => exact h a rfl
  | error e => exact throw_spec (by simp)

/-- Dropping a page at the end. -/
theorem withPage_spec {x : EngineM Cells α} {E : Error → State Cells → Prop}
    (h : Ensures x s (fun a t ↦ Q a (t.setPages (t.engine.pageManager.drop p)))
      (fun e t ↦ E e (t.setPages (t.engine.pageManager.drop p)))) :
    Ensures (withPage p x) s Q E := by
  simp only [Ensures, withPage] at h ⊢
  cases hx : x s with
  | ok a t => simpa [hx] using h
  | error e t => simpa [hx] using h

/-- After an error the page is dropped. -/
theorem dropOnError_spec {x : EngineM Cells α} {E : Error → State Cells → Prop}
    (h : Ensures x s Q (fun e t ↦ E e (t.setPages (t.engine.pageManager.drop p)))) :
    Ensures (dropOnError p x) s Q E := by
  simp only [Ensures, dropOnError] at h ⊢
  cases hx : x s with
  | ok a t => simpa [hx] using h
  | error e t => simpa [hx] using h

end

/-- The cells of a page are read. -/
theorem cells_spec {Q : Cells → State Cells → Prop}
    (h : Q (s.engine.pageManager.pages p).contents s) :
    Ensures (Engine.cells p) s Q (OnSplit P) := h

/-- The cells of a page are written. -/
theorem writeContents_spec {Q : Unit → State Cells → Prop} {c : Cells} (h : Q () (s.setCells p c)) :
    Ensures (writeContents p c) s Q (OnSplit P) := h

/-- A cell is read. -/
theorem getValue_spec {Q : Node → State Cells → Prop}
    (h : ∀ n, cellAt s (p, i) = some n → Q n s) : Ensures (getValue p i) s Q (OnSplit P) := by
  refine .bind (cells_spec (liftPage_spec fun n hn ↦ h n ?_))
  exact Cells.getValue_eq_ok.mp hn

/-- A cell is emptied. -/
theorem deleteValue_spec {Q : Unit → State Cells → Prop}
    (h : ∀ c : Cells, (∀ j, c.cell j = if j = i then none else cellAt s (p, j)) →
      Q () (s.setCells p c)) : Ensures (deleteValue p i) s Q (OnSplit P) :=
  .bind (cells_spec (writeContents_spec (h _ (Cells.cell_deleteValue _ i))))

/-- Two cells are exchanged. -/
theorem swapCellPointers_spec {Q : Unit → State Cells → Prop} {k : Nat}
    (h : ∀ c : Cells, (∀ j, c.cell j = cellAt s (p, Equiv.swap i k j)) → Q () (s.setCells p c)) :
    Ensures (swapCellPointers p i k) s Q (OnSplit P) := by
  refine .bind (cells_spec (.bind (liftPage_spec fun c hc ↦ writeContents_spec (h c ?_))))
  exact Cells.cell_swapCellPointers hc

/-- The next free cell is looked up. -/
theorem nextFreeCellIndex_spec {Q : Nat → State Cells → Prop}
    (h : ∀ k, (s.engine.pageManager.pages p).contents.nextFreeCellIndex = .ok k → Q k s) :
    Ensures (nextFreeCellIndex p) s Q (OnSplit P) :=
  .bind (cells_spec (liftPage_spec fun k hk ↦ h k hk))

/-- A page that is read is not dirty. -/
theorem getPage_spec {Q : Page Cells → State Cells → Prop} {q : Nat}
    (h : ∀ page, dirty s q = false → Q page s) : Ensures (getPage q) s Q (OnSplit P) := by
  refine .intro (fun page t ht ↦ ?_) (fun e t ht ↦ ?_)
  · obtain ⟨rfl, rfl, -, n, hn⟩ := getPage_eq_ok ht
    exact h _ (by simp [dirty, hn, PageState.isDirty])
  · simp only [getPage, bind_apply, get_apply] at ht
    cases hg : s.engine.pageManager.get q with
    | ok a => simp [hg] at ht
    | error e' =>
      simp only [hg, liftPage_error, EStateM.Result.error.injEq] at ht
      intro n hn
      rw [← ht.1] at hn
      cases hn

section
variable [AlloyTrie]

/-- A node is stored in a cell. -/
theorem setValue_spec {Q : Unit → State Cells → Prop} {n : Node}
    (h : ∀ c : Cells, (∀ j, c.cell j = if j = i then some n else cellAt s (p, j)) →
      Q () (s.setCells p c)) : Ensures (setValue p i n) s Q (OnSplit P) := by
  refine .bind (cells_spec ?_)
  cases hr : Cells.setValue (s.engine.pageManager.pages p).contents i n with
  | mk r c =>
    refine .bind (writeContents_spec (liftPage_spec fun u hu ↦ h c ?_))
    subst hu
    exact Cells.cell_setValue hr

/-- A node is stored in a free cell. -/
theorem insertValue_spec {Q : Nat → State Cells → Prop} {n : Node}
    (h : ∀ k (c : Cells), (s.engine.pageManager.pages p).contents.nextFreeCellIndex = .ok k →
      cellAt s (p, k) = none → (∀ j, c.cell j = if j = k then some n else cellAt s (p, j)) →
      Q k (s.setCells p c)) : Ensures (insertValue p n) s Q (OnSplit P) := by
  refine .bind (cells_spec (.bind (liftPage_spec fun kc hkc ↦ ?_)))
  obtain ⟨k, c⟩ := kc
  obtain ⟨hk, hn, hc⟩ := Cells.insertValue_eq_ok hkc
  exact .bind (writeContents_spec (.pure (h k c hk hn hc)))

/-- How many bytes are free does not matter. -/
theorem numFreeBytes_spec {Q : Nat → State Cells → Prop} (h : ∀ n, Q n s) :
    Ensures (numFreeBytes p) s Q (OnSplit P) := .bind (cells_spec (.pure (h _)))

end

/-! ### Orphans -/

/-- What orphaning pages does, every page as often as `f` says. -/
structure Orphaned (s : State Cells) (f : Nat → Nat) (s' : State Cells) : Prop where
  pages : s'.engine.pageManager = s.engine.pageManager
  evolves : ∀ R : List Loc, (∀ c ∈ R, ¬ Vacant s c.1 ∧ stamp s c.1 ≠ none) → Evolves s R s' R
  count : ∀ q, orphanCount s' q = orphanCount s q + f q
  stray : s'.strayPages = s.strayPages

namespace Orphaned

variable {f g : Nat → Nat} {s₁ : State Cells} {t : Trie Loc}

/-- No page is orphaned. -/
theorem refl (hs : Ready s) : Orphaned s (fun _ ↦ 0) s :=
  ⟨rfl, fun _ hR ↦ .refl hs hR, fun _ ↦ rfl, rfl⟩

/-- Orphaning pages keeps the state ready. -/
theorem ready (h : Orphaned s f s') : Ready s' :=
  (h.evolves [] fun _ hc ↦ (List.not_mem_nil hc).elim).ready

/-- Only the numbers of times matter. -/
theorem congr (h : Orphaned s f s') (hf : ∀ q, f q = g q) : Orphaned s g s' :=
  (funext hf : f = g) ▸ h

/-- Tries stay where they are. -/
theorem holds (h : Orphaned s f s') (ht : Holds s t) : Holds s' t :=
  ht.evolves (h.evolves [] fun _ hc ↦ (List.not_mem_nil hc).elim) (List.disjoint_nil_right _)

/-- Orphaning pages keeps their cells. -/
theorem cellAt_eq (h : Orphaned s f s') (c : Loc) : cellAt s' c = cellAt s c := by
  simp only [cellAt, h.pages]

/-- Orphaning pages makes none old. -/
theorem old_eq (h : Orphaned s f s') (q : Nat) : old s' q = old s q := by
  have hc := (h.evolves [] fun _ hc ↦ (List.not_mem_nil hc).elim).snapshotId
  rw [old, stamp, h.pages, hc, old, stamp]

/-- Orphaning pages makes none dirty. -/
theorem dirty_eq (h : Orphaned s f s') (q : Nat) : dirty s' q = dirty s q := by
  simp only [dirty, h.pages]

/-- After orphaning no more pages are dirty. -/
theorem cleaner (h : Orphaned s f s') : Cleaner s s' := fun q hq ↦ h.dirty_eq q ▸ hq

end Orphaned

/-- `orphan_page` lists the page once. -/
theorem orphanPage_spec {Q : Unit → State Cells → Prop} {id : Nat} (hs : Ready s)
    (h : ∀ t, Orphaned s (fun q ↦ if q = id then 1 else 0) t → Q () t) :
    Ensures (orphanPage id) s Q (OnSplit P) := by
  refine .intro (fun u t ht ↦ h t ?_) (fun e t ht ↦ ?_)
  · obtain ⟨m, hm, rfl⟩ := orphanPage_eq_ok ht
    obtain ⟨hq, hrange, -, -⟩ := MetadataManager.orphanPages_push hs.range hm
    have horphans : orphans (s.setMeta m) = orphans s ++ [⟨id, s.context.snapshotId⟩] := hq
    have halive : ¬ s.context.snapshotId ≤ s.engine.aliveSnapshot := Nat.not_le.mpr hs.alive
    have hvacant (q : Nat) : Vacant (s.setMeta m) q → Vacant s q := by
      rintro (⟨o, ho, hle, hid⟩ | hv)
      · rw [horphans, List.mem_append, List.mem_singleton] at ho
        rcases ho with ho | rfl
        · exact .inl ⟨o, ho, hle, hid⟩
        · exact absurd hle halive
      · exact .inr hv
    have hready : Ready (s.setMeta m) := by
      refine ⟨hrange, hs.alive, ?_, ?_⟩
      · have hf : (orphans (s.setMeta m)).filter (fun o ↦ o.orphanedAt ≤ s.engine.aliveSnapshot) =
            (orphans s).filter fun o ↦ o.orphanedAt ≤ s.engine.aliveSnapshot := by
          rw [horphans, List.filter_append, List.filter_singleton]
          simp [halive]
        have hn := hs.nodup
        rw [← hf] at hn
        exact hn
      · intro o ho hle
        rw [horphans, List.mem_append, List.mem_singleton] at ho
        rcases ho with ho | rfl
        · exact hs.below o ho hle
        · exact absurd hle halive
    refine ⟨rfl, fun R hR ↦ ?_, fun q ↦ ?_, rfl⟩
    · exact
        { ready := hready
          vacant := hvacant
          owned := fun c hc ↦ ⟨fun hv ↦ (hR c hc).1 (hvacant _ hv), (hR c hc).2⟩
          new := fun c hc ↦ .inl hc
          frame := fun _ _ _ _ ↦ rfl
          stamps := fun _ _ ↦ rfl
          kept := fun _ _ _ ↦ rfl
          context := rfl
          alive := rfl
          list := .single (.inr ⟨id, hm⟩)
          count := Nat.le_refl _ }
    · rw [orphanCount, horphans, List.map_append, List.count_append, orphanCount, List.map_cons,
        List.map_nil, List.count_singleton]
      simp only [beq_iff_eq, @eq_comm _ id]
  · simp only [orphanPage, bind_apply, get_apply] at ht
    cases hp : s.engine.metaManager.push ⟨id, s.context.snapshotId⟩ with
    | some m => simp [hp] at ht
    | none =>
      simp only [hp, throw_apply, EStateM.Result.error.injEq] at ht
      intro n hn
      rw [← ht.1] at hn
      cases hn

/-! ### Allocation -/

/-- What an allocation does: an empty page of this snapshot, which was vacant. -/
structure Allocated (s : State Cells) (id : Nat) (s' : State Cells) : Prop where
  vacant : Vacant s id
  vacant' : ∀ q, Vacant s' q → Vacant s q ∧ q ≠ id
  page : s'.engine.pageManager.pages id = ⟨.dirty s.context.snapshotId, []⟩
  others : ∀ q, q ≠ id → s'.engine.pageManager.pages q = s.engine.pageManager.pages q
  ready : Ready s'
  orphanCount : ∀ q, orphanCount s' q + (if q = id then 1 else 0) =
    orphanCount s q + added s s' q
  context : s'.context = { s.context with pageCount := s'.context.pageCount }
  alive : s'.engine.aliveSnapshot = s.engine.aliveSnapshot
  list : ListStep s.engine.aliveSnapshot s.context.snapshotId s.engine.metaManager
    s'.engine.metaManager
  count : s.engine.pageManager.pageCount ≤ s'.engine.pageManager.pageCount
  grown : ∀ q, q ≠ id → q ≤ s'.engine.pageManager.pageCount → q ≤ s.engine.pageManager.pageCount
  stray : s'.strayPages = s.strayPages

/-- Only the new page has become dirty. -/
theorem Allocated.dirty {id : Nat} (h : Allocated s id s') {q : Nat} (hq : q ≠ id)
    (hd : dirty s' q = true) : dirty s q = true := by
  simp only [Layout.dirty, Bool.and_eq_true, decide_eq_true_eq] at hd ⊢
  rw [h.others q hq] at hd
  exact ⟨h.grown q hq hd.1, hd.2⟩

/-- A new page is one of this transaction. -/
theorem Allocated.old_page {id : Nat} (h : Allocated s id s') : old s' id = false := by
  rw [old_eq_false, stamp, h.page, h.context]
  rfl

/-- A new page has no cells. -/
theorem Allocated.cellAt_page {id : Nat} (h : Allocated s id s') (j : Nat) :
    cellAt s' (id, j) = none := by
  simp [cellAt, h.page, Cells.cell]

/-- The cells of other pages stay. -/
theorem Allocated.cellAt_of_ne {id : Nat} (h : Allocated s id s') {c : Loc} (hc : c.1 ≠ id) :
    cellAt s' c = cellAt s c := by
  simp only [cellAt, h.others _ hc]

/-- A page in use is not the new one. -/
theorem Allocated.ne {id q : Nat} (h : Allocated s id s') (hq : ¬ Vacant s q) : q ≠ id :=
  fun he ↦ hq (he ▸ h.vacant)

/-- An allocation touches no page in use. -/
theorem Allocated.evolves {id : Nat} {R R' : List Loc} (h : Allocated s id s')
    (hR : ∀ c ∈ R', c.1 = id ∨ c ∈ R ∧ ¬ Vacant s c.1 ∧ stamp s c.1 ≠ none) :
    Evolves s R s' R' where
  ready := h.ready
  vacant q hq := (h.vacant' q hq).1
  owned c hc := by
    rcases hR c hc with hid | ⟨-, hv, hst⟩
    · refine ⟨fun hv ↦ (h.vacant' _ hv).2 hid, ?_⟩
      rw [hid, old_eq_false.mp h.old_page]
      exact Option.some_ne_none _
    · refine ⟨fun hv' ↦ hv (h.vacant' _ hv').1, ?_⟩
      rw [stamp, h.others _ (h.ne hv)]
      exact hst
  new c hc := by
    rcases hR c hc with hid | ⟨hc, -⟩
    · exact .inr (.inl (hid ▸ h.vacant))
    · exact .inl hc
  frame c hv _ _ := h.cellAt_of_ne (h.ne hv)
  stamps q hv := by rw [stamp, h.others _ (h.ne hv), stamp]
  kept q hv _ := by rw [h.others _ (h.ne hv)]
  context := h.context
  alive := h.alive
  list := .single h.list
  count := h.count

private theorem allocated_of_pop {m : MetadataManager} {o : OrphanPage} (hs : Ready s)
    (hpop : s.engine.metaManager.pop s.engine.aliveSnapshot = (some o, m)) :
    Allocated s o.pageId (((s.setMeta m).setPages (s.engine.pageManager.setPage o.pageId
      ⟨.dirty s.context.snapshotId, []⟩)).setPageCount s.engine.pageManager.pageCount) := by
  obtain ⟨hq, hle, hrange, -, -⟩ := MetadataManager.orphanPages_pop_some hs.range hpop
  have horphans : orphans s = o :: m.orphanPages := hq
  have hnodup := hs.nodup
  rw [horphans, List.filter_cons_of_pos (by simpa using hle), List.map_cons, List.nodup_cons]
    at hnodup
  have hmem (o' : OrphanPage) (h : o' ∈ m.orphanPages) : o' ∈ orphans s := by
    rw [horphans]
    exact List.mem_cons_of_mem _ h
  have ho : o ∈ orphans s := by
    rw [horphans]
    exact List.mem_cons_self
  refine ⟨.inl ⟨o, ho, hle, rfl⟩, ?_, PageManager.pages_setPage_self _ _ _,
    fun q hq ↦ PageManager.pages_setPage_of_ne _ _ hq, ⟨hrange, hs.alive, hnodup.2, ?_⟩, ?_, rfl,
    rfl, .inl ⟨_, hpop⟩, Nat.le_refl _, fun _ _ ↦ id, rfl⟩
  · rintro q (⟨o', ho', hle', rfl⟩ | hv)
    · refine ⟨.inl ⟨o', hmem o' ho', hle', rfl⟩, fun heq ↦ hnodup.1 ?_⟩
      rw [← heq]
      exact List.mem_map_of_mem (List.mem_filter.mpr ⟨ho', decide_eq_true hle'⟩)
    · refine ⟨.inr hv, fun heq ↦ ?_⟩
      have := hs.below o ho hle
      rw [← heq] at this
      exact absurd (show s.engine.pageManager.pageCount < q from hv) (Nat.not_lt.mpr this)
  · exact fun o' ho' hle' ↦ hs.below o' (hmem o' ho') hle'
  · intro q
    have hadded : added s (((s.setMeta m).setPages (s.engine.pageManager.setPage o.pageId
        ⟨.dirty s.context.snapshotId, []⟩)).setPageCount s.engine.pageManager.pageCount) q = 0 :=
      if_neg fun hc ↦ absurd (hc.1.trans_le hc.2) (Nat.lt_irrefl _)
    have hcount : Layout.orphanCount s q =
        (m.orphanPages.map OrphanPage.pageId).count q + if q = o.pageId then 1 else 0 := by
      simp only [Layout.orphanCount, horphans, List.map_cons, List.count_cons, beq_iff_eq,
        @eq_comm _ q]
    rw [hadded, hcount]
    rfl

private theorem allocated_of_end {m : MetadataManager} (hs : Ready s)
    (hpop : s.engine.metaManager.pop s.engine.aliveSnapshot = (none, m)) {id : Nat}
    (hid : id = s.engine.pageManager.pageCount + 1) :
    Allocated s id (((s.setMeta m).setPages
      ({ s.engine.pageManager with pageCount := id }.setPage id
        ⟨.dirty s.context.snapshotId, []⟩)).setPageCount id) := by
  have hm : m = s.engine.metaManager := (MetadataManager.pop_none hs.range hpop).1
  have hlist : ListStep s.engine.aliveSnapshot s.context.snapshotId s.engine.metaManager m :=
    .inl ⟨_, hpop⟩
  subst hm
  refine ⟨.inr (by omega), ?_, PageManager.pages_setPage_self _ _ _,
    fun q hq ↦ PageManager.pages_setPage_of_ne _ _ hq, ⟨hs.range, hs.alive, hs.nodup, ?_⟩, ?_, rfl,
    rfl, hlist, ?_, ?_, rfl⟩
  · rintro q (⟨o, ho, hle, rfl⟩ | hv)
    · refine ⟨.inl ⟨o, ho, hle, rfl⟩, fun heq ↦ ?_⟩
      have := hs.below o ho hle
      omega
    · have hv : id < q := hv
      exact ⟨.inr (by omega), by omega⟩
  · intro o ho hle
    have hb := hs.below o ho hle
    show o.pageId ≤ id
    omega
  · intro q
    have hadded : added s (((s.setMeta s.engine.metaManager).setPages
        ({ s.engine.pageManager with pageCount := id }.setPage id
          ⟨.dirty s.context.snapshotId, []⟩)).setPageCount id) q = if q = id then 1 else 0 := by
      show (if s.engine.pageManager.pageCount < q ∧ q ≤ id then 1 else 0) = _
      congr 1
      rw [eq_iff_iff]
      omega
    rw [hadded]
    rfl
  · show s.engine.pageManager.pageCount ≤ id
    omega
  · intro q hq hle
    have hle : q ≤ id := hle
    omega

/-- `allocate_page` returns a new page. -/
theorem allocatePage_spec {Q : Nat → State Cells → Prop} (hs : Ready s)
    (h : ∀ id t, Allocated s id t → Q id t) :
    Ensures (allocatePage : EngineM Cells Nat) s Q (OnSplit P) := by
  refine .intro (fun id t ht ↦ h id t ?_) (fun e t ht ↦ ?_)
  · obtain ⟨o, m, hpop, rfl, -, -, rfl⟩ | ⟨m, hpop, hid, -, rfl⟩ := allocatePage_eq_ok ht
    · exact allocated_of_pop hs hpop
    · exact allocated_of_end hs hpop hid
  · intro n hn
    subst hn
    exact absurd ht (allocatePage_ne_pageSplit n)

end TrieDb.Layout

import TrieDb.Engine.Debug
import TrieDb.Meta.Queue

/-!
# What the consistency check of a database tells

`database_consistency_check` (`src/storage/debug.rs:505–596`) between two transactions. Every page
should be reachable from the committed root or listed as an orphan, and not both. The check compares
the pages with the ids below the page count, while the ids in use go up to the page count.
-/

namespace TrieDb.Database

open Base Meta Engine MetadataManager

variable {engine : StorageEngine Cells} {fuel : Nat}

/-- No write is in progress: no page is dirty, nothing is stored in the metadata since the last
commit, and the orphan list and the page count are made of page ids. -/
structure Quiet [SlotHash] (engine : StorageEngine Cells) : Prop where
  clean : ∀ id, 1 ≤ id → id ≤ engine.pageManager.pageCount →
    (engine.pageManager.pages id).state.isDirty = false
  settled : Settled engine.metaManager
  orphans : ∀ o ∈ engine.metaManager.orphanPages, isPageId o.pageId = true
  count : engine.pageManager.pageCount ≤ PageManager.maxPageId

/-- The committed root page. -/
def committedRoot (engine : StorageEngine Cells) : Option Nat :=
  TransactionContext.rootOfRaw engine.metaManager.active.slot.rootNodePageId

/-- A page that can be reached from the committed root. -/
def Reachable (engine : StorageEngine Cells) (id : Nat) : Prop :=
  ReachedFrom engine.pageManager (committedRoot engine) id

/-- A page in the orphan list. -/
def Orphaned (engine : StorageEngine Cells) (id : Nat) : Prop :=
  ∃ o ∈ engine.metaManager.orphanPages, o.pageId = id

/-- Every page of the file is either reachable or an orphan. -/
structure Accounted (engine : StorageEngine Cells) : Prop where
  covered : ∀ id, 1 ≤ id → id ≤ engine.pageManager.pageCount →
    Reachable engine id ∨ Orphaned engine id
  disjoint : ∀ id, 1 ≤ id → id ≤ engine.pageManager.pageCount →
    ¬ (Reachable engine id ∧ Orphaned engine id)

/-- The nodes below the committed root are a tree, on pages that are no newer than those above. -/
structure PageTree (engine : StorageEngine Cells) : Prop where
  live : ∀ r ∈ committedRoot engine, ∀ t, Below (Edge engine.pageManager) (r, 0) t →
    nodeAt engine.pageManager t ≠ none
  root : ∀ r ∈ committedRoot engine, ∀ s, Below (Edge engine.pageManager) (r, 0) s →
    ¬ Edge engine.pageManager s (r, 0)
  parent : ∀ r ∈ committedRoot engine, ∀ s s' t, Below (Edge engine.pageManager) (r, 0) s →
    Below (Edge engine.pageManager) (r, 0) s' → Edge engine.pageManager s t →
    Edge engine.pageManager s' t → s = s'
  snapshot : ∀ r ∈ committedRoot engine, ∀ s t, Below (Edge engine.pageManager) (r, 0) s →
    Edge engine.pageManager s t →
    snapshotAt engine.pageManager t.1 ≤ snapshotAt engine.pageManager s.1

private theorem PageTree.not_faulty (h : PageTree engine) :
    ¬ FaultyRoot engine.pageManager (committedRoot engine) := by
  rintro ⟨r, hr, hfault⟩
  cases hfault with
  | cycle ht hcycle => exact not_cycle_of_parent (h.root r hr) (h.parent r hr) ht hcycle
  | snapshot hs hst hlt => exact Nat.not_le_of_lt hlt (h.snapshot r hr _ _ hs hst)
  | dangling ht hdead => exact h.live r hr _ ht hdead

/-- Without faults, only pages of the file are reached. -/
private theorem Reachable.le_pageCount (h : ¬ FaultyRoot engine.pageManager (committedRoot engine))
    {id : Nat} (hid : Reachable engine id) : id ≤ engine.pageManager.pageCount := by
  obtain ⟨r, hr, cell, hbelow⟩ := hid
  by_contra hlt
  refine h ⟨r, hr, .dangling hbelow ?_⟩
  simp only [nodeAt, PageManager.get]
  rw [if_pos (Nat.lt_of_not_le hlt)]

/-! ### The check -/

private theorem comparePages_eq_ok {reachable orphaned : Finset Nat} {n : Nat}
    (hn : n ≤ PageManager.maxPageId) :
    (comparePages reachable orphaned n).1 = .ok () ↔
      (∀ id, id ∈ reachable → id ∉ orphaned) ∧
        ∀ id, 1 ≤ id → id < n → id ∈ reachable ∨ id ∈ orphaned := by
  have hids : ¬ (Finset.Ico 1 n).filter (isPageId · = false) ≠ ∅ := by
    rw [not_not, Finset.filter_eq_empty_iff]
    intro id hid
    rw [Finset.mem_Ico] at hid
    simp only [isPageId, decide_eq_false_iff_not, not_not]
    omega
  have hboth : orphaned ∩ reachable = ∅ ↔ ∀ id, id ∈ reachable → id ∉ orphaned := by
    rw [← Finset.disjoint_iff_inter_eq_empty, disjoint_comm, Finset.disjoint_left]
  have hmissing : Finset.Ico 1 n \ (reachable ∪ orphaned) = ∅ ↔
      ∀ id, 1 ≤ id → id < n → id ∈ reachable ∨ id ∈ orphaned := by
    simp [Finset.sdiff_eq_empty_iff_subset, Finset.subset_iff]
  rw [← hboth, ← hmissing, comparePages, if_neg hids]
  by_cases h₁ : orphaned ∩ reachable = ∅
  · by_cases h₂ : Finset.Ico 1 n \ (reachable ∪ orphaned) = ∅
    · simp [h₁, h₂]
    · simp [h₁, h₂]
  · simp [h₁]

section
variable [SlotHash]

private theorem Quiet.getDirtyPages_eq (h : Quiet engine) :
    getDirtyPages engine.pageManager = ∅ := by
  rw [getDirtyPages, Finset.filter_eq_empty_iff]
  rintro id hid ⟨-, hdirty⟩
  rw [Finset.mem_Icc] at hid
  rw [h.clean id hid.1 hid.2] at hdirty
  cases hdirty

/-- The file is opened with the committed root and the orphans of the open manager. -/
private theorem Quiet.fromFile (h : Quiet engine) :
    ∃ m, fromFile engine.metaManager.file = .ok m ∧
      m.active.slot.rootNodePageId = engine.metaManager.active.slot.rootNodePageId ∧
      m.orphanPages = engine.metaManager.orphanPages := by
  obtain ⟨i, hi, heq⟩ := h.settled.latestSlotIndex
  obtain ⟨m, hm, -, horphans, -⟩ := h.settled.reopen
  refine ⟨m, hm, ?_, horphans⟩
  simp only [MetadataManager.fromFile, hi] at hm
  cases hm
  rw [active_populateDirtySlot]
  change (engine.metaManager.file.slots i).slot.rootNodePageId = _
  rcases heq with heq | heq
  · rw [heq]
  · rw [heq, h.settled.dirty]
    rfl

/-- The check of a database on its own files. -/
def check (engine : StorageEngine Cells) (fuel : Nat) : Except CheckError Unit :=
  (databaseConsistencyCheck engine.pageManager fuel engine.metaManager.file engine).1

/-- The check succeeds exactly when the traversal meets no fault, no page is both reachable and an
orphan, and every page but the last is one of the two. -/
private theorem check_eq_ok (h : Quiet engine) (hfuel : (places engine.pageManager).card < fuel) :
    check engine fuel = .ok () ↔
      ¬ FaultyRoot engine.pageManager (committedRoot engine) ∧
      (∀ id, Reachable engine id → ¬ Orphaned engine id) ∧
      ∀ id, 1 ≤ id → id < engine.pageManager.pageCount →
        Reachable engine id ∨ Orphaned engine id := by
  obtain ⟨m, hopen, hroot, horphans⟩ := h.fromFile
  have hmem (id : Nat) : id ∈ (engine.metaManager.orphanPages.map OrphanPage.pageId).toFinset ↔
      Orphaned engine id := by
    simp [Orphaned]
  have hall : (engine.metaManager.orphanPages.map OrphanPage.pageId).all isPageId = true := by
    simpa using h.orphans
  simp only [check, databaseConsistencyCheck, hopen, hroot, horphans]
  obtain ⟨ids, hrun, hfault, hids⟩ | ⟨e, hrun, hfault, -⟩ :=
    @consistencyCheck_spec engine.pageManager fuel (committedRoot engine) hfuel
  · rw [committedRoot] at hrun
    simp only [hrun, hall, if_true, h.getDirtyPages_eq, Finset.union_empty]
    rw [comparePages_eq_ok h.count]
    simp only [hmem, hids, hfault, not_false_eq_true, true_and]
    rfl
  · rw [committedRoot] at hrun
    simp [hrun, hfault]

/-- What a check should tell. -/
structure Telling (engine : StorageEngine Cells) (fuel : Nat) : Prop where
  sound : check engine fuel = .ok () → Accounted engine
  complete : Accounted engine → PageTree engine → check engine fuel = .ok ()

end

/-- The last page is accounted for, or the check fails for another reason. -/
inductive Revealed (engine : StorageEngine Cells) : Prop
  | empty (h : engine.pageManager.pageCount = 0)
  | last (h : Reachable engine engine.pageManager.pageCount ∨
      Orphaned engine engine.pageManager.pageCount)
  | faulty (h : FaultyRoot engine.pageManager (committedRoot engine))
  | leaked (id : Nat) (hpos : 1 ≤ id) (hlt : id < engine.pageManager.pageCount)
      (h : ¬ (Reachable engine id ∨ Orphaned engine id))
  | both (id : Nat) (h : Reachable engine id ∧ Orphaned engine id)

/-- Between transactions the check tells whether every page is accounted for exactly when the last
page is, or something else is wrong. -/
theorem check_telling_iff [SlotHash] (engine : StorageEngine Cells) (fuel : Nat) (h : Quiet engine)
    (hfuel : (places engine.pageManager).card < fuel) :
    Telling engine fuel ↔ Revealed engine := by
  have hok := check_eq_ok h hfuel
  constructor
  · intro htelling
    by_contra hrevealed
    have hcheck : check engine fuel = .ok () := by
      refine hok.mpr ⟨fun hf ↦ hrevealed (.faulty hf), fun id hr ho ↦ hrevealed (.both id ⟨hr, ho⟩),
        fun id hpos hlt ↦ ?_⟩
      by_contra hleak
      exact hrevealed (.leaked id hpos hlt hleak)
    have hpos : 1 ≤ engine.pageManager.pageCount :=
      Nat.one_le_iff_ne_zero.mpr fun h0 ↦ hrevealed (.empty h0)
    exact hrevealed (.last ((htelling.sound hcheck).covered _ hpos (Nat.le_refl _)))
  · intro hrevealed
    constructor
    · intro hcheck
      obtain ⟨hfault, hdisjoint, hcovered⟩ := hok.mp hcheck
      refine ⟨fun id hpos hle ↦ ?_, fun id _ _ hboth ↦ hdisjoint id hboth.1 hboth.2⟩
      rcases Nat.lt_or_eq_of_le hle with hlt | rfl
      · exact hcovered id hpos hlt
      · cases hrevealed with
        | empty h0 => omega
        | last hlast => exact hlast
        | faulty hf => exact absurd hf hfault
        | leaked id hpos hlt hleak => exact absurd (hcovered id hpos hlt) hleak
        | both id hboth => exact absurd hboth.2 (hdisjoint id hboth.1)
    · intro haccounted htree
      refine hok.mpr ⟨htree.not_faulty, fun id hr ho ↦ ?_, fun id hpos hlt ↦
        haccounted.covered id hpos hlt.le⟩
      have hpos : 1 ≤ id := by
        obtain ⟨o, ho, rfl⟩ := ho
        have := h.orphans o ho
        simp only [isPageId, decide_eq_true_eq] at this
        exact this.1
      exact haccounted.disjoint id hpos (hr.le_pageCount htree.not_faulty) ⟨hr, ho⟩

/-- Nothing is stored in the metadata after a commit. -/
private theorem settled_commitMetadata [SlotHash] {m : MetadataManager}
    {committed : MetadataSlot × List OrphanPage} (h : Idle ⟨m, committed⟩)
    (ctx : TransactionContext) : Settled (commitMetadata m ctx) := by
  have hidle : Idle ⟨m.modifyDirty ctx.updateMetadata, committed⟩ :=
    h.modifyDirty (fun _ ↦ rfl) fun _ ↦ rfl
  exact hidle.settled_commit

/-- A database with one account on page 1 and the given number of pages. -/
def oneAccount [SlotHash] (pageCount : Nat) : StorageEngine Cells where
  pageManager := {
    pages := fun id ↦
      if id = 1 then
        ⟨.occupied 1, [some ⟨List.replicate 64 0, .accountLeaf 1 0 B256.zero none⟩]⟩
      else ⟨.occupied 1, []⟩
    pageCount := pageCount
    capacity := 2 }
  metaManager := commitMetadata opened ⟨1, B256.zero, some 1, pageCount, fun _ ↦ none⟩
  aliveSnapshot := 1

section
variable [SlotHash]

private theorem quiet_oneAccount : Quiet (oneAccount 2) where
  clean id _ _ := by
    simp only [oneAccount]
    split <;> rfl
  settled := settled_commitMetadata settled_opened.idle _
  orphans o ho := by
    change o ∈ [] at ho
    cases ho
  count := show 2 ≤ PageManager.maxPageId by decide

private theorem places_oneAccount : (places (oneAccount 2).pageManager).card = 1 := rfl

private theorem reachable_oneAccount (id : Nat) : Reachable (oneAccount 2) id ↔ id = 1 := by
  have hroot : committedRoot (oneAccount 2) = some 1 := rfl
  have hcard := places_oneAccount
  have hrun : consistencyCheck (oneAccount 2).pageManager 2 (some 1) = .ok {1} := rfl
  obtain ⟨ids, hok, -, hids⟩ | ⟨e, herror, -⟩ :=
    @consistencyCheck_spec (oneAccount 2).pageManager 2 (some 1) (by omega)
  · rw [hrun] at hok
    cases hok
    rw [Reachable, hroot, ← hids, Finset.mem_singleton]
  · rw [hrun] at herror
    cases herror

end

/-- A branch on page 1 with a leaf beside it and one on page 2; page 3 is an orphan. -/
def twoAccounts : StorageEngine Cells where
  pageManager := {
    pages := fun id ↦
      let leaf : Node := ⟨List.replicate 63 0, .accountLeaf 1 0 B256.zero none⟩
      let branch : Node := ⟨[], .branch fun i ↦
        if i = 0 then some ⟨.cell 1, .hash B256.zero⟩
        else if i = 1 then some ⟨.page 2, .hash B256.zero⟩
        else none⟩
      if id = 1 then ⟨.occupied 1, [some branch, some leaf]⟩
      else if id = 2 then ⟨.occupied 1, [some leaf]⟩
      else ⟨.occupied 1, []⟩
    pageCount := 3
    capacity := 3 }
  metaManager :=
    letI := fxSlotHash
    commitMetadata ((opened.push ⟨3, 1⟩).getD opened) ⟨1, B256.zero, some 1, 3, fun _ ↦ none⟩
  aliveSnapshot := 1

private theorem orphanPages_twoAccounts : twoAccounts.metaManager.orphanPages = [⟨3, 1⟩] := by
  decide +kernel

private theorem settled_twoAccounts :
    letI := fxSlotHash
    Settled twoAccounts.metaManager := by
  let _ := fxSlotHash
  have hpush : opened.push ⟨3, 1⟩ = some ((opened.push ⟨3, 1⟩).getD opened) :=
    (Option.getD_of_ne_none (by decide +kernel) _).symm
  exact settled_commitMetadata (settled_opened.idle.push hpush) _

private theorem quiet_twoAccounts :
    letI := fxSlotHash
    Quiet twoAccounts := by
  let _ := fxSlotHash
  refine ⟨fun id _ _ ↦ ?_, settled_twoAccounts, fun o ho ↦ ?_, by decide⟩
  · simp only [twoAccounts]
    split_ifs <;> rfl
  · rw [orphanPages_twoAccounts, List.mem_singleton] at ho
    rw [ho]
    decide

/-- With an orphan as the last page the check succeeds, and every page is accounted for. -/
theorem check_telling_two_accounts :
    letI := fxSlotHash
    Telling twoAccounts 4 ∧ check twoAccounts 4 = .ok () ∧ Reachable twoAccounts 2 ∧
      Orphaned twoAccounts 3 ∧ Accounted twoAccounts := by
  let _ := fxSlotHash
  have hcard : (places twoAccounts.pageManager).card = 3 := by decide +kernel
  have hlast : Orphaned twoAccounts 3 := by
    refine ⟨⟨3, 1⟩, ?_, rfl⟩
    rw [orphanPages_twoAccounts]
    exact List.mem_singleton.mpr rfl
  have htelling : Telling twoAccounts 4 :=
    (check_telling_iff twoAccounts 4 quiet_twoAccounts (by omega)).mpr (.last (.inr hlast))
  have hcheck : check twoAccounts 4 = .ok () := by decide +kernel
  have haccounted := htelling.sound hcheck
  refine ⟨htelling, hcheck, (haccounted.covered 2 (by decide) (by decide)).resolve_right ?_, hlast,
    haccounted⟩
  rintro ⟨o, ho, hid⟩
  rw [orphanPages_twoAccounts, List.mem_singleton] at ho
  rw [ho] at hid
  cases hid

/-- A last page that nothing points to is overlooked. -/
theorem check_overlooks_last_page :
    letI := fxSlotHash
    Quiet (oneAccount 2) ∧ (places (oneAccount 2).pageManager).card < 2 ∧
      check (oneAccount 2) 2 = .ok () ∧ ¬ Accounted (oneAccount 2) := by
  let _ := fxSlotHash
  have hcard := places_oneAccount
  have horphans (id : Nat) : ¬ Orphaned (oneAccount 2) id := by
    rintro ⟨o, ho, -⟩
    change o ∈ [] at ho
    cases ho
  refine ⟨quiet_oneAccount, by omega, rfl, fun h ↦ ?_⟩
  rcases h.covered 2 (by omega) (Nat.le_refl 2) with hr | ho
  · have := (reachable_oneAccount 2).mp hr
    omega
  · exact horphans 2 ho

end TrieDb.Database

import Mathlib.Data.List.Nodup
import Mathlib.Order.Nat
import TrieDb.Base.Runs
import TrieDb.Engine.PageOps
import TrieDb.Meta.Crash

/-!
# Stopping and reopening a writer

A process that writes page by page and may stop at any moment: while it holds pages as `PageMut`,
between two operations, or within an operation on the metadata. The stores made so far survive;
reopening takes the metadata from `from_file` (`src/meta/mod.rs:388–411`) and the page count from
the recovered slot (`src/database.rs:130–173`), and leaves the state words of the pages as they
are (`src/page/manager/mmap.rs:52–108`).
-/

namespace TrieDb.Database

open Meta Base Engine

variable {γ : Type}

/-- How far the write transaction of a process is. -/
inductive Stage where
  | idle
  | begun (ctx : TransactionContext)
  | working (ctx : TransactionContext)
  | updated (ctx : TransactionContext)

/-- A process: its engine, the last committed metadata, the write transaction and the pages it
holds as `PageMut`. -/
structure Process (γ : Type) where
  engine : StorageEngine γ
  committed : MetadataSlot × List OrphanPage
  stage : Stage
  held : List Nat

namespace Process

/-- The metadata with its last committed state. -/
def point (p : Process γ) : Point := ⟨p.engine.metaManager, p.committed⟩

/-- The page ids of the orphan list. -/
def orphanIds (p : Process γ) : List Nat := p.engine.metaManager.orphanPages.map OrphanPage.pageId

/-- Whether a page's dirty bit is set. -/
def dirty (p : Process γ) (id : Nat) : Bool := (p.engine.pageManager.pages id).state.isDirty

/-- The context in which pages are allocated. -/
def writer? (p : Process γ) : Option TransactionContext :=
  match p.stage with
  | .begun ctx => some ctx
  | .working ctx => some ctx
  | _ => none

/-- The process that reopens the files. -/
def reopened (p : Process γ) (m : MetadataManager) : Process γ where
  engine := ⟨p.engine.pageManager.reopen m.active.slot.pageCount, m, m.active.slot.snapshotId⟩
  committed := (m.active.slot, m.orphanPages)
  stage := .idle
  held := []

end Process

/-- The steps whose circumstances matter below. -/
inductive Move where
  | internal
  | acquire (id : Nat)
  | orphanPage (id : Nat)
  | stop (op : Op)

/-- One step of a process. An allocation includes the stores to the new page, which a `write`
may leave in any intermediate state. -/
inductive Proceeds [SlotHash] [Inhabited γ] : Process γ → Move → Process γ → Prop
  -- open readers may hold the recycling threshold below the last committed snapshot
  | beginRw {p : Process γ} {alive : Nat} (h : p.stage = .idle)
      (ha : alive ≤ p.engine.metaManager.active.slot.snapshotId) :
      Proceeds p .internal
        { p with
          engine := { p.engine with aliveSnapshot := alive }
          stage := .begun (.new p.engine.metaManager.dirty.slot) }
  | allocatePage {p : Process γ} {ctx id s} (h : p.writer? = some ctx)
      (hs : Engine.allocatePage (.new p.engine ctx) = .ok id s) :
      Proceeds p .internal
        { p with engine := s.engine, stage := .working s.context, held := id :: p.held }
  -- a page of this snapshot is written in place
  | acquire {p : Process γ} {ctx id page s} (h : p.writer? = some ctx)
      (hp : getPage id (.new p.engine ctx) = .ok page (.new p.engine ctx))
      (hid : page.state.snapshotId = some ctx.snapshotId)
      (hs : getMutPage id (.new p.engine ctx) = .ok () s) :
      Proceeds p (.acquire id)
        { p with engine := s.engine, stage := .working s.context, held := id :: p.held }
  | write {p : Process γ} {ctx id s} (contents : γ) (h : p.stage = .working ctx)
      (hid : id ∈ p.held) (hs : writeContents id contents (.new p.engine ctx) = .ok () s) :
      Proceeds p .internal { p with engine := s.engine }
  | drop {p : Process γ} {ctx id s} (h : p.stage = .working ctx) (hid : id ∈ p.held)
      (hs : dropPage id (.new p.engine ctx) = .ok () s) :
      Proceeds p .internal { p with engine := s.engine, held := p.held.erase id }
  | orphanPage {p : Process γ} {ctx id s} (h : p.writer? = some ctx) (hid : id ≤ ctx.pageCount)
      (hs : Engine.orphanPage id (.new p.engine ctx) = .ok () s) :
      Proceeds p (.orphanPage id) { p with engine := s.engine, stage := .working s.context }
  | setRoot {p : Process γ} {ctx} (hash : B256) (root : Option Nat) (h : p.writer? = some ctx) :
      Proceeds p .internal
        { p with
          stage := .working { ctx with rootNodeHash := hash, rootNodePageId := root } }
  | updateMetadata {p : Process γ} {ctx} (h : p.writer? = some ctx) (hh : p.held = []) :
      Proceeds p .internal
        { p with
          engine := { p.engine with
            metaManager := p.engine.metaManager.modifyDirty ctx.updateMetadata }
          stage := .updated ctx }
  | commit {p : Process γ} {ctx} (h : p.stage = .updated ctx) :
      Proceeds p .internal
        { p with
          engine := { p.engine with metaManager := p.engine.metaManager.commit }
          committed := (start p.engine.metaManager.commit).committed
          stage := .idle }
  | rollback {p : Process γ} {ctx} (h : p.stage = .begun ctx) :
      Proceeds p .internal { p with stage := .idle }
  -- the process stops after some stores of an operation on the metadata
  | stop {p : Process γ} {op : Op} {n : Nat} {m : MetadataManager}
      (ho : op.Complete p.engine.metaManager)
      (hc : ∀ fields entries, op = .commit fields entries → ∃ ctx, p.stage = .updated ctx)
      (hm : MetadataManager.fromFile
        (execAll p.point ((op.stores p.engine.metaManager).take n)).manager.file = .ok m) :
      Proceeds p (.stop op) (p.reopened m)

/-- The process never stops while a page of the committed orphan list is dirty, and takes or
orphans no page that is already in the orphan list. The slot hash tells the slot contents around
a stop apart. -/
def Orderly [SlotHash] (p : Process γ) : Move → Prop
  | .internal => True
  | .acquire id => id ∉ p.orphanIds
  | .orphanPage id => id ∉ p.orphanIds
  | .stop op =>
    CollisionFree (contents p.point (op.stores p.engine.metaManager)) ∧
      ∀ o ∈ p.committed.2, p.dirty o.pageId = false

/-- A process that has created a new database. -/
structure Process.Fresh [SlotHash] (p : Process γ) : Prop where
  settled : Settled p.engine.metaManager
  committed : p.committed = (start p.engine.metaManager).committed
  noOrphans : p.engine.metaManager.orphanPages = []
  pageCount : p.engine.metaManager.active.slot.pageCount = 0
  pages : p.engine.pageManager.pageCount = 0
  unused : ∀ id, (p.engine.pageManager.pages id).state = .unused
  alive : p.engine.aliveSnapshot = p.engine.metaManager.active.slot.snapshotId
  stage : p.stage = .idle
  held : p.held = []

/-! ### The orphan list -/

/-- The orphan list: no page is listed twice, all are below a limit, and what is old enough to be
recycled was in the committed list. -/
structure ListSound [SlotHash] (m : MetadataManager) (c : MetadataSlot × List OrphanPage)
    (limit : Nat) : Prop where
  idle : Idle ⟨m, c⟩
  nextId : m.dirty.slot.snapshotId = c.1.snapshotId + 1
  nodup : (m.orphanPages.map OrphanPage.pageId).Nodup
  old : ∀ o ∈ m.orphanPages, o.orphanedAt ≤ c.1.snapshotId → o ∈ c.2
  below : ∀ o ∈ m.orphanPages, o.pageId ≤ limit
  committedNodup : (c.2.map OrphanPage.pageId).Nodup
  committedBelow : ∀ o ∈ c.2, o.pageId ≤ c.1.pageCount

section
variable [SlotHash] {m m' : MetadataManager} {c : MetadataSlot × List OrphanPage} {limit : Nat}

/-- Recycling takes a page of the committed list off the list. -/
private theorem ListSound.pop {t : Nat} {o : OrphanPage} (h : ListSound m c limit)
    (ht : t ≤ c.1.snapshotId) (hm : m.pop t = (some o, m')) :
    ListSound m' c limit ∧ o ∈ c.2 ∧ m.orphanPages = o :: m'.orphanPages ∧
      o.pageId ∉ m'.orphanPages.map OrphanPage.pageId ∧ o.pageId ≤ limit ∧
      o.orphanedAt ≤ c.1.snapshotId := by
  obtain ⟨hq, hle, -, -, hid⟩ := MetadataManager.orphanPages_pop_some h.idle.range hm
  have hnodup := h.nodup
  rw [hq, List.map_cons, List.nodup_cons] at hnodup
  have hmem : o ∈ m.orphanPages := hq ▸ List.mem_cons_self
  have hsub (o' : OrphanPage) (ho' : o' ∈ m'.orphanPages) : o' ∈ m.orphanPages :=
    hq ▸ List.mem_cons_of_mem _ ho'
  refine ⟨⟨h.idle.pop hm, hid.trans h.nextId, hnodup.2, ?_, ?_, h.committedNodup,
    h.committedBelow⟩, h.old o hmem (hle.trans ht), hq, hnodup.1, h.below o hmem, hle.trans ht⟩
  · exact fun o' ho' ↦ h.old o' (hsub o' ho')
  · exact fun o' ho' ↦ h.below o' (hsub o' ho')

/-- Orphaning a page that is not listed appends it. -/
private theorem ListSound.push {id : Nat} (h : ListSound m c limit)
    (hm : m.push ⟨id, c.1.snapshotId + 1⟩ = some m')
    (hid : id ∉ m.orphanPages.map OrphanPage.pageId) (hl : id ≤ limit) :
    ListSound m' c limit ∧ m'.orphanPages = m.orphanPages ++ [⟨id, c.1.snapshotId + 1⟩] := by
  obtain ⟨hq, -, -, hs⟩ := MetadataManager.orphanPages_push h.idle.range hm
  refine ⟨⟨h.idle.push hm, hs.trans h.nextId, ?_, ?_, ?_, h.committedNodup, h.committedBelow⟩, hq⟩
  · rw [hq, List.map_append, List.nodup_append]
    refine ⟨h.nodup, List.nodup_singleton _, ?_⟩
    rintro a ha b hb rfl
    rw [List.map_cons, List.map_nil, List.mem_singleton] at hb
    subst hb
    exact hid ha
  · intro o ho hle
    rw [hq, List.mem_append, List.mem_singleton] at ho
    rcases ho with ho | rfl
    · exact h.old o ho hle
    · simp only at hle
      omega
  · intro o ho
    rw [hq, List.mem_append, List.mem_singleton] at ho
    rcases ho with ho | rfl
    · exact h.below o ho
    · exact hl

private theorem ListSound.mono {limit' : Nat} (h : ListSound m c limit) (hl : limit ≤ limit') :
    ListSound m c limit' :=
  { h with below := fun o ho ↦ (h.below o ho).trans hl }

/-- A settled manager has a sound list, if its own list is sound. -/
private theorem listSound_of_settled (h : Settled m)
    (hn : (m.orphanPages.map OrphanPage.pageId).Nodup)
    (hb : ∀ o ∈ m.orphanPages, o.pageId ≤ m.active.slot.pageCount) :
    ListSound m (m.active.slot, m.orphanPages) m.active.slot.pageCount := by
  have hstart : (start m).committed = (m.active.slot, m.orphanPages) := by
    simp only [start, MetadataManager.orphanPages, h.dirty]
    rfl
  have hidle := h.idle
  refine ⟨?_, ?_, hn, fun o ho _ ↦ ho, hb, hn, hb⟩
  · rw [← hstart]
    exact hidle
  · rw [h.dirty]
    rfl

end

/-! ### The pages -/

/-- The pages: only held pages are dirty, and a held page was fresh or recycled, because every
other page carries a committed snapshot. -/
structure PagesSound (pm : PageManager γ) (c : MetadataSlot × List OrphanPage) (held : List Nat) :
    Prop where
  count : c.1.pageCount ≤ pm.pageCount
  clean : ∀ id ≤ pm.pageCount, (pm.pages id).state.isDirty = true → id ∈ held
  heldNew : ∀ id ∈ held, id ≤ c.1.pageCount → ∃ o ∈ c.2, o.pageId = id
  stamps : ∀ id ≤ c.1.pageCount, (∀ o ∈ c.2, o.pageId ≠ id) →
    ∀ s, (pm.pages id).state.snapshotId = some s → s ≤ c.1.snapshotId
  stampsAll : ∀ id ≤ pm.pageCount, ∀ s, (pm.pages id).state.snapshotId = some s →
    s ≤ c.1.snapshotId + 1

section
variable {pm : PageManager γ} {c : MetadataSlot × List OrphanPage} {held : List Nat}

/-- Acquiring a page that was fresh or recycled. -/
private theorem PagesSound.hold (h : PagesSound pm c held) {id : Nat} (contents : γ)
    (hid : id ≤ c.1.pageCount → ∃ o ∈ c.2, o.pageId = id) :
    PagesSound (pm.setPage id ⟨.dirty (c.1.snapshotId + 1), contents⟩) c (id :: held) := by
  refine ⟨h.count, ?_, ?_, ?_, ?_⟩
  · intro i hi hd
    by_cases he : i = id
    · exact he ▸ List.mem_cons_self
    · rw [PageManager.pages_setPage_of_ne _ _ he] at hd
      exact List.mem_cons_of_mem _ (h.clean i hi hd)
  · intro i hi hle
    rcases List.mem_cons.mp hi with rfl | hi
    · exact hid hle
    · exact h.heldNew i hi hle
  · intro i hi hn s hs
    have he : i ≠ id := by
      rintro rfl
      obtain ⟨o, ho, heq⟩ := hid hi
      exact hn o ho heq
    rw [PageManager.pages_setPage_of_ne _ _ he] at hs
    exact h.stamps i hi hn s hs
  · intro i hi s hs
    by_cases he : i = id
    · subst he
      rw [PageManager.pages_setPage_self, PageState.snapshotId, Option.some.injEq] at hs
      omega
    · rw [PageManager.pages_setPage_of_ne _ _ he] at hs
      exact h.stampsAll i hi s hs

/-- Growing the file by one page. -/
private theorem PagesSound.grow (h : PagesSound pm c held) (contents : γ) :
    PagesSound ({ pm with pageCount := pm.pageCount + 1 }.setPage (pm.pageCount + 1)
      ⟨.dirty (c.1.snapshotId + 1), contents⟩) c ((pm.pageCount + 1) :: held) := by
  have hcount := h.count
  refine ⟨by simp only [PageManager.pageCount_setPage]; omega, ?_, ?_, ?_, ?_⟩
  · intro i hi hd
    by_cases he : i = pm.pageCount + 1
    · exact he ▸ List.mem_cons_self
    · rw [PageManager.pages_setPage_of_ne _ _ he] at hd
      simp only [PageManager.pageCount_setPage] at hi
      exact List.mem_cons_of_mem _ (h.clean i (by omega) hd)
  · intro i hi hle
    rcases List.mem_cons.mp hi with rfl | hi
    · omega
    · exact h.heldNew i hi hle
  · intro i hi hn s hs
    rw [PageManager.pages_setPage_of_ne _ _ (by omega)] at hs
    exact h.stamps i hi hn s hs
  · intro i hi s hs
    by_cases he : i = pm.pageCount + 1
    · subst he
      rw [PageManager.pages_setPage_self, PageState.snapshotId, Option.some.injEq] at hs
      omega
    · rw [PageManager.pages_setPage_of_ne _ _ he] at hs
      simp only [PageManager.pageCount_setPage] at hi
      exact h.stampsAll i (by omega) s hs

/-- Writing to a held page. -/
private theorem PagesSound.write (h : PagesSound pm c held) (id : Nat) (contents : γ) :
    PagesSound (pm.setPage id { pm.pages id with contents := contents }) c held := by
  have hstate (i : Nat) :
      ((pm.setPage id { pm.pages id with contents := contents }).pages i).state =
      (pm.pages i).state := by
    by_cases he : i = id
    · subst he
      rw [PageManager.pages_setPage_self]
    · rw [PageManager.pages_setPage_of_ne _ _ he]
  refine ⟨h.count, ?_, h.heldNew, ?_, ?_⟩ <;> simp only [hstate]
  · exact h.clean
  · exact h.stamps
  · exact h.stampsAll

/-- Dropping a held page. -/
private theorem PagesSound.drop (h : PagesSound pm c held) (id : Nat) :
    PagesSound (pm.drop id) c (held.erase id) := by
  have hstamp (i s : Nat) (hs : ((pm.drop id).pages i).state.snapshotId = some s) :
      (pm.pages i).state.snapshotId = some s := by
    by_cases he : i = id
    · subst he
      rw [PageManager.drop, PageManager.pages_setPage_self] at hs
      cases hst : (pm.pages i).state with
      | dirty n =>
        rw [hst, PageState.unsetDirty] at hs
        split at hs
        · cases hs
        · exact hs
      | _ =>
        rw [hst] at hs
        exact hs
    · rwa [PageManager.drop, PageManager.pages_setPage_of_ne _ _ he] at hs
  refine ⟨h.count, ?_, ?_, ?_, ?_⟩
  · intro i hi hd
    by_cases he : i = id
    · subst he
      simp [PageManager.drop] at hd
    · rw [PageManager.drop, PageManager.pages_setPage_of_ne _ _ he] at hd
      exact (List.mem_erase_of_ne he).mpr (h.clean i hi hd)
  · exact fun i hi ↦ h.heldNew i (List.mem_of_mem_erase hi)
  · exact fun i hi hn s hs ↦ h.stamps i hi hn s (hstamp i s hs)
  · exact fun i hi s hs ↦ h.stampsAll i hi s (hstamp i s hs)

/-- Once nothing is dirty, every page of the file may belong to the next committed state. -/
private theorem PagesSound.settle (h : PagesSound pm c []) {c' : MetadataSlot × List OrphanPage}
    (hid : c'.1.snapshotId = c.1.snapshotId + 1) (hc : c'.1.pageCount ≤ pm.pageCount) :
    PagesSound pm c' [] := by
  refine ⟨hc, h.clean, by simp, ?_, ?_⟩
  · exact fun i hi _ s hs ↦ hid ▸ h.stampsAll i (hi.trans hc) s hs
  · intro i hi s hs
    have := h.stampsAll i hi s hs
    omega

/-- Reopening where no page of the recovered list is dirty. -/
private theorem PagesSound.reopen (h : PagesSound pm c held)
    (hd : ∀ o ∈ c.2, (pm.pages o.pageId).state.isDirty = false) :
    PagesSound (pm.reopen c.1.pageCount) c [] := by
  refine ⟨Nat.le_refl _, ?_, by simp, h.stamps, ?_⟩
  · intro i hi hdirty
    obtain ⟨o, ho, rfl⟩ := h.heldNew i (h.clean i (hi.trans h.count) hdirty) hi
    rw [PageManager.reopen, hd o ho] at hdirty
    cases hdirty
  · exact fun i hi s hs ↦ h.stampsAll i (hi.trans h.count) s hs

end

/-! ### The process -/

/-- The context of the transaction, if one is under way. -/
def Stage.context? : Stage → Option TransactionContext
  | .idle => none
  | .begun ctx => some ctx
  | .working ctx => some ctx
  | .updated ctx => some ctx

/-- The page count of the process's own state. -/
def Process.limit (p : Process γ) : Nat :=
  match p.stage.context? with
  | some ctx => ctx.pageCount
  | none => p.committed.1.pageCount

/-- What the stages guarantee: pages are held and the page count grows only while working, and
the dirty slot gets the transaction's page count before the commit. -/
def Process.StageSound (p : Process γ) : Prop :=
  match p.stage with
  | .idle => p.held = [] ∧ p.engine.metaManager.dirty.slot.pageCount = p.committed.1.pageCount
  | .begun ctx => p.held = [] ∧ ctx.pageCount = p.committed.1.pageCount ∧
      p.engine.metaManager.dirty.slot.pageCount = p.committed.1.pageCount
  | .working _ => True
  | .updated ctx => p.held = [] ∧ p.engine.metaManager.dirty.slot.pageCount = ctx.pageCount

/-- The invariant of a process. -/
structure Process.Sound [SlotHash] (p : Process γ) : Prop where
  list : ListSound p.engine.metaManager p.committed p.limit
  pages : PagesSound p.engine.pageManager p.committed p.held
  heldFree : ∀ o ∈ p.engine.metaManager.orphanPages, o.orphanedAt ≤ p.committed.1.snapshotId →
    o.pageId ∉ p.held
  alive : p.engine.aliveSnapshot ≤ p.committed.1.snapshotId
  limit_le : p.committed.1.pageCount ≤ p.limit ∧ p.limit ≤ p.engine.pageManager.pageCount
  context : ∀ ctx, p.stage.context? = some ctx → ctx.snapshotId = p.committed.1.snapshotId + 1
  stage : p.StageSound

namespace Process

variable [SlotHash]

private theorem start_committed {m : MetadataManager} (h : Settled m) :
    (start m).committed = (m.active.slot, m.orphanPages) := by
  simp only [start, MetadataManager.orphanPages, h.dirty]
  rfl

/-- A new database is sound. -/
private theorem Fresh.sound {p : Process γ} (h : p.Fresh) : p.Sound := by
  have hc : p.committed = (p.engine.metaManager.active.slot, p.engine.metaManager.orphanPages) :=
    h.committed.trans (start_committed h.settled)
  have hlimit : p.limit = p.engine.metaManager.active.slot.pageCount := by
    simp only [limit, h.stage, Stage.context?, hc]
  refine ⟨?_, ?_, ?_, ?_, ?_, ?_, ?_⟩
  · rw [hc, hlimit]
    exact listSound_of_settled h.settled (by simp [h.noOrphans]) (by simp [h.noOrphans])
  · refine ⟨?_, ?_, ?_, ?_, ?_⟩
    · rw [hc, h.pages]
      exact Nat.le_of_eq h.pageCount
    all_goals simp [h.unused, h.held, PageState.isDirty, PageState.snapshotId]
  · simp [h.noOrphans]
  · rw [h.alive, hc]
  · rw [hlimit, hc, h.pages]
    exact ⟨Nat.le_refl _, Nat.le_of_eq h.pageCount⟩
  · simp [h.stage, Stage.context?]
  · simp only [StageSound, h.stage, hc, h.settled.dirty]
    exact ⟨h.held, rfl⟩

omit [SlotHash] in
private theorem context?_of_writer? {p : Process γ} {ctx : TransactionContext}
    (h : p.writer? = some ctx) : p.stage.context? = some ctx := by
  simp only [writer?] at h
  split at h
  · next hs => rw [hs]; exact h
  · next hs => rw [hs]; exact h
  · cases h

omit [SlotHash] in
private theorem limit_of_writer? {p : Process γ} {ctx : TransactionContext}
    (h : p.writer? = some ctx) : p.limit = ctx.pageCount := by
  simp only [limit, context?_of_writer? h]

/-- What a sound process knows about the writer's context. -/
private theorem Sound.writer {p : Process γ} (h : p.Sound) {ctx : TransactionContext}
    (hw : p.writer? = some ctx) :
    ctx.snapshotId = p.committed.1.snapshotId + 1 ∧
      ListSound p.engine.metaManager p.committed ctx.pageCount ∧
      p.committed.1.pageCount ≤ ctx.pageCount ∧
      ctx.pageCount ≤ p.engine.pageManager.pageCount := by
  rw [← limit_of_writer? hw]
  exact ⟨h.context ctx (context?_of_writer? hw), h.list, h.limit_le⟩

/-- An allocation by a sound process. -/
private theorem Sound.allocatePage [Inhabited γ] {p : Process γ} (h : p.Sound)
    {ctx : TransactionContext} {id : Nat} {s : State γ} (hw : p.writer? = some ctx)
    (hs : Engine.allocatePage (.new p.engine ctx) = .ok id s) :
    Sound { p with engine := s.engine, stage := .working s.context, held := id :: p.held } := by
  obtain ⟨hid, hlist, -, hlp⟩ := h.writer hw
  obtain ⟨o, m, hpop, rfl, -, -, rfl⟩ | ⟨m, hpop, rfl, -, rfl⟩ := allocatePage_eq_ok hs
  · obtain ⟨hl, hmem, hq, hnot, -⟩ := hlist.pop h.alive hpop
    refine ⟨hl.mono hlp, ?_, ?_, h.alive, ⟨h.pages.count, Nat.le_refl _⟩, ?_, trivial⟩
    · have := h.pages.hold default (fun _ ↦ ⟨o, hmem, rfl⟩)
      rwa [← hid] at this
    · intro o' ho' hold hheld
      rcases List.mem_cons.mp hheld with heq | hheld
      · exact hnot (heq ▸ List.mem_map_of_mem ho')
      · exact h.heldFree o' (hq ▸ List.mem_cons_of_mem _ ho') hold hheld
    · rintro _ ⟨⟩
      exact hid
  · obtain ⟨rfl, -⟩ := MetadataManager.pop_none h.list.idle.range hpop
    refine ⟨hlist.mono (hlp.trans (Nat.le_succ _)), ?_, ?_, h.alive,
      ⟨h.pages.count.trans (Nat.le_succ _), Nat.le_refl _⟩, ?_, trivial⟩
    · have := h.pages.grow default
      rwa [← hid] at this
    · intro o ho hold hheld
      rcases List.mem_cons.mp hheld with heq | hheld
      · have := (hlist.below o ho).trans hlp
        simp only at heq
        omega
      · exact h.heldFree o ho hold hheld
    · rintro _ ⟨⟩
      exact hid

/-- Acquiring a page of this snapshot that is not in the orphan list. -/
private theorem Sound.acquire {p : Process γ} (h : p.Sound) {ctx : TransactionContext} {id : Nat}
    {page : Page γ} {s : State γ} (hw : p.writer? = some ctx)
    (hp : getPage id (.new p.engine ctx) = .ok page (.new p.engine ctx))
    (hstamp : page.state.snapshotId = some ctx.snapshotId)
    (hs : getMutPage id (.new p.engine ctx) = .ok () s) (hnot : id ∉ p.orphanIds) :
    Sound { p with engine := s.engine, stage := .working s.context, held := id :: p.held } := by
  obtain ⟨hid, hlist, hle⟩ := h.writer hw
  obtain ⟨-, rfl, -, -⟩ := getPage_eq_ok hp
  obtain ⟨-, -, rfl⟩ := getMutPage_eq_ok hs
  refine ⟨hlist, ?_, ?_, h.alive, hle, ?_, trivial⟩
  · -- a page with this snapshot's stamp is not part of the committed state
    have hnew : id ≤ p.committed.1.pageCount → ∃ o ∈ p.committed.2, o.pageId = id := by
      intro hle
      by_contra hn
      have hn : ∀ o ∈ p.committed.2, o.pageId ≠ id := fun o ho he ↦ hn ⟨o, ho, he⟩
      have := h.pages.stamps id hle hn _ hstamp
      omega
    have := h.pages.hold (p.engine.pageManager.pages id).contents hnew
    rwa [← hid] at this
  · intro o ho hold hheld
    rcases List.mem_cons.mp hheld with heq | hheld
    · exact hnot (heq ▸ List.mem_map_of_mem ho)
    · exact h.heldFree o ho hold hheld
  · rintro _ ⟨⟩
    exact hid

/-- Orphaning a page that is not in the orphan list. -/
private theorem Sound.orphanPage {p : Process γ} (h : p.Sound) {ctx : TransactionContext} {id : Nat}
    {s : State γ} (hw : p.writer? = some ctx) (hle : id ≤ ctx.pageCount)
    (hs : Engine.orphanPage id (.new p.engine ctx) = .ok () s) (hnot : id ∉ p.orphanIds) :
    Sound { p with engine := s.engine, stage := .working s.context } := by
  obtain ⟨hid, hlist, hlimit⟩ := h.writer hw
  obtain ⟨m, hm, rfl⟩ := orphanPage_eq_ok hs
  simp only [hid] at hm
  obtain ⟨hl, hq⟩ := hlist.push hm hnot hle
  refine ⟨hl, h.pages, ?_, h.alive, hlimit, ?_, trivial⟩
  · intro o ho hold hheld
    simp only [State.metaManager_setMeta] at ho
    rw [hq, List.mem_append, List.mem_singleton] at ho
    rcases ho with ho | rfl
    · exact h.heldFree o ho hold hheld
    · simp only at hold
      omega
  · rintro _ ⟨⟩
    exact hid

/-- What an updated process knows before the commit. -/
private theorem Sound.updated {p : Process γ} (h : p.Sound) {ctx : TransactionContext}
    (hst : p.stage = .updated ctx) {slot : MetadataSlot}
    (hslot : slot.snapshotId = p.engine.metaManager.dirty.slot.snapshotId ∧
      slot.pageCount = p.engine.metaManager.dirty.slot.pageCount) :
    PagesSound p.engine.pageManager (slot, p.engine.metaManager.orphanPages) [] ∧
      (∀ o ∈ p.engine.metaManager.orphanPages, o.pageId ≤ slot.pageCount) ∧ p.held = [] ∧
      slot.snapshotId = p.committed.1.snapshotId + 1 := by
  have hstage := h.stage
  have hlimit : p.limit = ctx.pageCount := by simp only [limit, hst, Stage.context?]
  simp only [StageSound, hst] at hstage
  have hcount : slot.pageCount = p.limit := by rw [hslot.2, hstage.2, hlimit]
  have hpages := h.pages
  rw [hstage.1] at hpages
  have hid := hslot.1.trans h.list.nextId
  refine ⟨hpages.settle hid (hcount ▸ h.limit_le.2), ?_, hstage.1, hid⟩
  rw [hcount]
  exact h.list.below

/-- Committing the updated metadata. -/
private theorem Sound.commit {p : Process γ} (h : p.Sound) {ctx : TransactionContext}
    (hst : p.stage = .updated ctx) :
    Sound { p with
      engine := { p.engine with metaManager := p.engine.metaManager.commit }
      committed := (start p.engine.metaManager.commit).committed
      stage := .idle } := by
  have hidle : Idle p.point := h.list.idle
  have hset : Settled p.engine.metaManager.commit := hidle.settled_commit
  obtain ⟨ha, hq, -, -⟩ := hidle.active_commit
  obtain ⟨hpages, hbelow, hheld, hid⟩ := h.updated hst (compactedSlot_eq p.engine.metaManager)
  have hc := start_committed hset
  have hslot : p.engine.metaManager.commit.active.slot =
      (compactedSlot p.engine.metaManager).slot := by
    change p.point.manager.commit.active.slot = _
    rw [ha]
    rfl
  have hq' : p.engine.metaManager.commit.orphanPages = p.engine.metaManager.orphanPages := hq
  rw [hslot, hq'] at hc
  have hlist := listSound_of_settled hset (by rw [hq']; exact h.list.nodup)
    (by rw [hq', hslot]; exact hbelow)
  rw [hslot, hq'] at hlist
  rw [hc]
  refine ⟨hlist, ?_, ?_, ?_, ⟨Nat.le_refl _, hpages.count⟩, by simp [Stage.context?], hheld, ?_⟩
  · simp only [hheld]
    exact hpages
  · simp [hheld]
  · have := h.alive
    simp only [hid]
    omega
  · rw [hset.dirty, hslot]
    rfl

/-- Stopping and reopening. -/
private theorem Sound.stop {p : Process γ} (h : p.Sound) {op : Op} {n : Nat} {m : MetadataManager}
    (ho : op.Complete p.engine.metaManager)
    (hc : ∀ fields entries, op = .commit fields entries → ∃ ctx, p.stage = .updated ctx)
    (hm : MetadataManager.fromFile
      (execAll p.point ((op.stores p.engine.metaManager).take n)).manager.file = .ok m)
    (hx : CollisionFree (contents p.point (op.stores p.engine.metaManager)))
    (hd : ∀ o ∈ p.committed.2, p.dirty o.pageId = false) : (p.reopened m).Sound := by
  have hidle : Idle p.point := h.list.idle
  have hactive : p.committed.1 = p.engine.metaManager.active.slot :=
    congrArg Prod.fst hidle.committed
  have hasc : op.Ascending p.engine.metaManager := by
    cases op with
    | commit fields entries =>
      have := h.list.nextId
      rw [hactive] at this
      simp only [Op.Ascending]
      omega
    | _ => trivial
  obtain ⟨m', hm', hset, hslot, hlist⟩ :=
    ((hidle.op ho hasc hx (throughout_slotsIn _ _ fun _ h ↦ h)).1).take n
  have heq : m' = m := Except.ok.inj (hm'.symm.trans hm)
  subst heq
  -- the recovered state is the last committed one, or the one being committed
  have hrec : ∃ c, (m'.active.slot, m'.orphanPages) = c ∧ PagesSound p.engine.pageManager c
      p.held ∧ (∀ o ∈ c.2, p.dirty o.pageId = false) ∧ (c.2.map OrphanPage.pageId).Nodup ∧
      (∀ o ∈ c.2, o.pageId ≤ c.1.pageCount) := by
    rcases hidle.committed_take ho n with hcom | ⟨⟨fields, entries, rfl⟩, hcom⟩
    · refine ⟨p.committed, ?_, h.pages, hd, h.list.committedNodup, h.list.committedBelow⟩
      exact Prod.ext (hslot.trans (congrArg Prod.fst hcom)) (hlist.trans (congrArg Prod.snd hcom))
    · obtain ⟨ctx, hst⟩ := hc fields entries rfl
      obtain ⟨hpages, hbelow, hheld, -⟩ := h.updated hst (compactedSlot_eq p.engine.metaManager)
      refine ⟨_, Prod.ext (hslot.trans (congrArg Prod.fst hcom))
        (hlist.trans (congrArg Prod.snd hcom)), ?_, ?_, h.list.nodup, hbelow⟩
      · rw [hheld]
        exact hpages
      · intro o ho'
        rw [← Bool.not_eq_true]
        intro hdirty
        exact List.not_mem_nil (hpages.clean _ ((hbelow o ho').trans hpages.count) hdirty)
  obtain ⟨c, rfl, hpages, hclean, hnodup, hbelow⟩ := hrec
  refine ⟨listSound_of_settled hset hnodup hbelow, hpages.reopen hclean, by simp [reopened],
    Nat.le_refl _, ⟨Nat.le_refl _, Nat.le_refl _⟩, by simp [reopened, Stage.context?], rfl, ?_⟩
  simp only [reopened, hset.dirty]
  rfl

/-- Every orderly step keeps the process sound. -/
private theorem Sound.step [Inhabited γ] {p p' : Process γ} {l : Move} (h : p.Sound)
    (hok : Orderly p l) (hs : Proceeds p l p') : p'.Sound := by
  have hactive : p.committed.1 = p.engine.metaManager.active.slot :=
    congrArg Prod.fst h.list.idle.committed
  cases hs with
  | beginRw hst ha =>
    have hstage := h.stage
    have hlimit : p.limit = p.committed.1.pageCount := by simp only [limit, hst, Stage.context?]
    simp only [StageSound, hst] at hstage
    have hlist := h.list
    have hle := h.limit_le
    rw [hlimit, ← hstage.2] at hlist
    rw [hlimit] at hle
    refine ⟨hlist, h.pages, h.heldFree, hactive ▸ ha, ?_, ?_, hstage.1, hstage.2, hstage.2⟩
    · change _ ≤ p.engine.metaManager.dirty.slot.pageCount ∧
        p.engine.metaManager.dirty.slot.pageCount ≤ _
      rw [hstage.2]
      exact hle
    · rintro _ ⟨⟩
      exact h.list.nextId
  | allocatePage hw hs => exact h.allocatePage hw hs
  | acquire hw hp hid hs => exact h.acquire hw hp hid hs hok
  | @write ctx id s contents hst hid hs =>
    simp only [writeContents, modify_apply, EStateM.Result.ok.injEq, true_and] at hs
    subst hs
    exact ⟨h.list, h.pages.write _ _, h.heldFree, h.alive, h.limit_le,
      h.context, by simp only [StageSound, hst]⟩
  | @drop ctx id s hst hid hs =>
    simp only [dropPage, modify_apply, EStateM.Result.ok.injEq, true_and] at hs
    subst hs
    exact ⟨h.list, h.pages.drop _,
      fun o ho hold hheld ↦ h.heldFree o ho hold (List.mem_of_mem_erase hheld),
      h.alive, h.limit_le, h.context, by simp only [StageSound, hst]⟩
  | orphanPage hw hle hs => exact h.orphanPage hw hle hs hok
  | @setRoot ctx hash root hw =>
    obtain ⟨hid, hlist, hle⟩ := h.writer hw
    refine ⟨hlist, h.pages, h.heldFree, h.alive, hle, ?_, trivial⟩
    rintro _ ⟨⟩
    exact hid
  | @updateMetadata ctx hw hheld =>
    obtain ⟨hid, hlist, hle⟩ := h.writer hw
    have hq : (p.engine.metaManager.modifyDirty ctx.updateMetadata).orphanPages =
        p.engine.metaManager.orphanPages := by
      simp only [MetadataManager.orphanPages, MetadataManager.dirty_modifyDirty]
      rfl
    have hl : ListSound (p.engine.metaManager.modifyDirty ctx.updateMetadata) p.committed
        ctx.pageCount := by
      refine ⟨hlist.idle.modifyDirty (fun _ ↦ rfl) (fun _ ↦ rfl), ?_, ?_, ?_, ?_,
        hlist.committedNodup, hlist.committedBelow⟩
      · rw [MetadataManager.dirty_modifyDirty]
        exact hid
      · exact hq ▸ hlist.nodup
      · exact hq ▸ hlist.old
      · exact hq ▸ hlist.below
    refine ⟨hl, h.pages, ?_, h.alive, hle, ?_, hheld, ?_⟩
    · simp only [hq]
      exact h.heldFree
    · rintro _ ⟨⟩
      exact hid
    · rw [MetadataManager.dirty_modifyDirty]
      rfl
  | commit hst => exact h.commit hst
  | @rollback ctx hst =>
    have hw : p.writer? = some ctx := by simp only [writer?, hst]
    have hstage := h.stage
    simp only [StageSound, hst] at hstage
    obtain ⟨-, hlist, hle⟩ := h.writer hw
    rw [hstage.2.1] at hlist hle
    exact ⟨hlist, h.pages, h.heldFree, h.alive, hle, by simp [Stage.context?], hstage.1, hstage.2.2⟩
  | stop ho hc hm => exact h.stop ho hc hm hok.1 hok.2

/-- In a sound process the next orphan to recycle is in the file and not dirty. -/
private theorem Sound.recyclable {p : Process γ} (h : p.Sound) {o : OrphanPage}
    {m : MetadataManager}
    (hpop : p.engine.metaManager.pop p.engine.aliveSnapshot = (some o, m)) :
    o.pageId ≤ p.engine.pageManager.pageCount ∧ p.dirty o.pageId = false := by
  obtain ⟨-, -, hq, -, hle, hold⟩ := h.list.pop h.alive hpop
  have hin := hle.trans h.limit_le.2
  refine ⟨hin, ?_⟩
  rw [← Bool.not_eq_true]
  intro hd
  exact h.heldFree o (hq ▸ List.mem_cons_self) hold (h.pages.clean _ hin hd)

end Process

/-- The database stays writable: in every orderly run, over any number of stops, a write
transaction can recycle each orphan that is old enough, gets a zeroed page stamped with its
snapshot, and fails to get one only at the page limit; when it begins, every page of the recovered
orphan list can be acquired. -/
theorem allocatePage_after_stop [SlotHash] [Inhabited γ] {p₀ p : Process γ}
    (ctx : TransactionContext) (h₀ : p₀.Fresh) (h : Run Proceeds Orderly p₀ p) :
    (∀ o m, p.engine.metaManager.pop p.engine.aliveSnapshot = (some o, m) →
      ∃ s, allocatePage (.new p.engine ctx) = .ok o.pageId s) ∧
    (∀ id s, allocatePage (.new p.engine ctx) = .ok id s →
      s.engine.pageManager.pages id = ⟨.dirty ctx.snapshotId, default⟩) ∧
    (∀ e s, allocatePage (.new p.engine ctx) = .error e s → e = .pageError .pageLimitReached) ∧
    (p.stage = .begun ctx → ∀ o ∈ p.engine.metaManager.orphanPages,
      ∃ pm, p.engine.pageManager.getMut ctx.snapshotId o.pageId = .ok pm) := by
  have hsound : p.Sound := h.invariant h₀.sound fun _ _ _ hi hok hs ↦ hi.step hok hs
  have hnever {o : OrphanPage} {m : MetadataManager}
      (hpop : p.engine.metaManager.pop p.engine.aliveSnapshot = (some o, m)) :
      ¬ (p.engine.pageManager.pageCount < o.pageId ∨ p.dirty o.pageId = true) := by
    obtain ⟨hin, hd⟩ := hsound.recyclable hpop
    rw [not_or, Nat.not_lt, Bool.not_eq_true]
    exact ⟨hin, hd⟩
  refine ⟨?_, ?_, ?_, ?_⟩
  · intro o m hpop
    cases hr : allocatePage (.new p.engine ctx) with
    | ok id s =>
      obtain ⟨o', m', hpop', rfl, -⟩ | ⟨m', hpop', -⟩ := allocatePage_eq_ok hr
      · rw [hpop] at hpop'
        cases hpop'
        exact ⟨s, rfl⟩
      · rw [hpop] at hpop'
        cases hpop'
    | error e s =>
      obtain ⟨o', m', hpop', hbad⟩ | ⟨⟨m', hpop'⟩, -⟩ := allocatePage_eq_error hr
      · exact absurd hbad (hnever hpop')
      · rw [hpop] at hpop'
        cases hpop'
  · intro id s hs
    obtain ⟨o, m, -, rfl, -, -, rfl⟩ | ⟨m, -, rfl, -, rfl⟩ := allocatePage_eq_ok hs
    · simp
    · simp
  · intro e s hs
    obtain ⟨o, m, hpop, hbad⟩ | ⟨-, rfl⟩ := allocatePage_eq_error hs
    · exact absurd hbad (hnever hpop)
    · rfl
  · intro hst o ho
    have hheld : p.held = [] := by
      have hstage := hsound.stage
      simp only [Process.StageSound, hst] at hstage
      exact hstage.1
    have hin := (hsound.list.below o ho).trans hsound.limit_le.2
    refine ⟨_, PageManager.getMut_of_not_dirty hin ?_⟩
    rw [← Bool.not_eq_true]
    intro hd
    exact List.not_mem_nil (hheld ▸ hsound.pages.clean _ hin hd)

/-! ### A writer that recycles a page -/

section
local instance reopenSlotHash : SlotHash := fxSlotHash

namespace Process

/-- A new database. -/
def created : Process Nat where
  engine := ⟨⟨fun _ ↦ ⟨.unused, 0⟩, 0, 100⟩, opened, 0⟩
  committed := (start opened).committed
  stage := .idle
  held := []

/-- `begin_rw` without readers. -/
def began (p : Process Nat) : Process Nat :=
  { p with
    engine := { p.engine with aliveSnapshot := p.engine.metaManager.active.slot.snapshotId }
    stage := .begun (.new p.engine.metaManager.dirty.slot) }

/-- The context to allocate in. -/
def context (p : Process Nat) : TransactionContext :=
  p.writer?.getD (.new p.engine.metaManager.dirty.slot)

/-- The outcome of `allocate_page`. -/
def outcome (p : Process Nat) : EStateM.Result Error (State Nat) Nat :=
  allocatePage (.new p.engine p.context)

/-- The page `allocate_page` returns, or its error. -/
def outcomeId (p : Process Nat) : Except Error Nat :=
  match p.outcome with
  | .ok id _ => .ok id
  | .error e _ => .error e

/-- The state `allocate_page` leaves. -/
def outcomeState (p : Process Nat) : State Nat :=
  match p.outcome with
  | .ok _ s => s
  | .error _ s => s

/-- The process that holds a newly allocated page. -/
def allocated (p : Process Nat) (id : Nat) : Process Nat :=
  { p with
    engine := p.outcomeState.engine
    stage := .working p.outcomeState.context
    held := id :: p.held }

/-- The process that has written and dropped the page and commits. -/
def finished (p : Process Nat) (id : Nat) : Process Nat :=
  let m := p.engine.metaManager.modifyDirty p.context.updateMetadata
  { p with
    engine := ⟨p.engine.pageManager.drop id, m.commit, p.engine.aliveSnapshot⟩
    committed := (start m.commit).committed
    stage := .idle
    held := [] }

/-- The process that orphans a page. -/
def orphaned (p : Process Nat) (id : Nat) : Process Nat :=
  { p with
    engine := { p.engine with
      metaManager :=
        (p.engine.metaManager.push ⟨id, p.context.snapshotId⟩).getD p.engine.metaManager }
    stage := .working p.context }

/-- The process that reopens after a stop between two operations. -/
def restarted (p : Process Nat) (i : SlotIndex) : Process Nat :=
  p.reopened (MetadataManager.populateDirtySlot ⟨p.engine.metaManager.file, i⟩)

/-- After a first transaction that writes page 1 and a second that replaces it by page 2. -/
def replaced : Process Nat :=
  (((created.began.allocated 1).finished 1).began.allocated 2).orphaned 1 |>.finished 2

private theorem fresh_created : created.Fresh where
  settled := settled_opened
  committed := rfl
  noOrphans := by decide +kernel
  pageCount := by decide +kernel
  pages := rfl
  unused := fun _ ↦ rfl
  alive := by decide +kernel
  stage := rfl
  held := rfl

section
variable {ok : Process Nat → Move → Prop} {p₀ p : Process Nat}

private theorem run_began (h : Run Proceeds ok p₀ p) (hok : ∀ p, ok p .internal)
    (hst : p.stage = .idle) : Run Proceeds ok p₀ p.began :=
  h.tail .internal (hok _) (.beginRw hst (Nat.le_refl _))

private theorem run_allocated (id : Nat) (h : Run Proceeds ok p₀ p) (hok : ∀ p, ok p .internal)
    (hw : p.writer? = some p.context) (hid : p.outcomeId = .ok id) :
    Run Proceeds ok p₀ (p.allocated id) := by
  refine h.tail .internal (hok _) (.allocatePage (s := p.outcomeState) hw ?_)
  change p.outcome = _
  simp only [outcomeId] at hid
  simp only [outcomeState]
  split at hid
  · next he =>
    cases hid
    rw [he]
  · cases hid

private theorem run_orphaned {id : Nat} (h : Run Proceeds ok p₀ p) (hok : ok p (.orphanPage id))
    (hw : p.writer? = some p.context) (hle : id ≤ p.context.pageCount)
    (hpush : (p.engine.metaManager.push ⟨id, p.context.snapshotId⟩).isSome) :
    Run Proceeds ok p₀ (p.orphaned id) := by
  obtain ⟨m, hm⟩ := Option.isSome_iff_exists.mp hpush
  have hs : Engine.orphanPage id (.new p.engine p.context) =
      .ok () ((State.new p.engine p.context).setMeta m) := by
    simp only [Engine.orphanPage, bind_apply, get_apply, hm, set_apply]
  have hp := h.tail (.orphanPage id) hok (.orphanPage hw hle hs)
  simp only [orphaned, hm, Option.getD_some]
  exact hp

private theorem run_finished {id : Nat} (h : Run Proceeds ok p₀ p) (hok : ∀ p, ok p .internal)
    (hst : p.stage = .working p.context) (hheld : p.held = [id]) :
    Run Proceeds ok p₀ (p.finished id) := by
  have h₁ := h.tail .internal (hok _)
    (.drop (s := (State.new p.engine p.context).setPages (p.engine.pageManager.drop id)) hst
      (show id ∈ p.held by simp [hheld]) rfl)
  have h₂ := h₁.tail .internal (hok _)
    (.updateMetadata (show _ = some p.context by simp only [writer?, hst]) (by simp [hheld]))
  have h₃ := h₂.tail .internal (hok _) (.commit rfl)
  simp only [hheld, List.erase_cons_head] at h₃
  exact h₃

private theorem run_restarted {i : SlotIndex} {o : OrphanPage} (h : Run Proceeds ok p₀ p)
    (hok : ok p (.stop (.push o))) (hi : p.engine.metaManager.file.latestSlotIndex = .ok i) :
    Run Proceeds ok p₀ (p.restarted i) := by
  refine h.tail (.stop (.push o)) hok (.stop (n := 0) trivial (by simp) ?_)
  simp only [List.take_zero, execAll_nil, point, MetadataManager.fromFile, hi]

private theorem stage_orphaned (p : Process Nat) (id : Nat) :
    (p.orphaned id).stage = .working (p.orphaned id).context := rfl

private theorem run_replaced (hok : ∀ p, ok p .internal)
    (ho : ok (((created.began.allocated 1).finished 1).began.allocated 2) (.orphanPage 1)) :
    Run Proceeds ok created replaced := by
  have h₀ : Run Proceeds ok created created.began := run_began .refl hok rfl
  have h₁ := run_allocated 1 h₀ hok rfl (by decide +kernel)
  have h₂ := run_finished h₁ hok rfl rfl
  have h₃ := run_allocated 2 (run_began h₂ hok rfl) hok rfl (by decide +kernel)
  have h₄ := run_orphaned h₃ ho rfl (by decide +kernel) (by decide +kernel)
  exact run_finished h₄ hok (stage_orphaned _ _) (by simp [orphaned, allocated, began, finished])

end

end Process

private theorem exists_snd_of_fst {α β : Type} {x : α × β} {a : α} (h : x.1 = a) :
    ∃ b, x = (a, b) := ⟨x.2, Prod.ext h rfl⟩

/-- A process that stops while it holds no page, and reopens, recycles page 1. -/
theorem recycles_after_restart :
    ∃ p : Process Nat, Run Proceeds Orderly Process.created p ∧
      (∃ m, p.engine.metaManager.pop p.engine.aliveSnapshot = (some ⟨1, 2⟩, m)) ∧
      ∃ s, allocatePage (.new p.engine p.context) = .ok 1 s := by
  have hok (p : Process Nat) : Orderly p .internal := trivial
  have h₁ := Process.run_replaced hok (by change _ ∉ _; decide +kernel)
  have h₂ := Process.run_began h₁ hok rfl
  have h₃ := Process.run_restarted (i := .zero) (o := ⟨7, 3⟩) h₂ (by
    refine ⟨?_, by decide +kernel⟩
    unfold CollisionFree
    decide +kernel) (by decide +kernel)
  have h₄ := Process.run_began h₃ hok rfl
  obtain ⟨m, hpop⟩ : ∃ m, (Process.replaced.began.restarted .zero).began.engine.metaManager.pop
      (Process.replaced.began.restarted .zero).began.engine.aliveSnapshot = (some ⟨1, 2⟩, m) := by
    refine exists_snd_of_fst ?_
    decide +kernel
  refine ⟨_, h₄, ⟨m, hpop⟩, ?_⟩
  exact (allocatePage_after_stop _ Process.fresh_created h₄).1 ⟨1, 2⟩ m hpop

/-- A process that stops while it holds the recycled page leaves its dirty bit set in the file;
after reopening, the next allocation fails on that page. -/
theorem pageDirty_after_restart :
    ∃ p : Process Nat, Run Proceeds (fun _ _ ↦ True) Process.created p ∧
      p.writer? = some p.context ∧
      ∃ s, allocatePage (.new p.engine p.context) = .error (.pageError (.pageDirty 1)) s := by
  let ok : Process Nat → Move → Prop := fun _ _ ↦ True
  have hok (p : Process Nat) : ok p .internal := trivial
  have h₁ := Process.run_began (Process.run_replaced hok trivial) hok rfl
  have h₂ := Process.run_allocated 1 h₁ hok rfl (by decide +kernel)
  have h₃ := Process.run_restarted (i := .zero) (o := ⟨7, 3⟩) h₂ trivial (by decide +kernel)
  have h₄ := Process.run_began h₃ hok rfl
  refine ⟨_, h₄, rfl, ?_⟩
  have hout : ((Process.replaced.began.allocated 1).restarted .zero).began.outcomeId =
      .error (.pageError (.pageDirty 1)) := by decide +kernel
  simp only [Process.outcomeId] at hout
  split at hout
  · cases hout
  · next e s he =>
    cases hout
    exact ⟨s, he⟩

end

end TrieDb.Database

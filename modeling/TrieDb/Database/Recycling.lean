import Mathlib.Logic.Relation
import TrieDb.Engine.PageOps
import TrieDb.Meta.Queue
import TrieDb.Transaction.Manager

/-!
# Which orphans are recycled

Transactions one after another: `begin_ro` and `begin_rw` (`src/database.rs:270–287`), `commit` and
`rollback` (`src/transaction.rs:173–211`) as whole calls, the page allocations and orphanings of a
writer between them, and databases that are closed and opened again. The threshold of
`allocate_page` is the oldest snapshot that was read when the writer began.
-/

namespace TrieDb.Database

open Meta Engine MetadataManager

variable {γ : Type}

/-- A write transaction, with the snapshots read by the transactions that were open when it began,
itself included. `working` tells whether `set_values` has been called. -/
structure Writer where
  context : TransactionContext
  openTxs : List Nat
  working : Bool

/-- An open database with its transactions. -/
structure Session (γ : Type) where
  engine : StorageEngine γ
  transactionManager : TransactionManager
  readers : List TransactionContext
  writer : Option Writer

namespace Session

/-- The orphan list. -/
def orphans (s : Session γ) : List OrphanPage := s.engine.metaManager.orphanPages

/-- The snapshots read by the open transactions. A writer reads the one before its own. -/
def snapshots (s : Session γ) : List Nat :=
  s.readers.map TransactionContext.snapshotId ++
    (s.writer.map fun w ↦ w.context.snapshotId - 1).toList

/-- A database as `Database::open` leaves it. -/
def opened (pages : PageManager γ) (m : MetadataManager) : Session γ :=
  ⟨⟨pages, m, m.active.slot.snapshotId⟩, .new, [], none⟩

end Session

/-- One call. -/
inductive Calls [SlotHash] [Inhabited γ] : Session γ → Session γ → Prop
  | beginRo (s : Session γ) :
      Calls s
        { s with
          transactionManager :=
            s.transactionManager.beginRo s.engine.metaManager.active.slot.snapshotId
          readers := .new s.engine.metaManager.active.slot :: s.readers }
  | endRo {s : Session γ} {ctx before after m} (h : s.readers = before ++ ctx :: after)
      (hm : s.transactionManager.removeTx ctx.snapshotId false = some m) :
      Calls s { s with transactionManager := m, readers := before ++ after }
  | beginRw {s : Session γ} {ctx low m} (hctx : ctx = .new s.engine.metaManager.dirty.slot)
      (hm : s.transactionManager.beginRw ctx.snapshotId = some (low, m)) :
      Calls s
        { s with
          engine := { s.engine with
            aliveSnapshot := if 0 < low then low - 1 + 1 else s.engine.aliveSnapshot }
          transactionManager := m
          writer := some ⟨ctx,
            s.readers.map TransactionContext.snapshotId ++ [ctx.snapshotId - 1], false⟩ }
  | allocatePage {s : Session γ} {w id t} (h : s.writer = some w)
      (ht : Engine.allocatePage (.new s.engine w.context) = .ok id t) :
      Calls s
        { s with
          engine := t.engine
          writer := some { w with context := t.context, working := true } }
  | orphanPage {s : Session γ} {w id t} (h : s.writer = some w)
      (ht : Engine.orphanPage id (.new s.engine w.context) = .ok () t) :
      Calls s { s with engine := t.engine, writer := some { w with working := true } }
  -- the rest of `set_values` writes pages and sets the root
  | write {s : Session γ} {w} (pages : PageManager γ) (ctx : TransactionContext)
      (h : s.writer = some w) (hctx : ctx.snapshotId = w.context.snapshotId) :
      Calls s
        { s with
          engine := { s.engine with pageManager := pages }
          writer := some { w with context := ctx, working := true } }
  | commit {s : Session γ} {w m} (h : s.writer = some w)
      (hm : s.transactionManager.removeTx w.context.snapshotId true = some m) :
      Calls s
        { s with
          engine := { s.engine with metaManager := commitMetadata s.engine.metaManager w.context }
          transactionManager := m
          writer := none }
  | rollback {s : Session γ} {w m} (h : s.writer = some w) (hw : w.working = false)
      (hm : s.transactionManager.removeTx w.context.snapshotId true = some m) :
      Calls s { s with transactionManager := m, writer := none }
  | reopen {s : Session γ} {m} (pages : PageManager γ)
      (hw : ∀ w, s.writer = some w → w.working = false)
      (hm : fromFile s.engine.metaManager.file = .ok m) : Calls s (.opened pages m)

/-- The invariant: the list is sorted and ends at or below the snapshot of the next writer, the
transaction manager lists the open transactions, and a writer has its threshold. -/
structure Session.Sorted [SlotHash] (s : Session γ) : Prop where
  idle : Idle (start s.engine.metaManager)
  settled : (∀ w, s.writer = some w → w.working = false) → Settled s.engine.metaManager
  next : s.engine.metaManager.dirty.slot.snapshotId =
    s.engine.metaManager.active.slot.snapshotId + 1
  ascending : s.orphans.Pairwise (·.orphanedAt ≤ ·.orphanedAt)
  bounds : ∀ o ∈ s.orphans,
    0 < o.orphanedAt ∧ o.orphanedAt ≤ s.engine.metaManager.dirty.slot.snapshotId
  listed : s.transactionManager.openTxs.Perm s.snapshots
  hasWriter : s.transactionManager.hasWriter = s.writer.isSome
  context : ∀ w, s.writer = some w →
    w.context.snapshotId = s.engine.metaManager.dirty.slot.snapshotId
  threshold : ∀ w, s.writer = some w →
    s.engine.aliveSnapshot ∈ w.openTxs ∧ ∀ id ∈ w.openTxs, s.engine.aliveSnapshot ≤ id
  positive : 0 < s.engine.aliveSnapshot →
    0 < s.engine.metaManager.active.slot.snapshotId ∧ ∀ ctx ∈ s.readers, 0 < ctx.snapshotId

namespace Session.Sorted

variable [SlotHash] {s s' : Session γ}

/-- The orphan list of a session lies in its range of the file. -/
theorem range (h : s.Sorted) : s.engine.metaManager.RangeWF := h.idle.range

/-- A settled manager whose list is sorted. -/
private theorem of_opened {m : MetadataManager} (pages : PageManager γ) (hm : Settled m)
    (hsorted : m.orphanPages.Pairwise (·.orphanedAt ≤ ·.orphanedAt))
    (hbounds : ∀ o ∈ m.orphanPages, 0 < o.orphanedAt ∧ o.orphanedAt ≤ m.dirty.slot.snapshotId) :
    (Session.opened pages m).Sorted where
  idle := hm.idle
  settled _ := hm
  next := by
    simp only [Session.opened]
    rw [hm.dirty]
    rfl
  ascending := hsorted
  bounds := hbounds
  listed := List.Perm.refl []
  hasWriter := rfl
  context w hw := by cases hw
  threshold w hw := by cases hw
  positive h := ⟨h, fun ctx hctx ↦ by cases hctx⟩

/-- Nothing but the pages and the context of the writer changes. -/
theorem work (h : s.Sorted) {w : Writer} (pages : PageManager γ) {ctx : TransactionContext}
    (hw : s.writer = some w) (hid : ctx.snapshotId = w.context.snapshotId) {m : MetadataManager}
    (hidle : Idle (start m)) (hactive : m.active = s.engine.metaManager.active)
    (hdirty : m.dirty.slot.snapshotId = s.engine.metaManager.dirty.slot.snapshotId)
    (hsorted : m.orphanPages.Pairwise (·.orphanedAt ≤ ·.orphanedAt))
    (hbounds : ∀ o ∈ m.orphanPages, 0 < o.orphanedAt ∧ o.orphanedAt ≤ m.dirty.slot.snapshotId) :
    Session.Sorted { s with
      engine := ⟨pages, m, s.engine.aliveSnapshot⟩
      writer := some { w with context := ctx, working := true } } where
  idle := hidle
  settled hnot := by
    have := hnot _ rfl
    cases this
  next := by
    simp only
    rw [hdirty, hactive]
    exact h.next
  ascending := hsorted
  bounds := hbounds
  listed := by
    have hl := h.listed
    simp only [Session.snapshots, hw, Option.map_some] at hl ⊢
    rwa [hid]
  hasWriter := by
    rw [h.hasWriter, hw]
    rfl
  context w₁ hw₁ := by
    cases hw₁
    simp only
    rw [hid, hdirty]
    exact h.context w hw
  threshold w₁ hw₁ := by
    cases hw₁
    exact h.threshold w hw
  positive := by
    simp only
    rw [hactive]
    exact h.positive

/-- The writer is gone, and its snapshot is no longer listed. -/
private theorem listed_removeTx (h : s.Sorted) {w : Writer} {m : TransactionManager}
    (hw : s.writer = some w)
    (hm : s.transactionManager.removeTx w.context.snapshotId true = some m) :
    m.openTxs.Perm (s.readers.map TransactionContext.snapshotId) ∧ m.hasWriter = false := by
  obtain ⟨hflag, hperm⟩ := TransactionManager.removeTx_eq_some hm
  refine ⟨?_, by rw [hflag]; rfl⟩
  have hl := hperm.trans h.listed
  simp only [Session.snapshots, hw, Option.map_some, Option.toList_some] at hl
  exact (List.perm_cons _).mp (hl.trans (List.perm_append_singleton _ _))

/-- Recycling takes the head off the list or leaves it. -/
theorem pop (h : s.Sorted) {w : Writer} (pages : PageManager γ) {ctx : TransactionContext}
    (hw : s.writer = some w) (hid : ctx.snapshotId = w.context.snapshotId) {o : Option OrphanPage}
    {m : MetadataManager} {t : Nat} (hm : s.engine.metaManager.pop t = (o, m)) :
    Session.Sorted { s with
      engine := ⟨pages, m, s.engine.aliveSnapshot⟩
      writer := some { w with context := ctx, working := true } } := by
  have hidle := idle_start (h.idle.pop hm)
  cases o with
  | none =>
    obtain ⟨rfl, -⟩ := pop_none h.range hm
    exact h.work pages hw hid hidle rfl rfl h.ascending h.bounds
  | some o =>
    obtain ⟨hq, -, -, hactive, hdirty⟩ := orphanPages_pop_some h.range hm
    have hsorted := h.ascending
    have hbounds := h.bounds
    simp only [Session.orphans, hq] at hsorted hbounds
    refine h.work pages hw hid hidle hactive hdirty hsorted.of_cons fun o' ho' ↦ ?_
    rw [hdirty]
    exact hbounds o' (List.mem_cons_of_mem _ ho')

/-- An orphaned page carries the snapshot of the writer, which is the highest. -/
theorem push (h : s.Sorted) {w : Writer} (pages : PageManager γ) {ctx : TransactionContext}
    (hw : s.writer = some w) (hid : ctx.snapshotId = w.context.snapshotId) {id : Nat}
    {m : MetadataManager} (hm : s.engine.metaManager.push ⟨id, w.context.snapshotId⟩ = some m) :
    Session.Sorted { s with
      engine := ⟨pages, m, s.engine.aliveSnapshot⟩
      writer := some { w with context := ctx, working := true } } := by
  obtain ⟨hq, -, hactive, hdirty⟩ := orphanPages_push h.range hm
  have hctx := h.context w hw
  have hnext := h.next
  refine h.work pages hw hid (idle_start (h.idle.push hm)) hactive hdirty ?_ ?_
  · rw [hq, List.pairwise_append]
    refine ⟨h.ascending, List.pairwise_singleton _ _, fun a ha b hb ↦ ?_⟩
    rw [List.mem_singleton.mp hb, hctx]
    exact (h.bounds a ha).2
  · intro o ho
    rw [hdirty]
    rw [hq, List.mem_append, List.mem_singleton] at ho
    rcases ho with ho | rfl
    · exact h.bounds o ho
    · simp only [hctx]
      omega

/-- The threshold of a new writer is the oldest snapshot that is read, also if that is the empty
one: then the threshold has never been raised. -/
theorem threshold_beginRw (h : s.Sorted) {low id : Nat} {m : TransactionManager}
    (hid : id = s.engine.metaManager.dirty.slot.snapshotId)
    (hm : s.transactionManager.beginRw id = some (low, m)) :
    (if 0 < low then low - 1 + 1 else s.engine.aliveSnapshot) = low ∧ s.writer = none ∧
      m.openTxs.Perm (s.readers.map TransactionContext.snapshotId ++ [id - 1]) ∧
      low ∈ s.readers.map TransactionContext.snapshotId ++ [id - 1] ∧
      ∀ id' ∈ s.readers.map TransactionContext.snapshotId ++ [id - 1], low ≤ id' := by
  obtain ⟨hflag, rfl, hlow⟩ := TransactionManager.beginRw_eq_some hm
  have hmem := TransactionManager.mem_of_beginRw hm
  have hnone : s.writer = none := by
    have := h.hasWriter
    rw [hflag] at this
    simpa using this.symm
  have hperm : (s.transactionManager.openTxs ++ [id - 1]).Perm
      (s.readers.map TransactionContext.snapshotId ++ [id - 1]) := by
    have hl := h.listed
    simp only [Session.snapshots, hnone, Option.map_none, Option.toList_none,
      List.append_nil] at hl
    exact hl.append_right _
  refine ⟨?_, hnone, hperm, hperm.mem_iff.mp hmem, fun id' hid' ↦ hlow id' (hperm.mem_iff.mpr hid')⟩
  by_cases hpos : 0 < low
  · rw [if_pos hpos]
    omega
  · rw [if_neg hpos]
    by_contra hne
    obtain ⟨hactive, hreaders⟩ := h.positive (by omega)
    have hnext := h.next
    rcases List.mem_append.mp (hperm.mem_iff.mp hmem) with hr | hr
    · obtain ⟨ctx, hctx, rfl⟩ := List.mem_map.mp hr
      exact hpos (hreaders ctx hctx)
    · rw [List.mem_singleton] at hr
      omega

/-- A call keeps the orphan list sorted. -/
theorem step [Inhabited γ] (h : s.Sorted) (hs : Calls s s') : s'.Sorted := by
  have hnext := h.next
  cases hs with
  | beginRo =>
    refine { h with listed := ?_, positive := fun hpos ↦ ?_ }
    · have hl := h.listed
      simp only [TransactionManager.beginRo, Session.snapshots, List.map_cons,
        List.cons_append] at hl ⊢
      exact (List.perm_append_singleton _ _).trans (hl.cons _)
    · refine ⟨(h.positive hpos).1, fun ctx hctx ↦ ?_⟩
      rcases List.mem_cons.mp hctx with rfl | hctx
      · exact (h.positive hpos).1
      · exact (h.positive hpos).2 ctx hctx
  | @endRo ctx before after m hr hm =>
    obtain ⟨hflag, hperm⟩ := TransactionManager.removeTx_eq_some hm
    refine { h with listed := ?_, hasWriter := ?_, positive := fun hpos ↦ ?_ }
    · have hl := hperm.trans h.listed
      simp only [Session.snapshots, hr, List.map_append, List.map_cons, List.append_assoc,
        List.cons_append] at hl ⊢
      exact (List.perm_cons _).mp (hl.trans List.perm_middle)
    · rw [hflag]
      exact h.hasWriter
    · refine ⟨(h.positive hpos).1, fun ctx' hctx' ↦ (h.positive hpos).2 ctx' ?_⟩
      rw [hr]
      rcases List.mem_append.mp hctx' with hb | ha
      · exact List.mem_append_left _ hb
      · exact List.mem_append_right _ (List.mem_cons_of_mem _ ha)
  | @beginRw ctx low m hctx hm =>
    have hid : ctx.snapshotId = s.engine.metaManager.dirty.slot.snapshotId := by
      rw [hctx]
      rfl
    obtain ⟨halive, hnone, hperm, hmem, hle⟩ := h.threshold_beginRw hid hm
    obtain ⟨-, rfl, -⟩ := TransactionManager.beginRw_eq_some hm
    rw [halive]
    refine ⟨h.idle, fun _ ↦ h.settled fun w hw ↦ ?_, h.next, h.ascending, h.bounds, hperm, rfl, ?_,
      ?_, fun hpos ↦ ⟨?_, ?_⟩⟩
    · rw [hnone] at hw
      cases hw
    · intro w hw
      cases hw
      exact hid
    · intro w hw
      cases hw
      exact ⟨hmem, hle⟩
    · have := hle (ctx.snapshotId - 1) (by simp)
      simp only at hpos ⊢
      omega
    · intro ctx' hctx'
      have := hle ctx'.snapshotId (List.mem_append_left _ (List.mem_map_of_mem hctx'))
      simp only at hpos
      omega
  | allocatePage hw ht =>
    obtain ⟨o, m, hpop, -, -, -, rfl⟩ | ⟨m, hpop, -, -, rfl⟩ := allocatePage_eq_ok ht
    · exact h.pop _ hw (by rfl) hpop
    · exact h.pop _ hw (by rfl) hpop
  | orphanPage hw ht =>
    obtain ⟨m, hm, rfl⟩ := orphanPage_eq_ok ht
    exact h.push _ hw rfl hm
  | write pages ctx hw hctx =>
    exact h.work _ hw hctx h.idle rfl rfl h.ascending h.bounds
  | @commit w m hw hm =>
    obtain ⟨hperm, hflag⟩ := h.listed_removeTx hw hm
    have hidle : Idle (start (s.engine.metaManager.modifyDirty w.context.updateMetadata)) :=
      idle_start (h.idle.modifyDirty (fun _ ↦ rfl) fun _ ↦ rfl)
    have hset : Settled (commitMetadata s.engine.metaManager w.context) := hidle.settled_commit
    have hlist : (commitMetadata s.engine.metaManager w.context).orphanPages = s.orphans := by
      have hcommit : (commitMetadata s.engine.metaManager w.context).orphanPages =
          (s.engine.metaManager.modifyDirty w.context.updateMetadata).orphanPages :=
        hidle.active_commit.2.1
      rw [hcommit]
      simp only [Session.orphans, orphanPages, orphansOf, orphans_modifyDirty, dirty_modifyDirty,
        TransactionContext.updateMetadata]
    have hid : (commitMetadata s.engine.metaManager w.context).active.slot.snapshotId =
        w.context.snapshotId :=
      congrArg TransactionContext.snapshotId (new_active_commitMetadata _ _)
    have hctx := h.context w hw
    have hdirty := dirty_commitMetadata s.engine.metaManager w.context
    refine ⟨hset.idle, fun _ ↦ hset, by simp only [hdirty]; rfl, ?_, ?_, ?_, hflag, ?_, ?_,
      fun hpos ↦ ⟨?_, (h.positive hpos).2⟩⟩
    · simp only [Session.orphans, hlist]
      exact h.ascending
    · intro o ho
      simp only [Session.orphans, hlist] at ho
      have := h.bounds o ho
      simp only [hdirty, MetadataSlot.incSnapshotId]
      omega
    · simp only [Session.snapshots, Option.map_none, Option.toList_none, List.append_nil]
      exact hperm
    · intro w' hw'
      cases hw'
    · intro w' hw'
      cases hw'
    · simp only
      omega
  | @rollback w m hw hwork hm =>
    obtain ⟨hperm, hflag⟩ := h.listed_removeTx hw hm
    refine { h with
      settled := fun _ ↦ h.settled fun w' hw' ↦ ?_
      listed := ?_
      hasWriter := hflag
      context := fun w' hw' ↦ ?_
      threshold := fun w' hw' ↦ ?_ }
    · rw [hw] at hw'
      cases hw'
      exact hwork
    · simp only [Session.snapshots, Option.map_none, Option.toList_none, List.append_nil]
      exact hperm
    · cases hw'
    · cases hw'
  | @reopen m pages hw hm =>
    obtain ⟨m', hm', hset, hq, -, hid⟩ := (h.settled hw).reopen
    rw [hm'] at hm
    cases hm
    refine of_opened pages hset (by rw [hq]; exact h.ascending) fun o ho ↦ ?_
    rw [hq] at ho
    have := h.bounds o ho
    rw [hset.dirty]
    simp only [MetadataSlot.incSnapshotId]
    omega

/-- A new database. -/
theorem of_new {m : MetadataManager} (pages : PageManager γ) (hm : fromFile .new = .ok m) :
    (Session.opened pages m).Sorted := by
  rw [fromFile_new] at hm
  cases hm
  have hempty : Meta.opened.orphanPages = [] := by decide
  refine of_opened pages settled_opened ?_ ?_
  · rw [hempty]
    exact List.Pairwise.nil
  · rw [hempty]
    intro o ho
    cases ho

/-- In a sorted list only the head has to be looked at. -/
private theorem pop_alive (h : s.Sorted) {t : Nat} :
    (∀ o m, s.engine.metaManager.pop t = (some o, m) → s.orphans = o :: m.orphanPages ∧
      o.orphanedAt ≤ t) ∧
    ∀ m, s.engine.metaManager.pop t = (none, m) →
      m = s.engine.metaManager ∧ ∀ o ∈ s.orphans, t < o.orphanedAt := by
  constructor
  · intro o m hpop
    obtain ⟨hq, hle, -⟩ := orphanPages_pop_some h.range hpop
    exact ⟨hq, hle⟩
  · intro m hpop
    obtain ⟨rfl, hhead⟩ := pop_none h.range hpop
    refine ⟨rfl, ?_⟩
    have hsorted := h.ascending
    simp only [Session.orphans] at hsorted ⊢
    cases hq : s.engine.metaManager.orphanPages with
    | nil => simp
    | cons o rest =>
      rw [hq] at hhead hsorted
      have hfirst := hhead o rfl
      intro o' ho'
      rcases List.mem_cons.mp ho' with rfl | ho'
      · exact hfirst
      · have := List.rel_of_pairwise_cons hsorted ho'
        omega

end Session.Sorted

/-- In every run from a new database the orphan list is sorted, and an allocation of a writer takes
a page off the list exactly if the list has one that was orphaned at or before the oldest snapshot
read when the writer began; that page is the one returned, and no transaction that was open then can
reach it. -/
theorem recycling_exact [SlotHash] [Inhabited γ] {pages : PageManager γ} {m₀ : MetadataManager}
    {s : Session γ} (hm₀ : fromFile .new = .ok m₀)
    (hs : Relation.ReflTransGen Calls (Session.opened pages m₀) s) :
    s.orphans.Pairwise (·.orphanedAt ≤ ·.orphanedAt) ∧
    ∀ w, s.writer = some w → ∃ low ∈ w.openTxs, (∀ id ∈ w.openTxs, low ≤ id) ∧
      ∀ t, (∃ id, Engine.allocatePage (.new s.engine w.context) = .ok id t) ∨
          (∃ e, Engine.allocatePage (.new s.engine w.context) = .error e t) →
        ((∃ o ∈ s.orphans, o.orphanedAt ≤ low) ↔
          ∃ o, s.orphans = o :: t.engine.metaManager.orphanPages) ∧
        (∀ o, s.orphans = o :: t.engine.metaManager.orphanPages →
          ∀ id ∈ w.openTxs, o.orphanedAt ≤ id) ∧
        ∀ id, Engine.allocatePage (.new s.engine w.context) = .ok id t →
          (∃ o, s.orphans = o :: t.engine.metaManager.orphanPages ∧ id = o.pageId) ∨
          t.engine.metaManager = s.engine.metaManager ∧
            id = s.engine.pageManager.pageCount + 1 := by
  have h : s.Sorted := by
    induction hs with
    | refl => exact .of_new pages hm₀
    | tail _ hstep ih => exact ih.step hstep
  refine ⟨h.ascending, fun w hw ↦ ?_⟩
  obtain ⟨hmem, hle⟩ := h.threshold w hw
  refine ⟨s.engine.aliveSnapshot, hmem, hle, fun t ht ↦ ?_⟩
  have hmeta : t.engine.metaManager =
      (s.engine.metaManager.pop s.engine.aliveSnapshot).2 := by
    rcases ht with ⟨id, ht⟩ | ⟨e, ht⟩
    · obtain ⟨o, m, hpop, -, -, -, rfl⟩ | ⟨m, hpop, -, -, rfl⟩ := allocatePage_eq_ok ht
      · exact (congrArg Prod.snd hpop).symm
      · exact (congrArg Prod.snd hpop).symm
    · exact metaManager_allocatePage_error ht
  cases hpop : s.engine.metaManager.pop s.engine.aliveSnapshot with
  | mk popped m =>
    have hm : t.engine.metaManager = m := by rw [hmeta, hpop]
    cases popped with
    | some o =>
      obtain ⟨hq, ho⟩ := h.pop_alive.1 o m hpop
      rw [← hm] at hq
      refine ⟨⟨fun _ ↦ ⟨o, hq⟩, fun _ ↦ ⟨o, by rw [hq]; exact List.mem_cons_self, ho⟩⟩, ?_, ?_⟩
      · intro o' hq' id hid
        rw [hq] at hq'
        cases hq'
        exact ho.trans (hle id hid)
      · intro id hok
        obtain ⟨o', m', hpop', rfl, -⟩ | ⟨m', hpop', -⟩ := allocatePage_eq_ok hok
        · rw [hpop] at hpop'
          cases hpop'
          exact .inl ⟨o, hq, rfl⟩
        · rw [hpop] at hpop'
          cases hpop'
    | none =>
      obtain ⟨rfl, hyoung⟩ := h.pop_alive.2 m hpop
      have hlist : ∀ o, s.orphans ≠ o :: t.engine.metaManager.orphanPages := by
        intro o hq
        have := congrArg List.length hq
        rw [hm, List.length_cons, Session.orphans] at this
        omega
      refine ⟨⟨?_, fun ⟨o, hq⟩ ↦ absurd hq (hlist o)⟩, fun o hq ↦ absurd hq (hlist o), ?_⟩
      · rintro ⟨o, ho, hold⟩
        have := hyoung o ho
        omega
      · intro id hok
        obtain ⟨o', m', hpop', -⟩ | ⟨m', -, hid, -⟩ := allocatePage_eq_ok hok
        · rw [hpop] at hpop'
          cases hpop'
        · exact .inr ⟨hm, hid⟩

set_option maxRecDepth 10000 in
/-- The second writer recycles what the first has orphaned. -/
theorem recycling_exact_second :
    letI := fxSlotHash
    ∃ (pages : PageManager Unit) (s : Session Unit) (w : Writer) (t : State Unit),
      Relation.ReflTransGen Calls (Session.opened pages Meta.opened) s ∧ s.writer = some w ∧
      w.openTxs = [1] ∧ s.orphans = [⟨7, 1⟩] ∧
      Engine.allocatePage (.new s.engine w.context) = .ok 7 t ∧
      t.engine.metaManager.orphanPages = [] := by
  let _ := fxSlotHash
  let pages : PageManager Unit := ⟨fun _ ↦ ⟨.unused, ()⟩, 7, 7⟩
  have hrun : ∃ (s : Session Unit) (w : Writer) (t : State Unit),
      Relation.ReflTransGen Calls (Session.opened pages Meta.opened) s ∧ s.writer = some w ∧
      w.openTxs = [1] ∧ s.orphans = [⟨7, 1⟩] ∧
      Engine.allocatePage (.new s.engine w.context) = .ok 7 t := by
    refine ⟨_, _, _, ((((Relation.ReflTransGen.refl).tail (.beginRw rfl rfl)).tail
      (@Calls.orphanPage _ _ _ _ _ 7 _ rfl rfl)).tail (.commit rfl rfl)).tail (.beginRw rfl rfl),
      rfl, rfl, rfl, rfl⟩
  obtain ⟨s, w, t, hs, hw, hopen, hlist, hok⟩ := hrun
  obtain ⟨low, hlow, -, hall⟩ := (recycling_exact fromFile_new hs).2 w hw
  rw [hopen, List.mem_singleton] at hlow
  obtain ⟨o, ho⟩ := (hall t (.inl ⟨7, hok⟩)).1.mp
    ⟨⟨7, 1⟩, by rw [hlist]; exact List.mem_singleton.mpr rfl, by rw [hlow]⟩
  rw [hlist] at ho
  exact ⟨pages, s, w, t, hs, hw, hopen, hlist, hok, (List.cons.inj ho).2.symm⟩

end TrieDb.Database

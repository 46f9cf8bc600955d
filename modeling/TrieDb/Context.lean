import TrieDb.Meta.Manager

/-!
# Transaction context

`src/context.rs`: the private copy of the metadata a transaction works on, and the cache of the
locations of contract accounts (`B512Map`), a map from account paths to a page and a cell.
Snapshot ids and page ids are natural numbers; zero is not a page id.
-/

namespace TrieDb

open Meta

/-- `TransactionContext`, without the metrics. -/
structure TransactionContext where
  snapshotId : Nat
  rootNodeHash : B256
  rootNodePageId : Option Nat
  pageCount : Nat
  contractAccountLocCache : Nibbles → Option (Nat × Nat) := fun _ ↦ none

namespace TransactionContext

/-- `MetadataSlot::root_node_page_id`: zero is not a page id. -/
def rootOfRaw (raw : Nat) : Option Nat := if raw = 0 then none else some raw

/-- `TransactionContext::new`. -/
def new (slot : MetadataSlot) : TransactionContext where
  snapshotId := slot.snapshotId
  rootNodeHash := slot.rootNodeHash
  rootNodePageId := rootOfRaw slot.rootNodePageId
  pageCount := slot.pageCount

/-- `update_metadata`. -/
def updateMetadata (ctx : TransactionContext) (slot : MetadataSlot) : MetadataSlot :=
  { slot with
    snapshotId := ctx.snapshotId
    rootNodeHash := ctx.rootNodeHash
    rootNodePageId := ctx.rootNodePageId.getD 0
    pageCount := ctx.pageCount }

/-- `clear_cache`. -/
def clearCache (ctx : TransactionContext) : TransactionContext :=
  { ctx with contractAccountLocCache := fun _ ↦ none }

end TransactionContext

/-- The metadata part of `StorageEngine::commit`. -/
def commitMetadata [SlotHash] (m : MetadataManager) (ctx : TransactionContext) :
    MetadataManager := (m.modifyDirty ctx.updateMetadata).commit

/-! ### What the operations on the dirty slot leave alone -/

namespace Meta.MetadataManager

open TransactionContext

/-- A push changes nothing a context is made of. -/
theorem new_dirty_push {m m' : MetadataManager} {o : OrphanPage} (h : m.push o = some m') :
    new m'.dirty.slot = new m.dirty.slot ∧ m'.active = m.active := by
  have hpush {n n' : MetadataManager} (h : n.pushWithinCapacity o = some n') :
      new n'.dirty.slot = new n.dirty.slot ∧ n'.active = n.active := by
    simp only [pushWithinCapacity] at h
    split at h
    · cases h
      simp [new]
    · cases h
  simp only [push] at h
  split at h
  · next hp =>
    cases h
    exact hpush hp
  · exact hpush (n := m.grow) h

/-- A pop changes nothing a context is made of. -/
theorem new_dirty_pop {m m' : MetadataManager} {t : Nat} {o : Option OrphanPage}
    (h : m.pop t = (o, m')) :
    new m'.dirty.slot = new m.dirty.slot ∧ m'.active = m.active := by
  simp only [pop] at h
  split at h
  · split at h
    · cases h
      simp [new]
    · cases h
      exact ⟨rfl, rfl⟩
  · cases h
    exact ⟨rfl, rfl⟩

/-- A popped orphan met the threshold. -/
theorem orphanedAt_le_of_pop {m m' : MetadataManager} {t : Nat} {o : OrphanPage}
    (h : m.pop t = (some o, m')) : o.orphanedAt ≤ t := by
  simp only [pop] at h
  split at h
  · split at h
    · next hc =>
      cases h
      exact hc.2
    · cases h
  · cases h

private theorem new_dirty_compactOrphans (m : MetadataManager) :
    new m.compactOrphans.dirty.slot = new m.dirty.slot := by
  simp only [compactOrphans]
  split
  · simp [new]
  · rfl

variable [SlotHash]

/-- A commit makes the context's state the active one. -/
theorem new_active_commitMetadata (m : MetadataManager) (ctx : TransactionContext) :
    new (commitMetadata m ctx).active.slot =
      { snapshotId := ctx.snapshotId
        rootNodeHash := ctx.rootNodeHash
        rootNodePageId := rootOfRaw (ctx.rootNodePageId.getD 0)
        pageCount := ctx.pageCount } := by
  have h := new_dirty_compactOrphans (m.modifyDirty ctx.updateMetadata)
  simp only [commitMetadata, commit, active_populateDirtySlot]
  simp only [MetadataManager.active, setSlot, Function.update_self, HashedMetadataSlot.updateHash]
  rw [h, dirty_modifyDirty]
  rfl

/-- A commit prepares the dirty slot for the next snapshot. -/
theorem dirty_commitMetadata (m : MetadataManager) (ctx : TransactionContext) :
    (commitMetadata m ctx).dirty.slot = (commitMetadata m ctx).active.slot.incSnapshotId := by
  simp only [commitMetadata, commit, dirty_populateDirtySlot, active_populateDirtySlot]

end Meta.MetadataManager

end TrieDb

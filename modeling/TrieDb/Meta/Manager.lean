import Mathlib.Logic.Function.Basic
import TrieDb.Meta.Slots

/-!
# Metadata manager and orphan page list

`src/meta/mod.rs:369–691`. The manager maps the file and remembers which slot is active; the
other slot is dirty and becomes active on commit. Both slots describe ranges of the one list of
orphan pages. File operations are taken to succeed.
-/

namespace TrieDb.Meta

/-- `MetadataManager`: the mapped file and the index of the slot last committed. -/
structure MetadataManager where
  file : MetaFile
  activeSlot : SlotIndex

namespace MetadataManager

/-- `active_slot`. -/
def active (m : MetadataManager) : HashedMetadataSlot := m.file.slots m.activeSlot

/-- `dirty_slot`. -/
def dirty (m : MetadataManager) : HashedMetadataSlot := m.file.slots m.activeSlot.not

/-- Store a whole slot of the mapped file. -/
def setSlot (m : MetadataManager) (i : SlotIndex) (s : HashedMetadataSlot) : MetadataManager :=
  { m with file := { m.file with slots := Function.update m.file.slots i s } }

/-- Replace the list of the mapped file. -/
def setOrphans (m : MetadataManager) (list : List OrphanPage) : MetadataManager :=
  { m with file := { m.file with orphans := list } }

/-- `dirty_slot_mut`, with the change made through the returned reference. -/
def modifyDirty (m : MetadataManager) (f : MetadataSlot → MetadataSlot) : MetadataManager :=
  m.setSlot m.activeSlot.not { m.dirty with slot := f m.dirty.slot }

/-- `populate_dirty_slot`: copy the active slot, hash included, and increase the snapshot id. -/
def populateDirtySlot (m : MetadataManager) : MetadataManager :=
  m.setSlot m.activeSlot.not { m.active with slot := m.active.slot.incSnapshotId }

/-- `from_file`: pick the latest consistent slot and prepare the other one for writing. -/
def fromFile [SlotHash] (f : MetaFile) : Except OpenMetadataError MetadataManager :=
  match f.latestSlotIndex with
  | .ok i => .ok (populateDirtySlot ⟨f, i⟩)
  | .error e => .error e

/-- The list entries a slot describes as orphans (`actual_orphans_range`). -/
def orphansOf (f : MetaFile) (s : MetadataSlot) : List OrphanPage :=
  (f.orphans.take s.orphanPagesLen).drop s.reclaimedOrphansLen

/-- `orphan_pages().iter()`. -/
def orphanPages (m : MetadataManager) : List OrphanPage := orphansOf m.file m.dirty.slot

/-- `grow`: double the file, which appends zeroed entries to the list. -/
def grow (m : MetadataManager) : MetadataManager :=
  m.setOrphans (m.file.orphans ++ List.replicate (m.file.orphans.length + 8) ⟨0, 0⟩)

/-- `push_within_capacity`; `none` is the error. -/
def pushWithinCapacity (m : MetadataManager) (o : OrphanPage) : Option MetadataManager :=
  let stop := m.dirty.slot.orphanPagesLen
  if stop < m.file.orphans.length then
    some ((m.setOrphans (m.file.orphans.set stop o)).modifyDirty
      fun s ↦ { s with orphanPagesLen := s.orphanPagesLen + 1 })
  else none

/-- `push`; `none` is the panic after growing. -/
def push (m : MetadataManager) (o : OrphanPage) : Option MetadataManager :=
  match m.pushWithinCapacity o with
  | some m' => some m'
  | none => m.grow.pushWithinCapacity o

/-- `pop`: reclaim the head of the list if it was orphaned at or before the threshold. -/
def pop (m : MetadataManager) (snapshotThreshold : Nat) : Option OrphanPage × MetadataManager :=
  let d := m.dirty.slot
  match m.file.orphans[d.reclaimedOrphansLen]? with
  | some o =>
    if d.reclaimedOrphansLen < d.orphanPagesLen ∧ o.orphanedAt ≤ snapshotThreshold then
      (some o, m.modifyDirty fun s ↦
        { s with reclaimedOrphansLen := s.reclaimedOrphansLen + 1 })
    else (none, m)
  | none => (none, m)

/-- `compact_orphans`: when the entries reclaimed as of the active slot leave enough room, move
the dirty slot's orphans to the front of the list. -/
def compactOrphans (m : MetadataManager) : MetadataManager :=
  let orphans := m.orphanPages
  if orphans.length ≤ m.active.slot.reclaimedOrphansLen then
    (m.setOrphans (orphans ++ m.file.orphans.drop orphans.length)).modifyDirty
      fun s ↦ { s with orphanPagesLen := orphans.length, reclaimedOrphansLen := 0 }
  else m

/-- `commit`: compact, hash the dirty slot, swap the slots and prepare the new dirty one. -/
def commit [SlotHash] (m : MetadataManager) : MetadataManager :=
  let m := m.compactOrphans
  let m := m.setSlot m.activeSlot.not m.dirty.updateHash
  populateDirtySlot { m with activeSlot := m.activeSlot.not }

/-! ### Slot access -/

/-- Writing a slot does not switch the active one. -/
@[simp] theorem activeSlot_setSlot (m : MetadataManager) (i : SlotIndex)
    (s : HashedMetadataSlot) : (m.setSlot i s).activeSlot = m.activeSlot := rfl

/-- Writing a slot leaves the orphan array alone. -/
@[simp] theorem orphans_setSlot (m : MetadataManager) (i : SlotIndex) (s : HashedMetadataSlot) :
    (m.setSlot i s).file.orphans = m.file.orphans := rfl

/-- Writing the dirty slot leaves the active one alone. -/
@[simp] theorem active_setSlot_not (m : MetadataManager) (s : HashedMetadataSlot) :
    (m.setSlot m.activeSlot.not s).active = m.active :=
  Function.update_of_ne (Ne.symm (SlotIndex.not_ne _)) _ _

/-- The dirty slot is what has been written. -/
@[simp] theorem dirty_setSlot_not (m : MetadataManager) (s : HashedMetadataSlot) :
    (m.setSlot m.activeSlot.not s).dirty = s := Function.update_self _ _ _

/-- Writing the orphan array does not switch the active slot. -/
@[simp] theorem activeSlot_setOrphans (m : MetadataManager) (l : List OrphanPage) :
    (m.setOrphans l).activeSlot = m.activeSlot := rfl

/-- Writing the orphan array leaves the active slot alone. -/
@[simp] theorem active_setOrphans (m : MetadataManager) (l : List OrphanPage) :
    (m.setOrphans l).active = m.active := rfl

/-- Writing the orphan array leaves the dirty slot alone. -/
@[simp] theorem dirty_setOrphans (m : MetadataManager) (l : List OrphanPage) :
    (m.setOrphans l).dirty = m.dirty := rfl

/-- The orphan array is what has been written. -/
@[simp] theorem orphans_setOrphans (m : MetadataManager) (l : List OrphanPage) :
    (m.setOrphans l).file.orphans = l := rfl

/-- Changing the dirty slot does not switch the active one. -/
@[simp] theorem activeSlot_modifyDirty (m : MetadataManager) (f : MetadataSlot → MetadataSlot) :
    (m.modifyDirty f).activeSlot = m.activeSlot := rfl

/-- Changing the dirty slot leaves the orphan array alone. -/
@[simp] theorem orphans_modifyDirty (m : MetadataManager) (f : MetadataSlot → MetadataSlot) :
    (m.modifyDirty f).file.orphans = m.file.orphans := rfl

/-- Changing the dirty slot leaves the active one alone. -/
@[simp] theorem active_modifyDirty (m : MetadataManager) (f : MetadataSlot → MetadataSlot) :
    (m.modifyDirty f).active = m.active := active_setSlot_not m _

/-- The dirty slot is changed. -/
@[simp] theorem dirty_modifyDirty (m : MetadataManager) (f : MetadataSlot → MetadataSlot) :
    (m.modifyDirty f).dirty = { m.dirty with slot := f m.dirty.slot } := dirty_setSlot_not m _

/-- Preparing the dirty slot leaves the active one alone. -/
@[simp] theorem active_populateDirtySlot (m : MetadataManager) :
    m.populateDirtySlot.active = m.active := active_setSlot_not m _

/-- The dirty slot is prepared from the active one. -/
@[simp] theorem dirty_populateDirtySlot (m : MetadataManager) :
    m.populateDirtySlot.dirty = { m.active with slot := m.active.slot.incSnapshotId } :=
  dirty_setSlot_not m _

/-- Preparing the dirty slot leaves the orphan array alone. -/
@[simp] theorem orphans_populateDirtySlot (m : MetadataManager) :
    m.populateDirtySlot.file.orphans = m.file.orphans := rfl

/-- Preparing the dirty slot does not switch the active one. -/
@[simp] theorem activeSlot_populateDirtySlot (m : MetadataManager) :
    m.populateDirtySlot.activeSlot = m.activeSlot := rfl

/-! ### The list as a queue -/

/-- The dirty slot describes a range of the list. -/
def RangeWF (m : MetadataManager) : Prop :=
  m.dirty.slot.reclaimedOrphansLen ≤ m.dirty.slot.orphanPagesLen ∧
    m.dirty.slot.orphanPagesLen ≤ m.file.orphans.length

/-- A push within the capacity appends to the queue. -/
private theorem orphanPages_pushWithinCapacity {m m' : MetadataManager} {o : OrphanPage}
    (hw : m.RangeWF) (h : m.pushWithinCapacity o = some m') :
    m'.orphanPages = m.orphanPages ++ [o] ∧ m'.RangeWF ∧ m'.active = m.active ∧
      m'.dirty.slot.snapshotId = m.dirty.slot.snapshotId := by
  obtain ⟨hle, hcap⟩ := hw
  simp only [pushWithinCapacity] at h
  split at h
  · next hlt =>
    cases h
    refine ⟨?_, ?_, by simp, by simp⟩
    · simp only [orphanPages, orphansOf, orphans_modifyDirty, dirty_modifyDirty,
        orphans_setOrphans, dirty_setOrphans]
      rw [List.take_succ_eq_append_getElem (by simpa using hlt),
        List.take_set_of_le (Nat.le_refl _),
        List.getElem_set_self, List.drop_append_of_le_length (by simp; omega)]
    · refine ⟨?_, ?_⟩
      · simp only [dirty_modifyDirty]
        exact Nat.le_succ_of_le hle
      · simp only [dirty_modifyDirty, orphans_modifyDirty, orphans_setOrphans, List.length_set]
        exact hlt
  · cases h

/-- Growing changes neither slot nor queue. -/
theorem orphanPages_grow {m : MetadataManager} (hw : m.RangeWF) :
    m.grow.orphanPages = m.orphanPages ∧ m.grow.RangeWF := by
  obtain ⟨hle, hcap⟩ := hw
  refine ⟨?_, hle, ?_⟩
  · simp only [orphanPages, orphansOf, grow, orphans_setOrphans, dirty_setOrphans]
    rw [List.take_append_of_le_length hcap]
  · simp only [grow, orphans_setOrphans, dirty_setOrphans, List.length_append]
    omega

/-- A push appends to the queue. -/
theorem orphanPages_push {m m' : MetadataManager} {o : OrphanPage} (hw : m.RangeWF)
    (h : m.push o = some m') :
    m'.orphanPages = m.orphanPages ++ [o] ∧ m'.RangeWF ∧ m'.active = m.active ∧
      m'.dirty.slot.snapshotId = m.dirty.slot.snapshotId := by
  simp only [push] at h
  split at h
  · next m'' hp =>
    cases h
    exact orphanPages_pushWithinCapacity hw hp
  · obtain ⟨hg, hgw⟩ := orphanPages_grow hw
    obtain ⟨hq, hq', ha, hs⟩ := orphanPages_pushWithinCapacity hgw h
    exact ⟨by rw [hq, hg], hq', ha, hs⟩

/-- After growing there is always room: `push` never panics. -/
theorem push_isSome {m : MetadataManager} (o : OrphanPage) (hw : m.RangeWF) :
    (m.push o).isSome := by
  simp only [push]
  split
  · rfl
  · have hlt : m.grow.dirty.slot.orphanPagesLen < m.grow.file.orphans.length := by
      have := hw.2
      simp only [grow, orphans_setOrphans, dirty_setOrphans, List.length_append,
        List.length_replicate]
      omega
    simp [pushWithinCapacity, hlt]

/-- A successful pop returns the head of the queue, which met the threshold. -/
theorem orphanPages_pop_some {m m' : MetadataManager} {t : Nat} {o : OrphanPage}
    (hw : m.RangeWF) (h : m.pop t = (some o, m')) :
    m.orphanPages = o :: m'.orphanPages ∧ o.orphanedAt ≤ t ∧ m'.RangeWF ∧
      m'.active = m.active ∧ m'.dirty.slot.snapshotId = m.dirty.slot.snapshotId := by
  simp only [pop] at h
  split at h
  · next o' ho =>
    split at h
    · next hc =>
      cases h
      obtain ⟨hlt, ht⟩ := hc
      have ⟨hb, hget⟩ := List.getElem?_eq_some_iff.mp ho
      refine ⟨?_, ht, ⟨?_, ?_⟩, by simp, by simp⟩
      · have hlen : m.dirty.slot.reclaimedOrphansLen <
            (m.file.orphans.take m.dirty.slot.orphanPagesLen).length := by
          rw [List.length_take]
          exact Nat.lt_min.mpr ⟨hlt, hb⟩
        simp only [orphanPages, orphansOf, orphans_modifyDirty, dirty_modifyDirty]
        rw [List.drop_eq_getElem_cons hlen, List.getElem_take, hget]
      · simp only [dirty_modifyDirty]
        exact hlt
      · simpa using hw.2
    · cases h
  · cases h

/-- A pop that returns nothing changes nothing, and the queue's head is above the threshold. -/
theorem pop_none {m m' : MetadataManager} {t : Nat} (hw : m.RangeWF)
    (h : m.pop t = (none, m')) :
    m' = m ∧ ∀ o ∈ m.orphanPages.head?, t < o.orphanedAt := by
  simp only [pop] at h
  split at h
  · next o ho =>
    split at h
    · cases h
    · next hc =>
      cases h
      refine ⟨rfl, ?_⟩
      intro o' ho'
      by_cases hlt : m.dirty.slot.reclaimedOrphansLen < m.dirty.slot.orphanPagesLen
      · simp only [orphanPages, orphansOf, List.head?_drop, List.getElem?_take, hlt, if_true, ho,
          Option.mem_def, Option.some.injEq] at ho'
        subst ho'
        exact Nat.lt_of_not_le fun hle ↦ hc ⟨hlt, hle⟩
      · simp only [orphanPages, orphansOf, List.head?_drop, List.getElem?_take, hlt, if_false,
          Option.mem_def] at ho'
        cases ho'
  · next hn =>
    cases h
    refine ⟨rfl, ?_⟩
    intro o' ho'
    have := List.getElem?_eq_none_iff.mp hn
    have := hw.1
    have := hw.2
    simp only [orphanPages, orphansOf, List.head?_drop, List.getElem?_take, Option.mem_def] at ho'
    split at ho'
    · omega
    · cases ho'

end MetadataManager

end TrieDb.Meta

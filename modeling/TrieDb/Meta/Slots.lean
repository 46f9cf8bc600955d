import TrieDb.Alloy.Primitives

/-!
# Metadata slots

`src/meta/mod.rs:85–350`: the fixed part of the metadata, kept in two copies, the hash that
tells a torn copy from a complete one, and the choice of the copy to reopen from.
Counters are natural numbers; the file never gets near the ends of `u32` and `u64`.
The slot hash (`fxhash::hash64`) is a parameter.
-/

namespace TrieDb.Meta

/-- Index of one of the two metadata slots (`SlotIndex`). -/
inductive SlotIndex where
  | zero
  | one
  deriving DecidableEq

/-- `Not for SlotIndex`: the other slot. -/
def SlotIndex.not : SlotIndex → SlotIndex
  | zero => one
  | one => zero

/-- The other slot is a different one. -/
theorem SlotIndex.not_ne (i : SlotIndex) : i.not ≠ i := by cases i <;> simp [SlotIndex.not]

/-- The two slots alternate. -/
@[simp] theorem SlotIndex.not_not (i : SlotIndex) : i.not.not = i := by cases i <;> rfl

/-- Every slot is one of a given slot and the other one. -/
theorem SlotIndex.eq_or_eq_not (i j : SlotIndex) : i = j ∨ i = j.not := by
  cases i <;> cases j <;> simp [SlotIndex.not]

/-- `MetadataSlot`: the fixed-size metadata, without its hash. `rootNodePageId` is a
`RawPageId`, where zero stands for no root page. -/
structure MetadataSlot where
  snapshotId : Nat
  rootNodeHash : B256
  rootNodePageId : Nat
  pageCount : Nat
  orphanPagesLen : Nat
  reclaimedOrphansLen : Nat
  deriving DecidableEq

namespace MetadataSlot

/-- The slot whose bytes are all zero. -/
def zero : MetadataSlot := ⟨0, B256.zero, 0, 0, 0, 0⟩

/-- `inc_snapshot_id`. -/
def incSnapshotId (s : MetadataSlot) : MetadataSlot := { s with snapshotId := s.snapshotId + 1 }

end MetadataSlot

/-- The 64-bit hash of a slot's bytes (`fxhash::hash64`). -/
class SlotHash where
  hash64 : MetadataSlot → UInt64

/-- `HashedMetadataSlot`: the fixed-size metadata with the hash stored next to it. -/
structure HashedMetadataSlot where
  slot : MetadataSlot
  hash : UInt64
  deriving DecidableEq

namespace HashedMetadataSlot

/-- The uninitialized slot. -/
def zero : HashedMetadataSlot := ⟨.zero, 0⟩

/-- `is_empty`: every byte of the slot is zero. -/
def isEmpty (s : HashedMetadataSlot) : Bool := s == zero

variable [SlotHash]

/-- `update_hash`. -/
def updateHash (s : HashedMetadataSlot) : HashedMetadataSlot :=
  { s with hash := SlotHash.hash64 s.slot }

/-- `verify_integrity`: an uninitialized slot is valid; any other needs reclaimed pages within
the orphan list and a matching hash. -/
def verifyIntegrity (s : HashedMetadataSlot) : Bool :=
  s.isEmpty ||
    !(decide (s.slot.orphanPagesLen < s.slot.reclaimedOrphansLen)) &&
      s.hash == SlotHash.hash64 s.slot

/-- A slot that fails or passes verification, spelled out. -/
theorem verifyIntegrity_iff (s : HashedMetadataSlot) :
    s.verifyIntegrity = true ↔
      s = zero ∨ s.slot.reclaimedOrphansLen ≤ s.slot.orphanPagesLen ∧
        s.hash = SlotHash.hash64 s.slot := by
  simp [verifyIntegrity, isEmpty]

end HashedMetadataSlot

/-- `OrphanPage`: a page that is no longer in use, with the snapshot that orphaned it. -/
structure OrphanPage where
  pageId : Nat
  orphanedAt : Nat
  deriving DecidableEq

/-- The mapped metadata file: the two slots, then the list of orphan pages up to the end of
the file. -/
structure MetaFile where
  slots : SlotIndex → HashedMetadataSlot
  orphans : List OrphanPage

/-- `OpenMetadataError`, without the I/O errors. -/
inductive OpenMetadataError where
  | corrupted
  deriving DecidableEq

namespace MetaFile

/-- A new file of `SIZE_MIN` zero bytes: two slots of 64 bytes and room for 248 orphans. -/
def new : MetaFile := ⟨fun _ ↦ .zero, List.replicate 248 ⟨0, 0⟩⟩

/-- `latest_slot_index`: the most recent slot among the consistent ones. -/
def latestSlotIndex [SlotHash] (f : MetaFile) : Except OpenMetadataError SlotIndex :=
  let s0 := f.slots .zero
  let s1 := f.slots .one
  if s0.isEmpty && s1.isEmpty then .ok .zero
  else match s0.verifyIntegrity, s1.verifyIntegrity with
    | true, false => .ok .zero
    | false, true => .ok .one
    | false, false => .error .corrupted
    | true, true =>
      if s1.slot.snapshotId < s0.slot.snapshotId then .ok .zero
      else if s0.slot.snapshotId < s1.slot.snapshotId then .ok .one
      -- equal snapshot ids are only accepted for identical slots
      else if s0 = s1 then .ok .zero else .error .corrupted

end MetaFile

end TrieDb.Meta

import TrieDb.Base.Runs
import TrieDb.Context
import TrieDb.Meta.Crash

/-!
# Diagnostics on an open database

`src/storage/debug.rs:505–596, 780–807`: `database_consistency_check` and `root_page_info` open a
second `MetadataManager` on the metadata file, which both managers map. Opening prepares the dirty
slot for writing, so that what a running transaction has stored there is overwritten.
-/

namespace TrieDb.Meta

open MetadataManager Base

section
variable [SlotHash]

/-- The metadata part of a diagnostic: the file after it has been opened once more. -/
def diagnose (m : MetadataManager) : MetadataManager :=
  match fromFile m.file with
  | .ok opened => { m with file := opened.file }
  | .error _ => m

/-- What an open database does to its metadata, and diagnostics at any point in between. -/
inductive Access where
  | push (o : OrphanPage)
  | pop (snapshotThreshold : Nat)
  | commit (ctx : TransactionContext)
  | diagnose

/-- The manager, and whether a page has been orphaned or recycled since the last commit. -/
structure Session where
  manager : MetadataManager
  touched : Bool

/-- The steps of a session. -/
inductive Session.Step : Session → Access → Session → Prop
  | push {m m' : MetadataManager} {t : Bool} {o : OrphanPage} (h : m.push o = some m') :
      Step ⟨m, t⟩ (.push o) ⟨m', true⟩
  | pop {m m' : MetadataManager} {t : Bool} {threshold : Nat} {o : Option OrphanPage}
      (h : m.pop threshold = (o, m')) : Step ⟨m, t⟩ (.pop threshold) ⟨m', t || o.isSome⟩
  | commit {m : MetadataManager} {t : Bool} {ctx : TransactionContext} :
      Step ⟨m, t⟩ (.commit ctx) ⟨commitMetadata m ctx, false⟩
  | diagnose {m : MetadataManager} {t : Bool} : Step ⟨m, t⟩ .diagnose ⟨Meta.diagnose m, t⟩

/-- The slot hash tells the two slots of the file apart. -/
def Session.Separated (s : Session) : Prop :=
  CollisionFree [s.manager.active.slot, s.manager.dirty.slot]

/-- Diagnostics run only while no page has been orphaned or recycled since the last commit. -/
def Session.Calm (s : Session) (a : Access) : Prop :=
  a = .diagnose → s.touched = false ∧ s.Separated

/-- What holds throughout a session. -/
structure Session.Inv (s : Session) : Prop where
  idle : Idle (start s.manager)
  snapshotId : s.manager.dirty.slot.snapshotId = s.manager.active.slot.snapshotId + 1
  settled : s.touched = false →
    s.manager.dirty = { s.manager.active with slot := s.manager.active.slot.incSnapshotId }
  touched : s.touched = true →
    s.manager.active.slot.orphanPagesLen + s.manager.active.slot.reclaimedOrphansLen <
      s.manager.dirty.slot.orphanPagesLen + s.manager.dirty.slot.reclaimedOrphansLen

private theorem Settled.inv {m : MetadataManager} (h : Settled m) : Session.Inv ⟨m, false⟩ := by
  refine ⟨h.idle, ?_, fun _ ↦ h.dirty, fun ht ↦ nomatch ht⟩
  simp only [h.dirty]
  rfl

omit [SlotHash] in
/-- A push changes one length of the dirty slot. -/
private theorem slots_push {m m' : MetadataManager} {o : OrphanPage} (h : m.push o = some m') :
    m'.active = m.active ∧ m'.dirty = { m.dirty with
      slot := { m.dirty.slot with orphanPagesLen := m.dirty.slot.orphanPagesLen + 1 } } := by
  have hpush {n n' : MetadataManager} (h : n.pushWithinCapacity o = some n') :
      n'.active = n.active ∧ n'.dirty = { n.dirty with
        slot := { n.dirty.slot with orphanPagesLen := n.dirty.slot.orphanPagesLen + 1 } } := by
    simp only [pushWithinCapacity] at h
    split at h
    · cases h
      exact ⟨by simp, by simp⟩
    · cases h
  simp only [MetadataManager.push] at h
  split at h
  · next hp =>
    cases h
    exact hpush hp
  · exact hpush (n := m.grow) h

omit [SlotHash] in
/-- A pop that returns a page changes one length of the dirty slot. -/
private theorem slots_pop {m m' : MetadataManager} {t : Nat} {o : Option OrphanPage}
    (h : m.pop t = (o, m')) :
    m'.active = m.active ∧ m'.dirty = { m.dirty with slot := { m.dirty.slot with
      reclaimedOrphansLen := m.dirty.slot.reclaimedOrphansLen + o.toList.length } } := by
  simp only [MetadataManager.pop] at h
  split at h
  · split at h
    · cases h
      exact ⟨by simp, by simp⟩
    · cases h
      exact ⟨rfl, rfl⟩
  · cases h
    exact ⟨rfl, rfl⟩

/-- The committed state of an idle point is in its file. -/
private theorem Idle.start_eq {p : Point} (h : Idle p) : Idle (start p.manager) := by
  have hp : start p.manager = p := by
    rw [start, ← h.committed]
  rwa [hp]

/-- The dirty slot does not verify, so the file is opened from the slot last committed. -/
private theorem Session.Inv.latestSlotIndex {s : Session} (h : s.Inv) (hx : s.Separated) :
    s.manager.file.latestSlotIndex = .ok s.manager.activeSlot := by
  have hne : s.manager.dirty ≠ s.manager.active := by
    intro he
    have := h.snapshotId
    rw [he] at this
    omega
  have hnot : s.manager.dirty.verifyIntegrity ≠ true := by
    intro hd
    exact hne (eq_of_stale_hash hx h.idle.verified (by simp) (by simp) h.idle.stale hd)
  obtain ⟨j, hj, hslot⟩ := latestSlotIndex_of_other s.manager.file s.manager.activeSlot
    h.idle.verified fun hd ↦ absurd hd hnot
  obtain rfl | rfl := SlotIndex.eq_or_eq_not j s.manager.activeSlot
  · exact hj
  · exact absurd hslot hne

/-- A diagnostic resets the dirty slot. -/
private theorem Session.Inv.diagnose_eq {s : Session} (h : s.Inv) (hx : s.Separated) :
    Meta.diagnose s.manager = s.manager.populateDirtySlot := by
  simp only [Meta.diagnose, fromFile, h.latestSlotIndex hx]
  rfl

private theorem Session.Inv.diagnose_of_untouched {s : Session} (h : s.Inv) (hx : s.Separated)
    (ht : s.touched = false) : Meta.diagnose s.manager = s.manager := by
  rw [h.diagnose_eq hx, populateDirtySlot, ← h.settled ht, setSlot, MetadataManager.dirty,
    Function.update_eq_self]

private theorem Session.Inv.step {s s' : Session} {a : Access} (h : s.Inv) (hcalm : s.Calm a)
    (hstep : s.Step a s') : s'.Inv := by
  cases hstep with
  | push hm =>
    obtain ⟨ha, hd⟩ := slots_push hm
    have hidle := Idle.push h.idle hm
    have h1 := hidle.reclaimed_mono
    have h2 := h.idle.len_mono
    refine ⟨hidle.start_eq, ?_, (fun ht ↦ nomatch ht), fun _ ↦ ?_⟩
    · simp only [ha, hd]
      exact h.snapshotId
    · simp only [ha, hd, start] at h1 h2 ⊢
      omega
  | @pop m m' t threshold o hm =>
    obtain ⟨ha, hd⟩ := slots_pop hm
    have hidle := Idle.pop h.idle hm
    have h1 := h.idle.reclaimed_mono
    have h2 := h.idle.len_mono
    refine ⟨hidle.start_eq, ?_, fun ht ↦ ?_, fun ht ↦ ?_⟩
    · simp only [ha, hd]
      exact h.snapshotId
    · simp only [Bool.or_eq_false_iff, Option.isSome_eq_false_iff, Option.isNone_iff_eq_none] at ht
      obtain ⟨ht, rfl⟩ := ht
      simp only [ha, hd]
      exact h.settled ht
    · simp only [ha, hd, start] at h1 h2 ⊢
      cases o with
      | none =>
        have := h.touched (by simpa using ht)
        simpa using this
      | some o =>
        simp only [Option.toList_some, List.length_singleton]
        omega
  | @commit m t ctx =>
    have hidle : Idle ⟨m.modifyDirty ctx.updateMetadata, (start m).committed⟩ :=
      Idle.modifyDirty h.idle (fun _ ↦ rfl) fun _ ↦ rfl
    exact hidle.settled_commit.inv
  | diagnose =>
    obtain ⟨ht, hx⟩ := hcalm rfl
    rw [h.diagnose_of_untouched hx ht]
    exact h

end

/-- The manager after a first transaction, which has orphaned a page. -/
def committed : MetadataManager :=
  letI := fxSlotHash
  let m := (opened.push ⟨1, 1⟩).getD opened
  commitMetadata m
    { TransactionContext.new m.dirty.slot with rootNodePageId := some 2, pageCount := 2 }

end TrieDb.Meta

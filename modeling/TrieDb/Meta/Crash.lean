import Mathlib.Data.List.TakeDrop
import TrieDb.Meta.Manager

/-!
# Crash recovery of the metadata

`src/meta/mod.rs:10–62` promises that a stop at any moment leaves a file from which the last
committed state can be reopened. Every operation is refined here into the stores it makes to the
mapped file, in program order; a crash keeps a prefix of the stores of a run. The byte copies of
`populate_dirty_slot` and `compact_orphans` may write their fields and entries in any order.
-/

namespace TrieDb.Meta

open MetadataManager

/-- The separately stored parts of a hashed slot. -/
inductive SlotField where
  | snapshotId
  | rootNodeHash
  | rootNodePageId
  | pageCount
  | orphanPagesLen
  | reclaimedOrphansLen
  | hash
  deriving DecidableEq

/-- Overwrite one field of a slot with that field of another slot. -/
def HashedMetadataSlot.copyField (dst src : HashedMetadataSlot) :
    SlotField → HashedMetadataSlot
  | .snapshotId => { dst with slot := { dst.slot with snapshotId := src.slot.snapshotId } }
  | .rootNodeHash => { dst with slot := { dst.slot with rootNodeHash := src.slot.rootNodeHash } }
  | .rootNodePageId =>
    { dst with slot := { dst.slot with rootNodePageId := src.slot.rootNodePageId } }
  | .pageCount => { dst with slot := { dst.slot with pageCount := src.slot.pageCount } }
  | .orphanPagesLen =>
    { dst with slot := { dst.slot with orphanPagesLen := src.slot.orphanPagesLen } }
  | .reclaimedOrphansLen =>
    { dst with slot := { dst.slot with reclaimedOrphansLen := src.slot.reclaimedOrphansLen } }
  | .hash => { dst with hash := src.hash }

/-- One store to the mapped file. `swap` only flips the manager's own slot index and `setLen`
is the file growth of `grow`. -/
inductive Store where
  | field (i : SlotIndex) (f : SlotField) (src : HashedMetadataSlot)
  | orphan (index : Nat) (o : OrphanPage)
  | setLen
  | updateHash (i : SlotIndex)
  | swap

/-- A moment of a run: the file and slot index, and the last state whose hash `commit` has
written, as its fixed part and its orphan list. -/
structure Point where
  manager : MetadataManager
  committed : MetadataSlot × List OrphanPage

private theorem orphansOf_set (f : MetaFile) (a : MetadataSlot) (k : Nat) (o : OrphanPage)
    (h : k < a.reclaimedOrphansLen ∨ a.orphanPagesLen ≤ k) :
    orphansOf { f with orphans := f.orphans.set k o } a = orphansOf f a := by
  simp only [orphansOf]
  rcases h with h | h
  · rw [List.take_set, List.drop_set_of_lt h]
  · rw [List.take_set_of_le h]

private theorem hash_copyField (d s : HashedMetadataSlot) {f : SlotField} (hf : f ≠ .hash) :
    (d.copyField s f).hash = d.hash := by
  cases f <;> first | rfl | exact absurd rfl hf

private theorem copyField_of_agree {d s : HashedMetadataSlot} {f : SlotField} (g : SlotField)
    (h : d.copyField s f = d) : (d.copyField s g).copyField s f = d.copyField s g := by
  rcases d with ⟨⟨⟩, _⟩
  rcases s with ⟨⟨⟩, _⟩
  cases f <;> cases g <;> simp_all [HashedMetadataSlot.copyField]

private theorem copyField_copyField (d s : HashedMetadataSlot) (f : SlotField) :
    (d.copyField s f).copyField s f = d.copyField s f := by
  cases f <;> rfl

private theorem eq_of_agree {d s : HashedMetadataSlot} (h : ∀ f, d.copyField s f = d) :
    d = s := by
  rcases d with ⟨⟨⟩, _⟩
  rcases s with ⟨⟨⟩, _⟩
  have h1 := h .snapshotId
  have h2 := h .rootNodeHash
  have h3 := h .rootNodePageId
  have h4 := h .pageCount
  have h5 := h .orphanPagesLen
  have h6 := h .reclaimedOrphansLen
  have h7 := h .hash
  simp_all [HashedMetadataSlot.copyField]

private theorem length_orphanPages {m : MetadataManager} (h : m.RangeWF) :
    m.orphanPages.length =
      m.dirty.slot.orphanPagesLen - m.dirty.slot.reclaimedOrphansLen := by
  have := h.2
  simp only [orphanPages, orphansOf, List.length_drop, List.length_take]
  omega

/-- Once every field has been copied, the slot is the source. -/
private theorem foldl_copyField (d n : HashedMetadataSlot) (fs : List SlotField)
    (hf : ∀ f, f ∈ fs ∨ d.copyField n f = d) : fs.foldl (fun d f ↦ d.copyField n f) d = n := by
  induction fs generalizing d with
  | nil => exact eq_of_agree fun f ↦ (hf f).resolve_left List.not_mem_nil
  | cons g gs ih =>
    refine ih _ fun f ↦ ?_
    rcases hf f with hm | ha
    · rcases List.mem_cons.mp hm with rfl | hm
      · exact .inr (copyField_copyField _ _ _)
      · exact .inl hm
    · exact .inr (copyField_of_agree g ha)

/-- The list after the entry stores. -/
private def setEntries (orphans : List OrphanPage) (entries : List Nat) (l : List OrphanPage) :
    List OrphanPage :=
  entries.foldl (fun l k ↦ (orphans[k]?.map (l.set k)).getD l) l

private theorem getElem?_setEntries (orphans : List OrphanPage) (entries : List Nat)
    (l : List OrphanPage) (hl : orphans.length ≤ l.length) (k : Nat) :
    (setEntries orphans entries l)[k]? =
      if k ∈ entries ∧ k < orphans.length then orphans[k]? else l[k]? := by
  induction entries generalizing l with
  | nil => simp [setEntries]
  | cons j js ih =>
    simp only [setEntries, List.foldl_cons] at ih ⊢
    rw [ih _ (by cases orphans[j]? <;> simpa using hl)]
    by_cases hk : k < orphans.length
    · by_cases hjs : k ∈ js
      · simp [hk, hjs]
      · by_cases hj : k = j
        · subst hj
          simp [hk, hjs, Nat.lt_of_lt_of_le hk hl]
        · cases orphans[j]? with
          | none => simp [hj, hjs]
          | some o => simp [hj, hjs, List.getElem?_set_ne (Ne.symm hj)]
    · cases ho : orphans[j]? with
      | none => simp [hk]
      | some o =>
        have hj : j ≠ k := by
          rintro rfl
          exact hk (List.getElem?_eq_some_iff.mp ho).1
        simp [hk, List.getElem?_set_ne hj]

/-- Storing every entry puts the orphans in front of the rest of the list. -/
private theorem setEntries_eq {orphans : List OrphanPage} {entries : List Nat}
    {l : List OrphanPage} (hl : orphans.length ≤ l.length)
    (he : ∀ k < orphans.length, k ∈ entries) :
    setEntries orphans entries l = orphans ++ l.drop orphans.length := by
  apply List.ext_getElem?
  intro k
  rw [getElem?_setEntries _ _ _ hl]
  by_cases hk : k < orphans.length
  · simp [hk, he k hk, List.getElem?_append_left hk]
  · rw [List.getElem?_append_right (by omega), List.getElem?_drop]
    simp [hk, Nat.add_sub_cancel' (Nat.le_of_not_lt hk)]

section
variable [SlotHash]

/-- The effect of one store. -/
def Store.exec (m : MetadataManager) : Store → MetadataManager
  | .field i f src => m.setSlot i ((m.file.slots i).copyField src f)
  | .orphan k o => m.setOrphans (m.file.orphans.set k o)
  | .setLen => m.grow
  | .updateHash i => m.setSlot i (m.file.slots i).updateHash
  | .swap => { m with activeSlot := m.activeSlot.not }

/-- One store, with the hash store of `commit` recorded. -/
def Store.step (p : Point) (s : Store) : Point where
  manager := s.exec p.manager
  committed := match s with
    | .updateHash i =>
      let slot := (p.manager.file.slots i).slot
      (slot, orphansOf p.manager.file slot)
    | _ => p.committed

/-- A sequence of stores. -/
def execAll (p : Point) (stores : List Store) : Point := stores.foldl Store.step p

/-- The operations of a metadata user. The commit carries the order in which the two byte copies
happen to write fields and entries. -/
inductive Op where
  | push (o : OrphanPage)
  | pop (snapshotThreshold : Nat)
  | setSnapshotId (value : Nat)
  | setRootNodeHash (value : B256)
  | setRootNodePageId (value : Nat)
  | setPageCount (value : Nat)
  | commit (fields : List SlotField) (entries : List Nat)

/-- The dirty slot as `compact_orphans` leaves it. -/
def compactedSlot (m : MetadataManager) : HashedMetadataSlot :=
  if m.orphanPages.length ≤ m.active.slot.reclaimedOrphansLen then
    { m.dirty with
      slot := { m.dirty.slot with
        orphanPagesLen := m.orphanPages.length, reclaimedOrphansLen := 0 } }
  else m.dirty

/-- The stores of `compact_orphans`: the two lengths, then the entries. -/
def compactStores (m : MetadataManager) (entries : List Nat) : List Store :=
  if m.orphanPages.length ≤ m.active.slot.reclaimedOrphansLen then
    [.field m.activeSlot.not .orphanPagesLen (compactedSlot m),
      .field m.activeSlot.not .reclaimedOrphansLen (compactedSlot m)] ++
    entries.filterMap fun k ↦ m.orphanPages[k]?.map (Store.orphan k)
  else []

/-- The stores of an operation, in program order. -/
def Op.stores (m : MetadataManager) : Op → List Store
  | .push o =>
    (if m.dirty.slot.orphanPagesLen < m.file.orphans.length then [] else [.setLen]) ++
      [.orphan m.dirty.slot.orphanPagesLen o,
        .field m.activeSlot.not .orphanPagesLen
          { m.dirty with
            slot := { m.dirty.slot with orphanPagesLen := m.dirty.slot.orphanPagesLen + 1 } }]
  | .pop t =>
    match m.pop t with
    | (some _, m') => [.field m.activeSlot.not .reclaimedOrphansLen m'.dirty]
    | (none, _) => []
  | .setSnapshotId v =>
    [.field m.activeSlot.not .snapshotId
      { m.dirty with slot := { m.dirty.slot with snapshotId := v } }]
  | .setRootNodeHash v =>
    [.field m.activeSlot.not .rootNodeHash
      { m.dirty with slot := { m.dirty.slot with rootNodeHash := v } }]
  | .setRootNodePageId v =>
    [.field m.activeSlot.not .rootNodePageId
      { m.dirty with slot := { m.dirty.slot with rootNodePageId := v } }]
  | .setPageCount v =>
    [.field m.activeSlot.not .pageCount
      { m.dirty with slot := { m.dirty.slot with pageCount := v } }]
  | .commit fields entries =>
    let c := (compactedSlot m).updateHash
    compactStores m entries ++
      (.updateHash m.activeSlot.not :: .swap ::
        (fields.map fun f ↦ .field m.activeSlot f c) ++
          [.field m.activeSlot .snapshotId { c with slot := c.slot.incSnapshotId }])

/-- The stores of a run: each operation starts where the one before it ended. -/
def runStores (p : Point) : List Op → List Store
  | [] => []
  | op :: ops => op.stores p.manager ++ runStores (execAll p (op.stores p.manager)) ops

/-- The slot contents that occur while the given stores are made. -/
def contents (p : Point) : List Store → List MetadataSlot
  | [] => [(p.manager.file.slots .zero).slot, (p.manager.file.slots .one).slot]
  | s :: ss => (p.manager.file.slots .zero).slot :: (p.manager.file.slots .one).slot ::
      contents (s.step p) ss

/-- The slot hash tells the listed contents apart, and none of them hashes to the zero word
that marks an uninitialized slot. -/
def CollisionFree (xs : List MetadataSlot) : Prop :=
  (∀ x ∈ xs, ∀ y ∈ xs, SlotHash.hash64 x = SlotHash.hash64 y → x = y) ∧
    ∀ x ∈ xs, x ≠ .zero → SlotHash.hash64 x ≠ 0

/-- A state left by `from_file` or `commit`: a consistent active slot that describes a range of
the list, and a dirty slot that copies it under the next snapshot id. -/
structure Settled (m : MetadataManager) : Prop where
  verified : m.active.verifyIntegrity = true
  dirty : m.dirty = { m.active with slot := m.active.slot.incSnapshotId }
  reclaimed_le : m.active.slot.reclaimedOrphansLen ≤ m.active.slot.orphanPagesLen
  len_le : m.active.slot.orphanPagesLen ≤ m.file.orphans.length

/-- A commit copies every field and every moved entry, in some order. -/
def Op.Complete (m : MetadataManager) : Op → Prop
  | .commit fields entries => (∀ f, f ∈ fields) ∧ ∀ k < m.orphanPages.length, k ∈ entries
  | _ => True

/-- A commit's snapshot id lies above the one of the state it replaces. -/
def Op.Ascending (m : MetadataManager) : Op → Prop
  | .commit _ _ => m.active.slot.snapshotId < m.dirty.slot.snapshotId
  | _ => True

/-- Every operation of the run has the property where it starts. -/
def RunAll (P : MetadataManager → Op → Prop) (p : Point) : List Op → Prop
  | [] => True
  | op :: ops => P p.manager op ∧ RunAll P (execAll p (op.stores p.manager)) ops

/-- The starting point of a run. -/
def start (m : MetadataManager) : Point := ⟨m, m.active.slot, orphansOf m.file m.active.slot⟩

/-- Reopening the file succeeds with the last committed state: its fixed part in the active slot
and its orphan list element for element. The reopened manager can be worked with again. -/
def Recovers (p : Point) : Prop :=
  ∃ m, fromFile p.manager.file = .ok m ∧ Settled m ∧ m.active.slot = p.committed.1 ∧
    m.orphanPages = p.committed.2

/-! ### Slot selection -/

/-- The slot to reopen is the given one when the other is torn, older or identical. -/
theorem latestSlotIndex_of_other (f : MetaFile) (i : SlotIndex)
    (hv : (f.slots i).verifyIntegrity = true)
    (ho : (f.slots i.not).verifyIntegrity = true →
      f.slots i.not = f.slots i ∨
        (f.slots i.not).slot.snapshotId < (f.slots i).slot.snapshotId) :
    ∃ j, f.latestSlotIndex = .ok j ∧ f.slots j = f.slots i := by
  simp only [MetaFile.latestSlotIndex]
  split
  · next he =>
    simp only [HashedMetadataSlot.isEmpty, Bool.and_eq_true, beq_iff_eq] at he
    cases i with
    | zero => exact ⟨.zero, rfl, rfl⟩
    | one => exact ⟨.zero, rfl, he.1.trans he.2.symm⟩
  · cases i with
    | zero =>
      simp only [SlotIndex.not] at ho
      rw [hv]
      cases hw : (f.slots .one).verifyIntegrity with
      | false => exact ⟨.zero, rfl, rfl⟩
      | true =>
        rcases ho hw with heq | hlt
        · simp [heq]
        · simp [hlt]
    | one =>
      simp only [SlotIndex.not] at ho
      rw [hv]
      cases hw : (f.slots .zero).verifyIntegrity with
      | false => exact ⟨.one, rfl, rfl⟩
      | true =>
        rcases ho hw with heq | hlt
        · simp [heq]
        · have hn : ¬ (f.slots .one).slot.snapshotId < (f.slots .zero).slot.snapshotId := by omega
          simp [hlt, hn]

/-- Opening leaves a settled manager, if the file is long enough for the list. -/
theorem settled_of_fromFile {f : MetaFile} {m : MetadataManager} (h : fromFile f = .ok m)
    (hl : m.active.slot.orphanPagesLen ≤ f.orphans.length) : Settled m := by
  simp only [fromFile] at h
  split at h
  · next i hi =>
    cases h
    have hv : (f.slots i).verifyIntegrity = true := by
      simp only [MetaFile.latestSlotIndex] at hi
      split at hi
      · next he =>
        cases hi
        simp only [Bool.and_eq_true] at he
        simp [HashedMetadataSlot.verifyIntegrity, he.1]
      · split at hi
        · next h0 _ => cases hi; exact h0
        · next _ h1 => cases hi; exact h1
        · cases hi
        · next h0 h1 =>
          split at hi
          · cases hi; exact h0
          · split at hi
            · cases hi; exact h1
            · split at hi
              · cases hi; exact h0
              · cases hi
    rw [active_populateDirtySlot] at hl
    refine ⟨?_, ?_, ?_, ?_⟩ <;>
      simp only [active_populateDirtySlot, dirty_populateDirtySlot, orphans_populateDirtySlot]
    · exact hv
    · rcases (HashedMetadataSlot.verifyIntegrity_iff _).mp hv with he | ⟨hr, -⟩
      · simp only [MetadataManager.active, he]
        exact Nat.le_refl _
      · exact hr
    · exact hl
  · cases h

/-- Reopening returns the state of the slot that is selected. -/
private theorem fromFile_of_other (f : MetaFile) (i : SlotIndex)
    (hv : (f.slots i).verifyIntegrity = true)
    (ho : (f.slots i.not).verifyIntegrity = true →
      f.slots i.not = f.slots i ∨
        (f.slots i.not).slot.snapshotId < (f.slots i).slot.snapshotId)
    (hl : (f.slots i).slot.orphanPagesLen ≤ f.orphans.length) :
    ∃ m, fromFile f = .ok m ∧ Settled m ∧ m.active.slot = (f.slots i).slot ∧
      m.orphanPages = orphansOf f (f.slots i).slot := by
  obtain ⟨j, hj, he⟩ := latestSlotIndex_of_other f i hv ho
  have hm : fromFile f = .ok (populateDirtySlot ⟨f, j⟩) := by simp only [fromFile, hj]
  refine ⟨_, hm, settled_of_fromFile hm ?_, ?_, ?_⟩
  · rw [active_populateDirtySlot, active, he]
    exact hl
  · rw [active_populateDirtySlot, active, he]
  · simp only [orphanPages, dirty_populateDirtySlot, active, he]
    rfl

/-- A slot under a stale copy of the active slot's hash verifies only if it equals that slot. -/
theorem eq_of_stale_hash {a d : HashedMetadataSlot} {xs : List MetadataSlot}
    (hx : CollisionFree xs) (ha : a.verifyIntegrity = true) (hax : a.slot ∈ xs)
    (hdx : d.slot ∈ xs) (hh : d.hash = a.hash) (hd : d.verifyIntegrity = true) : d = a := by
  rw [HashedMetadataSlot.verifyIntegrity_iff] at ha hd
  have ext (x y : HashedMetadataSlot) (h : x.slot = y.slot) (h' : x.hash = y.hash) : x = y := by
    cases x
    cases y
    simp_all
  rcases ha with rfl | ⟨-, ha⟩
  · rcases hd with rfl | ⟨-, hd⟩
    · rfl
    · refine ext _ _ ?_ hh
      by_contra hn
      exact hx.2 _ hdx hn (hd ▸ hh)
  · rcases hd with rfl | ⟨-, hd⟩
    · refine ext _ _ ?_ hh
      by_contra hn
      exact hx.2 _ hax (Ne.symm hn) (ha ▸ hh.symm)
    · exact ext _ _ (hx.1 _ hdx _ hax (by rw [← hd, ← ha, hh])) hh

/-- A slot torn between an old and a new consistent slot, with one of their two hashes, verifies
only if it is the new slot or carries the old or no snapshot id. -/
private theorem eq_or_lt_of_torn {o n t : HashedMetadataSlot} {xs : List MetadataSlot}
    (hx : CollisionFree xs) (ho : o.verifyIntegrity = true) (hox : o.slot ∈ xs)
    (hn : n.verifyIntegrity = true) (hnx : n.slot ∈ xs) (htx : t.slot ∈ xs)
    (hlt : o.slot.snapshotId < n.slot.snapshotId) (hh : t.hash = o.hash ∨ t.hash = n.hash)
    (ht : t.verifyIntegrity = true) : t = n ∨ t.slot.snapshotId < n.slot.snapshotId := by
  rcases hh with hh | hh
  · exact .inr ((eq_of_stale_hash hx ho hox htx hh ht) ▸ hlt)
  · exact .inl (eq_of_stale_hash hx hn hnx htx hh ht)

/-! ### Stores that leave the committed state alone -/

/-- The committed state is in the file: slot `i` holds it untouched, with its range of the list,
and the other slot carries a stale copy of its hash. -/
structure Guarded (i : SlotIndex) (a : HashedMetadataSlot) (p : Point) : Prop where
  index : p.manager.activeSlot = i
  slot : p.manager.file.slots i = a
  len_le : a.slot.orphanPagesLen ≤ p.manager.file.orphans.length
  committed : p.committed = (a.slot, orphansOf p.manager.file a.slot)
  stale : (p.manager.file.slots i.not).hash = a.hash

/-- A store outside the committed slot, its hash copy and its range of the list. -/
def Store.Harmless (i : SlotIndex) (a : MetadataSlot) : Store → Prop
  | .field j f _ => j = i.not ∧ f ≠ .hash
  | .orphan k _ => k < a.reclaimedOrphansLen ∨ a.orphanPagesLen ≤ k
  | .setLen => True
  | .updateHash _ => False
  | .swap => False

/-- A harmless store keeps the committed state in the file. -/
private theorem Guarded.step {i : SlotIndex} {a : HashedMetadataSlot} {p : Point} {s : Store}
    (h : Guarded i a p) (hs : s.Harmless i a.slot) : Guarded i a (s.step p) := by
  obtain ⟨hi, ha, hl, hc, hh⟩ := h
  cases s with
  | field j f src =>
    obtain ⟨rfl, hf⟩ := hs
    refine ⟨hi, ?_, hl, hc, ?_⟩
    · simpa [Store.step, Store.exec, setSlot, Function.update_of_ne (SlotIndex.not_ne i).symm]
        using ha
    · simpa [Store.step, Store.exec, setSlot, hash_copyField _ _ hf] using hh
  | orphan k o =>
    refine ⟨hi, ha, by simpa [Store.step, Store.exec] using hl, ?_, hh⟩
    simp only [Store.step, Store.exec, setOrphans, orphansOf_set _ _ _ _ hs]
    exact hc
  | setLen =>
    refine ⟨hi, ha, ?_, ?_, hh⟩
    · simp only [Store.step, Store.exec, grow, orphans_setOrphans, List.length_append]
      omega
    · simp only [Store.step, Store.exec, grow, setOrphans, orphansOf]
      rw [List.take_append_of_le_length hl]
      exact hc
  | updateHash j => exact hs.elim
  | swap => exact hs.elim

/-- As long as the committed state is guarded, reopening finds it. -/
private theorem Guarded.recovers {i : SlotIndex} {a : HashedMetadataSlot} {p : Point}
    {xs : List MetadataSlot} (h : Guarded i a p) (ha : a.verifyIntegrity = true)
    (hx : CollisionFree xs) (hax : a.slot ∈ xs) (hdx : (p.manager.file.slots i.not).slot ∈ xs) :
    Recovers p := by
  obtain ⟨hi, hs, hl, hc, hh⟩ := h
  obtain ⟨m, hm, hms, hm1, hm2⟩ := fromFile_of_other p.manager.file i (by rw [hs]; exact ha)
    (fun hv ↦ .inl (by rw [hs]; exact eq_of_stale_hash hx ha hax hdx hh hv))
    (by rw [hs]; exact hl)
  exact ⟨m, hm, hms, by rw [hm1, hs, hc], by rw [hm2, hs, hc]⟩

/-! ### Runs of stores -/

/-- No stores. -/
@[simp] theorem execAll_nil (p : Point) : execAll p [] = p := rfl

/-- The first store comes first. -/
@[simp] theorem execAll_cons (p : Point) (s : Store) (ss : List Store) :
    execAll p (s :: ss) = execAll (s.step p) ss := rfl

private theorem execAll_append (p : Point) (ss ts : List Store) :
    execAll p (ss ++ ts) = execAll (execAll p ss) ts := List.foldl_append

/-- A property holds at every moment of a run of stores, its two ends included. -/
def Throughout (P : Point → Prop) (p : Point) : List Store → Prop
  | [] => P p
  | s :: ss => P p ∧ Throughout P (s.step p) ss

private theorem throughout_append {P : Point → Prop} {p : Point} {ss ts : List Store}
    (h : Throughout P p ss) (h' : Throughout P (execAll p ss) ts) :
    Throughout P p (ss ++ ts) := by
  induction ss generalizing p with
  | nil => exact h'
  | cons s ss ih => exact ⟨h.1, ih h.2 h'⟩

private theorem Throughout.right {P : Point → Prop} {p : Point} {ss ts : List Store}
    (h : Throughout P p (ss ++ ts)) : Throughout P (execAll p ss) ts := by
  induction ss generalizing p with
  | nil => exact h
  | cons s ss ih => exact ih h.2

private theorem Throughout.left {P : Point → Prop} {p : Point} {ss ts : List Store}
    (h : Throughout P p (ss ++ ts)) : Throughout P p ss := by
  induction ss generalizing p with
  | nil => cases ts with
    | nil => exact h
    | cons t ts => exact h.1
  | cons s ss ih => exact ⟨h.1, ih h.2⟩

private theorem Throughout.head {P : Point → Prop} {p : Point} {ss : List Store}
    (h : Throughout P p ss) : P p := by
  cases ss with
  | nil => exact h
  | cons s ss => exact h.1

private theorem Throughout.map₂ {P Q R : Point → Prop} (hpq : ∀ q, P q → Q q → R q) {p : Point}
    {ss : List Store} (h : Throughout P p ss) (h' : Throughout Q p ss) : Throughout R p ss := by
  induction ss generalizing p with
  | nil => exact hpq p h h'
  | cons s ss ih => exact ⟨hpq p h.1 h'.1, ih h.2 h'.2⟩

/-- What holds throughout a run holds after any number of its stores. -/
theorem Throughout.take {P : Point → Prop} {p : Point} {ss : List Store}
    (h : Throughout P p ss) (n : Nat) : P (execAll p (ss.take n)) := by
  induction ss generalizing p n with
  | nil => simpa [Throughout] using h
  | cons s ss ih =>
    cases n with
    | zero => simpa using h.1
    | succ n => simpa using ih h.2 n

/-- Both slots hold contents from the given list. -/
def SlotsIn (xs : List MetadataSlot) (p : Point) : Prop :=
  ∀ i, (p.manager.file.slots i).slot ∈ xs

/-- Both slots of every moment of a run are among its contents. -/
theorem throughout_slotsIn (p : Point) (ss : List Store) {xs : List MetadataSlot}
    (h : ∀ x ∈ contents p ss, x ∈ xs) : Throughout (SlotsIn xs) p ss := by
  induction ss generalizing p with
  | nil =>
    intro i
    cases i <;> exact h _ (by simp [contents])
  | cons s ss ih =>
    refine ⟨?_, ih _ fun x hx ↦ h x (by simp [contents, hx])⟩
    intro i
    cases i <;> exact h _ (by simp [contents])

/-- A run of harmless stores keeps the committed state in the file. -/
private theorem Guarded.throughout {i : SlotIndex} {a : HashedMetadataSlot} {p : Point}
    {ss : List Store} (h : Guarded i a p) (hs : ∀ s ∈ ss, s.Harmless i a.slot) :
    Throughout (Guarded i a) p ss := by
  induction ss generalizing p with
  | nil => exact h
  | cons s ss ih =>
    exact ⟨h, ih (h.step (hs s List.mem_cons_self)) fun t ht ↦ hs t (List.mem_cons_of_mem _ ht)⟩

/-! ### Operations other than commit -/

/-- Between two operations: a consistent active slot, and a dirty slot whose range starts and
ends no earlier than the active one's. -/
structure Idle (p : Point) : Prop where
  verified : p.manager.active.verifyIntegrity = true
  committed : p.committed =
    (p.manager.active.slot, orphansOf p.manager.file p.manager.active.slot)
  stale : p.manager.dirty.hash = p.manager.active.hash
  reclaimed_mono :
    p.manager.active.slot.reclaimedOrphansLen ≤ p.manager.dirty.slot.reclaimedOrphansLen
  len_mono : p.manager.active.slot.orphanPagesLen ≤ p.manager.dirty.slot.orphanPagesLen
  range : p.manager.RangeWF

/-- A settled manager starts a run idle. -/
theorem Settled.idle {m : MetadataManager} (h : Settled m) : Idle (start m) := by
  obtain ⟨hv, hd, hr, hl⟩ := h
  refine ⟨hv, rfl, ?_, ?_, ?_, ?_, ?_⟩ <;> simp only [start, hd, MetadataSlot.incSnapshotId]
  · exact Nat.le_refl _
  · exact Nat.le_refl _
  · exact hr
  · exact hl

/-- An idle point guards its active slot. -/
private theorem Idle.guarded {p : Point} (h : Idle p) :
    Guarded p.manager.activeSlot p.manager.active p :=
  ⟨rfl, rfl, Nat.le_trans h.len_mono h.range.2, h.committed, h.stale⟩

private theorem pop_store (m : MetadataManager) (t : Nat) :
    (Op.pop t).stores m = [] ∨
      (m.dirty.slot.reclaimedOrphansLen < m.dirty.slot.orphanPagesLen ∧
        (Op.pop t).stores m = [.field m.activeSlot.not .reclaimedOrphansLen
          { m.dirty with slot := { m.dirty.slot with
            reclaimedOrphansLen := m.dirty.slot.reclaimedOrphansLen + 1 } }]) := by
  simp only [Op.stores, pop]
  cases m.file.orphans[m.dirty.slot.reclaimedOrphansLen]? with
  | none => exact .inl rfl
  | some o =>
    by_cases hc : m.dirty.slot.reclaimedOrphansLen < m.dirty.slot.orphanPagesLen ∧
        o.orphanedAt ≤ t
    · exact .inr ⟨hc.1, by simp [hc]⟩
    · exact .inl (by simp [hc])

/-- The stores of every operation but a commit are harmless. -/
private theorem Idle.harmless {p : Point} (h : Idle p) {op : Op}
    (hop : ∀ fields entries, op ≠ .commit fields entries) :
    ∀ s ∈ op.stores p.manager,
      s.Harmless p.manager.activeSlot p.manager.active.slot := by
  cases op with
  | push o =>
    intro s hs
    simp only [Op.stores, List.mem_append, List.mem_cons, List.not_mem_nil, or_false] at hs
    rcases hs with hs | rfl | rfl
    · split at hs
      · simp at hs
      · simp only [List.mem_singleton] at hs
        subst hs
        exact trivial
    · exact .inr h.len_mono
    · exact ⟨rfl, by simp⟩
  | pop t =>
    intro s hs
    rcases pop_store p.manager t with he | ⟨-, he⟩
    · simp [he] at hs
    · simp only [he, List.mem_singleton] at hs
      subst hs
      exact ⟨rfl, by simp⟩
  | commit fields entries => exact absurd rfl (hop fields entries)
  | _ =>
    intro s hs
    simp only [Op.stores, List.mem_singleton] at hs
    subst hs
    exact ⟨rfl, by simp⟩

/-- A store to the dirty slot alone leaves the point idle if the new range fits. -/
private theorem Idle.step_field {p : Point} (h : Idle p) {f : SlotField} {src : HashedMetadataSlot}
    (hf : f ≠ .hash)
    (hr : p.manager.dirty.slot.reclaimedOrphansLen ≤
      (p.manager.dirty.copyField src f).slot.reclaimedOrphansLen)
    (hl : p.manager.dirty.slot.orphanPagesLen ≤
      (p.manager.dirty.copyField src f).slot.orphanPagesLen)
    (hle : (p.manager.dirty.copyField src f).slot.reclaimedOrphansLen ≤
      (p.manager.dirty.copyField src f).slot.orphanPagesLen)
    (hcap : (p.manager.dirty.copyField src f).slot.orphanPagesLen ≤
      p.manager.file.orphans.length) :
    Idle ((Store.field p.manager.activeSlot.not f src).step p) := by
  have ha : (Store.exec p.manager (.field p.manager.activeSlot.not f src)).active =
      p.manager.active := active_setSlot_not _ _
  have hd : (Store.exec p.manager (.field p.manager.activeSlot.not f src)).dirty =
      p.manager.dirty.copyField src f := dirty_setSlot_not _ _
  refine ⟨?_, ?_, ?_, ?_, ?_, ?_, ?_⟩ <;> simp only [Store.step, ha, hd]
  · exact h.verified
  · exact h.committed
  · rw [hash_copyField _ _ hf]
    exact h.stale
  · exact Nat.le_trans h.reclaimed_mono hr
  · exact Nat.le_trans h.len_mono hl
  · exact hle
  · exact hcap

private theorem Idle.step_setLen {p : Point} (h : Idle p) : Idle (Store.setLen.step p) := by
  have hg := h.guarded.step (s := .setLen) trivial
  exact ⟨h.verified, hg.committed, h.stale, h.reclaimed_mono, h.len_mono,
    (orphanPages_grow h.range).2⟩

private theorem Idle.step_orphan {p : Point} (h : Idle p) (o : OrphanPage) :
    Idle ((Store.orphan p.manager.dirty.slot.orphanPagesLen o).step p) := by
  have hg := h.guarded.step (s := .orphan p.manager.dirty.slot.orphanPagesLen o)
    (.inr h.len_mono)
  exact ⟨h.verified, hg.committed, h.stale, h.reclaimed_mono, h.len_mono, h.range.1,
    by simpa [Store.step, Store.exec] using h.range.2⟩

private theorem Idle.push_tail {p : Point} (h : Idle p) (o : OrphanPage)
    (hlt : p.manager.dirty.slot.orphanPagesLen < p.manager.file.orphans.length) :
    Idle (execAll p [.orphan p.manager.dirty.slot.orphanPagesLen o,
      .field p.manager.activeSlot.not .orphanPagesLen
        { p.manager.dirty with slot := { p.manager.dirty.slot with
          orphanPagesLen := p.manager.dirty.slot.orphanPagesLen + 1 } }]) := by
  simp only [execAll_cons, execAll_nil]
  refine (h.step_orphan o).step_field (by simp) ?_ ?_ ?_ ?_ <;>
    simp only [Store.step, Store.exec, HashedMetadataSlot.copyField, dirty_setOrphans,
      orphans_setOrphans, List.length_set]
  · exact Nat.le_refl _
  · exact Nat.le_succ _
  · exact Nat.le_succ_of_le h.range.1
  · exact hlt

/-- Every operation but a commit ends idle. -/
private theorem Idle.execAll {p : Point} (h : Idle p) {op : Op}
    (hop : ∀ fields entries, op ≠ .commit fields entries) :
    Idle (execAll p (op.stores p.manager)) := by
  cases op with
  | push o =>
    simp only [Op.stores]
    split
    · next hlt => exact h.push_tail o hlt
    · refine (h.step_setLen).push_tail o ?_
      have := h.range.2
      simp only [Store.step, Store.exec, grow, dirty_setOrphans, orphans_setOrphans,
        List.length_append, List.length_replicate]
      omega
  | pop t =>
    rcases pop_store p.manager t with he | ⟨hlt, he⟩
    · rw [he]
      exact h
    · rw [he]
      refine h.step_field (by simp) ?_ ?_ ?_ ?_ <;> simp only [HashedMetadataSlot.copyField]
      · exact Nat.le_succ _
      · exact Nat.le_refl _
      · exact hlt
      · exact h.range.2
  | commit fields entries => exact absurd rfl (hop fields entries)
  | _ =>
    exact h.step_field (by simp) (Nat.le_refl _) (Nat.le_refl _) h.range.1 h.range.2

/-! ### Commit -/

omit [SlotHash] in
/-- The compaction stores are harmless: they stay below the active slot's reclaimed count. -/
private theorem compactStores_harmless (m : MetadataManager) (entries : List Nat) :
    ∀ s ∈ compactStores m entries, s.Harmless m.activeSlot m.active.slot := by
  intro s hs
  simp only [compactStores] at hs
  split at hs
  · next hc =>
    simp only [List.mem_append, List.mem_cons, List.not_mem_nil, or_false,
      List.mem_filterMap, Option.map_eq_some_iff] at hs
    rcases hs with (rfl | rfl) | ⟨k, -, o, ho, rfl⟩
    · exact ⟨rfl, by simp⟩
    · exact ⟨rfl, by simp⟩
    · have hk := (List.getElem?_eq_some_iff.mp ho).1
      exact .inl (by omega)
  · simp at hs

private theorem execAll_orphanStores (p : Point) (orphans : List OrphanPage)
    (entries : List Nat) :
    execAll p (entries.filterMap fun k ↦ orphans[k]?.map (Store.orphan k)) =
      { p with manager :=
        p.manager.setOrphans (setEntries orphans entries p.manager.file.orphans) } := by
  induction entries generalizing p with
  | nil => rfl
  | cons k ks ih =>
    cases ho : orphans[k]? with
    | none => simpa [List.filterMap_cons, setEntries, ho] using ih p
    | some o =>
      simp only [List.filterMap_cons, ho, Option.map_some, execAll_cons, ih, setEntries,
        List.foldl_cons, Option.getD_some]
      rfl

/-- What compaction leaves: the dirty slot describes the same orphans as before. -/
structure Compacted (m : MetadataManager) (p : Point) : Prop where
  index : p.manager.activeSlot = m.activeSlot
  active : p.manager.file.slots m.activeSlot = m.active
  dirty : p.manager.file.slots m.activeSlot.not = compactedSlot m
  orphans : orphansOf p.manager.file (compactedSlot m).slot = m.orphanPages
  reclaimed_le :
    (compactedSlot m).slot.reclaimedOrphansLen ≤ (compactedSlot m).slot.orphanPagesLen
  len_le : (compactedSlot m).slot.orphanPagesLen ≤ p.manager.file.orphans.length

/-- The compaction stores add up to `compact_orphans`. -/
private theorem Idle.compactOrphans_eq {p : Point} (h : Idle p) {entries : List Nat}
    (he : ∀ k < p.manager.orphanPages.length, k ∈ entries) :
    Meta.execAll p (compactStores p.manager entries) =
      { p with manager := p.manager.compactOrphans } := by
  simp only [compactStores, compactOrphans]
  split
  · next hc =>
    have hlen := length_orphanPages h.range
    have hcap := h.range.2
    rw [execAll_append, execAll_orphanStores, setEntries_eq _ he]
    · simp only [execAll_cons, execAll_nil, Store.step, Store.exec, setSlot, modifyDirty,
        setOrphans, Function.update_idem, Function.update_self, HashedMetadataSlot.copyField,
        compactedSlot, hc, if_true]
      rfl
    · simp only [execAll_cons, execAll_nil, Store.step, Store.exec, orphans_setSlot]
      omega
  · rfl

/-- Compaction leaves a dirty slot that describes the same orphans as before. -/
private theorem Idle.compacted {p : Point} (h : Idle p) {entries : List Nat}
    (he : ∀ k < p.manager.orphanPages.length, k ∈ entries) :
    Compacted p.manager (Meta.execAll p (compactStores p.manager entries)) := by
  rw [h.compactOrphans_eq he]
  by_cases hc : p.manager.orphanPages.length ≤ p.manager.active.slot.reclaimedOrphansLen
  · have hm : p.manager.compactOrphans =
        (p.manager.setOrphans (p.manager.orphanPages ++
          p.manager.file.orphans.drop p.manager.orphanPages.length)).modifyDirty fun s ↦
            { s with
              orphanPagesLen := p.manager.orphanPages.length, reclaimedOrphansLen := 0 } := by
      simp only [compactOrphans, hc, if_true]
    refine ⟨?_, ?_, ?_, ?_, ?_, ?_⟩ <;> simp only [hm, compactedSlot, hc, if_true]
    · rfl
    · exact active_modifyDirty _ _
    · exact dirty_modifyDirty _ _
    · simp [orphansOf]
    · exact Nat.zero_le _
    · simp
  · have hm : p.manager.compactOrphans = p.manager := by simp only [compactOrphans, hc, if_false]
    refine ⟨?_, ?_, ?_, ?_, ?_, ?_⟩ <;> simp only [hm, compactedSlot, hc, if_false]
    · rfl
    · rfl
    · rfl
    · exact h.range.1
    · exact h.range.2

/-- From the hash store on: slot `j` holds the new state under its own hash, and the other slot
carries the hash of the old or of the new state. -/
structure Copying (j : SlotIndex) (o n : HashedMetadataSlot) (p : Point) : Prop where
  slot : p.manager.file.slots j = n
  hash : (p.manager.file.slots j.not).hash = o.hash ∨
    (p.manager.file.slots j.not).hash = n.hash
  len_le : n.slot.orphanPagesLen ≤ p.manager.file.orphans.length
  committed : p.committed = (n.slot, orphansOf p.manager.file n.slot)

/-- Copying one more field of the new state keeps the phase. -/
private theorem Copying.step {j : SlotIndex} {o n : HashedMetadataSlot} {p : Point}
    (h : Copying j o n p) (f : SlotField) : Copying j o n ((Store.field j.not f n).step p) := by
  refine ⟨?_, ?_, h.len_le, h.committed⟩
  · simpa [Store.step, Store.exec, setSlot, Function.update_of_ne (SlotIndex.not_ne j).symm]
      using h.slot
  · simp only [Store.step, Store.exec, setSlot, Function.update_self]
    by_cases hf : f = .hash
    · subst hf
      exact .inr rfl
    · rw [hash_copyField _ _ hf]
      exact h.hash

/-- Copying any fields of the new state keeps the phase. -/
private theorem Copying.throughout {j : SlotIndex} {o n : HashedMetadataSlot} {p : Point}
    (h : Copying j o n p) (fs : List SlotField) :
    Throughout (Copying j o n) p (fs.map fun f ↦ .field j.not f n) := by
  induction fs generalizing p with
  | nil => exact h
  | cons f fs ih => exact ⟨h, ih (h.step f)⟩

/-- While the new state is being copied, reopening finds it. -/
private theorem Copying.recovers {j : SlotIndex} {o n : HashedMetadataSlot} {p : Point}
    {xs : List MetadataSlot} (h : Copying j o n p) (hx : CollisionFree xs)
    (ho : o.verifyIntegrity = true) (hox : o.slot ∈ xs) (hn : n.verifyIntegrity = true)
    (hnx : n.slot ∈ xs) (htx : (p.manager.file.slots j.not).slot ∈ xs)
    (hlt : o.slot.snapshotId < n.slot.snapshotId) : Recovers p := by
  obtain ⟨m, hm, hms, hm1, hm2⟩ := fromFile_of_other p.manager.file j (by rw [h.slot]; exact hn)
    (fun hv ↦ by
      rw [h.slot]
      exact eq_or_lt_of_torn hx ho hox hn hnx htx hlt h.hash hv)
    (by rw [h.slot]; exact h.len_le)
  exact ⟨m, hm, hms, by rw [hm1, h.slot, h.committed], by rw [hm2, h.slot, h.committed]⟩

private theorem execAll_fieldStores (p : Point) (i : SlotIndex) (n : HashedMetadataSlot)
    (fs : List SlotField) :
    execAll p (fs.map fun f ↦ .field i f n) =
      { p with
        manager := p.manager.setSlot i
          (fs.foldl (fun d f ↦ d.copyField n f) (p.manager.file.slots i)) } := by
  induction fs generalizing p with
  | nil => simp [setSlot]
  | cons f fs ih =>
    simp only [List.map_cons, execAll_cons, ih, List.foldl_cons, Store.step, Store.exec, setSlot,
      Function.update_self, Function.update_idem]

/-- The stores of `populate_dirty_slot`. -/
private def populateStores (i : SlotIndex) (n : HashedMetadataSlot) (fields : List SlotField) :
    List Store :=
  (fields.map fun f ↦ .field i f n) ++
    [.field i .snapshotId { n with slot := n.slot.incSnapshotId }]

private theorem execAll_populateStores (p : Point) (i : SlotIndex) (n : HashedMetadataSlot)
    {fields : List SlotField} (hf : ∀ f, f ∈ fields) :
    execAll p (populateStores i n fields) =
      { p with manager := p.manager.setSlot i { n with slot := n.slot.incSnapshotId } } := by
  rw [populateStores, execAll_append, execAll_fieldStores,
    foldl_copyField _ _ _ fun f ↦ .inl (hf f)]
  simp [Store.step, Store.exec, setSlot, HashedMetadataSlot.copyField,
    MetadataSlot.incSnapshotId]

/-- The hash store turns the compacted slot into the last committed state. -/
private theorem Compacted.updateHash {m : MetadataManager} {p : Point} (h : Compacted m p) :
    Copying m.activeSlot.not m.active (compactedSlot m).updateHash
      ((Store.updateHash m.activeSlot.not).step p) := by
  refine ⟨?_, ?_, h.len_le, ?_⟩
  · simp [Store.step, Store.exec, setSlot, h.dirty]
  · refine .inl ?_
    simp [Store.step, Store.exec, setSlot, h.active,
      Function.update_of_ne (SlotIndex.not_ne m.activeSlot).symm]
  · simp only [Store.step, h.dirty, HashedMetadataSlot.updateHash]
    rfl

private theorem Copying.swap {j : SlotIndex} {o n : HashedMetadataSlot} {p : Point}
    (h : Copying j o n p) : Copying j o n (Store.swap.step p) :=
  ⟨h.slot, h.hash, h.len_le, h.committed⟩

/-- Copying the new state back under the next snapshot id completes the commit. -/
private theorem Copying.idle {j : SlotIndex} {o n : HashedMetadataSlot} {p : Point}
    (h : Copying j o n p) (hj : p.manager.activeSlot = j) (hn : n.verifyIntegrity = true)
    (hr : n.slot.reclaimedOrphansLen ≤ n.slot.orphanPagesLen)
    (hl : n.slot.orphanPagesLen ≤ p.manager.file.orphans.length) :
    Idle { p with manager :=
      p.manager.setSlot j.not { n with slot := n.slot.incSnapshotId } } := by
  subst hj
  have ha : (p.manager.setSlot p.manager.activeSlot.not
      { n with slot := n.slot.incSnapshotId }).active = n := (active_setSlot_not _ _).trans h.slot
  have hd : (p.manager.setSlot p.manager.activeSlot.not
      { n with slot := n.slot.incSnapshotId }).dirty =
        { n with slot := n.slot.incSnapshotId } := dirty_setSlot_not _ _
  refine ⟨?_, ?_, ?_, ?_, ?_, ?_, ?_⟩ <;> simp only [ha, hd]
  · exact hn
  · exact h.committed
  · exact Nat.le_refl _
  · exact Nat.le_refl _
  · exact hr
  · exact hl

/-- Copying back every field recovers at every store and ends idle. -/
private theorem Copying.finish {j : SlotIndex} {o n : HashedMetadataSlot} {p : Point}
    {fields : List SlotField} {xs : List MetadataSlot} (h : Copying j o n p)
    (hj : p.manager.activeSlot = j) (hx : CollisionFree xs)
    (ho : o.verifyIntegrity = true) (hox : o.slot ∈ xs) (hn : n.verifyIntegrity = true)
    (hlt : o.slot.snapshotId < n.slot.snapshotId)
    (hr : n.slot.reclaimedOrphansLen ≤ n.slot.orphanPagesLen)
    (hl : n.slot.orphanPagesLen ≤ p.manager.file.orphans.length) (hf : ∀ f, f ∈ fields)
    (hin : Throughout (SlotsIn xs) p (populateStores j.not n fields)) :
    Throughout Recovers p (populateStores j.not n fields) ∧
      Idle (Meta.execAll p (populateStores j.not n fields)) := by
  have hnx : n.slot ∈ xs := h.slot ▸ hin.head j
  have hidle := h.idle hj hn hr hl
  have hend := execAll_populateStores p j.not n hf
  refine ⟨throughout_append ?_ ⟨?_, ?_⟩, hend ▸ hidle⟩
  · exact (h.throughout fields).map₂
      (fun r hr hr' ↦ hr.recovers hx ho hox hn hnx (hr' _) hlt) hin.left
  · have hlast := (h.throughout fields).take fields.length
    rw [List.take_of_length_le (by simp)] at hlast
    exact hlast.recovers hx ho hox hn hnx (hin.right.1 _) hlt
  · have hlast : SlotsIn xs (Meta.execAll p (populateStores j.not n fields)) := by
      rw [populateStores, execAll_append]
      exact hin.right.2
    have hrec : Recovers (Meta.execAll p (populateStores j.not n fields)) := by
      rw [hend] at hlast ⊢
      exact hidle.guarded.recovers hidle.verified hx (hlast _) (hlast _)
    rwa [populateStores, execAll_append] at hrec

private theorem stores_commit (m : MetadataManager) (fields : List SlotField)
    (entries : List Nat) :
    (Op.commit fields entries).stores m =
      compactStores m entries ++ (.updateHash m.activeSlot.not :: .swap ::
        populateStores m.activeSlot.not.not (compactedSlot m).updateHash fields) := by
  rw [SlotIndex.not_not]
  rfl

/-- A commit recovers at every store and ends idle. -/
private theorem Idle.commit {p : Point} (h : Idle p) {fields : List SlotField} {entries : List Nat}
    (ho : (Op.commit fields entries).Complete p.manager)
    (hlt : (Op.commit fields entries).Ascending p.manager) {xs : List MetadataSlot}
    (hx : CollisionFree xs)
    (hin : Throughout (SlotsIn xs) p ((Op.commit fields entries).stores p.manager)) :
    Throughout Recovers p ((Op.commit fields entries).stores p.manager) ∧
      Idle (Meta.execAll p ((Op.commit fields entries).stores p.manager)) := by
  obtain ⟨hf, he⟩ := ho
  have hcomp := h.compacted he
  have hax : p.manager.active.slot ∈ xs := hin.head _
  have hnv : (compactedSlot p.manager).updateHash.verifyIntegrity = true :=
    (HashedMetadataSlot.verifyIntegrity_iff _).mpr (.inr ⟨hcomp.reclaimed_le, rfl⟩)
  have hlt' : p.manager.active.slot.snapshotId <
      (compactedSlot p.manager).updateHash.slot.snapshotId := by
    simp only [HashedMetadataSlot.updateHash, compactedSlot]
    split <;> exact hlt
  rw [stores_commit] at hin ⊢
  have hguard := h.guarded.throughout (compactStores_harmless p.manager entries)
  have hrec₁ : Throughout Recovers p (compactStores p.manager entries) :=
    hguard.map₂ (fun r hg hr ↦ hg.recovers h.verified hx hax (hr _)) hin.left
  have hin₂ := hin.right
  obtain ⟨hrec, hidle⟩ := hcomp.updateHash.swap.finish
    (by simp [Store.step, Store.exec, hcomp.index]) hx h.verified hax hnv hlt'
    hcomp.reclaimed_le hcomp.len_le hf hin₂.2.2
  refine ⟨throughout_append hrec₁ ⟨?_, ?_, hrec⟩, ?_⟩
  · have := hrec₁.take (compactStores p.manager entries).length
    rwa [List.take_length] at this
  · exact hcomp.updateHash.recovers hx h.verified hax hnv
      (hcomp.updateHash.slot ▸ hin₂.2.1 p.manager.activeSlot.not) (hin₂.2.1 _) hlt'
  · simpa only [execAll_append, execAll_cons] using hidle

/-! ### The stores make up the operations -/

/-- The stores of a push add up to `push`. -/
private theorem push_eq_execAll (p : Point) (o : OrphanPage) (h : p.manager.RangeWF) :
    p.manager.push o = some (execAll p ((Op.push o).stores p.manager)).manager := by
  simp only [MetadataManager.push, Op.stores, pushWithinCapacity]
  split
  · next m' hm =>
    split at hm
    · next hlt =>
      cases hm
      simp only [hlt, if_true]
      rfl
    · cases hm
  · next hm =>
    split at hm
    · cases hm
    · next hlt =>
      have hlt' : p.manager.grow.dirty.slot.orphanPagesLen <
          p.manager.grow.file.orphans.length := by
        have := h.2
        simp only [grow, orphans_setOrphans, dirty_setOrphans, List.length_append,
          List.length_replicate]
        omega
      simp only [hlt, hlt', if_true, if_false]
      rfl

/-- The stores of a pop add up to `pop`. -/
private theorem pop_eq_execAll (p : Point) (t : Nat) :
    (p.manager.pop t).2 = (execAll p ((Op.pop t).stores p.manager)).manager := by
  simp only [Op.stores, pop]
  cases p.manager.file.orphans[p.manager.dirty.slot.reclaimedOrphansLen]? with
  | none => rfl
  | some o =>
    by_cases hc : p.manager.dirty.slot.reclaimedOrphansLen < p.manager.dirty.slot.orphanPagesLen ∧
        o.orphanedAt ≤ t
    · simp only [hc, and_self, if_true, dirty_modifyDirty]
      rfl
    · simp only [hc, if_false]
      rfl

/-- The stores of a commit, in any order of its copies, add up to `commit`. -/
theorem Idle.commit_eq_execAll {p : Point} (h : Idle p) {fields : List SlotField}
    {entries : List Nat} (hf : ∀ f, f ∈ fields)
    (he : ∀ k < p.manager.orphanPages.length, k ∈ entries) :
    p.manager.commit =
      (Meta.execAll p ((Op.commit fields entries).stores p.manager)).manager := by
  have hcomp := h.compacted he
  have heq := h.compactOrphans_eq he
  rw [stores_commit, execAll_append, execAll_cons, execAll_cons, execAll_populateStores _ _ _ hf]
  rw [heq] at hcomp ⊢
  have hi : p.manager.compactOrphans.activeSlot = p.manager.activeSlot := hcomp.index
  have hd : p.manager.compactOrphans.file.slots p.manager.activeSlot.not =
      compactedSlot p.manager := hcomp.dirty
  simp only [MetadataManager.commit, populateDirtySlot, Store.step, Store.exec, setSlot,
    MetadataManager.active, MetadataManager.dirty, hd, hi, Function.update_self,
    SlotIndex.not_not]

/-! ### States left by open and commit -/

/-- A commit makes the compacted dirty slot the active one. -/
theorem Idle.active_commit {p : Point} (h : Idle p) :
    p.manager.commit.active = (compactedSlot p.manager).updateHash ∧
      p.manager.commit.orphanPages = p.manager.orphanPages ∧
      (compactedSlot p.manager).slot.reclaimedOrphansLen ≤
        (compactedSlot p.manager).slot.orphanPagesLen ∧
      (compactedSlot p.manager).slot.orphanPagesLen ≤ p.manager.commit.file.orphans.length := by
  have he : ∀ k < p.manager.orphanPages.length, k ∈ List.range p.manager.orphanPages.length :=
    fun k hk ↦ List.mem_range.mpr hk
  have hcomp := h.compacted he
  rw [h.compactOrphans_eq he] at hcomp
  have hi : p.manager.compactOrphans.activeSlot = p.manager.activeSlot := hcomp.index
  have hd : p.manager.compactOrphans.dirty = compactedSlot p.manager := by
    simpa only [MetadataManager.dirty, hi] using hcomp.dirty
  have ha : p.manager.commit.active = (compactedSlot p.manager).updateHash := by
    simp only [MetadataManager.commit, active_populateDirtySlot, hd]
    simp [MetadataManager.active, setSlot]
  refine ⟨ha, ?_, hcomp.reclaimed_le, hcomp.len_le⟩
  have hdirty : p.manager.commit.dirty =
      { p.manager.commit.active with slot := p.manager.commit.active.slot.incSnapshotId } := by
    simp only [MetadataManager.commit, dirty_populateDirtySlot, active_populateDirtySlot]
  rw [MetadataManager.orphanPages, hdirty, ha]
  exact hcomp.orphans

omit [SlotHash] in
/-- Compaction changes neither the snapshot id nor the page count. -/
theorem compactedSlot_eq (m : MetadataManager) :
    (compactedSlot m).slot.snapshotId = m.dirty.slot.snapshotId ∧
      (compactedSlot m).slot.pageCount = m.dirty.slot.pageCount := by
  simp only [compactedSlot]
  split <;> exact ⟨rfl, rfl⟩

/-- A commit leaves a settled manager. -/
theorem Idle.settled_commit {p : Point} (h : Idle p) : Settled p.manager.commit := by
  obtain ⟨ha, -, hr, hl⟩ := h.active_commit
  refine ⟨?_, ?_, ?_, ?_⟩
  · rw [ha]
    exact (HashedMetadataSlot.verifyIntegrity_iff _).mpr (.inr ⟨hr, rfl⟩)
  · simp only [MetadataManager.commit, dirty_populateDirtySlot, active_populateDirtySlot]
  · rw [ha]
    exact hr
  · rw [ha]
    exact hl

/-! ### The committed state -/

private theorem committed_execAll {p : Point} {ss : List Store}
    (h : ∀ s ∈ ss, ∀ i, s ≠ .updateHash i) : (execAll p ss).committed = p.committed := by
  induction ss generalizing p with
  | nil => rfl
  | cons s ss ih =>
    rw [execAll_cons, ih fun t ht ↦ h t (List.mem_cons_of_mem _ ht)]
    cases s with
    | updateHash i => exact absurd rfl (h _ List.mem_cons_self i)
    | _ => rfl

omit [SlotHash] in
private theorem Store.Harmless.ne_updateHash {s : Store} {i : SlotIndex} {a : MetadataSlot}
    (h : s.Harmless i a) (j : SlotIndex) : s ≠ .updateHash j := by
  rintro rfl
  exact h

omit [SlotHash] in
private theorem populateStores_ne_updateHash (i : SlotIndex) (n : HashedMetadataSlot)
    (fields : List SlotField) : ∀ s ∈ populateStores i n fields, ∀ j, s ≠ .updateHash j := by
  intro s hs j
  simp only [populateStores, List.mem_append, List.mem_map, List.mem_singleton] at hs
  rcases hs with ⟨f, -, rfl⟩ | rfl <;> simp

/-- Within an operation the committed state changes at most once, to the compacted dirty slot
and the orphans of the moment, and only in a commit. -/
theorem Idle.committed_take {p : Point} (h : Idle p) {op : Op} (ho : op.Complete p.manager)
    (n : Nat) :
    (Meta.execAll p ((op.stores p.manager).take n)).committed = p.committed ∨
      (∃ fields entries, op = .commit fields entries) ∧
        (Meta.execAll p ((op.stores p.manager).take n)).committed =
          ((compactedSlot p.manager).slot, p.manager.orphanPages) := by
  by_cases hc : ∃ fields entries, op = .commit fields entries
  · obtain ⟨fields, entries, rfl⟩ := hc
    have hcomp := h.compacted ho.2
    have hpre : ∀ s ∈ compactStores p.manager entries, ∀ i, s ≠ .updateHash i :=
      fun s hs ↦ (compactStores_harmless _ _ s hs).ne_updateHash
    rw [stores_commit, List.take_append, execAll_append]
    cases hk : n - (compactStores p.manager entries).length with
    | zero =>
      -- the hash has not been written yet
      rw [List.take_zero, execAll_nil]
      exact .inl (committed_execAll fun s hs ↦ hpre s (List.mem_of_mem_take hs))
    | succ k =>
      refine .inr ⟨⟨fields, entries, rfl⟩, ?_⟩
      rw [List.take_of_length_le (by omega), List.take_succ_cons, execAll_cons,
        committed_execAll]
      · simp only [Store.step, hcomp.dirty, hcomp.orphans]
      · intro s hs j
        rcases List.mem_cons.mp (List.mem_of_mem_take hs) with rfl | hs
        · simp
        · exact populateStores_ne_updateHash _ _ _ s hs j
  · have hop : ∀ fields entries, op ≠ .commit fields entries :=
      fun fields entries he ↦ hc ⟨fields, entries, he⟩
    refine .inl (committed_execAll fun s hs ↦ ?_)
    exact (h.harmless hop s (List.mem_of_mem_take hs)).ne_updateHash

private theorem Idle.execAll_eq {p : Point} (h : Idle p) (op : Op) {m : MetadataManager}
    (hop : ∀ fields entries, op ≠ .commit fields entries)
    (hm : m = (Meta.execAll p (op.stores p.manager)).manager) : Idle ⟨m, p.committed⟩ := by
  have hidle := h.execAll hop
  have hc : (Meta.execAll p (op.stores p.manager)).committed = p.committed :=
    committed_execAll fun s hs ↦ (h.harmless hop s hs).ne_updateHash
  subst hm
  rwa [← hc]

/-- A push keeps the point idle. -/
theorem Idle.push {m m' : MetadataManager} {c : MetadataSlot × List OrphanPage} {o : OrphanPage}
    (h : Idle ⟨m, c⟩) (hm : m.push o = some m') : Idle ⟨m', c⟩ := by
  rw [push_eq_execAll ⟨m, c⟩ o h.range] at hm
  exact h.execAll_eq (.push o) (by simp) (Option.some.inj hm).symm

/-- A pop keeps the point idle. -/
theorem Idle.pop {m m' : MetadataManager} {c : MetadataSlot × List OrphanPage} {t : Nat}
    {r : Option OrphanPage} (h : Idle ⟨m, c⟩) (hm : m.pop t = (r, m')) : Idle ⟨m', c⟩ := by
  refine h.execAll_eq (.pop t) (by simp) ?_
  rw [← pop_eq_execAll, hm]

/-- Changing the dirty slot outside its range keeps the point idle. -/
theorem Idle.modifyDirty {m : MetadataManager} {c : MetadataSlot × List OrphanPage}
    {f : MetadataSlot → MetadataSlot} (h : Idle ⟨m, c⟩)
    (hl : ∀ s, (f s).orphanPagesLen = s.orphanPagesLen)
    (hr : ∀ s, (f s).reclaimedOrphansLen = s.reclaimedOrphansLen) :
    Idle ⟨m.modifyDirty f, c⟩ := by
  obtain ⟨hv, hc, hs, hrm, hlm, hr1, hr2⟩ := h
  refine ⟨?_, ?_, ?_, ?_, ?_, ?_, ?_⟩ <;>
    simp only [active_modifyDirty, dirty_modifyDirty, orphans_modifyDirty, hl, hr] at *
  · exact hv
  · exact hc
  · exact hs
  · exact hrm
  · exact hlm
  · exact hr1
  · exact hr2

/-! ### Runs -/

/-- Every operation recovers at every store and ends idle. -/
theorem Idle.op {p : Point} (h : Idle p) {op : Op} (ho : op.Complete p.manager)
    (hlt : op.Ascending p.manager) {xs : List MetadataSlot} (hx : CollisionFree xs)
    (hin : Throughout (SlotsIn xs) p (op.stores p.manager)) :
    Throughout Recovers p (op.stores p.manager) ∧
      Idle (Meta.execAll p (op.stores p.manager)) := by
  by_cases hc : ∃ fields entries, op = .commit fields entries
  · obtain ⟨fields, entries, rfl⟩ := hc
    exact h.commit ho hlt hx hin
  · have hop : ∀ fields entries, op ≠ .commit fields entries :=
      fun fields entries he ↦ hc ⟨fields, entries, he⟩
    refine ⟨?_, h.execAll hop⟩
    exact (h.guarded.throughout (h.harmless hop)).map₂
      (fun r hg hr ↦ hg.recovers h.verified hx (hin.head _) (hr _)) hin

/-- A run recovers at every store. -/
private theorem Idle.run {p : Point} (h : Idle p) {ops : List Op} (ho : RunAll Op.Complete p ops)
    (hlt : RunAll Op.Ascending p ops) {xs : List MetadataSlot} (hx : CollisionFree xs)
    (hin : Throughout (SlotsIn xs) p (runStores p ops)) :
    Throughout Recovers p (runStores p ops) := by
  induction ops generalizing p with
  | nil => exact h.guarded.recovers h.verified hx (hin _) (hin _)
  | cons op ops ih =>
    obtain ⟨hrec, hidle⟩ := h.op ho.1 hlt.1 hx hin.left
    exact throughout_append hrec (ih hidle ho.2 hlt.2 hin.right)

end

/-! ### The slot hash in use -/

/-- One round of `FxHasher64`. -/
private def fxAdd (h word : UInt64) : UInt64 :=
  ((h <<< 5 ||| h >>> 59) ^^^ word) * 0x517cc1b727220a95

private def word32 (lo hi : Nat) : UInt64 := UInt64.ofNat (lo % 2 ^ 32 + hi % 2 ^ 32 * 2 ^ 32)

private def hashWord (h : B256) (i : Fin 4) : UInt64 :=
  (List.finRange 8).foldr (fun j acc ↦
    (h.get ⟨8 * i.val + j.val, by omega⟩).toUInt64 ||| acc <<< 8) 0

/-- `fxhash::hash64` of the 56 bytes of a slot, which hashes their number first. -/
def fxHash64 (s : MetadataSlot) : UInt64 :=
  [56, UInt64.ofNat s.snapshotId, hashWord s.rootNodeHash 0, hashWord s.rootNodeHash 1,
    hashWord s.rootNodeHash 2, hashWord s.rootNodeHash 3,
    word32 s.rootNodePageId s.pageCount,
    word32 s.orphanPagesLen s.reclaimedOrphansLen].foldl fxAdd 0

/-- The slot hash of the program. -/
@[reducible] def fxSlotHash : SlotHash := ⟨fxHash64⟩

/-- The manager of a new file. -/
def opened : MetadataManager := populateDirtySlot ⟨.new, .zero⟩

/-- A new file is settled. -/
theorem settled_opened [SlotHash] : Settled opened := by
  have hz (i : SlotIndex) : (MetaFile.new.slots i).isEmpty = true := by cases i <;> decide
  have h : MetaFile.new.latestSlotIndex = .ok .zero := by
    simp only [MetaFile.latestSlotIndex, hz, Bool.and_self, if_true]
  refine settled_of_fromFile (f := .new) ?_ (Nat.zero_le _)
  simp only [fromFile, h]
  rfl

end TrieDb.Meta

import TrieDb.Meta.Crash

/-!
# The orphan list is a queue

What callers see of the orphan list (`OrphanPages`, `src/meta/mod.rs:602–691`): pages leave it in
the order in which they entered it, whatever growth, compaction, commits and reopening do to the
array and the two slots that describe it.
-/

namespace TrieDb.Meta

open MetadataManager

/-- `OrphanPages::len`. -/
def MetadataManager.len (m : MetadataManager) : Nat :=
  m.dirty.slot.orphanPagesLen - m.dirty.slot.reclaimedOrphansLen

/-- A call on an open metadata file, or closing and reopening it. -/
inductive Call where
  | push (o : OrphanPage)
  | pop (snapshotThreshold : Nat)
  | commit
  | reopen
  deriving DecidableEq

namespace Call

/-- The file is reopened only where nothing has changed since it was opened or committed. -/
def Clean : Bool → List Call → Prop
  | _, [] => True
  | _, .push _ :: calls => Clean false calls
  | _, .pop _ :: calls => Clean false calls
  | _, .commit :: calls => Clean true calls
  | clean, .reopen :: calls => clean = true ∧ Clean true calls

/-- The pages that are pushed. -/
def pushed : List Call → List OrphanPage
  | [] => []
  | .push o :: calls => o :: pushed calls
  | _ :: calls => pushed calls

section
variable [SlotHash]

/-- A call and the page it returns; `none` is a panic, or a file that cannot be opened. -/
def exec (m : MetadataManager) : Call → Option (MetadataManager × Option OrphanPage)
  | .push o => (m.push o).map (·, none)
  | .pop t => some ((m.pop t).2, (m.pop t).1)
  | .commit => some (m.commit, none)
  | .reopen =>
    match fromFile m.file with
    | .ok m' => some (m', none)
    | .error _ => none

/-- A sequence of calls and the pages they return. -/
def run (m : MetadataManager) : List Call → Option (MetadataManager × List (Option OrphanPage))
  | [] => some (m, [])
  | call :: calls => do
    let (m, o) ← call.exec m
    let (m, os) ← run m calls
    return (m, o :: os)

end

/-- A call on a queue. -/
def onQueue (q : List OrphanPage) : Call → List OrphanPage × Option OrphanPage
  | .push o => (q ++ [o], none)
  | .pop t =>
    match q with
    | [] => ([], none)
    | o :: rest => if o.orphanedAt ≤ t then (rest, some o) else (q, none)
  | _ => (q, none)

/-- A sequence of calls on a queue. -/
def runQueue (q : List OrphanPage) : List Call → List OrphanPage × List (Option OrphanPage)
  | [] => (q, [])
  | call :: calls =>
    let (q, o) := call.onQueue q
    let (q, os) := runQueue q calls
    (q, o :: os)

/-- A queue holds what entered it and has not left it, in order. -/
private theorem runQueue_fifo (q : List OrphanPage) (calls : List Call) :
    q ++ pushed calls = (runQueue q calls).2.filterMap id ++ (runQueue q calls).1 := by
  induction calls generalizing q with
  | nil => simp [runQueue, pushed]
  | cons call calls ih =>
    cases call with
    | push o =>
      have := ih (q ++ [o])
      simpa [runQueue, onQueue, pushed] using this
    | pop t =>
      cases q with
      | nil => simpa [runQueue, onQueue, pushed] using ih []
      | cons o rest =>
        by_cases ht : o.orphanedAt ≤ t
        · simpa [runQueue, onQueue, pushed, ht] using ih rest
        · simpa [runQueue, onQueue, pushed, ht] using ih (o :: rest)
    | commit => simpa [runQueue, onQueue, pushed] using ih q
    | reopen => simpa [runQueue, onQueue, pushed] using ih q

end Call

/-! ### One call -/

section
variable [SlotHash] {m m' : MetadataManager}

/-- A manager on which the calls of a session are made; if nothing has changed since it was opened
or committed, its file can be opened again. -/
structure Tracks (clean : Bool) (m : MetadataManager) : Prop where
  idle : Idle (start m)
  settled : clean = true → Settled m

private theorem Settled.tracks (h : Settled m) (clean : Bool) :
    Tracks clean m := ⟨h.idle, fun _ ↦ h⟩

/-- An idle manager, whatever state was noted as the committed one. -/
theorem idle_start {c : MetadataSlot × List OrphanPage} (h : Idle ⟨m, c⟩) : Idle (start m) :=
  ⟨h.verified, rfl, h.stale, h.reclaimed_mono, h.len_mono, h.range⟩

/-- A settled file is opened from the active slot, or from the dirty one if its stale hash happens
to be right. -/
theorem Settled.latestSlotIndex (h : Settled m) : ∃ i, m.file.latestSlotIndex = .ok i ∧
    (m.file.slots i = m.active ∨ m.file.slots i = m.dirty) := by
  have hv : (m.file.slots m.activeSlot).verifyIntegrity = true := h.verified
  cases hw : (m.file.slots m.activeSlot.not).verifyIntegrity with
  | false =>
    obtain ⟨i, hi, heq⟩ := latestSlotIndex_of_other m.file m.activeSlot hv
      (fun h ↦ by rw [hw] at h; cases h)
    exact ⟨i, hi, .inl heq⟩
  | true =>
    have hlt : m.active.slot.snapshotId < m.dirty.slot.snapshotId := by
      rw [h.dirty]
      exact Nat.lt_succ_self _
    obtain ⟨i, hi, heq⟩ := latestSlotIndex_of_other m.file m.activeSlot.not hw
      (fun _ ↦ .inr (by rwa [SlotIndex.not_not]))
    exact ⟨i, hi, .inr heq⟩

/-- The dirty slot of a settled manager describes the same orphans as the active one. If its stale
hash happens to be right, the file is reopened from it, with the same orphans. -/
theorem Settled.reopen (h : Settled m) :
    ∃ m', fromFile m.file = .ok m' ∧ Settled m' ∧ m'.orphanPages = m.orphanPages ∧
      m'.dirty.slot.orphanPagesLen = m.dirty.slot.orphanPagesLen ∧
      m.active.slot.snapshotId ≤ m'.active.slot.snapshotId := by
  have hlen : (m.file.slots m.activeSlot).slot.orphanPagesLen ≤ m.file.orphans.length := h.len_le
  have hindex : ∃ i, m.file.latestSlotIndex = .ok i ∧
      (m.file.slots i).slot.orphanPagesLen = (m.file.slots m.activeSlot).slot.orphanPagesLen ∧
      (m.file.slots i).slot.reclaimedOrphansLen =
        (m.file.slots m.activeSlot).slot.reclaimedOrphansLen ∧
      (m.file.slots m.activeSlot).slot.snapshotId ≤ (m.file.slots i).slot.snapshotId := by
    obtain ⟨i, hi, heq⟩ := h.latestSlotIndex
    refine ⟨i, hi, ?_⟩
    rcases heq with heq | heq
    · rw [heq]
      exact ⟨rfl, rfl, Nat.le_refl _⟩
    · rw [heq, h.dirty]
      exact ⟨rfl, rfl, Nat.le_succ _⟩
  obtain ⟨i, hi, hl, hr, hid⟩ := hindex
  have hopen : fromFile m.file = .ok (populateDirtySlot ⟨m.file, i⟩) := by
    rw [fromFile, hi]
  refine ⟨_, hopen, settled_of_fromFile hopen ?_, ?_, ?_, ?_⟩
  · rw [active_populateDirtySlot]
    exact hl.trans_le hlen
  · rw [orphanPages, orphanPages, dirty_populateDirtySlot, h.dirty]
    simp only [orphansOf, MetadataSlot.incSnapshotId, orphans_populateDirtySlot]
    exact congrArg₂ (fun a b ↦ (m.file.orphans.take a).drop b) hl hr
  · rw [dirty_populateDirtySlot, h.dirty]
    exact hl
  · rw [active_populateDirtySlot]
    exact hid

/-- A reopened file continues with the committed state, under its snapshot or the next. -/
theorem Settled.active_reopen (h : Settled m) {m' : MetadataManager}
    (hm : fromFile m.file = .ok m') : m'.active.slot = m.active.slot ∨
      m'.active.slot = m.active.slot.incSnapshotId := by
  obtain ⟨i, hi, heq⟩ := h.latestSlotIndex
  rw [fromFile, hi] at hm
  cases hm
  rw [active_populateDirtySlot]
  show (m.file.slots i).slot = _ ∨ (m.file.slots i).slot = _
  rcases heq with heq | heq
  · exact .inl (by rw [heq])
  · exact .inr (by rw [heq, h.dirty])

omit [SlotHash] in
/-- `pop` returns and removes the head if it meets the threshold, and changes nothing otherwise. -/
private theorem pop_eq (hw : m.RangeWF) (t : Nat) :
    (∀ o rest, m.orphanPages = o :: rest → o.orphanedAt ≤ t →
      ∃ m', m.pop t = (some o, m') ∧ m'.orphanPages = rest) ∧
    ((∀ o ∈ m.orphanPages.head?, t < o.orphanedAt) → m.pop t = (none, m)) := by
  cases hp : m.pop t with
  | mk r m' =>
    cases r with
    | none =>
      obtain ⟨rfl, hhead⟩ := pop_none hw hp
      refine ⟨fun o rest ho ht ↦ ?_, fun _ ↦ rfl⟩
      have := hhead o (by rw [ho]; rfl)
      omega
    | some o =>
      obtain ⟨ho, ht, -⟩ := orphanPages_pop_some hw hp
      refine ⟨fun o' rest ho' _ ↦ ?_, fun hhead ↦ ?_⟩
      · rw [ho] at ho'
        cases ho'
        exact ⟨m', rfl, rfl⟩
      · have := hhead o (by rw [ho]; rfl)
        omega

omit [SlotHash] in
private theorem orphanPagesLen_push {o : OrphanPage} (h : m.push o = some m') :
    m'.dirty.slot.orphanPagesLen = m.dirty.slot.orphanPagesLen + 1 := by
  have hwithin {m m' : MetadataManager} (h : m.pushWithinCapacity o = some m') :
      m'.dirty.slot.orphanPagesLen = m.dirty.slot.orphanPagesLen + 1 := by
    simp only [pushWithinCapacity] at h
    split at h
    · cases h
      simp
    · cases h
  simp only [push] at h
  split at h
  · next m₁ hm₁ =>
    cases h
    exact hwithin hm₁
  · show m'.dirty.slot.orphanPagesLen = m.grow.dirty.slot.orphanPagesLen + 1
    exact hwithin h

omit [SlotHash] in
private theorem orphanPagesLen_pop (t : Nat) :
    (m.pop t).2.dirty.slot.orphanPagesLen = m.dirty.slot.orphanPagesLen := by
  simp only [pop]
  split
  · split
    · simp
    · rfl
  · rfl

private theorem orphanPagesLen_commit (h : Idle (start m)) :
    m.commit.dirty.slot.orphanPagesLen ≤ m.dirty.slot.orphanPagesLen := by
  have hactive : m.commit.active = (compactedSlot m).updateHash := h.active_commit.1
  have hdirty : m.commit.dirty =
      { m.commit.active with slot := m.commit.active.slot.incSnapshotId } := h.settled_commit.dirty
  have hlen : m.orphanPages.length ≤ m.dirty.slot.orphanPagesLen := by
    rw [orphanPages, orphansOf, List.length_drop, List.length_take]
    omega
  rw [hdirty, hactive]
  simp only [MetadataSlot.incSnapshotId, HashedMetadataSlot.updateHash, compactedSlot]
  split
  · exact hlen
  · exact Nat.le_refl _

/-- Whether nothing has changed after a call. -/
def Call.cleanAfter : Call → Bool
  | .push _ => false
  | .pop _ => false
  | .commit => true
  | .reopen => true

/-- A call does to the list what it does to a queue. -/
private theorem Tracks.exec {clean : Bool} (h : Tracks clean m) {call : Call}
    (hclean : call = .reopen → clean = true) :
    ∃ m', call.exec m = some (m', (call.onQueue m.orphanPages).2) ∧
      m'.orphanPages = (call.onQueue m.orphanPages).1 ∧ Tracks call.cleanAfter m' ∧
      m'.dirty.slot.orphanPagesLen ≤ m.dirty.slot.orphanPagesLen + (Call.pushed [call]).length := by
  have hw : m.RangeWF := h.idle.range
  cases call with
  | push o =>
    obtain ⟨m', hm'⟩ := Option.isSome_iff_exists.mp (push_isSome o hw)
    have htracks : Tracks false m' := ⟨idle_start (h.idle.push hm'), fun hc ↦ by cases hc⟩
    refine ⟨m', ?_, (orphanPages_push hw hm').1, htracks, (orphanPagesLen_push hm').le⟩
    simp [Call.exec, Call.onQueue, hm']
  | pop t =>
    have htracks : Tracks false (m.pop t).2 :=
      ⟨idle_start (h.idle.pop rfl), fun hc ↦ by cases hc⟩
    obtain ⟨hsome, hnone⟩ := pop_eq hw t
    refine ⟨(m.pop t).2, ?_, ?_, htracks, (orphanPagesLen_pop t).le⟩
    · cases hq : m.orphanPages with
      | nil =>
        rw [Call.exec, hnone (by simp [hq])]
        rfl
      | cons o rest =>
        by_cases ht : o.orphanedAt ≤ t
        · obtain ⟨m', hm', -⟩ := hsome o rest hq ht
          simp [Call.exec, Call.onQueue, hm', ht]
        · rw [Call.exec, hnone (by simp [hq]; omega)]
          simp [Call.onQueue, ht]
    · cases hq : m.orphanPages with
      | nil =>
        rw [hnone (by simp [hq]), hq]
        rfl
      | cons o rest =>
        by_cases ht : o.orphanedAt ≤ t
        · obtain ⟨m', hm', hrest⟩ := hsome o rest hq ht
          rw [hm', hrest]
          simp [Call.onQueue, ht]
        · rw [hnone (by simp [hq]; omega), hq]
          simp [Call.onQueue, ht]
  | commit =>
    exact ⟨m.commit, rfl, h.idle.active_commit.2.1, h.idle.settled_commit.tracks true,
      orphanPagesLen_commit h.idle⟩
  | reopen =>
    obtain ⟨m', hopen, hset, hq, hlen, -⟩ := (h.settled (hclean rfl)).reopen
    refine ⟨m', ?_, hq, hset.tracks true, hlen.le⟩
    simp [Call.exec, Call.onQueue, hopen]

/-! ### A session -/

/-- A session does to the list what it does to a queue. -/
private theorem Tracks.run {clean : Bool} (h : Tracks clean m) {calls : List Call}
    (hclean : Call.Clean clean calls) :
    ∃ m' b, Call.run m calls = some (m', (Call.runQueue m.orphanPages calls).2) ∧
      m'.orphanPages = (Call.runQueue m.orphanPages calls).1 ∧ Tracks b m' ∧
      m'.dirty.slot.orphanPagesLen ≤ m.dirty.slot.orphanPagesLen + (Call.pushed calls).length := by
  induction calls generalizing m clean with
  | nil => exact ⟨m, clean, rfl, rfl, h, Nat.le_refl _⟩
  | cons call calls ih =>
    have hreopen : call = .reopen → clean = true := by
      intro hc
      rw [hc] at hclean
      exact hclean.1
    have hrest : Call.Clean call.cleanAfter calls := by
      cases call with
      | push o => exact hclean
      | pop t => exact hclean
      | commit => exact hclean
      | reopen => exact hclean.2
    obtain ⟨m₁, hexec, hq, htracks, hlen⟩ := h.exec hreopen
    obtain ⟨m', b, hrun, hq', htracks', hlen'⟩ := ih htracks hrest
    rw [hq] at hrun hq'
    refine ⟨m', b, ?_, hq', htracks', ?_⟩
    · simp [Call.run, hexec, hrun, Call.runQueue]
    · have hpushed : (Call.pushed (call :: calls)).length =
          (Call.pushed [call]).length + (Call.pushed calls).length := by
        cases call <;> simp [Call.pushed, Nat.add_comm]
      omega

/-- Compaction moves the orphans to a range that neither they nor the committed orphans are in. -/
private theorem Tracks.compact_apart {clean : Bool} (h : Tracks clean m)
    (hmove : m.orphanPages.length ≤ m.active.slot.reclaimedOrphansLen) :
    ∀ k < m.orphanPages.length,
      ¬ (m.dirty.slot.reclaimedOrphansLen ≤ k ∧ k < m.dirty.slot.orphanPagesLen) ∧
      ¬ (m.active.slot.reclaimedOrphansLen ≤ k ∧ k < m.active.slot.orphanPagesLen) := by
  intro k hk
  have hmono : m.active.slot.reclaimedOrphansLen ≤ m.dirty.slot.reclaimedOrphansLen :=
    h.idle.reclaimed_mono
  omega

private theorem Tracks.len_eq {clean : Bool} (h : Tracks clean m) :
    m.len = m.orphanPages.length := by
  have hle : m.dirty.slot.orphanPagesLen ≤ m.file.orphans.length := h.idle.range.2
  rw [MetadataManager.len, orphanPages, orphansOf, List.length_drop, List.length_take]
  omega

/-- A new file can be opened. -/
theorem fromFile_new : fromFile .new = .ok opened := by
  have hz (i : SlotIndex) : (MetaFile.new.slots i).isEmpty = true := by cases i <;> decide
  have h : MetaFile.new.latestSlotIndex = .ok .zero := by
    simp only [MetaFile.latestSlotIndex, hz, Bool.and_self, if_true]
  rw [fromFile, h]
  rfl

/-- After every session on a new file the list is the queue of the pages pushed and not yet popped,
in the order of the pushes; every call of the session returned what the queue returns. The next push
succeeds, the next pop takes the head exactly if it meets the threshold, and compaction copies
between ranges that do not meet. The counters of the slots are never above the number of pushes. -/
theorem orphanPages_fifo (calls : List Call) (hclean : Call.Clean true calls) :
    ∃ m₀ m os, fromFile .new = .ok m₀ ∧ Call.run m₀ calls = some (m, os) ∧
      Call.runQueue [] calls = (m.orphanPages, os) ∧
      Call.pushed calls = os.filterMap id ++ m.orphanPages ∧ m.len = m.orphanPages.length ∧
      (∀ o, (m.push o).isSome) ∧
      (∀ t o rest, m.orphanPages = o :: rest → o.orphanedAt ≤ t →
        ∃ m', m.pop t = (some o, m') ∧ m'.orphanPages = rest) ∧
      (∀ t, (∀ o ∈ m.orphanPages.head?, t < o.orphanedAt) → m.pop t = (none, m)) ∧
      (m.orphanPages.length ≤ m.active.slot.reclaimedOrphansLen → ∀ k < m.orphanPages.length,
        ¬ (m.dirty.slot.reclaimedOrphansLen ≤ k ∧ k < m.dirty.slot.orphanPagesLen) ∧
        ¬ (m.active.slot.reclaimedOrphansLen ≤ k ∧ k < m.active.slot.orphanPagesLen)) ∧
      m.dirty.slot.orphanPagesLen ≤ (Call.pushed calls).length := by
  obtain ⟨m, b, hrun, hq, h, hlen⟩ := (settled_opened.tracks true).run hclean
  have hempty : opened.orphanPages = [] := by decide
  rw [hempty] at hrun hq
  have hfifo := Call.runQueue_fifo [] calls
  rw [← hq] at hfifo
  have hw : m.RangeWF := h.idle.range
  refine ⟨opened, m, _, fromFile_new, hrun, by rw [hq], hfifo, h.len_eq, fun o ↦ push_isSome o hw,
    fun t ↦ (pop_eq hw t).1, fun t ↦ (pop_eq hw t).2, h.compact_apart, ?_⟩
  have hzero : opened.dirty.slot.orphanPagesLen = 0 := rfl
  omega

end

/-- Three pushes, with a commit, a compaction and a reopened file between two pops. -/
theorem orphanPages_fifo_session :
    letI := fxSlotHash
    let calls : List Call := [.push ⟨1, 1⟩, .push ⟨2, 1⟩, .commit, .pop 1, .commit, .push ⟨3, 2⟩,
      .pop 1, .commit, .reopen, .pop 1]
    ∃ m₀ m, fromFile .new = .ok m₀ ∧
      Call.run m₀ calls = some (m, [none, none, none, some ⟨1, 1⟩, none, none, some ⟨2, 1⟩, none,
        none, none]) ∧ m.orphanPages = [⟨3, 2⟩] := by
  let _ := fxSlotHash
  intro calls
  obtain ⟨m₀, m, os, hopen, hrun, hqueue, -⟩ := orphanPages_fifo calls (by simp [calls, Call.Clean])
  have hq : Call.runQueue [] calls = ([⟨3, 2⟩], [none, none, none, some ⟨1, 1⟩, none, none,
    some ⟨2, 1⟩, none, none, none]) := by decide
  rw [hq] at hqueue
  obtain ⟨hlist, rfl⟩ := Prod.mk.inj hqueue
  exact ⟨m₀, m, hopen, hrun, hlist.symm⟩

end TrieDb.Meta

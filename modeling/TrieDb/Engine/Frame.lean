import TrieDb.Engine.Trace

/-!
# What a write leaves alone

A call of `set_values` acquires pages in four ways: an orphan taken off the list, a page added to
the file, a page of its own snapshot in place, and a copy made for the page of a child. `Frame`
relates the state at the start of the call to any later one, with the pages held at that time, and
every operation of `src/storage/engine/` keeps it, from any state and also when it fails.
-/

namespace TrieDb

/-- The snapshot id in the header of a page, which is zero while the page is unused. -/
def PageState.headerSnapshotId : PageState → Nat
  | unused => 0
  | occupied s => s
  | dirty s => s

/-- The dirty flag is not part of the snapshot id. -/
@[simp] theorem PageState.headerSnapshotId_unsetDirty (s : PageState) :
    s.unsetDirty.headerSnapshotId = s.headerSnapshotId := by
  cases s with
  | dirty n =>
    simp only [unsetDirty]
    split
    · next h => rw [h]; rfl
    · rfl
  | _ => rfl

namespace Meta.MetadataManager

/-- The orphans of a page taken off the list between `m₀` and `m`. -/
def Popped (m₀ m : MetadataManager) (pageId : Nat) : Prop :=
  ∃ i o, m₀.dirty.slot.reclaimedOrphansLen ≤ i ∧ i < m.dirty.slot.reclaimedOrphansLen ∧
    m.file.orphans[i]? = some o ∧ o.pageId = pageId

/-- The list between two calls of `pop`: no later entry is written over one that was taken off. -/
structure Advances (m₀ m : MetadataManager) : Prop where
  le : m₀.dirty.slot.reclaimedOrphansLen ≤ m.dirty.slot.reclaimedOrphansLen
  behind : m.dirty.slot.reclaimedOrphansLen = m₀.dirty.slot.reclaimedOrphansLen ∨
    m.dirty.slot.reclaimedOrphansLen ≤ m.dirty.slot.orphanPagesLen

namespace Advances

variable {m₀ m m' : MetadataManager} {o : OrphanPage} {t : Nat}

private theorem refl (m : MetadataManager) : Advances m m := ⟨Nat.le_refl _, .inl rfl⟩

private theorem pushWithinCapacity (h : Advances m₀ m) (hp : m.pushWithinCapacity o = some m') :
    Advances m₀ m' ∧ ∀ id, Popped m₀ m id → Popped m₀ m' id := by
  simp only [MetadataManager.pushWithinCapacity] at hp
  split at hp
  · cases hp
    constructor
    · constructor
      · simpa using h.le
      · have := h.behind
        simp only [dirty_modifyDirty, dirty_setOrphans]
        omega
    · rintro id ⟨i, o', hle, hlt, hget, hid⟩
      have hne : m.dirty.slot.orphanPagesLen ≠ i := by
        have := h.behind
        omega
      refine ⟨i, o', hle, by simpa using hlt, ?_, hid⟩
      rw [orphans_modifyDirty, orphans_setOrphans, List.getElem?_set_ne hne]
      exact hget
  · cases hp

private theorem grow (h : Advances m₀ m) :
    Advances m₀ m.grow ∧ ∀ id, Popped m₀ m id → Popped m₀ m.grow id := by
  constructor
  · exact ⟨h.le, h.behind⟩
  · rintro id ⟨i, o, hle, hlt, hget, hid⟩
    have hi : i < m.file.orphans.length := (List.getElem?_eq_some_iff.mp hget).1
    refine ⟨i, o, hle, hlt, ?_, hid⟩
    rw [MetadataManager.grow, orphans_setOrphans, List.getElem?_append_left hi]
    exact hget

/-- A push keeps the entries taken off. -/
private theorem push (h : Advances m₀ m) (hp : m.push o = some m') :
    Advances m₀ m' ∧ ∀ id, Popped m₀ m id → Popped m₀ m' id := by
  unfold MetadataManager.push at hp
  split at hp
  · next hw =>
    cases hp
    exact h.pushWithinCapacity hw
  · obtain ⟨hg, hpopped⟩ := h.grow
    obtain ⟨hadv, hpopped'⟩ := hg.pushWithinCapacity hp
    exact ⟨hadv, fun id hid ↦ hpopped' id (hpopped id hid)⟩

/-- A pop adds the entry it returns. -/
private theorem pop {r : Option OrphanPage} (h : Advances m₀ m) (hp : m.pop t = (r, m')) :
    Advances m₀ m' ∧ (∀ id, Popped m₀ m id → Popped m₀ m' id) ∧
      ∀ o ∈ r, Popped m₀ m' o.pageId := by
  have hsame : Advances m₀ m ∧ (∀ id, Popped m₀ m id → Popped m₀ m id) ∧
      ∀ o ∈ (none : Option OrphanPage), Popped m₀ m o.pageId :=
    ⟨h, fun _ hid ↦ hid, fun _ ho ↦ by cases ho⟩
  simp only [MetadataManager.pop] at hp
  split at hp
  · next o hget =>
    split at hp
    · next hc =>
      cases hp
      have hle := h.le
      refine ⟨⟨?_, .inr ?_⟩, ?_, ?_⟩
      · simp only [dirty_modifyDirty]
        omega
      · simp only [dirty_modifyDirty]
        omega
      · rintro id ⟨i, o', hi, hlt, hget', hid⟩
        refine ⟨i, o', hi, ?_, hget', hid⟩
        simp only [dirty_modifyDirty]
        omega
      · intro o' ho'
        cases ho'
        refine ⟨_, o, hle, ?_, hget, rfl⟩
        simp only [dirty_modifyDirty]
        omega
    · cases hp
      exact hsame
  · cases hp
    exact hsame

end Advances

end Meta.MetadataManager

namespace Engine

open Meta Base

section
variable {γ : Type} {s₀ s : State γ} {held : List Nat} {p : Nat}

/-- Taken off the orphan list between two states of a call. -/
def Popped (s₀ s : State γ) (p : Nat) : Prop :=
  s₀.engine.metaManager.Popped s.engine.metaManager p

/-- A page that a call started in `s₀` may have acquired by `s`: it was added to the file, is of
the call's snapshot, or was taken off the orphan list. -/
def Writable (s₀ s : State γ) (p : Nat) : Prop :=
  s₀.engine.pageManager.pageCount < p ∨
    (s₀.engine.pageManager.pages p).state.headerSnapshotId = s₀.context.snapshotId ∨
    Popped s₀ s p

/-- The state `s` of a call started in `s₀`, when the call holds the pages `held`. -/
structure Frame (s₀ : State γ) (held : List Nat) (s : State γ) : Prop where
  snapshotId : s.context.snapshotId = s₀.context.snapshotId
  cache : ∀ a c, s.context.contractAccountLocCache a = some c →
    s₀.context.contractAccountLocCache a = some c
  pageCount : s₀.engine.pageManager.pageCount ≤ s.engine.pageManager.pageCount
  queue : s₀.engine.metaManager.Advances s.engine.metaManager
  inFile : ∀ p ∈ held, p ≤ s.engine.pageManager.pageCount
  atHand : ∀ p ∈ held,
    (s.engine.pageManager.pages p).state = .dirty s₀.context.snapshotId ∧ Writable s₀ s p
  others : ∀ p ∉ held, s.engine.pageManager.pages p = s₀.engine.pageManager.pages p ∨
    (s.engine.pageManager.pages p).state = (PageState.dirty s₀.context.snapshotId).unsetDirty ∧
      Writable s₀ s p

/-- What a call from `s` to `s'` with the snapshot of `s` does to the pages of the file and to the
context. A page that was acquired has the snapshot in its header from then on, so that a page with
another header at the end was not acquired. -/
structure CopyOnWrite (s s' : State γ) : Prop where
  unchanged : ∀ p ≤ s.engine.pageManager.pageCount,
    (s.engine.pageManager.pages p).state.headerSnapshotId ≠ s.context.snapshotId →
    ¬ Popped s s' p → s'.engine.pageManager.pages p = s.engine.pageManager.pages p
  written : ∀ p, s'.engine.pageManager.pages p ≠ s.engine.pageManager.pages p →
    (s'.engine.pageManager.pages p).state.headerSnapshotId = s.context.snapshotId ∧
      (s'.engine.pageManager.pages p).state.isDirty = false
  context : ∃ hash root pageCount cache,
    s'.context = ⟨s.context.snapshotId, hash, root, pageCount, cache⟩

namespace Frame

/-- The frame of no actions. -/
theorem start (s : State γ) : Frame s [] s where
  snapshotId := rfl
  cache := fun _ _ h ↦ h
  pageCount := Nat.le_refl _
  queue := .refl _
  inFile := fun _ hp ↦ by cases hp
  atHand := fun _ hp ↦ by cases hp
  others := fun _ _ ↦ .inl rfl

/-- Writing a page at hand. -/
private theorem store (h : Frame s₀ held s) (hp : p ∈ held) {page : Page γ}
    (hstate : page.state = .dirty s₀.context.snapshotId) :
    Frame s₀ held (s.setPages (s.engine.pageManager.setPage p page)) where
  snapshotId := h.snapshotId
  cache := h.cache
  pageCount := h.pageCount
  queue := h.queue
  inFile := h.inFile
  atHand := by
    intro q hq
    rw [State.pageManager_setPages]
    by_cases hqp : q = p
    · rw [hqp, PageManager.pages_setPage_self]
      exact ⟨hstate, (h.atHand p hp).2⟩
    · rw [PageManager.pages_setPage_of_ne _ _ hqp]
      exact h.atHand q hq
  others := by
    intro q hq
    have hqp : q ≠ p := fun heq ↦ hq (heq ▸ hp)
    rw [State.pageManager_setPages, PageManager.pages_setPage_of_ne _ _ hqp]
    exact h.others q hq

/-- A page that is not at hand and may be written becomes one that is. -/
private theorem acquire (h : Frame s₀ held s) (hp : p ∉ held)
    (hle : p ≤ s.engine.pageManager.pageCount) (hw : Writable s₀ s p) (c : γ) :
    Frame s₀ (p :: held) (s.setPages
      (s.engine.pageManager.setPage p ⟨.dirty s₀.context.snapshotId, c⟩)) where
  snapshotId := h.snapshotId
  cache := h.cache
  pageCount := h.pageCount
  queue := h.queue
  inFile := by
    intro q hq
    obtain rfl | hq := List.mem_cons.mp hq
    · exact hle
    · exact h.inFile q hq
  atHand := by
    intro q hq
    rw [State.pageManager_setPages]
    obtain rfl | hq := List.mem_cons.mp hq
    · rw [PageManager.pages_setPage_self]
      exact ⟨rfl, hw⟩
    · have hqp : q ≠ p := fun heq ↦ hp (heq ▸ hq)
      rw [PageManager.pages_setPage_of_ne _ _ hqp]
      exact h.atHand q hq
  others := by
    intro q hq
    rw [List.mem_cons, not_or] at hq
    rw [State.pageManager_setPages, PageManager.pages_setPage_of_ne _ _ hq.1]
    exact h.others q hq.2

/-- Dropping a page. -/
private theorem drop (h : Frame s₀ (p :: held) s) (hp : p ∉ held) :
    Frame s₀ held (s.setPages (s.engine.pageManager.drop p)) where
  snapshotId := h.snapshotId
  cache := h.cache
  pageCount := h.pageCount
  queue := h.queue
  inFile := fun q hq ↦ h.inFile q (List.mem_cons_of_mem p hq)
  atHand := by
    intro q hq
    have hqp : q ≠ p := fun heq ↦ hp (heq ▸ hq)
    rw [State.pageManager_setPages, PageManager.drop, PageManager.pages_setPage_of_ne _ _ hqp]
    exact h.atHand q (List.mem_cons_of_mem p hq)
  others := by
    intro q hq
    rw [State.pageManager_setPages, PageManager.drop]
    by_cases hqp : q = p
    · obtain ⟨hstate, hw⟩ := h.atHand p List.mem_cons_self
      rw [hqp, PageManager.pages_setPage_self, hstate]
      exact .inr ⟨rfl, hw⟩
    · rw [PageManager.pages_setPage_of_ne _ _ hqp]
      exact h.others q (by rw [List.mem_cons, not_or]; exact ⟨hqp, hq⟩)

/-- The list of orphans may change as long as the entries taken off stay. -/
private theorem setMeta {m : MetadataManager} (h : Frame s₀ held s)
    (hq : s₀.engine.metaManager.Advances m)
    (hpopped : ∀ id, Popped s₀ s id → s₀.engine.metaManager.Popped m id) :
    Frame s₀ held (s.setMeta m) := by
  have hw (q : Nat) : Writable s₀ s q → Writable s₀ (s.setMeta m) q :=
    Or.imp_right (Or.imp_right (hpopped q))
  exact ⟨h.snapshotId, h.cache, h.pageCount, hq, h.inFile, fun q hq ↦ ⟨(h.atHand q hq).1,
    hw q (h.atHand q hq).2⟩, fun q hq ↦ (h.others q hq).imp_right fun ho ↦ ⟨ho.1, hw q ho.2⟩⟩

/-- The context may change but for its snapshot, when no location is added. -/
private theorem setContext {ctx : TransactionContext} (h : Frame s₀ held s)
    (hctx : ctx.snapshotId = s.context.snapshotId)
    (hcache : ∀ a c, ctx.contractAccountLocCache a = some c →
      s.context.contractAccountLocCache a = some c) :
    Frame s₀ held { s with context := ctx } :=
  ⟨hctx.trans h.snapshotId, fun a c hc ↦ h.cache a c (hcache a c hc), h.pageCount, h.queue,
    h.inFile,
    h.atHand, h.others⟩

/-- Pages may be added to the file. -/
private theorem grow (h : Frame s₀ held s) {n : Nat} (hn : s.engine.pageManager.pageCount ≤ n) :
    Frame s₀ held (s.setPages { s.engine.pageManager with pageCount := n }) :=
  ⟨h.snapshotId, h.cache, Nat.le_trans h.pageCount hn, h.queue, fun q hq ↦
    Nat.le_trans (h.inFile q hq) hn,
    h.atHand, h.others⟩

/-- A page that is not dirty is not at hand. -/
private theorem not_mem_held (h : Frame s₀ held s)
    (hd : (s.engine.pageManager.pages p).state.isDirty = false) : p ∉ held := by
  intro hp
  rw [(h.atHand p hp).1] at hd
  cases hd

end Frame

/-! ### Acquiring and dropping pages -/

private theorem preserves_writeContents (hp : p ∈ held) (c : γ) :
    Preserves (Frame s₀ held) (writeContents p c) :=
  .modify fun _ hs ↦ hs.store hp (hs.atHand p hp).1

private theorem preserves_orphanPage (id : Nat) : Preserves (Frame s₀ held) (orphanPage id) := by
  intro s hs
  refine .bind (.get ?_)
  cases hm : s.engine.metaManager.push ⟨id, s.context.snapshotId⟩ with
  | none => exact hs
  | some m =>
    obtain ⟨hq, hpopped⟩ := hs.queue.push hm
    exact hs.setMeta hq hpopped

/-- A call that acquires a page: it holds one more on success and as many as before on an error. -/
def Acquires (s₀ : State γ) (held : List Nat) (x : EngineM γ Nat) : Prop :=
  ∀ s, Frame s₀ held s → Ensures x s
    (fun id t ↦ id ∉ held ∧ Frame s₀ (id :: held) t) (fun _ t ↦ Frame s₀ held t)

/-- A page that is not dirty is acquired. -/
private theorem getMutPage_frame (hs : Frame s₀ held s) (hw : Writable s₀ s p) :
    Ensures (getMutPage p) s (fun _ t ↦ p ∉ held ∧ Frame s₀ (p :: held) t)
      (fun _ t ↦ Frame s₀ held t) := by
  refine .bind (.get ?_)
  cases hg : s.engine.pageManager.getMut s.context.snapshotId p with
  | error e => exact hs
  | ok m =>
    obtain ⟨hle, hd, rfl⟩ := PageManager.getMut_eq_ok hg
    have hp : p ∉ held := hs.not_mem_held hd
    refine ⟨hp, ?_⟩
    rw [hs.snapshotId]
    exact hs.acquire hp hle hw _

variable [Inhabited γ]

/-- A page added to the file, or none at the page limit. -/
private theorem allocate_frame (hs : Frame s₀ held s) {r : Except PageError Nat} {m : PageManager γ}
    (hr : s.engine.pageManager.allocate s.context.snapshotId = (r, m)) :
    Ensures (liftPage r) (s.setPages m) (fun id t ↦ id ∉ held ∧ Frame s₀ (id :: held) t)
      (fun _ t ↦ Frame s₀ held t) := by
  have hcount : s.engine.pageManager.pageCount ≤ s.engine.pageManager.pageCount + 1 :=
    Nat.le_succ _
  simp only [PageManager.allocate] at hr
  split at hr
  · cases hr
    exact hs
  · split at hr
    · cases hr
      exact hs.grow hcount
    · cases hr
      have hp : s.engine.pageManager.pageCount + 1 ∉ held := fun hp ↦
        Nat.not_succ_le_self _ (hs.inFile _ hp)
      have hw : Writable s₀ s (s.engine.pageManager.pageCount + 1) :=
        .inl (Nat.lt_succ_of_le hs.pageCount)
      refine ⟨hp, ?_⟩
      rw [hs.snapshotId]
      exact (hs.grow hcount).acquire hp (Nat.le_refl _) hw default

private theorem acquires_allocatePage : Acquires s₀ held (allocatePage : EngineM γ Nat) := by
  intro s hs
  obtain ⟨orphan, m, hpop⟩ : ∃ o m, s.engine.metaManager.pop s.engine.aliveSnapshot = (o, m) :=
    ⟨_, _, rfl⟩
  obtain ⟨hq, hkept, hnew⟩ := hs.queue.pop hpop
  have hm : Frame s₀ held (s.setMeta m) := hs.setMeta hq hkept
  have hcount {id : Nat} {t : State γ} (ht : id ∉ held ∧ Frame s₀ (id :: held) t) :
      id ∉ held ∧ Frame s₀ (id :: held) (t.setPageCount t.engine.pageManager.pageCount) :=
    ⟨ht.1, ht.2.setContext rfl fun _ _ hc ↦ hc⟩
  refine .bind (.get ?_)
  rw [hpop]
  refine .bind ?_
  show Ensures _ (s.setMeta m) _ _
  cases orphan with
  | some o =>
    have hw : Writable s₀ (s.setMeta m) o.pageId := .inr (.inr (hnew o rfl))
    refine (getMutPage_frame hm hw).seq fun _ t ⟨hp, ht⟩ ↦ .bind (ensures_modify ?_)
    have hstamped : Frame s₀ (o.pageId :: held) (t.setPages (t.engine.pageManager.setPage o.pageId
        { t.engine.pageManager.pages o.pageId with state := .dirty s.context.snapshotId })) :=
      ht.store List.mem_cons_self (congrArg PageState.dirty hs.snapshotId)
    refine .bind (ensures_modify ?_)
    exact hcount ⟨hp, hstamped.store List.mem_cons_self (hstamped.atHand _ List.mem_cons_self).1⟩
  | none =>
    refine (allocate_frame hm rfl).seq fun _ t ht ↦ ?_
    exact hcount ht

end

/-! ### Actions -/

section
variable {s₀ : State Cells}

/-- Every action on different pages at hand keeps the frame. -/
theorem Frame.action {b : Bool} {x y : List Nat × State Cells} (ha : Action b x y)
    (h : Frame s₀ x.1 x.2 ∧ x.1.Nodup) : Frame s₀ y.1 y.2 ∧ y.1.Nodup := by
  obtain ⟨h, hnd⟩ := h
  cases ha with
  | allocate hrun =>
    obtain ⟨hp, ht⟩ := (acquires_allocatePage _ h).ok hrun
    exact ⟨ht, List.nodup_cons.mpr ⟨hp, hnd⟩⟩
  | refuse hrun => exact ⟨(acquires_allocatePage _ h).error hrun, hnd⟩
  | @take _ held s id page t hpage hstamp hrun =>
    -- the page is of this snapshot: at the start of the call, or since the call acquired it
    obtain ⟨-, rfl, -, n, hn⟩ := getPage_eq_ok hpage
    have hnotHeld : id ∉ held := h.not_mem_held (by rw [hn]; rfl)
    have hw : Writable s₀ s id := by
      obtain hsame | ⟨-, hw⟩ := h.others id hnotHeld
      · refine .inr (.inl ?_)
        rw [← hsame, ← h.snapshotId]
        rw [hn] at hstamp ⊢
        exact Option.some.inj hstamp
      · exact hw
    obtain ⟨hp, ht⟩ := (getMutPage_frame h hw).ok hrun
    exact ⟨ht, List.nodup_cons.mpr ⟨hp, hnd⟩⟩
  | write c hid hrun => exact ⟨(preserves_writeContents hid c _ h).ok hrun, hnd⟩
  | orphan id hrun => exact ⟨(preserves_orphanPage id _ h).ok hrun, hnd⟩
  | drop hrun =>
    cases hrun
    obtain ⟨hp, hnd⟩ := List.nodup_cons.mp hnd
    exact ⟨h.drop hp, hnd⟩
  | context ctx hid _ hcache => exact ⟨h.setContext hid hcache, hnd⟩
  | stray id =>
    exact ⟨⟨h.snapshotId, h.cache, h.pageCount, h.queue, h.inFile, h.atHand, h.others⟩, hnd⟩

/-- Actions that give back their pages keep the frame. -/
theorem Frame.trace {b : Bool} {s s' : State Cells} (h : Frame s₀ [] s)
    (ht : Trace b ([], s) ([], s')) : Frame s₀ [] s' :=
  (ht.invariant (P := fun x ↦ Frame s₀ x.1 x.2 ∧ x.1.Nodup) ⟨h, List.nodup_nil⟩
    fun _ _ ha hx ↦ Frame.action ha hx).1

variable [AlloyTrie]

private theorem preserves_setValues (fuel : Nat) (changes : Changes) :
    Preserves (Frame s₀ []) (setValues fuel changes) := fun s hs ↦
  (acts_setValues fuel changes s).mono (fun _ _ ht ↦ hs.trace ht) fun _ _ ht ↦ hs.trace ht

/-- The frame of a successful `set_values`. -/
theorem frame_setValues {s s' : State Cells} {fuel : Nat} {changes : Changes}
    (hrun : setValues fuel changes s = .ok () s') : Frame s [] s' :=
  (preserves_setValues fuel changes s (.start s)).ok hrun

omit [AlloyTrie] in
/-- When no page is at hand any more, a page has changed only if the call may write it, and then it
has the header of a page of the snapshot that is complete. -/
theorem Frame.copyOnWrite {s : State Cells} (h : Frame s₀ [] s) : CopyOnWrite s₀ s where
  unchanged := by
    intro p hp hheader hpopped
    obtain hsame | ⟨-, hfresh | hown | hp'⟩ := h.others p List.not_mem_nil
    · exact hsame
    · omega
    · exact absurd hown hheader
    · exact absurd hp' hpopped
  written := by
    intro p hp
    obtain hsame | ⟨hstate, -⟩ := h.others p List.not_mem_nil
    · exact absurd hsame hp
    · rw [hstate]
      exact ⟨PageState.headerSnapshotId_unsetDirty _, PageState.isDirty_unsetDirty _⟩
  context := by
    refine ⟨s.context.rootNodeHash, s.context.rootNodePageId, s.context.pageCount,
      s.context.contractAccountLocCache, ?_⟩
    rw [← h.snapshotId]

/-- A call of `set_values` with any changes writes only to copies, from any state and whether it
returns or fails. -/
theorem setValues_copyOnWrite (fuel : Nat) (changes : Changes) (s : State Cells) :
    CopyOnWrite s (finalState (setValues fuel changes s)) :=
  ((preserves_setValues fuel changes).final (.start s)).copyOnWrite

/-- After a successful call on a trie with a root, the locations are among those that it did not
forget. -/
theorem cache_setValues {s s' : State Cells} {fuel : Nat} {changes : Changes} {a : Nibbles}
    {c : Nat × Nat} (hroot : s.context.rootNodePageId ≠ none)
    (hrun : setValues fuel changes s = .ok () s')
    (hc : s'.context.contractAccountLocCache a = some c) :
    (invalidateCache changes s.context).contractAccountLocCache a = some c := by
  obtain ⟨root, hroot⟩ := Option.ne_none_iff_exists'.mp hroot
  have hsort : invalidateCache (changes.insertionSort fun d e ↦ pathLe d.1 e.1) s.context =
      invalidateCache changes s.context := by
    unfold invalidateCache
    simp only [(List.perm_insertionSort _ changes).any_eq]
  simp only [setValues, bind_apply, get_apply, hroot] at hrun
  have h := (Frame.start _).trace ((ensures_setValuesAtRoot fuel _ s).ok hrun)
  rw [← hsort]
  exact h.cache a c hc

end

end Engine

end TrieDb

import TrieDb.Database.Refines

/-!
# Snapshot isolation

What `Store` does is what `Snapshots` promises: every run of calls on a new database is a run of
snapshots, with the same answers. Conversely no call of an open transaction fails: in every state
that a run reaches, what the snapshots allow is possible, except that a commit may panic.
-/

namespace TrieDb

open Meta Engine Layout Base

namespace Store

/-! ### Calls are answered -/

section
variable [SlotHash] [AlloyTrie] {s : Store} {a a' : Snapshots} {e : Event} {openTxs : List Nat}
  {w : Option Database.Writer}

omit [AlloyTrie] in
/-- The transaction manager lists the snapshots of the readers. -/
private theorem removeTx_reader (h : (s.sessionWith w).Sorted) {ctx : TransactionContext}
    (hctx : ctx ∈ s.readers) :
    ∃ m, s.transactionManager.removeTx ctx.snapshotId false = some m := by
  refine Option.isSome_iff_exists.mp (TransactionManager.removeTx_of_mem
    (h.listed.mem_iff.mpr (List.mem_append_left _ ?_)))
  rw [sessionWith, List.map_map]
  exact List.mem_map.mpr ⟨ctx, hctx, rfl⟩

omit [AlloyTrie] in
/-- The transaction manager lists the snapshot before the one of a writer. -/
theorem removeTx_writer {writer : Database.Writer} (h : (s.sessionWith (some writer)).Sorted) :
    ∃ m, s.transactionManager.removeTx writer.context.snapshotId true = some m :=
  Option.isSome_iff_exists.mp (TransactionManager.removeTx_of_mem
    (h.listed.mem_iff.mpr (List.mem_append_right _ (List.mem_singleton.mpr rfl))))

/-- The calls of readers are answered. -/
theorem Serves.offers (h : Serves s a) (hsorted : (s.sessionWith w).Sorted)
    (hwriter : a.writer ≠ .absent → s.transactionManager.hasWriter = true)
    (ha : Snapshots.Step a e a') (he : e.OfReader) :
    ∃ e' s', e.Same e' ∧ Store.Step s e' s' := by
  cases ha with
  | beginRo => exact ⟨_, _, .refl _, .beginRo s⟩
  | @commitRo i hi =>
    have hi' : i < s.readers.length := by rwa [h.readers.length_eq]
    obtain ⟨m, hm⟩ := removeTx_reader hsorted (List.getElem_mem hi')
    exact ⟨_, _, .refl _, .commitRo (List.getElem?_eq_getElem hi') hm⟩
  | @read tx c r hview hr =>
    cases tx with
    | writer => exact he.elim
    | reader i =>
      obtain ⟨hi, rfl⟩ := List.getElem?_eq_some_iff.mp (show a.reading[i]? = some c from hview)
      have hi' : i < s.readers.length := by rwa [h.readers.length_eq]
      obtain ⟨t, ht⟩ := h.readers.get hi' hi
      obtain ⟨r', t', hsame, hread⟩ := ht.offers hr s.lostPages
      exact ⟨_, _, .read _ hsame, .read (List.getElem?_eq_getElem hi') hread⟩
  | refuseRw hw =>
    refine ⟨_, _, .refl _, .refuseRw ?_⟩
    rw [TransactionManager.beginRw, if_pos (hwriter hw)]
  | beginRw => cases he
  | setAccount => exact he.elim
  | setStorageSlot => exact he.elim
  | commit => exact he.elim
  | panic => exact he.elim
  | rollback => exact he.elim
  | reopen => exact he.elim

namespace Refines

private theorem simulates : Simulates Store.Step Snapshots.Step Snapshots.Orderly Refines :=
  fun _ _ _ _ h hok hs ↦ h.step hok hs

private theorem writing_of_eq (h : Refines s a) {changes : Engine.Changes}
    (ha : a.writer = .writing changes) :
    ∃ tx, s.writer = .writing tx ∧ tx.pendingChanges = changes := by
  have hsame := h.writer
  rw [ha] at hsame
  generalize s.writer = w at hsame ⊢
  cases hsame
  exact ⟨_, rfl, rfl⟩

private theorem removeTx_isSome (h : Refines s a) {tx : WriteTx} (hw : s.writer = .writing tx) :
    ∃ m, s.transactionManager.removeTx tx.context.snapshotId true = some m := by
  obtain ⟨openTxs, hsorted⟩ := h.sorted
  rw [session, waiting, hw] at hsorted
  exact removeTx_writer hsorted

/-- A commit ends after its writes. -/
private theorem commit_ends (h : Refines s a) {tx : WriteTx} (hw : s.writer = .writing tx)
    {fuel : Nat} {changes : Engine.Changes} {t : State Cells}
    (hperm : tx.pendingChanges.Perm changes)
    (hrun : WriteTx.write fuel changes (s.state tx.context) = .ok () t) :
    ∃ s', Store.Step s .commit s' := by
  have htrace := (acts_write fuel changes (s.state tx.context)).ok hrun
  have hid : t.context.snapshotId = tx.context.snapshotId :=
    ((Frame.start _).trace htrace).snapshotId
  obtain ⟨m, hm⟩ := h.removeTx_isSome hw
  rw [← hid] at hm
  exact ⟨_, .commit hw hperm hrun hm⟩

/-- What the snapshots allow is possible in the store. -/
theorem offers (h : Refines s a) (ha : Snapshots.Step a e a') (he : e ≠ .commit)
    (he' : e ≠ .panic) : ∃ e' s', e.Same e' ∧ Store.Step s e' s' := by
  by_cases hreader : e.OfReader
  · obtain ⟨openTxs, hsorted⟩ := h.sorted
    exact h.toServes.offers hsorted h.hasWriter.mpr ha hreader
  cases ha with
  | beginRo => exact absurd trivial hreader
  | commitRo => exact absurd trivial hreader
  | @read tx c r hview hr =>
    cases tx with
    | reader i => exact absurd trivial hreader
    | writer =>
      simp only [Snapshots.view] at hview
      split at hview
      · next changes hw =>
        cases hview
        obtain ⟨tx, hw', -⟩ := h.writing_of_eq hw
        obtain ⟨t, ht⟩ := h.committed
        obtain ⟨r', t', hsame, hread⟩ := (ht.writer tx hw').2.2.offers hr s.lostPages
        exact ⟨_, _, .read _ hsame, .read (by rw [context, hw']) hread⟩
      · cases hview
  | beginRw hw =>
    cases hm : s.transactionManager.beginRw s.writeContext.snapshotId with
    | none => exact absurd hw (h.hasWriter.mp (TransactionManager.beginRw_eq_none hm))
    | some r => exact ⟨_, _, .refl _, .beginRw hm⟩
  | refuseRw hw => exact absurd rfl hreader
  | setAccount account hw hp =>
    obtain ⟨tx, hw', rfl⟩ := h.writing_of_eq hw
    exact ⟨_, _, .refl _, .setAccount account hw' hp⟩
  | setStorageSlot value hw hp =>
    obtain ⟨tx, hw', rfl⟩ := h.writing_of_eq hw
    exact ⟨_, _, .refl _, .setStorageSlot value hw' hp⟩
  | commit => exact absurd rfl he
  | panic => exact absurd rfl he'
  | rollback hw =>
    obtain ⟨tx, hw', -⟩ := h.writing_of_eq hw
    obtain ⟨m, hm⟩ := h.removeTx_isSome hw'
    exact ⟨_, _, .refl _, .rollback hw' hm⟩
  | reopen hw =>
    have hw' : s.writer ≠ .panicked := by rwa [ne_eq, h.panicked_iff]
    obtain ⟨openTxs, hsorted⟩ := h.sorted
    obtain ⟨m, hm, -⟩ := (hsorted.settled (not_working hw' openTxs)).reopen
    exact ⟨_, _, .refl _, .reopen hw' hm⟩

end Refines

end

/-! ### A run -/

/-- A writer sets an account and one of its slots, beside a reader. -/
def prepare : List Event :=
  [.beginRo, .beginRw true, .setStorageSlot (path 0 ++ path 1) (some 7),
    .setAccount (path 0) (some someAccount)]

/-- The reader does not see what is committed; the next one does. -/
def firstSlot : List Event :=
  prepare ++ [.commit] ++
    [.read (.reader 0) (.getStorageSlot (path 0 ++ path 1) none), .beginRo,
      .read (.reader 0) (.getStorageSlot (path 0 ++ path 1) (some 7))]

/-- The store before the commit. -/
def prepared : Store :=
  { created 64 with
    transactionManager := ⟨true, [0, 0]⟩
    readers := [(created 64).readContext]
    writer := .writing ⟨(created 64).writeContext, accountAndSlot⟩ }

/-- An answer is what the read returns. -/
theorem ok_of_answer {q : Nibbles} {s : State Cells} {v : Option U256} (h : answer q s = some v) :
    Engine.getStorage 130 q s = .ok v (finalState (Engine.getStorage 130 q s)) := by
  unfold answer at h
  cases hrun : Engine.getStorage 130 q s with
  | ok v s =>
    rw [hrun] at h
    cases h
    rfl
  | error e s =>
    rw [hrun] at h
    cases h

/-- The calls before the first commit are a run. -/
theorem traced_prepare [SlotHash] : Traced Step (.created 64) prepare prepared := by
  have h₁ := Traced.snoc _ .nil (Step.beginRo (.created 64))
  have h₂ := h₁.snoc _
    (.beginRw (show TransactionManager.beginRw _ _ = some (0, ⟨true, [0, 0]⟩) from rfl))
  have h₃ := h₂.snoc _ (.setStorageSlot (some 7) rfl (rfl : (path 0 ++ path 1).length = _))
  have h₄ := h₃.snoc _ (.setAccount (some someAccount) rfl (rfl : (path 0).length = _))
  exact h₄

/-- The first commit has the snapshot id 1. -/
theorem snapshotId_accountAndSlot :
    (after accountAndSlot Layout.created).context.snapshotId = 1 := by decide +kernel

private theorem traced_firstSlot :
    letI := fxSlotHash
    ∃ s, Traced Step (.created 64) firstSlot s ∧ s.writer = .absent := by
  let _ := fxSlotHash
  have hslot : (path 0 ++ path 1).length = storagePathLength := rfl
  have hcommit : Step prepared .commit
      (prepared.finish (after accountAndSlot Layout.created) ⟨false, [0]⟩) :=
    .commit rfl (.refl _) setValues_accountAndSlot (by rw [snapshotId_accountAndSlot]; rfl)
  have h₁ := (traced_prepare.snoc _ hcommit).snoc _
    (.read (show context _ (.reader 0) = _ from rfl) (.getStorageSlot hslot (Nat.le_refl 130)
      (ok_of_answer (show _ = some none by decide +kernel))))
  have h₂ := h₁.snoc _ (.beginRo _)
  have h₃ := h₂.snoc _
    (.read (show context _ (.reader 0) = _ from rfl) (.getStorageSlot hslot (Nat.le_refl 130)
      (ok_of_answer (show _ = some (some 7) by decide +kernel))))
  exact ⟨_, h₃, rfl⟩

/-- What the writer is about to commit, while readers call. -/
private theorem snapshots_prepare {a : Snapshots} {ls : List Event} (hls : ∀ e ∈ ls, e.OfReader)
    (h : Traced Snapshots.Step (.opened .empty) (prepare ++ ls) a) :
    a.committed = .empty ∧ a.writer = .writing accountAndSlot := by
  generalize hall : prepare ++ ls = all at h
  induction h generalizing ls with
  | nil => cases hall
  | @snoc before b a e trace hstep ih =>
  rcases List.eq_nil_or_concat ls with rfl | ⟨ls', e', rfl⟩
  · obtain ⟨rfl, heq⟩ := List.append_inj' (show [_, _, _] ++ [_] = before ++ [e] from hall) rfl
    cases heq
    obtain ⟨a₂, h₂, hstep₃⟩ := (traced_append_singleton [_, _]).mp trace
    obtain ⟨a₁, h₁, hstep₂⟩ := (traced_append_singleton [_]).mp h₂
    obtain ⟨a₀, h₀, hstep₁⟩ := (traced_append_singleton []).mp h₁
    obtain rfl := traced_nil.mp h₀
    cases hstep₁
    cases hstep₂
    cases hstep₃ with
    | setStorageSlot value hw₃ hp₃ =>
    cases hw₃
    cases hstep with
    | setAccount account hw₄ hp₄ =>
    cases hw₄
    exact ⟨rfl, rfl⟩
  · rw [List.concat_eq_append, ← List.append_assoc] at hall
    obtain ⟨rfl, heq⟩ := List.append_inj' hall rfl
    cases heq
    obtain ⟨hcommitted, hwriter⟩ := hstep.of_reader (hls e (by simp))
    obtain ⟨hc, hw⟩ := ih (fun d hd ↦ hls d (by simp [hd])) rfl
    exact ⟨hcommitted.trans hc, hwriter.trans hw⟩

private theorem noneIdle_accountAndSlot : Entries.NoneIdle (fun _ ↦ none) accountAndSlot := by
  intro c hc
  rcases List.mem_pair.mp hc with rfl | rfl <;> simp

/-- The changes of the run are real. -/
theorem obeys_prepare {ls ms : List Event} (hls : ∀ e ∈ ls, e.OfReader) (hms : .commit ∉ ms) :
    Obeys Snapshots.Step Snapshots.Orderly (.opened .empty) (prepare ++ ls ++ [.commit] ++ ms) := by
  have hfree (l : List Event) (hl : .commit ∉ l) (e : Event) (he : e ∈ l) (a : Snapshots) :
      Snapshots.Orderly a e := by
    rintro rfl
    exact absurd he hl
  have hprepare : Obeys Snapshots.Step Snapshots.Orderly (.opened .empty) (prepare ++ ls) :=
    (Obeys.nil.append (hfree prepare (by simp [prepare]))).append
      (hfree ls fun he ↦ hls _ he)
  refine Obeys.append (hprepare.snoc fun a ha _ changes hw _ ↦ ?_) (hfree ms hms)
  obtain ⟨hc, hw'⟩ := snapshots_prepare hls ha
  cases hw.symm.trans hw'
  rw [hc]
  exact ⟨admissible_accountAndSlot, noneIdle_accountAndSlot⟩

private theorem obeys_firstSlot :
    Obeys Snapshots.Step Snapshots.Orderly (.opened .empty) firstSlot :=
  @obeys_prepare [] _ (by simp) (by simp)

/-! ### Every run -/

variable {capacity : Nat} {ls : List Event} {s : Store}

/-- A run of the store is a run of the snapshots. -/
private theorem refines [SlotHash] [AlloyTrie] (h : Traced Store.Step (.created capacity) ls s)
    (hok : Obeys Snapshots.Step Snapshots.Orderly (.opened .empty) ls) :
    ∃ a, Traced Snapshots.Step (.opened .empty) ls a ∧ Refines s a :=
  Refines.simulates.traced (.created capacity) h hok

/-- Snapshot isolation: whatever the calls of any number of readers and of one writer after another
return, on a new database, is what they return on snapshots. This includes the proofs, the reads
that start at a location that is remembered, and what is read after commits that panicked and in
databases that were opened again. -/
theorem snapshot_isolation [SlotHash] [AlloyTrie] (h : Traced Store.Step (.created capacity) ls s)
    (hok : Obeys Snapshots.Step Snapshots.Orderly (.opened .empty) ls) :
    ∃ a, Traced Snapshots.Step (.opened .empty) ls a := by
  obtain ⟨a, ha, -⟩ := refines h hok
  exact ⟨a, ha⟩

/-- The first slot is read as the snapshots say. -/
theorem snapshot_isolation_firstSlot :
    letI := fxSlotHash
    ∃ a, Traced Snapshots.Step (.opened .empty) firstSlot a := by
  let _ := fxSlotHash
  obtain ⟨s, h, -⟩ := traced_firstSlot
  exact snapshot_isolation h obeys_firstSlot

/-- No call of an open transaction fails: in every state that a run reaches, the store answers every
call that the snapshots allow, and a commit ends after its writes. -/
theorem calls_answered [SlotHash] [AlloyTrie] (h : Traced Store.Step (.created capacity) ls s)
    (hok : Obeys Snapshots.Step Snapshots.Orderly (.opened .empty) ls) :
    ∃ a, Traced Snapshots.Step (.opened .empty) ls a ∧
      (∀ e a', Snapshots.Step a e a' → e ≠ .commit → e ≠ .panic →
        ∃ e' s', e.Same e' ∧ Store.Step s e' s') ∧
      ∀ tx fuel changes t, s.writer = .writing tx → tx.pendingChanges.Perm changes →
        WriteTx.write fuel changes (s.state tx.context) = .ok () t →
        ∃ s', Store.Step s .commit s' := by
  obtain ⟨a, ha, href⟩ := refines h hok
  exact ⟨a, ha, fun _ _ hstep he he' ↦ href.offers hstep he he',
    fun _ _ _ _ hw hperm hrun ↦ href.commit_ends hw hperm hrun⟩

/-- All calls are answered after the first slot has been written. -/
theorem calls_answered_firstSlot :
    letI := fxSlotHash
    ∃ s a, Traced Step (.created 64) firstSlot s ∧
      Traced Snapshots.Step (.opened .empty) firstSlot a ∧
      ∀ e a', Snapshots.Step a e a' → e ≠ .commit → e ≠ .panic →
        ∃ e' s', e.Same e' ∧ Step s e' s' := by
  let _ := fxSlotHash
  obtain ⟨s, h, -⟩ := traced_firstSlot
  obtain ⟨a, ha, hcalls, -⟩ := calls_answered h obeys_firstSlot
  exact ⟨s, a, h, ha, hcalls⟩

/-- Every page of the file is a page of the committed trie, listed once as an orphan, or one that
was emptied without being listed, and only one of these. The pages of an open reader's trie, in
which it sees the trie's nodes, are orphaned after its snapshot, if at all. -/
theorem pages_accounted [SlotHash] [AlloyTrie] (h : Traced Store.Step (.created capacity) ls s)
    (hok : Obeys Snapshots.Step Snapshots.Orderly (.opened .empty) ls) (hw : s.writer ≠ .panicked) :
    (∃ t, Holds (seen s.engine s.readContext) t ∧ Anchored (s.state s.readContext) t ∧
      ∀ q, (s.engine.metaManager.orphanPages.map OrphanPage.pageId).count q +
          t.tags.count (q, 0) + s.lostPages.count q =
        if 0 < q ∧ q ≤ s.engine.pageManager.pageCount then 1 else 0) ∧
    ∀ ctx ∈ s.readers, s.engine.aliveSnapshot ≤ ctx.snapshotId ∧
      ∃ t, Holds (seen s.engine ctx) t ∧ Anchored (s.state ctx) t ∧
        ∀ c ∈ t.tags, ∀ o ∈ s.engine.metaManager.orphanPages,
          o.pageId = c.1 → ctx.snapshotId < o.orphanedAt := by
  obtain ⟨a, -, href⟩ := refines h hok
  obtain ⟨t, ht⟩ := href.committed
  have hshaped := ht.sees.version.sound.shaped
  refine ⟨⟨t, hshaped.holds, ?_, (ht.accounts hw).1⟩, fun ctx hctx ↦ ?_⟩
  · have := hshaped.anchored
    cases t <;> exact this
  · obtain ⟨i, hi, rfl⟩ := List.getElem_of_mem hctx
    have hi' : i < a.reading.length := by rwa [← href.readers.length_eq]
    obtain ⟨u, hu⟩ := href.readers.get hi hi'
    have hshaped := hu.version.sound.shaped
    refine ⟨(href.reading _ hctx).1, u, hshaped.holds, ?_, fun c hc o ho heq ↦ ?_⟩
    · have := hshaped.anchored
      cases u <;> exact this
    · by_contra hle
      exact ((holds_seen.mp hshaped.holds).2.2 c hc).reachable o ho (not_lt.mp hle) heq

/-- Every page is accounted for after the first slot has been written. -/
theorem pages_accounted_firstSlot :
    letI := fxSlotHash
    ∃ s t, Traced Step (.created 64) firstSlot s ∧ Holds (seen s.engine s.readContext) t ∧
      ∀ q, (s.engine.metaManager.orphanPages.map OrphanPage.pageId).count q +
          t.tags.count (q, 0) + s.lostPages.count q =
        if 0 < q ∧ q ≤ s.engine.pageManager.pageCount then 1 else 0 := by
  let _ := fxSlotHash
  obtain ⟨s, h, hw⟩ := traced_firstSlot
  obtain ⟨⟨t, hholds, -, hcount⟩, -⟩ := pages_accounted h obeys_firstSlot (by simp [hw])
  exact ⟨s, t, h, hholds, hcount⟩

end Store

end TrieDb

import TrieDb.Database.Recycling
import TrieDb.Database.Snapshots
import TrieDb.Layout.Versions

/-!
# Transactions on the storage engine

`Database` (`src/database.rs:84–287`) and `Transaction` (`src/transaction.rs:42–211`) with the whole
storage engine below: the calls of any number of readers and one writer, one after another. A commit
writes the pending changes with `set_values`; an error of it is a panic, after which the writer is
never removed. `Snapshots` is what the calls amount to.
-/

namespace TrieDb

open Meta Engine Layout Base
open Database (Session)

/-- `Transaction<DB, RW>` with the changes that are not written yet. -/
structure WriteTx where
  context : TransactionContext
  pendingChanges : Engine.Changes

/-- An open database with its transactions. `lostPages` is not part of the program: it records the
pages that were emptied without being listed as orphans. -/
structure Store where
  engine : StorageEngine Cells
  transactionManager : TransactionManager
  readers : List TransactionContext
  writer : WriterState WriteTx
  lostPages : List Nat

namespace Store

/-- `Database::open` on files with these pages and this metadata. -/
def opened (pages : PageManager Cells) (m : MetadataManager) (lostPages : List Nat) : Store :=
  ⟨⟨pages.reopen m.active.slot.pageCount, m, m.active.slot.snapshotId⟩, .new, [], .absent,
    lostPages⟩

/-- A new database with room for this many pages. -/
def created (capacity : Nat) : Store := opened ⟨fun _ ↦ ⟨.unused, []⟩, 0, capacity⟩ Meta.opened []

/-- `read_context`: the latest committed snapshot. -/
def readContext (s : Store) : TransactionContext := .new s.engine.metaManager.active.slot

/-- `write_context`: the latest uncommitted snapshot. -/
def writeContext (s : Store) : TransactionContext := .new s.engine.metaManager.dirty.slot

/-- The state in which an operation with this context starts. -/
def state (s : Store) (ctx : TransactionContext) : State Cells := ⟨s.engine, ctx, s.lostPages⟩

/-- The context of an open transaction. -/
def context (s : Store) : TxId → Option TransactionContext
  | .reader i => s.readers[i]?
  | .writer => match s.writer with
    | .writing tx => some tx.context
    | _ => none

/-- What a call of an open transaction leaves. -/
def update (s : Store) (t : State Cells) : TxId → Store
  | .reader i => { s with
      engine := t.engine
      readers := s.readers.set i t.context
      lostPages := t.strayPages }
  | .writer => { s with
      engine := t.engine
      writer := match s.writer with
        | .writing tx => .writing { tx with context := t.context }
        | w => w
      lostPages := t.strayPages }

end Store

/-- The writes of `commit`: `set_values` on the drained changes, if there are any. -/
def WriteTx.write [AlloyTrie] (fuel : Nat) (changes : Engine.Changes) : EngineM Cells Unit :=
  if changes.isEmpty then pure () else setValues fuel changes

namespace Store

/-- A call that reads in a state, and the state that it leaves. -/
inductive ReadStep [AlloyTrie] (s : State Cells) : ReadCall → State Cells → Prop
  | getAccount {fuel addressPath account t} (hp : addressPath.length = addressPathLength)
      (hfuel : 130 ≤ fuel) (hrun : Engine.getAccount fuel addressPath s = .ok account t) :
      ReadStep s (.getAccount addressPath account) t
  | getStorageSlot {fuel storagePath value t} (hp : storagePath.length = storagePathLength)
      (hfuel : 130 ≤ fuel) (hrun : Engine.getStorage fuel storagePath s = .ok value t) :
      ReadStep s (.getStorageSlot storagePath value) t
  | getAccountWithProof {fuel addressPath proof t} (hp : addressPath.length = addressPathLength)
      (hfuel : 131 ≤ fuel) (hrun : Engine.getAccountWithProof fuel addressPath s = .ok proof t) :
      ReadStep s (.getAccountWithProof addressPath proof) t
  | getStorageWithProof {fuel storagePath proof t} (hp : storagePath.length = storagePathLength)
      (hfuel : 131 ≤ fuel) (hrun : Engine.getStorageWithProof fuel storagePath s = .ok proof t) :
      ReadStep s (.getStorageWithProof storagePath proof) t
  | stateRoot : ReadStep s (.stateRoot s.context.rootNodeHash) s
  | clearCache : ReadStep s .clearCache { s with context := s.context.clearCache }

/-- The end of `commit`: the metadata is committed and the writer is gone. -/
def finish [SlotHash] (s : Store) (t : State Cells) (m : TransactionManager) : Store :=
  { s with
    engine := { t.engine with metaManager := commitMetadata t.engine.metaManager t.context }
    transactionManager := m
    writer := .absent
    lostPages := t.strayPages }

/-- The end of a `commit` that panics: its effects on the files are not undone. -/
def fail (s : Store) (t : State Cells) : Store :=
  { s with
    engine := t.engine
    writer := .panicked
    lostPages := t.strayPages }

/-- One call. -/
inductive Step [SlotHash] [AlloyTrie] : Store → Event → Store → Prop
  | beginRo (s : Store) :
      Step s .beginRo
        { s with
          transactionManager := s.transactionManager.beginRo s.readContext.snapshotId
          readers := s.readContext :: s.readers }
  | commitRo {s : Store} {i ctx m} (h : s.readers[i]? = some ctx)
      (hm : s.transactionManager.removeTx ctx.snapshotId false = some m) :
      Step s (.commitRo i)
        { s with
          transactionManager := m
          readers := s.readers.eraseIdx i }
  | read {s : Store} {tx ctx r t} (h : s.context tx = some ctx) (hr : ReadStep (s.state ctx) r t) :
      Step s (.read tx r) (s.update t tx)
  | beginRw {s : Store} {low m}
      (hm : s.transactionManager.beginRw s.writeContext.snapshotId = some (low, m)) :
      Step s (.beginRw true)
        { s with
          engine := { s.engine with
            aliveSnapshot := if 0 < low then low - 1 + 1 else s.engine.aliveSnapshot }
          transactionManager := m
          writer := .writing ⟨s.writeContext, []⟩ }
  | refuseRw {s : Store}
      (hm : s.transactionManager.beginRw s.writeContext.snapshotId = none) :
      Step s (.beginRw false) s
  | setAccount {s : Store} {tx addressPath} (account : Option Account) (h : s.writer = .writing tx)
      (hp : addressPath.length = addressPathLength) :
      Step s (.setAccount addressPath account)
        { s with
          writer := .writing
            { tx with
              pendingChanges := tx.pendingChanges.insert (addressPath, account.map .account) } }
  | setStorageSlot {s : Store} {tx storagePath} (value : Option U256) (h : s.writer = .writing tx)
      (hp : storagePath.length = storagePathLength) :
      Step s (.setStorageSlot storagePath value)
        { s with
          writer := .writing
            { tx with
              pendingChanges := tx.pendingChanges.insert (storagePath, value.map .storage) } }
  -- the pending changes are drained in any order
  | commit {s : Store} {tx fuel changes t m} (h : s.writer = .writing tx)
      (hperm : tx.pendingChanges.Perm changes)
      (hrun : WriteTx.write fuel changes (s.state tx.context) = .ok () t)
      (hm : s.transactionManager.removeTx t.context.snapshotId true = some m) :
      Step s .commit (s.finish t m)
  | panic {s : Store} {tx fuel changes e t} (h : s.writer = .writing tx)
      (hperm : tx.pendingChanges.Perm changes)
      (hrun : WriteTx.write fuel changes (s.state tx.context) = .error e t) (he : e ≠ .outOfFuel) :
      Step s .panic (s.fail t)
  | rollback {s : Store} {tx m} (h : s.writer = .writing tx)
      (hm : s.transactionManager.removeTx tx.context.snapshotId true = some m) :
      Step s .rollback { s with transactionManager := m, writer := .absent }
  -- the process ends, with transactions open or not but no commit panicked, and the files are
  -- opened again
  | reopen {s : Store} {m} (h : s.writer ≠ .panicked)
      (hm : MetadataManager.fromFile s.engine.metaManager.file = .ok m) :
      Step s .reopen (.opened s.engine.pageManager m s.lostPages)

/-! ### The list of orphans -/

/-- The transactions as far as recycling goes, with this writer. -/
def sessionWith (s : Store) (writer : Option Database.Writer) : Session Cells where
  engine := s.engine
  transactionManager := s.transactionManager
  readers := s.readers.map TransactionContext.clearCache
  writer := writer

/-- The writer between two calls, with the snapshots that were read when it began. -/
def waiting (s : Store) (openTxs : List Nat) : Option Database.Writer :=
  match s.writer with
  | .absent => none
  | .writing tx => some ⟨tx.context.clearCache, openTxs, false⟩
  | .panicked => some ⟨s.writeContext, openTxs, true⟩

/-- The session between two calls. -/
def session (s : Store) (openTxs : List Nat) : Session Cells := s.sessionWith (s.waiting openTxs)

/-- The session in the middle of a commit. -/
def working (s : Store) (openTxs : List Nat) (b : Bool) (ctx : TransactionContext) :
    Session Cells :=
  s.sessionWith (some ⟨ctx.clearCache, openTxs, b⟩)

/-- The store at a moment of a write. -/
def amid (s : Store) (t : State Cells) : Store :=
  { s with
    engine := t.engine
    lostPages := t.strayPages }

section
variable [SlotHash] {s : Store} {openTxs : List Nat} {b : Bool}

/-- Every action of a write keeps the list sorted. -/
theorem sorted_action {held held' : List Nat} {t t' : State Cells} {c : Bool}
    (h : ((s.amid t).working openTxs c t.context).Sorted) (ha : Action b (held, t) (held', t')) :
    ((s.amid t').working openTxs true t'.context).Sorted := by
  have hsame (pages : PageManager Cells) (ctx : TransactionContext) (l : List Nat)
      (hid : ctx.snapshotId = t.context.snapshotId) :
      ((s.amid ⟨⟨pages, t.engine.metaManager, t.engine.aliveSnapshot⟩, ctx, l⟩).working openTxs true
        ctx).Sorted :=
    h.work pages rfl (show ctx.clearCache.snapshotId = _ from hid) h.idle rfl rfl h.ascending
      h.bounds
  have hpop (pages : PageManager Cells) (ctx : TransactionContext) (l : List Nat)
      (hid : ctx.snapshotId = t.context.snapshotId) {o : Option OrphanPage} {m : MetadataManager}
      (hm : t.engine.metaManager.pop t.engine.aliveSnapshot = (o, m)) :
      ((s.amid ⟨⟨pages, m, t.engine.aliveSnapshot⟩, ctx, l⟩).working openTxs true ctx).Sorted :=
    h.pop pages rfl (show ctx.clearCache.snapshotId = _ from hid) hm
  cases ha with
  | allocate hrun =>
    obtain ⟨o, m, hm, -, -, -, rfl⟩ | ⟨m, hm, -, -, rfl⟩ := allocatePage_eq_ok hrun
    · refine hpop _ _ _ ?_ hm
      rfl
    · refine hpop _ _ _ ?_ hm
      rfl
  | refuse hrun =>
    obtain ⟨-, -, halive, hctx, -⟩ := pages_allocatePage_error hrun
    have hm := metaManager_allocatePage_error hrun
    have h' := hpop t'.engine.pageManager t'.context t'.strayPages (by rw [hctx]) (Prod.eta _).symm
    rwa [← hm, ← halive] at h'
  | take hpage hstamp hrun =>
    obtain ⟨-, rfl, -⟩ := getPage_eq_ok hpage
    obtain ⟨-, -, rfl⟩ := getMutPage_eq_ok hrun
    exact hsame _ _ _ rfl
  | write c hid hrun =>
    cases hrun
    exact hsame _ _ _ rfl
  | orphan id hrun =>
    obtain ⟨m, hpush, rfl⟩ := orphanPage_eq_ok hrun
    exact h.push t.engine.pageManager rfl rfl hpush
  | drop hrun =>
    cases hrun
    exact hsame _ _ _ rfl
  | context ctx hid _ _ => exact hsame _ ctx _ hid
  | stray id => exact hsame _ _ _ rfl

end

/-- A read at most remembers or forgets locations. -/
theorem ReadStep.relocates [AlloyTrie] {s t : State Cells} {r : ReadCall} (h : ReadStep s r t) :
    Relocates s t := by
  cases h with
  | getAccount hp hfuel hrun => exact (portable_getAccount _ _ _ _ _ hrun).1
  | getStorageSlot hp hfuel hrun => exact (portable_getStorage _ _ _ _ _ hrun).1
  | getAccountWithProof hp hfuel hrun =>
    exact ((observes_getValueWithProof _ _).portable _ _ _ hrun).1
  | getStorageWithProof hp hfuel hrun =>
    exact ((observes_getValueWithProof _ _).portable _ _ _ hrun).1
  | stateRoot => exact .refl s
  | clearCache => exact ⟨_, rfl⟩

/-- A call that at most remembers locations leaves the session alone. -/
theorem session_update {s : Store} {t : State Cells} {tx : TxId} {ctx : TransactionContext}
    (h : s.context tx = some ctx) (ht : Relocates (s.state ctx) t) :
    (∀ w, (s.update t tx).sessionWith w = s.sessionWith w) ∧
      ∀ openTxs, (s.update t tx).waiting openTxs = s.waiting openTxs := by
  obtain ⟨cache, rfl⟩ := ht
  cases tx with
  | reader i =>
    obtain ⟨hi, rfl⟩ := List.getElem?_eq_some_iff.mp (show s.readers[i]? = some ctx from h)
    have hi' : i < (s.readers.map TransactionContext.clearCache).length := by rwa [List.length_map]
    have hmap : (s.readers.set i { s.readers[i] with contractAccountLocCache := cache }).map
        TransactionContext.clearCache = s.readers.map TransactionContext.clearCache := by
      have hself : TransactionContext.clearCache
          { s.readers[i] with contractAccountLocCache := cache } =
            (s.readers.map TransactionContext.clearCache)[i] := by
        rw [List.getElem_map]
        rfl
      rw [List.map_set, hself, List.set_getElem_self]
    refine ⟨fun w ↦ ?_, fun openTxs ↦ rfl⟩
    simp only [sessionWith, update, state, hmap]
  | writer =>
    refine ⟨fun w ↦ rfl, fun openTxs ↦ ?_⟩
    cases hw : s.writer with
    | writing tx =>
      simp only [context, hw, Option.some.injEq] at h
      subst h
      simp only [waiting, update, state, hw]
      rfl
    | absent => simp [context, hw] at h
    | panicked => simp [context, hw] at h

/-- No writer works between two calls, unless a commit has panicked. -/
theorem not_working {s : Store} (h : s.writer ≠ .panicked) (openTxs : List Nat) :
    ∀ w, (s.session openTxs).writer = some w → w.working = false := by
  intro w hw
  simp only [session, sessionWith, waiting] at hw
  cases hwriter : s.writer with
  | absent =>
    rw [hwriter] at hw
    cases hw
  | writing tx =>
    rw [hwriter] at hw
    cases hw
    rfl
  | panicked => exact absurd hwriter h

section
variable [SlotHash] [AlloyTrie] {s s' : Store} {e : Event}

/-- A reader beside any writer: recycling sees that it begins and that it ends. -/
theorem calls_reader (h : Step s e s') (he : e.OfReader) (w : Option Database.Writer) :
    s'.sessionWith w = s.sessionWith w ∨ Database.Calls (s.sessionWith w) (s'.sessionWith w) := by
  cases h with
  | beginRo => exact .inr (.beginRo _)
  | @commitRo i ctx m hi hm =>
    obtain ⟨hlt, rfl⟩ := List.getElem?_eq_some_iff.mp hi
    have hsplit : (s.sessionWith w).readers =
        (s.readers.take i).map TransactionContext.clearCache ++ s.readers[i].clearCache ::
          (s.readers.drop (i + 1)).map TransactionContext.clearCache := by
      rw [← List.map_cons, ← List.map_append, ← List.drop_eq_getElem_cons hlt,
        List.take_append_drop]
      rfl
    have hend := Database.Calls.endRo hsplit hm
    rw [← List.map_append, ← List.eraseIdx_eq_take_drop_succ] at hend
    exact .inr hend
  | read h hr => exact .inl ((session_update h hr.relocates).1 w)
  | refuseRw => exact .inl rfl
  | beginRw => cases he
  | setAccount => exact he.elim
  | setStorageSlot => exact he.elim
  | commit => exact he.elim
  | panic => exact he.elim
  | rollback => exact he.elim
  | reopen => exact he.elim

/-- Readers leave everything else alone. -/
theorem frame_reader (h : Step s e s') (he : e.OfReader) :
    ∃ m readers, s' = { s with transactionManager := m, readers := readers } := by
  cases h with
  | beginRo => exact ⟨_, _, rfl⟩
  | commitRo => exact ⟨_, _, rfl⟩
  | @read tx ctx r t hctx hr =>
    cases tx with
    | writer => exact he.elim
    | reader i =>
      obtain ⟨cache, rfl⟩ := hr.relocates
      exact ⟨_, _, rfl⟩
  | refuseRw => exact ⟨_, _, rfl⟩
  | beginRw => cases he
  | setAccount => exact he.elim
  | setStorageSlot => exact he.elim
  | commit => exact he.elim
  | panic => exact he.elim
  | rollback => exact he.elim
  | reopen => exact he.elim

/-- Besides commits and panics, every call is a call as `Database.Calls` has it, or one that
recycling does not see. -/
theorem calls_step (h : Step s e s') (he : e ≠ .commit) (he' : e ≠ .panic) (openTxs : List Nat) :
    ∃ openTxs', s'.session openTxs' = s.session openTxs ∨
      Database.Calls (s.session openTxs) (s'.session openTxs') := by
  by_cases hreader : e.OfReader
  · refine ⟨openTxs, ?_⟩
    have hcalls := calls_reader h hreader (s.waiting openTxs)
    obtain ⟨m, readers, rfl⟩ := frame_reader h hreader
    exact hcalls
  cases h with
  | beginRo => exact absurd trivial hreader
  | commitRo => exact absurd trivial hreader
  | read h hr =>
    obtain ⟨hwith, hwaiting⟩ := session_update h hr.relocates
    exact ⟨openTxs, .inl (by rw [session, hwith, hwaiting, session])⟩
  | beginRw hm => exact ⟨_, .inr (.beginRw rfl hm)⟩
  | refuseRw hm => exact absurd rfl hreader
  | setAccount account h hp =>
    refine ⟨openTxs, .inl ?_⟩
    simp only [session, sessionWith, waiting, h]
  | setStorageSlot value h hp =>
    refine ⟨openTxs, .inl ?_⟩
    simp only [session, sessionWith, waiting, h]
  | commit => exact absurd rfl he
  | panic => exact absurd rfl he'
  | @rollback tx m h hm =>
    refine ⟨openTxs, .inr ?_⟩
    have hw : (s.session openTxs).writer = some ⟨tx.context.clearCache, openTxs, false⟩ := by
      simp only [session, sessionWith, waiting, h]
    exact .rollback hw rfl hm
  | @reopen m h hm =>
    exact ⟨openTxs, .inr (.reopen (s.engine.pageManager.reopen m.active.slot.pageCount)
      (not_working h openTxs) hm)⟩

end

/-! ### The writes of a commit -/

/-- The list of orphans is the same after a commit of the metadata. -/
theorem orphanPages_commitMetadata [SlotHash] {m : MetadataManager} (h : Idle (start m))
    (ctx : TransactionContext) : (commitMetadata m ctx).orphanPages = m.orphanPages := by
  have hidle : Idle (start (m.modifyDirty ctx.updateMetadata)) :=
    idle_start (h.modifyDirty (fun _ ↦ rfl) fun _ ↦ rfl)
  have hcommit : (commitMetadata m ctx).orphanPages =
      (m.modifyDirty ctx.updateMetadata).orphanPages := hidle.active_commit.2.1
  rw [hcommit]
  simp only [MetadataManager.orphanPages, MetadataManager.orphansOf,
    MetadataManager.orphans_modifyDirty, MetadataManager.dirty_modifyDirty,
    TransactionContext.updateMetadata]

section
variable [AlloyTrie] {s s' : State Cells} {t : Trie Loc} {k fuel : Nat}
  {changes pending : Engine.Changes}

/-- The writes of a commit are made of actions. -/
theorem acts_write (fuel : Nat) (changes : Engine.Changes) :
    Acts [] (WriteTx.write fuel changes) := by
  unfold WriteTx.write
  split
  · exact .pure _
  · exact acts_setValues fuel changes

/-- The order in which the pending changes are drained does not matter. -/
theorem update_perm {c : CommittedState} (hperm : pending.Perm changes)
    (h : changes ≠ [] → Admissible c.contents changes) : c.update pending = c.update changes := by
  unfold CommittedState.update
  by_cases hnil : changes = []
  · subst hnil
    rw [List.perm_nil.mp hperm]
  · have hnil' : pending ≠ [] := fun he ↦ hnil (List.nil_perm.mp (he ▸ hperm))
    have hsort : (sortChanges changes).Perm pending :=
      (List.perm_insertionSort _ changes).trans hperm.symm
    have hadm := h hnil
    rw [if_neg hnil, if_neg hnil', hadm.batch.update_perm hsort, hadm.update_sortChanges]

/-- The snapshot that a writer has made, before the metadata is committed. -/
structure Made (s : State Cells) (c : CommittedState) (t : Trie Loc) : Prop where
  root : s.context.rootNodeHash = c.root
  version : Version s.engine s.context.clearCache t
  lookup : t.lookup = c.contents
  accounts : Accounts s t
  count : s.engine.pageManager.pageCount = s.context.pageCount
  rest : AtRest s.context.snapshotId s.engine

/-- The writes of a commit make the next committed state. -/
theorem write_spec (h : Begun s k t) {c : CommittedState} (hroot : s.context.rootNodeHash = c.root)
    (hlook : t.lookup = c.contents)
    (hcount : s.engine.pageManager.pageCount = s.context.pageCount)
    (hc : changes ≠ [] → Admissible c.contents changes ∧ c.contents.NoneIdle changes)
    (hrun : WriteTx.write fuel changes s = .ok () s') : ∃ t', Made s' (c.update changes) t' := by
  have htrace := (acts_write fuel changes s).ok hrun
  have hcount' : s'.engine.pageManager.pageCount = s'.context.pageCount :=
    (pageCount_trace htrace hcount.symm).symm
  have hrest (hid : s'.context.snapshotId = k + 1) : AtRest s'.context.snapshotId s'.engine := by
    rw [hid]
    exact h.rest.trace htrace (Nat.le_of_eq h.next)
  by_cases hnil : changes = []
  · subst hnil
    cases hrun
    rw [CommittedState.update, if_pos rfl]
    have hversion := Version.of_shaped h.shaped h.version.canonical h.accounts (hrest h.next)
    exact ⟨t, hroot, hversion, hlook, h.accounts, hcount', hrest h.next⟩
  · rw [WriteTx.write, if_neg (by rwa [List.isEmpty_iff])] at hrun
    obtain ⟨hadm, hidle⟩ := hc hnil
    rw [CommittedState.update, if_neg hnil, ← hlook]
    rw [← hlook] at hadm hidle
    obtain ⟨t', hversion, hlook', hroot', hid, hacc⟩ := h.setValues hadm hidle hnil hrun
    exact ⟨t', hroot', hversion, hlook', hacc, hcount', hrest hid⟩

end

end Store

end TrieDb

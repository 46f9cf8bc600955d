import Mathlib.Data.Multiset.Filter
import TrieDb.Base.Runs
import TrieDb.Meta.Crash
import TrieDb.Transaction.Manager

/-!
# Interleavings of transactions

`begin_ro` and `begin_rw` (`src/database.rs:270–287`), `commit` and `rollback`
(`src/transaction.rs:173–211`) with every section under a lock as one step: `read_context` and
`write_context` (`src/storage/engine/engine.rs:52–73`) take the metadata lock, registration takes
the transaction lock, and the final section of a commit holds both. Any number of threads work on
one database; `set_values` is the map update of its changes, between whose page allocations and
orphanings other threads run.
-/

namespace TrieDb.Database

open Meta Base

variable {κ ν : Type*}

/-- The pending changes of a writer: `some` is a new value or a removal. -/
abbrev Changes (κ ν : Type*) := κ → Option (Option ν)

/-- The contents after a batch of changes. -/
def applyChanges (data : κ → Option ν) (changes : Changes κ ν) : κ → Option ν :=
  fun k ↦ (changes k).getD (data k)

/-- A transaction in flight. A writer carries the context that `begin_rw` returned (`base`) and
the contents that context describes. `overtaken` records a commit between the two steps of
`begin_ro` and `begin_rw`. -/
inductive Tx (κ ν : Type*) where
  | roTaken (ctx : TransactionContext) (overtaken : Bool)
  | reading (ctx : TransactionContext)
  | rwTaken (ctx : TransactionContext) (data : κ → Option ν) (overtaken : Bool)
  | rwRegistered (base : TransactionContext) (data : κ → Option ν) (minSnapshotId : Nat)
  | writing (base : TransactionContext) (data : κ → Option ν)
  | setting (base ctx : TransactionContext) (data : κ → Option ν) (changes : Changes κ ν)
  | ready (base ctx : TransactionContext) (data : κ → Option ν) (changes : Changes κ ν)

namespace Tx

/-- The mark a commit leaves on the transactions that have taken a context but not registered. -/
def overtake : Tx κ ν → Tx κ ν
  | roTaken ctx _ => roTaken ctx true
  | rwTaken ctx data _ => rwTaken ctx data true
  | tx => tx

/-- The context of an unfinished read transaction. -/
def reader? : Tx κ ν → Option TransactionContext
  | roTaken ctx _ => some ctx
  | reading ctx => some ctx
  | _ => none

/-- The context `begin_rw` returned to a writer, and the contents it describes. -/
def writer? : Tx κ ν → Option (TransactionContext × (κ → Option ν))
  | rwRegistered base data _ => some (base, data)
  | writing base data => some (base, data)
  | setting base _ data _ => some (base, data)
  | ready base _ data _ => some (base, data)
  | _ => none

/-- The snapshot under which the transaction manager lists the transaction. -/
def listed? : Tx κ ν → Option Nat
  | reading ctx => some ctx.snapshotId
  | tx => tx.writer?.map fun w ↦ w.1.snapshotId - 1

end Tx

/-- The database shared by all threads: metadata, recycling threshold and transaction manager,
with the transactions in flight, the contents of the last committed state and the commits so
far. -/
structure Db (κ ν : Type*) where
  metaManager : MetadataManager
  aliveSnapshot : Nat
  transactionManager : TransactionManager
  txs : Multiset (Tx κ ν)
  data : κ → Option ν
  log : List (Nat × Changes κ ν)

namespace Db

/-- `read_context`: copy the active slot. -/
def readContext (db : Db κ ν) : TransactionContext := .new db.metaManager.active.slot

/-- `write_context`: copy the dirty slot. -/
def writeContext (db : Db κ ν) : TransactionContext := .new db.metaManager.dirty.slot

/-- A database as `Database::open` leaves it, whatever it holds. -/
structure Opened (db : Db κ ν) : Prop where
  dirty : db.metaManager.dirty.slot = db.metaManager.active.slot.incSnapshotId
  alive : db.aliveSnapshot = db.metaManager.active.slot.snapshotId
  transactionManager : db.transactionManager = .new
  txs : db.txs = 0
  log : db.log = []

end Db

/-- The names of the steps. Registration of a writer shows whether it was overtaken, an
allocation the orphan it recycles. -/
inductive Label where
  | readContext
  | registerRo
  | finishRo
  | writeContext
  | registerRw (overtaken : Bool)
  | unlock
  | startCommit
  | allocatePage (recycled : Option OrphanPage)
  | orphanPage
  | setValues
  | commit
  | rollback

/-- One atomic step of one thread. -/
inductive Step [SlotHash] : Db κ ν → Label → Db κ ν → Prop
  | readContext (db : Db κ ν) :
      Step db .readContext { db with txs := .roTaken db.readContext false ::ₘ db.txs }
  | registerRo {db : Db κ ν} {ctx o rest} (h : db.txs = .roTaken ctx o ::ₘ rest) :
      Step db .registerRo
        { db with
          transactionManager := db.transactionManager.beginRo ctx.snapshotId
          txs := .reading ctx ::ₘ rest }
  | finishRo {db : Db κ ν} {ctx rest m} (h : db.txs = .reading ctx ::ₘ rest)
      (hm : db.transactionManager.removeTx ctx.snapshotId false = some m) :
      Step db .finishRo { db with transactionManager := m, txs := rest }
  | writeContext (db : Db κ ν) :
      Step db .writeContext { db with txs := .rwTaken db.writeContext db.data false ::ₘ db.txs }
  | registerRw {db : Db κ ν} {ctx d o rest low m} (h : db.txs = .rwTaken ctx d o ::ₘ rest)
      (hm : db.transactionManager.beginRw ctx.snapshotId = some (low, m)) :
      Step db (.registerRw o)
        { db with transactionManager := m, txs := .rwRegistered ctx d low ::ₘ rest }
  -- a second writer gets the error and is gone
  | refuseRw {db : Db κ ν} {ctx d o rest} (h : db.txs = .rwTaken ctx d o ::ₘ rest)
      (hm : db.transactionManager.beginRw ctx.snapshotId = none) :
      Step db (.registerRw o) { db with txs := rest }
  | unlock {db : Db κ ν} {base d low rest} (h : db.txs = .rwRegistered base d low ::ₘ rest) :
      Step db .unlock
        { db with
          aliveSnapshot := if 0 < low then low - 1 + 1 else db.aliveSnapshot
          txs := .writing base d ::ₘ rest }
  | startCommit {db : Db κ ν} {base d rest} (changes : Changes κ ν)
      (h : db.txs = .writing base d ::ₘ rest) :
      Step db .startCommit { db with txs := .setting base base d changes ::ₘ rest }
  | allocatePage {db : Db κ ν} {base ctx d ch rest o m} (size : Nat)
      (h : db.txs = .setting base ctx d ch ::ₘ rest)
      (hm : db.metaManager.pop db.aliveSnapshot = (o, m)) :
      Step db (.allocatePage o)
        { db with
          metaManager := m
          txs := .setting base { ctx with pageCount := size } d ch ::ₘ rest }
  | orphanPage {db : Db κ ν} {base ctx d ch rest m} (pageId : Nat)
      (h : db.txs = .setting base ctx d ch ::ₘ rest)
      (hm : db.metaManager.push ⟨pageId, ctx.snapshotId⟩ = some m) :
      Step db .orphanPage { db with metaManager := m }
  | setValues {db : Db κ ν} {base ctx d ch rest} (hash : B256) (root : Option Nat)
      (h : db.txs = .setting base ctx d ch ::ₘ rest) :
      Step db .setValues
        { db with
          txs := .ready base { ctx with rootNodeHash := hash, rootNodePageId := root } d ch ::ₘ
            rest }
  | commit {db : Db κ ν} {base ctx d ch rest m} (h : db.txs = .ready base ctx d ch ::ₘ rest)
      (hm : db.transactionManager.removeTx ctx.snapshotId true = some m) :
      Step db .commit
        { metaManager := commitMetadata db.metaManager ctx
          aliveSnapshot := db.aliveSnapshot
          transactionManager := m
          txs := rest.map Tx.overtake
          data := applyChanges d ch
          log := db.log ++ [(ctx.snapshotId, ch)] }
  | rollback {db : Db κ ν} {base d rest m} (h : db.txs = .writing base d ::ₘ rest)
      (hm : db.transactionManager.removeTx base.snapshotId true = some m) :
      Step db .rollback { db with transactionManager := m, txs := rest }

/-! ### Bookkeeping of the transaction manager -/

/-- A writer's context keeps the snapshot id it began with. -/
def Tx.SameId : Tx κ ν → Prop
  | .setting base ctx _ _ => ctx.snapshotId = base.snapshotId
  | .ready base ctx _ _ => ctx.snapshotId = base.snapshotId
  | _ => True

/-- The manager lists exactly the registered transactions, and its flag tells whether one of
them is a writer; there is at most one. -/
structure Bookkept (db : Db κ ν) : Prop where
  listed : (db.transactionManager.openTxs : Multiset Nat) = db.txs.filterMap Tx.listed?
  writers : (db.txs.filterMap Tx.writer?).card = if db.transactionManager.hasWriter then 1 else 0
  sameId : ∀ tx ∈ db.txs, tx.SameId

/-- Overtaking changes no listed transaction. -/
@[simp] theorem Tx.listed?_overtake (tx : Tx κ ν) : tx.overtake.listed? = tx.listed? := by
  cases tx <;> rfl

/-- Overtaking changes no writer. -/
@[simp] theorem Tx.writer?_overtake (tx : Tx κ ν) : tx.overtake.writer? = tx.writer? := by
  cases tx <;> rfl

/-- Overtaking changes no reader. -/
@[simp] theorem Tx.reader?_overtake (tx : Tx κ ν) : tx.overtake.reader? = tx.reader? := by
  cases tx <;> rfl

private theorem Tx.sameId_overtake (tx : Tx κ ν) (h : tx.SameId) : tx.overtake.SameId := by
  cases tx <;> exact h

private theorem filterMap_overtake {β : Type*} (f : Tx κ ν → Option β)
    (hf : ∀ tx, f tx.overtake = f tx) (txs : Multiset (Tx κ ν)) :
    (txs.map Tx.overtake).filterMap f = txs.filterMap f := by
  rw [Multiset.filterMap_map]
  exact congrArg (Multiset.filterMap · txs) (funext hf)

private theorem filterMap_cons {α β : Type*} (f : α → Option β) (a : α) (s : Multiset α) :
    (a ::ₘ s).filterMap f =
      match f a with
      | some b => b ::ₘ s.filterMap f
      | none => s.filterMap f := by
  cases hf : f a with
  | none => exact Multiset.filterMap_cons_none a s hf
  | some b => exact Multiset.filterMap_cons_some f a s hf

/-- Nothing is in flight when the database is opened. -/
private theorem Db.Opened.bookkept {db : Db κ ν} (h : db.Opened) : Bookkept db := by
  refine ⟨?_, ?_, ?_⟩ <;> simp [h.txs, h.transactionManager, TransactionManager.new]

/-- A writer that moves on to its next phase is booked as before. -/
private theorem Bookkept.advance {db db' : Db κ ν} {tx tx' : Tx κ ν} {rest : Multiset (Tx κ ν)}
    (h : Bookkept db) (ht : db.txs = tx ::ₘ rest) (ht' : db'.txs = tx' ::ₘ rest)
    (hm : db'.transactionManager = db.transactionManager) (hl : tx'.listed? = tx.listed?)
    (hw : tx'.writer?.isSome = tx.writer?.isSome) (hid : tx'.SameId) : Bookkept db' := by
  refine ⟨?_, ?_, ?_⟩
  · rw [hm, h.listed, ht, ht', filterMap_cons, filterMap_cons, hl]
  · have hcard := h.writers
    rw [ht, filterMap_cons] at hcard
    rw [hm, ht', filterMap_cons, ← hcard]
    revert hw
    cases tx'.writer? <;> cases tx.writer? <;> simp
  · rw [ht']
    refine Multiset.forall_mem_cons.mpr ⟨hid, fun t h' ↦ h.sameId t ?_⟩
    rw [ht]
    exact Multiset.mem_cons_of_mem h'

section
variable [SlotHash]

/-- The bookkeeping is exact in every interleaving. -/
private theorem Bookkept.step {db db' : Db κ ν} {l : Label} (h : Bookkept db) (hs : Step db l db') :
    Bookkept db' := by
  have hbook := h
  obtain ⟨hl, hw, hi⟩ := h
  cases hs with
  | readContext =>
    refine ⟨?_, ?_, ?_⟩
    · simpa only [filterMap_cons, Tx.listed?, Tx.writer?, Option.map_none] using hl
    · simpa only [filterMap_cons, Tx.writer?] using hw
    · exact Multiset.forall_mem_cons.mpr ⟨trivial, hi⟩
  | writeContext =>
    refine ⟨?_, ?_, ?_⟩
    · simpa only [filterMap_cons, Tx.listed?, Tx.writer?, Option.map_none] using hl
    · simpa only [filterMap_cons, Tx.writer?] using hw
    · exact Multiset.forall_mem_cons.mpr ⟨trivial, hi⟩
  | @registerRo ctx o rest ht =>
    rw [ht] at hl hw hi
    simp only [filterMap_cons, Tx.listed?, Tx.writer?, Option.map_none] at hl hw
    refine ⟨?_, ?_, ?_⟩
    · simp only [filterMap_cons, Tx.listed?, ← hl, TransactionManager.beginRo]
      exact Multiset.coe_eq_coe.mpr (List.perm_append_singleton _ _)
    · simp only [filterMap_cons, Tx.writer?]
      exact hw
    · exact Multiset.forall_mem_cons.mpr ⟨trivial, (Multiset.forall_mem_cons.mp hi).2⟩
  | @finishRo ctx rest m ht hm =>
    obtain ⟨hw', hp⟩ := TransactionManager.removeTx_eq_some hm
    rw [ht] at hl hw hi
    simp only [filterMap_cons, Tx.listed?, Tx.writer?] at hl hw
    refine ⟨?_, ?_, (Multiset.forall_mem_cons.mp hi).2⟩
    · rw [← Multiset.coe_eq_coe.mpr hp] at hl
      exact (Multiset.cons_inj_right _).mp hl
    · simp only [hw', Bool.not_false, Bool.true_and]
      exact hw
  | @registerRw ctx d o rest low m ht hm =>
    obtain ⟨hn, rfl, -⟩ := TransactionManager.beginRw_eq_some hm
    rw [ht] at hl hw hi
    simp only [filterMap_cons, Tx.listed?, Tx.writer?, Option.map_none] at hl hw
    refine ⟨?_, ?_, ?_⟩
    · simp only [filterMap_cons, Tx.listed?, Tx.writer?, Option.map_some, ← hl]
      exact Multiset.coe_eq_coe.mpr (List.perm_append_singleton _ _)
    · simp only [filterMap_cons, Tx.writer?, Multiset.card_cons, hw, hn, if_true]
      rfl
    · exact Multiset.forall_mem_cons.mpr ⟨trivial, (Multiset.forall_mem_cons.mp hi).2⟩
  | @refuseRw ctx d o rest ht hm =>
    rw [ht] at hl hw hi
    simp only [filterMap_cons, Tx.listed?, Tx.writer?, Option.map_none] at hl hw
    exact ⟨hl, hw, (Multiset.forall_mem_cons.mp hi).2⟩
  | @commit base ctx d ch rest m ht hm =>
    obtain ⟨hw', hp⟩ := TransactionManager.removeTx_eq_some hm
    rw [ht] at hl hw hi
    obtain ⟨hid, hi⟩ := Multiset.forall_mem_cons.mp hi
    simp only [filterMap_cons, Tx.listed?, Tx.writer?, Option.map_some, Multiset.card_cons]
      at hl hw
    refine ⟨?_, ?_, ?_⟩
    · rw [filterMap_overtake _ Tx.listed?_overtake]
      rw [← Multiset.coe_eq_coe.mpr hp, if_pos rfl, show ctx.snapshotId = base.snapshotId from hid]
        at hl
      exact (Multiset.cons_inj_right _).mp hl
    · rw [filterMap_overtake _ Tx.writer?_overtake]
      simp only [hw', Bool.not_true, Bool.false_and, Bool.false_eq_true, if_false]
      split at hw <;> omega
    · intro tx htx
      obtain ⟨tx', htx', rfl⟩ := Multiset.mem_map.mp htx
      exact tx'.sameId_overtake (hi tx' htx')
  | @rollback base d rest m ht hm =>
    obtain ⟨hw', hp⟩ := TransactionManager.removeTx_eq_some hm
    rw [ht] at hl hw hi
    simp only [filterMap_cons, Tx.listed?, Tx.writer?, Option.map_some, Multiset.card_cons]
      at hl hw
    refine ⟨?_, ?_, (Multiset.forall_mem_cons.mp hi).2⟩
    · rw [← Multiset.coe_eq_coe.mpr hp, if_pos rfl] at hl
      exact (Multiset.cons_inj_right _).mp hl
    · simp only [hw', Bool.not_true, Bool.false_and, Bool.false_eq_true, if_false]
      split at hw <;> omega
  | orphanPage => exact ⟨hl, hw, hi⟩
  | unlock ht => exact hbook.advance ht rfl rfl rfl rfl trivial
  | startCommit _ ht => exact hbook.advance ht rfl rfl rfl rfl rfl
  | @allocatePage base ctx d ch rest o m size ht hm =>
    have hid : (Tx.setting base ctx d ch).SameId := hi _ (ht ▸ Multiset.mem_cons_self _ _)
    exact hbook.advance ht rfl rfl rfl rfl hid
  | @setValues base ctx d ch rest hash root ht =>
    have hid : (Tx.setting base ctx d ch).SameId := hi _ (ht ▸ Multiset.mem_cons_self _ _)
    exact hbook.advance ht rfl rfl rfl rfl hid

/-! ### Writers -/

/-- A writer registers only if no commit fell between its two steps. -/
def WriterInTime (db : Db κ ν) : Label → Prop
  | .registerRw overtaken => db.transactionManager.hasWriter = false → overtaken = false
  | _ => True

/-- What holds of a transaction while the given context and contents are the ones the next
writer starts from. -/
def Tx.Current (next : TransactionContext) (data : κ → Option ν) : Tx κ ν → Prop
  | .rwTaken ctx d overtaken => overtaken = false → ctx = next ∧ d = data
  | tx => ∀ base d, tx.writer? = some (base, d) → base = next ∧ d = data

/-- The writers' invariant: every writer started from the last committed state, and the commits
so far make up the contents. -/
structure InTurn (data₀ : κ → Option ν) (id₀ : Nat) (db : Db κ ν) : Prop where
  bookkept : Bookkept db
  next : db.writeContext =
    { db.readContext with snapshotId := db.readContext.snapshotId + 1 }
  current : ∀ tx ∈ db.txs, tx.Current db.writeContext db.data
  contents : db.data = (db.log.map Prod.snd).foldl applyChanges data₀
  ascending : (db.log.map Prod.fst).Pairwise (· < ·)
  within : ∀ id ∈ db.log.map Prod.fst, id₀ < id ∧ id ≤ db.readContext.snapshotId
  above : id₀ ≤ db.readContext.snapshotId

omit [SlotHash] in
/-- An opened database is in turn. -/
private theorem Db.Opened.inTurn {db : Db κ ν} (h : db.Opened) :
    InTurn db.data db.readContext.snapshotId db := by
  refine ⟨h.bookkept, ?_, ?_, ?_, ?_, ?_, Nat.le_refl _⟩
  · simp only [Db.writeContext, Db.readContext, h.dirty]
    rfl
  all_goals simp [h.txs, h.log]

omit [SlotHash] in
/-- A step that keeps the committed state, where every new transaction is current. -/
private theorem InTurn.of_same {data₀ : κ → Option ν} {id₀ : Nat} {db db' : Db κ ν}
    (h : InTurn data₀ id₀ db) (hb : Bookkept db') (hread : db'.readContext = db.readContext)
    (hwrite : db'.writeContext = db.writeContext) (hdata : db'.data = db.data)
    (hlog : db'.log = db.log)
    (htx : ∀ t ∈ db'.txs, t ∈ db.txs ∨ t.Current db.writeContext db.data) :
    InTurn data₀ id₀ db' := by
  obtain ⟨-, hn, hc, hd, ha, hi, hab⟩ := h
  refine ⟨hb, by rw [hwrite, hread, hn], ?_, by rw [hdata, hlog, hd], by rw [hlog]; exact ha,
    by rw [hlog, hread]; exact hi, by rw [hread]; exact hab⟩
  rw [hwrite, hdata]
  intro t ht
  rcases htx t ht with h' | h'
  · exact hc t h'
  · exact h'

omit [SlotHash] in
private theorem mem_or_of_replace {txs rest : Multiset (Tx κ ν)} {tx tx' : Tx κ ν}
    {P : Tx κ ν → Prop} (h : txs = tx ::ₘ rest) (hP : P tx') :
    ∀ t ∈ tx' ::ₘ rest, t ∈ txs ∨ P t := by
  intro t ht
  rcases Multiset.mem_cons.mp ht with rfl | ht
  · exact .inr hP
  · exact .inl (h ▸ Multiset.mem_cons_of_mem ht)

omit [SlotHash] in
private theorem mem_or_of_remove {txs rest : Multiset (Tx κ ν)} {tx : Tx κ ν}
    {P : Tx κ ν → Prop} (h : txs = tx ::ₘ rest) : ∀ t ∈ rest, t ∈ txs ∨ P t :=
  fun _ ht ↦ .inl (h ▸ Multiset.mem_cons_of_mem ht)

omit [SlotHash] in
/-- When the writer leaves, nobody else is one. -/
private theorem Bookkept.rest_writer? {db : Db κ ν} (h : Bookkept db) {tx : Tx κ ν}
    {rest : Multiset (Tx κ ν)} (ht : db.txs = tx ::ₘ rest) (hw : tx.writer?.isSome) :
    ∀ t ∈ rest, t.writer? = none := by
  obtain ⟨w, hw⟩ := Option.isSome_iff_exists.mp hw
  have hcard := h.writers
  simp only [ht, filterMap_cons, hw, Multiset.card_cons] at hcard
  have hzero : rest.filterMap Tx.writer? = 0 := by
    rw [← Multiset.card_eq_zero]
    split at hcard <;> omega
  intro t h'
  by_contra hne
  obtain ⟨w', hw'⟩ := Option.ne_none_iff_exists'.mp hne
  have hmem := (Multiset.mem_filterMap Tx.writer? rest).mpr ⟨t, h', hw'⟩
  rw [hzero] at hmem
  exact Multiset.notMem_zero _ hmem

omit [SlotHash] in
/-- A transaction that is not a writer is current once overtaken. -/
private theorem Tx.current_overtake {tx : Tx κ ν} (h : tx.writer? = none)
    (next : TransactionContext) (data : κ → Option ν) : tx.overtake.Current next data := by
  cases tx <;> simp_all [Tx.overtake, Tx.Current, Tx.writer?]

omit [SlotHash] in
private theorem Tx.Current.writer {tx : Tx κ ν} {next base : TransactionContext}
    {data d : κ → Option ν} (h : tx.Current next data) (hw : tx.writer? = some (base, d)) :
    base = next ∧ d = data := by
  cases tx <;> first | exact h _ _ hw | cases hw

/-- Every step keeps the writers in turn, if a writer that registers has not been overtaken. -/
private theorem InTurn.step {data₀ : κ → Option ν} {id₀ : Nat} {db db' : Db κ ν} {l : Label}
    (h : InTurn data₀ id₀ db) (hok : WriterInTime db l) (hs : Step db l db') :
    InTurn data₀ id₀ db' := by
  have hb := h.bookkept.step hs
  cases hs with
  | readContext =>
    refine h.of_same hb rfl rfl rfl rfl fun t ht ↦ ?_
    rcases Multiset.mem_cons.mp ht with rfl | ht
    · exact .inr fun _ _ hw ↦ by cases hw
    · exact .inl ht
  | writeContext =>
    refine h.of_same hb rfl rfl rfl rfl fun t ht ↦ ?_
    rcases Multiset.mem_cons.mp ht with rfl | ht
    · exact .inr fun _ ↦ ⟨rfl, rfl⟩
    · exact .inl ht
  | registerRo ht =>
    exact h.of_same hb rfl rfl rfl rfl (mem_or_of_replace ht fun _ _ hw ↦ by cases hw)
  | finishRo ht _ => exact h.of_same hb rfl rfl rfl rfl (mem_or_of_remove ht)
  | @registerRw ctx d o rest low m ht hm =>
    have ho := hok (TransactionManager.beginRw_eq_some hm).1
    have hc : (Tx.rwTaken ctx d o).Current db.writeContext db.data :=
      h.current _ (ht ▸ Multiset.mem_cons_self _ _)
    refine h.of_same hb rfl rfl rfl rfl (mem_or_of_replace ht ?_)
    rintro base d' hw
    cases hw
    exact hc ho
  | refuseRw ht _ => exact h.of_same hb rfl rfl rfl rfl (mem_or_of_remove ht)
  | unlock ht =>
    have hc := h.current _ (ht ▸ Multiset.mem_cons_self _ _)
    exact h.of_same hb rfl rfl rfl rfl (mem_or_of_replace ht hc)
  | startCommit _ ht =>
    have hc := h.current _ (ht ▸ Multiset.mem_cons_self _ _)
    exact h.of_same hb rfl rfl rfl rfl (mem_or_of_replace ht hc)
  | @allocatePage base ctx d ch rest o m size ht hm =>
    have hc : (Tx.setting base ctx d ch).Current _ _ :=
      h.current _ (ht ▸ Multiset.mem_cons_self _ _)
    obtain ⟨hd, ha⟩ := MetadataManager.new_dirty_pop hm
    refine h.of_same hb ?_ hd rfl rfl (mem_or_of_replace ht hc)
    simp only [Db.readContext, ha]
  | @orphanPage base ctx d ch rest m pageId ht hm =>
    obtain ⟨hd, ha⟩ := MetadataManager.new_dirty_push hm
    refine h.of_same hb ?_ hd rfl rfl fun t ht ↦ .inl ht
    simp only [Db.readContext, ha]
  | @setValues base ctx d ch rest hash root ht =>
    have hc : (Tx.setting base ctx d ch).Current _ _ :=
      h.current _ (ht ▸ Multiset.mem_cons_self _ _)
    exact h.of_same hb rfl rfl rfl rfl (mem_or_of_replace ht hc)
  | @commit base ctx d ch rest m ht hm =>
    have hmem : Tx.ready base ctx d ch ∈ db.txs := ht ▸ Multiset.mem_cons_self _ _
    obtain ⟨hbase, rfl⟩ := (h.current _ hmem).writer rfl
    have hid : ctx.snapshotId = db.readContext.snapshotId + 1 := by
      have : ctx.snapshotId = base.snapshotId := h.bookkept.sameId _ hmem
      rw [this, hbase, h.next]
    have hread : (TransactionContext.new (commitMetadata db.metaManager ctx).active.slot).snapshotId
        = ctx.snapshotId := by
      rw [MetadataManager.new_active_commitMetadata]
    have hrest := h.bookkept.rest_writer? ht rfl
    refine ⟨hb, ?_, ?_, ?_, ?_, ?_, ?_⟩ <;> simp only [Db.writeContext, Db.readContext]
    · simp only [MetadataManager.dirty_commitMetadata]
      rfl
    · intro t hmap
      obtain ⟨t', ht', rfl⟩ := Multiset.mem_map.mp hmap
      exact Tx.current_overtake (hrest t' ht') _ _
    · rw [List.map_append, List.foldl_append, ← h.contents]
      rfl
    · rw [List.map_append, List.pairwise_append]
      refine ⟨h.ascending, List.pairwise_singleton _ _, ?_⟩
      intro a ha b hb
      rw [List.map_cons, List.map_nil, List.mem_singleton] at hb
      subst hb
      have := (h.within a ha).2
      omega
    · rw [hread]
      intro id hmem
      rw [List.map_append, List.mem_append, List.map_cons, List.map_nil, List.mem_singleton] at hmem
      have := h.above
      rcases hmem with hmem | rfl
      · have := h.within id hmem
        omega
      · omega
    · rw [hread]
      have := h.above
      omega
  | rollback ht _ => exact h.of_same hb rfl rfl rfl rfl (mem_or_of_remove ht)

/-- No lost update: in every interleaving in which no commit falls between the two steps of a
`begin_rw` that succeeds, each writer works on the last committed state until it ends, the
committed contents are those of all commits one after the other, and their snapshot ids
increase. -/
theorem writers_in_turn {db₀ db : Db κ ν} (h₀ : db₀.Opened)
    (h : Run Step WriterInTime db₀ db) :
    (∀ tx ∈ db.txs, ∀ base d, tx.writer? = some (base, d) →
      base = { db.readContext with snapshotId := db.readContext.snapshotId + 1 } ∧
        d = db.data) ∧
      db.data = (db.log.map Prod.snd).foldl applyChanges db₀.data ∧
      (db₀.readContext.snapshotId :: db.log.map Prod.fst).Pairwise (· < ·) := by
  have hi : InTurn db₀.data db₀.readContext.snapshotId db :=
    h.invariant h₀.inTurn fun _ _ _ hi hok hs ↦ hi.step hok hs
  refine ⟨?_, hi.contents, ?_⟩
  · intro tx ht base d hw
    rw [← hi.next]
    exact (hi.current tx ht).writer hw
  · exact List.pairwise_cons.mpr ⟨fun id hid ↦ (hi.within id hid).1, hi.ascending⟩

/-! ### Readers -/

/-- A writer registers only if no commit fell between its two steps, and none between the two
steps of a reader that is still unregistered. -/
def AllInTime (db : Db κ ν) : Label → Prop
  | .registerRw overtaken => db.transactionManager.hasWriter = false →
      overtaken = false ∧ ∀ ctx, .roTaken ctx true ∉ db.txs
  | _ => True

/-- Every unfinished reader is at or above a snapshot. -/
def ReadersAbove (id : Nat) (txs : Multiset (Tx κ ν)) : Prop :=
  ∀ tx ∈ txs, ∀ ctx, tx.reader? = some ctx → id ≤ ctx.snapshotId

/-- The readers' invariant: the recycling threshold, also one computed but not yet stored, is at
or below every unfinished reader and the last committed snapshot. -/
structure Sheltered (data₀ : κ → Option ν) (id₀ : Nat) (db : Db κ ν) : Prop where
  inTurn : InTurn data₀ id₀ db
  alive_le : db.aliveSnapshot ≤ db.readContext.snapshotId
  readers : ReadersAbove db.aliveSnapshot db.txs
  pending : ∀ base d low, .rwRegistered base d low ∈ db.txs →
    low ≤ db.readContext.snapshotId ∧ ReadersAbove low db.txs
  taken : ∀ ctx, .roTaken ctx false ∈ db.txs → ctx.snapshotId = db.readContext.snapshotId

omit [SlotHash] in
private theorem ReadersAbove.of_subset {id : Nat} {txs txs' : Multiset (Tx κ ν)}
    (h : ReadersAbove id txs) (ht : ∀ t ∈ txs', t ∈ txs ∨ ∀ ctx, t.reader? = some ctx →
      id ≤ ctx.snapshotId) : ReadersAbove id txs' := by
  intro t hmem ctx hr
  rcases ht t hmem with h' | h'
  · exact h t h' ctx hr
  · exact h' ctx hr

omit [SlotHash] in
/-- A step that keeps the threshold and the committed state, adding no reader and no pending
threshold. -/
private theorem Sheltered.of_same {data₀ : κ → Option ν} {id₀ : Nat} {db db' : Db κ ν}
    (h : Sheltered data₀ id₀ db) (hi : InTurn data₀ id₀ db')
    (hread : db'.readContext = db.readContext) (halive : db'.aliveSnapshot = db.aliveSnapshot)
    (htx : ∀ t ∈ db'.txs, t ∈ db.txs ∨ t.reader? = none ∧
      ∀ base d low, t ≠ .rwRegistered base d low) : Sheltered data₀ id₀ db' := by
  have hsub {id : Nat} (hr : ReadersAbove id db.txs) : ReadersAbove id db'.txs := by
    refine hr.of_subset fun t ht ↦ (htx t ht).imp_right fun h' ctx hr ↦ ?_
    rw [h'.1] at hr
    cases hr
  refine ⟨hi, ?_, ?_, ?_, ?_⟩
  · rw [halive, hread]
    exact h.alive_le
  · rw [halive]
    exact hsub h.readers
  · intro base d low hmem
    rw [hread]
    rcases htx _ hmem with h' | h'
    · exact ⟨(h.pending base d low h').1, hsub (h.pending base d low h').2⟩
    · exact absurd rfl (h'.2 base d low)
  · intro ctx hmem
    rw [hread]
    rcases htx _ hmem with h' | h'
    · exact h.taken ctx h'
    · cases h'.1

omit [SlotHash] in
/-- An opened database shelters its readers. -/
private theorem Db.Opened.sheltered {db : Db κ ν} (h : db.Opened) :
    Sheltered db.data db.readContext.snapshotId db := by
  refine ⟨h.inTurn, Nat.le_of_eq h.alive, ?_, ?_, ?_⟩ <;> simp [ReadersAbove, h.txs]

/-- Every step keeps the readers sheltered, if nobody is overtaken when a writer registers. -/
private theorem Sheltered.step {data₀ : κ → Option ν} {id₀ : Nat} {db db' : Db κ ν} {l : Label}
    (h : Sheltered data₀ id₀ db) (hok : AllInTime db l) (hs : Step db l db') :
    Sheltered data₀ id₀ db' := by
  have hok' : WriterInTime db l := by
    cases l with
    | registerRw o => exact fun hw ↦ (hok hw).1
    | _ => trivial
  have hi := h.inTurn.step hok' hs
  cases hs with
  | readContext =>
    have habove {id : Nat} (hid : id ≤ db.readContext.snapshotId) (hr : ReadersAbove id db.txs) :
        ReadersAbove id (.roTaken db.readContext false ::ₘ db.txs) := by
      refine hr.of_subset fun t ht ↦ ?_
      rcases Multiset.mem_cons.mp ht with rfl | ht
      · refine .inr fun ctx hc ↦ ?_
        cases hc
        exact hid
      · exact .inl ht
    refine ⟨hi, h.alive_le, habove h.alive_le h.readers, ?_, ?_⟩
    · intro base d low hmem
      have hp := h.pending base d low ((Multiset.mem_cons.mp hmem).resolve_left (by simp))
      exact ⟨hp.1, habove hp.1 hp.2⟩
    · intro ctx hmem
      rcases Multiset.mem_cons.mp hmem with heq | hmem
      · cases heq
        rfl
      · exact h.taken ctx hmem
  | writeContext =>
    refine h.of_same hi rfl rfl fun t ht ↦ ?_
    rcases Multiset.mem_cons.mp ht with rfl | ht
    · exact .inr ⟨rfl, by simp⟩
    · exact .inl ht
  | @registerRo ctx o rest ht =>
    have habove {id : Nat} (hr : ReadersAbove id db.txs) :
        ReadersAbove id (.reading ctx ::ₘ rest) := by
      refine hr.of_subset (mem_or_of_replace ht ?_)
      intro c hc
      exact hr (.roTaken ctx o) (ht ▸ Multiset.mem_cons_self _ _) c hc
    have hold {t : Tx κ ν} (hmem : t ∈ Tx.reading ctx ::ₘ rest) (hne : t ≠ .reading ctx) :
        t ∈ db.txs := ht ▸ Multiset.mem_cons_of_mem ((Multiset.mem_cons.mp hmem).resolve_left hne)
    refine ⟨hi, h.alive_le, habove h.readers, ?_, ?_⟩
    · intro base d low hmem
      have hp := h.pending base d low (hold hmem (by simp))
      exact ⟨hp.1, habove hp.2⟩
    · intro c hmem
      exact h.taken c (hold hmem (by simp))
  | finishRo ht _ => exact h.of_same hi rfl rfl (mem_or_of_remove ht)
  | @registerRw ctx d o rest low m ht hm =>
    obtain ⟨hn, hm', hlow⟩ := TransactionManager.beginRw_eq_some hm
    obtain ⟨ho, hnone⟩ := hok hn
    have hc : (Tx.rwTaken ctx d o).Current db.writeContext db.data :=
      h.inTurn.current _ (ht ▸ Multiset.mem_cons_self _ _)
    have hid : ctx.snapshotId = db.readContext.snapshotId + 1 := by rw [(hc ho).1, h.inTurn.next]
    rw [hm'] at hlow
    have hcur : low ≤ db.readContext.snapshotId := by
      have := hlow (ctx.snapshotId - 1) (by simp)
      omega
    -- a reader is registered, and counted, or still at the last committed snapshot
    have hr : ReadersAbove low db.txs := by
      intro t hmem c hreader
      cases t with
      | roTaken c' o' =>
        cases hreader
        cases o' with
        | true => exact absurd hmem (hnone c)
        | false => rw [h.taken c hmem]; exact hcur
      | reading c' =>
        cases hreader
        refine hlow _ (List.mem_append_left _ ?_)
        rw [← Multiset.mem_coe, h.inTurn.bookkept.listed]
        exact (Multiset.mem_filterMap _ _).mpr ⟨_, hmem, rfl⟩
      | _ => cases hreader
    have hsub {id : Nat} (h' : ReadersAbove id db.txs) :
        ReadersAbove id (.rwRegistered ctx d low ::ₘ rest) :=
      h'.of_subset (mem_or_of_replace ht fun _ hr ↦ by cases hr)
    refine ⟨hi, h.alive_le, hsub h.readers, ?_, ?_⟩
    · intro base' d' low' hmem
      rcases Multiset.mem_cons.mp hmem with heq | hmem
      · cases heq
        exact ⟨hcur, hsub hr⟩
      · have hp := h.pending base' d' low' (ht ▸ Multiset.mem_cons_of_mem hmem)
        exact ⟨hp.1, hsub hp.2⟩
    · intro c hmem
      have hmem := (Multiset.mem_cons.mp hmem).resolve_left (by simp)
      exact h.taken c (ht ▸ Multiset.mem_cons_of_mem hmem)
  | refuseRw ht _ => exact h.of_same hi rfl rfl (mem_or_of_remove ht)
  | @unlock base d low rest ht =>
    obtain ⟨hlow, hrl⟩ := h.pending base d low (ht ▸ Multiset.mem_cons_self _ _)
    have hsub {id : Nat} (h' : ReadersAbove id db.txs) :
        ReadersAbove id (.writing base d ::ₘ rest) :=
      h'.of_subset (mem_or_of_replace ht fun _ hr ↦ by cases hr)
    refine ⟨hi, ?_, ?_, ?_, ?_⟩
    · simp only [Db.readContext] at hlow ⊢
      have := h.alive_le
      simp only [Db.readContext] at this
      split <;> omega
    · simp only
      split
      · next hpos =>
        rw [Nat.sub_add_cancel hpos]
        exact hsub hrl
      · exact hsub h.readers
    · intro base' d' low' hmem
      have hmem := (Multiset.mem_cons.mp hmem).resolve_left (by simp)
      have hp := h.pending base' d' low' (ht ▸ Multiset.mem_cons_of_mem hmem)
      exact ⟨hp.1, hsub hp.2⟩
    · intro c hmem
      have hmem := (Multiset.mem_cons.mp hmem).resolve_left (by simp)
      exact h.taken c (ht ▸ Multiset.mem_cons_of_mem hmem)
  | startCommit _ ht => exact h.of_same hi rfl rfl (mem_or_of_replace ht ⟨rfl, by simp⟩)
  | allocatePage _ ht hm =>
    refine h.of_same hi ?_ rfl (mem_or_of_replace ht ⟨rfl, by simp⟩)
    simp only [Db.readContext, (MetadataManager.new_dirty_pop hm).2]
  | orphanPage _ ht hm =>
    refine h.of_same hi ?_ rfl fun t ht ↦ .inl ht
    simp only [Db.readContext, (MetadataManager.new_dirty_push hm).2]
  | setValues _ _ ht => exact h.of_same hi rfl rfl (mem_or_of_replace ht ⟨rfl, by simp⟩)
  | @commit base ctx d ch rest m ht hm =>
    have hmem : Tx.ready base ctx d ch ∈ db.txs := ht ▸ Multiset.mem_cons_self _ _
    have hid : ctx.snapshotId = db.readContext.snapshotId + 1 := by
      have : ctx.snapshotId = base.snapshotId := h.inTurn.bookkept.sameId _ hmem
      rw [this, ((h.inTurn.current _ hmem).writer rfl).1, h.inTurn.next]
    have hread : (TransactionContext.new (commitMetadata db.metaManager ctx).active.slot).snapshotId
        = ctx.snapshotId := by
      rw [MetadataManager.new_active_commitMetadata]
    have hrest := h.inTurn.bookkept.rest_writer? ht rfl
    refine ⟨hi, ?_, ?_, ?_, ?_⟩
    · simp only [Db.readContext] at hid ⊢
      have := h.alive_le
      simp only [Db.readContext] at this
      omega
    · intro t hmap c hc
      obtain ⟨t', ht', rfl⟩ := Multiset.mem_map.mp hmap
      rw [Tx.reader?_overtake] at hc
      exact h.readers t' (ht ▸ Multiset.mem_cons_of_mem ht') c hc
    · intro base' d' low' hmap
      obtain ⟨t', ht', heq⟩ := Multiset.mem_map.mp hmap
      have hnone := hrest t' ht'
      rw [← Tx.writer?_overtake, heq] at hnone
      cases hnone
    · intro c hmap
      obtain ⟨t', -, heq⟩ := Multiset.mem_map.mp hmap
      cases t' <;> simp [Tx.overtake] at heq
  | rollback ht _ => exact h.of_same hi rfl rfl (mem_or_of_remove ht)

/-- Readers are protected from the moment they take their snapshot: in every interleaving in which
nobody is overtaken by a commit between the two steps of `begin_rw`, or of `begin_ro` with a new
writer registering in between, a recycled page was orphaned at or before the snapshot of every
unfinished reader. -/
theorem recycled_before_readers {db₀ db db' : Db κ ν} {o : OrphanPage} (h₀ : db₀.Opened)
    (h : Run Step AllInTime db₀ db) (hs : Step db (.allocatePage (some o)) db') :
    ∀ tx ∈ db.txs, ∀ ctx, tx.reader? = some ctx → o.orphanedAt ≤ ctx.snapshotId := by
  have hi : Sheltered db₀.data db₀.readContext.snapshotId db :=
    h.invariant h₀.sheltered fun _ _ _ hi hok hs ↦ hi.step hok hs
  intro tx ht ctx hr
  cases hs with
  | allocatePage _ _ hm =>
    calc o.orphanedAt ≤ db.aliveSnapshot := MetadataManager.orphanedAt_le_of_pop hm
      _ ≤ ctx.snapshotId := hi.readers tx ht ctx hr

/-- A writer that registers alone can run to its commit without a change of the root. -/
private theorem run_commit {ok : Db κ ν → Label → Prop} {db₀ db : Db κ ν}
    (ctx : TransactionContext) (d : κ → Option ν) (o : Bool) (rest : Multiset (Tx κ ν))
    (low : Nat) {m m' : TransactionManager} (ch : Changes κ ν) (h : Run Step ok db₀ db)
    (hok : ∀ db l, (∀ o, l ≠ .registerRw o) → ok db l) (hreg : ok db (.registerRw o))
    (ht : db.txs = .rwTaken ctx d o ::ₘ rest)
    (hm : db.transactionManager.beginRw ctx.snapshotId = some (low, m))
    (hm' : m.removeTx ctx.snapshotId true = some m') :
    Run Step ok db₀
      { metaManager := commitMetadata db.metaManager ctx
        aliveSnapshot := if 0 < low then low - 1 + 1 else db.aliveSnapshot
        transactionManager := m'
        txs := rest.map Tx.overtake
        data := applyChanges d ch
        log := db.log ++ [(ctx.snapshotId, ch)] } := by
  have h₁ := h.tail (.registerRw o) hreg (.registerRw ht hm)
  have h₂ := h₁.tail .unlock (hok _ _ (by simp)) (.unlock rfl)
  have h₃ := h₂.tail .startCommit (hok _ _ (by simp)) (.startCommit ch rfl)
  have h₄ := h₃.tail .setValues (hok _ _ (by simp))
    (.setValues ctx.rootNodeHash ctx.rootNodePageId rfl)
  exact h₄.tail .commit (hok _ _ (by simp)) (.commit rfl hm')

end

/-! ### Two writers and a reader on one page -/

section
local instance interleavingSlotHash : SlotHash := fxSlotHash

/-- A database at snapshot 1 whose only page is the root. -/
def onePageDb : Db Nat Nat where
  metaManager := commitMetadata opened ⟨1, B256.zero, some 1, 1, fun _ ↦ none⟩
  aliveSnapshot := 1
  transactionManager := .new
  txs := 0
  data := fun _ ↦ none
  log := []

private theorem onePageDb_opened : onePageDb.Opened := ⟨rfl, rfl, rfl, rfl, rfl⟩

/-- The changes that set one key. -/
def setOne (k v : Nat) : Changes Nat Nat := fun k' ↦ if k' = k then some (some v) else none

/-- Two writers one after the other keep both writes. -/
theorem two_writers_in_turn :
    ∃ db : Db Nat Nat, Run Step WriterInTime onePageDb db ∧ db.log.length = 2 ∧
      db.data = (db.log.map Prod.snd).foldl applyChanges onePageDb.data ∧
      db.data 1 = some 7 ∧ db.data 2 = some 8 := by
  have hok (db : Db Nat Nat) (l : Label) (hl : ∀ o, l ≠ .registerRw o) : WriterInTime db l := by
    cases l <;> first | trivial | exact absurd rfl (hl _)
  have h₁ := Run.refl.tail .writeContext (hok _ _ (by simp)) (Step.writeContext onePageDb)
  have h₂ := run_commit onePageDb.writeContext onePageDb.data false 0 1 (setOne 1 7) h₁ hok
    (fun _ ↦ rfl) rfl rfl rfl
  have h₃ := h₂.tail .writeContext (hok _ _ (by simp)) (Step.writeContext _)
  have h₄ := run_commit (.new (commitMetadata onePageDb.metaManager
    onePageDb.writeContext).dirty.slot) (applyChanges onePageDb.data (setOne 1 7)) false 0 2
    (setOne 2 8) h₃ hok (fun _ ↦ rfl) rfl rfl rfl
  exact ⟨_, h₄, rfl, (writers_in_turn onePageDb_opened h₄).2.1, rfl, rfl⟩

/-- A writer that copied the metadata before another writer's commit, and registers after it,
works on a state that is no longer the last one, and its own commit undoes the other's write
under the same snapshot id. -/
theorem overtaken_writer_loses_update :
    ∃ db db' : Db Nat Nat, Run Step (fun _ _ ↦ True) onePageDb db ∧
      (∃ tx ∈ db.txs, ∃ base d, tx.writer? = some (base, d) ∧
        base.snapshotId ≠ db.readContext.snapshotId + 1 ∧ d 1 ≠ db.data 1) ∧
      Run Step (fun _ _ ↦ True) onePageDb db' ∧
      db'.log.map Prod.fst = [2, 2] ∧
      (db'.log.map fun c ↦ c.2 1) = [some (some 7), none] ∧ db'.data 1 = none := by
  let ok : Db Nat Nat → Label → Prop := fun _ _ ↦ True
  have h₁ : Run Step ok onePageDb _ := Run.refl.tail .writeContext trivial (Step.writeContext _)
  have h₂ := h₁.tail .writeContext trivial (Step.writeContext _)
  have h₃ := run_commit onePageDb.writeContext onePageDb.data false
    (.rwTaken onePageDb.writeContext onePageDb.data false ::ₘ 0) 1 (setOne 1 7) h₂
    (fun _ _ _ ↦ trivial) trivial rfl rfl rfl
  have h₄ := h₃.tail (.registerRw true) trivial
    (@Step.registerRw _ _ _ _ onePageDb.writeContext onePageDb.data _ 0 1 _ rfl rfl)
  have h₅ := run_commit onePageDb.writeContext onePageDb.data true 0 1 (setOne 2 8) h₃
    (fun _ _ _ ↦ trivial) trivial rfl rfl rfl
  refine ⟨_, _, h₄, ?_, h₅, rfl, rfl, rfl⟩
  refine ⟨.rwRegistered onePageDb.writeContext onePageDb.data 1, ?_, _, _, rfl, ?_, ?_⟩
  · exact Multiset.mem_singleton_self (Tx.rwRegistered onePageDb.writeContext onePageDb.data 1)
  · decide +kernel
  · decide +kernel

/-- The database after a writer has copied the root page to page 2 and committed. -/
def twoPageDb (txs : Multiset (Tx Nat Nat)) : Db Nat Nat where
  metaManager := commitMetadata ((onePageDb.metaManager.push ⟨1, 2⟩).getD onePageDb.metaManager)
    ⟨2, B256.zero, some 2, 2, fun _ ↦ none⟩
  aliveSnapshot := 1
  transactionManager := .new
  txs := txs
  data := applyChanges onePageDb.data (setOne 1 7)
  log := [(2, setOne 1 7)]

private theorem pop_onePageDb :
    onePageDb.metaManager.pop 1 = (none, onePageDb.metaManager) := by
  have hlen : onePageDb.metaManager.dirty.slot.orphanPagesLen = 0 := by decide +kernel
  simp only [MetadataManager.pop, hlen, Nat.not_lt_zero, false_and, if_false]
  split <;> rfl

private theorem push_onePageDb : onePageDb.metaManager.push ⟨1, 2⟩ =
    some ((onePageDb.metaManager.push ⟨1, 2⟩).getD onePageDb.metaManager) := by
  have hsome : (onePageDb.metaManager.push ⟨1, 2⟩).isSome := by decide +kernel
  obtain ⟨m, hm⟩ := Option.isSome_iff_exists.mp hsome
  rw [hm, Option.getD_some]

set_option maxRecDepth 4000 in
/-- A writer copies the root page and commits while the given transactions are in flight. -/
private theorem run_twoPageDb {ok : Db Nat Nat → Label → Prop} {db : Db Nat Nat}
    (txs : Multiset (Tx Nat Nat)) (h : Run Step ok onePageDb db)
    (hdb : db = { onePageDb with txs := txs })
    (hok : ∀ db l, (∀ o, l ≠ .registerRw o) → ok db l)
    (hreg : ∀ db ctx d, db.txs = .rwTaken ctx d false ::ₘ txs → ok db (.registerRw false)) :
    Run Step ok onePageDb (twoPageDb (txs.map Tx.overtake)) := by
  subst hdb
  have h₁ := h.tail .writeContext (hok _ _ (by simp)) (Step.writeContext _)
  have h₂ :=
    h₁.tail (.registerRw false) (hreg _ _ _ rfl) (@Step.registerRw _ _ _ _ _ _ _ _ 1 _ rfl rfl)
  have h₃ := h₂.tail .unlock (hok _ _ (by simp)) (.unlock rfl)
  have h₄ := h₃.tail .startCommit (hok _ _ (by simp)) (.startCommit (setOne 1 7) rfl)
  have h₅ := h₄.tail (.allocatePage none) (hok _ _ (by simp))
    (.allocatePage (m := onePageDb.metaManager) 2 rfl (by exact pop_onePageDb))
  have h₆ := h₅.tail .orphanPage (hok _ _ (by simp))
    (.orphanPage (m := (onePageDb.metaManager.push ⟨1, 2⟩).getD onePageDb.metaManager) 1 rfl
      (by exact push_onePageDb))
  have h₇ := h₆.tail .setValues (hok _ _ (by simp)) (.setValues B256.zero (some 2) rfl)
  exact h₇.tail .commit (hok _ _ (by simp)) (.commit rfl rfl)

set_option maxRecDepth 4000 in
/-- The next writer starts on the copy and finds the threshold at the last committed snapshot, if
no older transaction is registered. -/
private theorem run_setting {ok : Db Nat Nat → Label → Prop} (txs : Multiset (Tx Nat Nat))
    (h : Run Step ok onePageDb (twoPageDb txs)) (hok : ∀ db l, (∀ o, l ≠ .registerRw o) → ok db l)
    (hreg : ∀ db ctx d, db.txs = .rwTaken ctx d false ::ₘ txs → ok db (.registerRw false)) :
    Run Step ok onePageDb
      { twoPageDb txs with
        aliveSnapshot := 2
        transactionManager := ⟨true, [2]⟩
        txs := .setting (twoPageDb txs).writeContext (twoPageDb txs).writeContext
          (twoPageDb txs).data (setOne 2 8) ::ₘ txs } := by
  have h₁ := h.tail .writeContext (hok _ _ (by simp)) (Step.writeContext _)
  have h₂ :=
    h₁.tail (.registerRw false) (hreg _ _ _ rfl) (@Step.registerRw _ _ _ _ _ _ _ _ 2 _ rfl rfl)
  have h₃ := h₂.tail .unlock (hok _ _ (by simp)) (.unlock rfl)
  exact h₃.tail .startCommit (hok _ _ (by simp)) (.startCommit (setOne 2 8) rfl)

private theorem pop_twoPageDb (txs : Multiset (Tx Nat Nat)) :
    ((twoPageDb txs).metaManager.pop 2).1 = some ⟨1, 2⟩ := by
  have h : ((twoPageDb 0).metaManager.pop 2).1 = some ⟨1, 2⟩ := by decide +kernel
  exact h

set_option maxRecDepth 4000 in
private theorem step_recycle (txs : Multiset (Tx Nat Nat)) :
    ∃ db', Step { twoPageDb txs with
        aliveSnapshot := 2
        transactionManager := ⟨true, [2]⟩
        txs := .setting (twoPageDb txs).writeContext (twoPageDb txs).writeContext
          (twoPageDb txs).data (setOne 2 8) ::ₘ txs } (.allocatePage (some ⟨1, 2⟩)) db' :=
  ⟨_, .allocatePage (m := ((twoPageDb txs).metaManager.pop 2).2) 2 rfl
    (Prod.ext (pop_twoPageDb txs) rfl)⟩

/-- With a reader that began after the first commit, recycling the old root page is in order. -/
theorem recycled_before_late_reader :
    ∃ db db' : Db Nat Nat, Run Step AllInTime onePageDb db ∧
      Step db (.allocatePage (some ⟨1, 2⟩)) db' ∧
      ∀ tx ∈ db.txs, ∀ ctx, tx.reader? = some ctx → 2 ≤ ctx.snapshotId := by
  have hok (db : Db Nat Nat) (l : Label) (hl : ∀ o, l ≠ .registerRw o) : AllInTime db l := by
    cases l <;> first | trivial | exact absurd rfl (hl _)
  have h₁ : Run Step AllInTime onePageDb (twoPageDb 0) :=
    run_twoPageDb 0 .refl rfl hok fun _ _ _ ht _ ↦ ⟨rfl, by simp [ht]⟩
  have h₂ := h₁.tail .readContext (hok _ _ (by simp)) (Step.readContext _)
  have h₃ := run_setting (.roTaken (twoPageDb 0).readContext false ::ₘ 0) h₂ hok
    fun _ _ _ ht _ ↦ ⟨rfl, by simp [ht]⟩
  obtain ⟨db', hs⟩ := step_recycle (.roTaken (twoPageDb 0).readContext false ::ₘ 0)
  exact ⟨_, db', h₃, hs, recycled_before_readers onePageDb_opened h₃ hs⟩

/-- A reader takes the first snapshot; before it registers, a writer commits and a second writer
begins and recycles the root page the reader is about to read. -/
theorem overtaken_reader_loses_page :
    ∃ db db' : Db Nat Nat, Run Step (fun _ _ ↦ True) onePageDb db ∧
      Step db (.allocatePage (some ⟨1, 2⟩)) db' ∧
      ∃ tx ∈ db.txs, ∃ ctx, tx.reader? = some ctx ∧ ctx.rootNodePageId = some 1 ∧
        ¬ 2 ≤ ctx.snapshotId := by
  let ok : Db Nat Nat → Label → Prop := fun _ _ ↦ True
  have h₁ : Run Step ok onePageDb _ := Run.refl.tail .readContext trivial (Step.readContext _)
  have h₂ := run_twoPageDb (.roTaken onePageDb.readContext false ::ₘ 0) h₁ rfl
    (fun _ _ _ ↦ trivial) fun _ _ _ _ ↦ trivial
  have h₃ := run_setting _ h₂ (fun _ _ _ ↦ trivial) fun _ _ _ _ ↦ trivial
  obtain ⟨db', hs⟩ := step_recycle
    ((.roTaken onePageDb.readContext false ::ₘ 0 : Multiset (Tx Nat Nat)).map Tx.overtake)
  refine ⟨_, db', h₃, hs, .roTaken onePageDb.readContext true, ?_, _, rfl, rfl, ?_⟩
  · exact Multiset.mem_cons_of_mem
      (Multiset.mem_singleton_self (Tx.roTaken onePageDb.readContext true))
  · decide +kernel

end

end TrieDb.Database

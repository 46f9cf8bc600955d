import Mathlib.Data.List.Forall2
import TrieDb.Database.Store

/-!
# The store refines the snapshots

Every open transaction sees a trie in the pages (`Sees`), which stays as it is while others are
written. `Refines` relates a store to the states that its users see, and every call keeps it.
-/

namespace TrieDb

open Meta Engine Layout Base

namespace Store

private theorem writer_update {s : Store} {tx : WriteTx} (h : s.writer = .writing tx)
    (t : State Cells) :
    (s.update t .writer).writer = .writing { tx with context := t.context } := by
  simp only [update, h]

/-- A reader is replaced by one that sees the same state. -/
private theorem forall₂_set {α β : Type} {R : α → β → Prop} {l : List α} {m : List β}
    {i : Nat} {x : α}
    (h : List.Forall₂ R l m) (hx : ∀ y, l[i]? = some y → ∀ b, R y b → R x b) :
    List.Forall₂ R (l.set i x) m := by
  induction h generalizing i with
  | nil => exact .nil
  | cons hab h ih =>
    cases i with
    | zero => exact .cons (hx _ rfl _ hab) h
    | succ i => exact .cons hab (ih fun y hy ↦ hx y hy)

/-- The writer with its pending changes. -/
inductive SameWriter : WriterState WriteTx → WriterState Engine.Changes → Prop
  | absent : SameWriter .absent .absent
  | writing (tx : WriteTx) : SameWriter (.writing tx) (.writing tx.pendingChanges)
  | panicked : SameWriter .panicked .panicked

section
variable [AlloyTrie]

/-- A transaction with this context, which reads the snapshot `k`, sees the committed state. -/
structure Sees (e : StorageEngine Cells) (k : Nat) (ctx : TransactionContext) (c : CommittedState)
    (t : Trie Loc) : Prop where
  root : ctx.rootNodeHash = c.root
  version : Version e { ctx with snapshotId := k } t
  lookup : t.lookup = c.contents

/-- The committed state in the files, for new transactions and for the writer. Every page is part of
it, an orphan, or lost, as long as no commit has panicked. -/
structure Current (s : Store) (c : CommittedState) (t : Trie Loc) : Prop where
  sees : Sees s.engine s.readContext.snapshotId s.readContext c t
  writer : ∀ tx, s.writer = .writing tx → tx.context.snapshotId = s.readContext.snapshotId + 1 ∧
    tx.context.pageCount = s.readContext.pageCount ∧
    Sees s.engine s.readContext.snapshotId tx.context c t
  accounts : s.writer ≠ .panicked → Accounts (s.state s.readContext) t ∧
    s.engine.pageManager.pageCount = s.readContext.pageCount

/-- What the readers rely on: their snapshots are kept until they end. -/
structure Serves (s : Store) (a : Snapshots) : Prop where
  threshold : s.engine.aliveSnapshot ≤ s.readContext.snapshotId
  reading : ∀ ctx ∈ s.readers, s.engine.aliveSnapshot ≤ ctx.snapshotId ∧
    ctx.snapshotId ≤ s.readContext.snapshotId
  readers : List.Forall₂ (fun ctx c ↦ ∃ t, Sees s.engine ctx.snapshotId ctx c t) s.readers a.reading

/-- The store is in the state that its users see. -/
structure Refines [SlotHash] (s : Store) (a : Snapshots) : Prop extends Serves s a where
  sorted : ∃ openTxs, (s.session openTxs).Sorted
  rest : AtRest (s.readContext.snapshotId + 1) s.engine
  committed : ∃ t, Current s a.committed t
  writer : SameWriter s.writer a.writer

namespace Sees

variable {e e' : StorageEngine Cells} {k fuel : Nat} {ctx : TransactionContext} {c : CommittedState}
  {t : Trie Loc} {l : List Nat} {s' : State Cells}

private theorem keeps (h : Sees e k ctx c t) (hk : Keeps k e e') : Sees e' k ctx c t :=
  ⟨h.root, h.version.keeps hk, h.lookup⟩

/-- What `get_account` returned is the account of the state, and the location is right. -/
private theorem getAccount (h : Sees e k ctx c t) {path : Nibbles}
    (hp : path.length = addressPathLength) (hfuel : 130 ≤ fuel) {account : Option Account}
    (hrun : Engine.getAccount fuel path ⟨e, ctx, l⟩ = .ok account s') :
    account = c.contents.account path ∧ Sees e k s'.context c t := by
  obtain ⟨cache, hrun', hversion⟩ := h.version.getAccount hp hfuel ctx.snapshotId l
  rw [show Engine.getAccount fuel path ⟨e, ctx, l⟩ = _ from hrun'] at hrun
  cases hrun
  rw [h.lookup]
  exact ⟨rfl, h.root, hversion, h.lookup⟩

/-- What `get_storage` returned is the slot of the state. -/
private theorem getStorage (h : Sees e k ctx c t) {path : Nibbles}
    (hp : path.length = storagePathLength) (hfuel : 130 ≤ fuel) {value : Option U256}
    (hrun : Engine.getStorage fuel path ⟨e, ctx, l⟩ = .ok value s') :
    value = c.contents.slot path ∧ Sees e k s'.context c t := by
  have hrun' := h.version.getStorage hp hfuel ctx.snapshotId l
  rw [show Engine.getStorage fuel path ⟨e, ctx, l⟩ = _ from hrun'] at hrun
  cases hrun
  rw [h.lookup]
  exact ⟨rfl, h⟩

/-- What `get_account_with_proof` returned proves the account of the state. -/
private theorem getAccountWithProof (h : Sees e k ctx c t) {path : Nibbles}
    (hp : path.length = addressPathLength) (hfuel : 131 ≤ fuel) : ∃ proof,
      Engine.getAccountWithProof fuel path ⟨e, ctx, l⟩ = .ok proof ⟨e, ctx, l⟩ ∧
      c.ProvesAccount path proof := by
  have hp : path.length = 64 := hp
  obtain ⟨proof, hanswer, hread, hrun⟩ :=
    h.version.withProof (.inl hp) (Nat.le_of_succ_le hfuel) ctx.snapshotId l
  obtain ⟨nodes, haccount⟩ := hanswer.account (by omega)
  rw [h.lookup] at haccount
  refine ⟨proof, hrun, ⟨?_, ?_, ?_⟩⟩
  · rw [haccount]
    cases c.contents.account path <;> rfl
  · rintro p rfl
    obtain ⟨account, -, rfl⟩ := Option.map_eq_some_iff.mp haccount.symm
    rfl
  · rintro p rfl decode hstd hd
    obtain ⟨account, hfound, -⟩ := Option.map_eq_some_iff.mp haccount.symm
    have hshaped := h.version.sound.shaped
    obtain ⟨p', hread', hsame, haccept⟩ := account_verifies hstd hd clean_seen hshaped.holds
      hshaped.anchored h.version.canonical (show 64 < fuel by omega) hp
      (by rw [h.lookup]; exact hfound)
    obtain rfl := Option.some.inj (hread.unique hread')
    rw [hsame, ← h.root]
    exact haccept

/-- What `get_storage_with_proof` returned proves the slot of the state. -/
private theorem getStorageWithProof (h : Sees e k ctx c t) {path : Nibbles}
    (hp : path.length = storagePathLength) (hfuel : 131 ≤ fuel) : ∃ proof,
      Engine.getStorageWithProof fuel path ⟨e, ctx, l⟩ = .ok proof ⟨e, ctx, l⟩ ∧
      c.ProvesSlot path proof := by
  have hp : path.length = 128 := hp
  obtain ⟨proof, hanswer, hread, hrun⟩ :=
    h.version.withProof (.inr hp) (Nat.le_of_succ_le hfuel) ctx.snapshotId l
  obtain ⟨nodes, slotNodes, account, haccount, hslot⟩ := hanswer.slot hp
  simp only [Nat.reduceSub] at haccount hslot
  rw [h.lookup] at haccount hslot
  refine ⟨proof, hrun, ⟨?_, ?_, ?_⟩⟩
  · rintro rfl
    exact Option.map_eq_none_iff.mp hslot.symm
  · rintro p rfl
    obtain ⟨v, hv, rfl⟩ := Option.map_eq_some_iff.mp hslot.symm
    exact haccount (by rw [hv]; exact Option.some_ne_none v)
  · rintro p rfl
    obtain ⟨v, hv, hproof⟩ := Option.map_eq_some_iff.mp hslot.symm
    have hproofs : p.storageProofs = Function.update (fun _ ↦ none) (slotHash (path.drop 64))
        (some ⟨path.drop 64, v, slotNodes⟩) := by rw [← hproof]
    refine ⟨_, hproofs, hv, fun decode hstd hd hun ↦ ?_⟩
    have hshaped := h.version.sound.shaped
    obtain ⟨p', storageProof, hread', haccept, hstorage, hvalue, haccept'⟩ :=
      (slot_verifies_iff hstd hd clean_seen hshaped.holds hshaped.anchored h.version.canonical
        (show 130 < fuel by omega) hp (by rw [h.lookup]; exact hv)).mpr
        (hun t h.version.canonical h.lookup)
    obtain rfl := Option.some.inj (hread.unique hread')
    rw [hproofs, Function.update_self] at hstorage
    obtain rfl := Option.some.inj hstorage
    rw [← h.root]
    exact ⟨haccept, haccept'⟩

private theorem clearCache (h : Sees e k ctx c t) : Sees e k ctx.clearCache c t :=
  ⟨h.root, h.version.clearCache, h.lookup⟩

variable {r : ReadCall}

/-- A read returns what is in the state, and the transaction sees the same afterwards. -/
private theorem read (h : Sees e k ctx c t) (hr : ReadStep ⟨e, ctx, l⟩ r s') :
    c.Answers r ∧ Sees e k s'.context c t := by
  cases hr with
  | getAccount hp hfuel hrun =>
    obtain ⟨rfl, h'⟩ := h.getAccount hp hfuel hrun
    exact ⟨.getAccount hp, h'⟩
  | getStorageSlot hp hfuel hrun =>
    obtain ⟨rfl, h'⟩ := h.getStorage hp hfuel hrun
    exact ⟨.getStorageSlot hp, h'⟩
  | getAccountWithProof hp hfuel hrun =>
    obtain ⟨proof, hrun', hproves⟩ := h.getAccountWithProof hp hfuel (l := l)
    cases hrun.symm.trans hrun'
    exact ⟨.getAccountWithProof hp hproves, h⟩
  | getStorageWithProof hp hfuel hrun =>
    obtain ⟨proof, hrun', hproves⟩ := h.getStorageWithProof hp hfuel (l := l)
    cases hrun.symm.trans hrun'
    exact ⟨.getStorageWithProof hp hproves, h⟩
  | stateRoot =>
    rw [show State.context _ = ctx from rfl, h.root]
    exact ⟨.stateRoot, h⟩
  | clearCache => exact ⟨.clearCache, h.clearCache⟩

/-- Every read is answered. -/
theorem offers (h : Sees e k ctx c t) (ha : c.Answers r) (l : List Nat) :
    ∃ r' s', r.Same r' ∧ ReadStep ⟨e, ctx, l⟩ r' s' := by
  cases ha with
  | getAccount hp =>
    obtain ⟨cache, hrun, -⟩ := h.version.getAccount hp (Nat.le_refl 130) ctx.snapshotId l
    rw [h.lookup] at hrun
    exact ⟨_, _, .refl _, .getAccount hp (Nat.le_refl 130) hrun⟩
  | getStorageSlot hp =>
    have hrun := h.version.getStorage hp (Nat.le_refl 130) ctx.snapshotId l
    rw [h.lookup] at hrun
    exact ⟨_, _, .refl _, .getStorageSlot hp (Nat.le_refl 130) hrun⟩
  | getAccountWithProof hp =>
    obtain ⟨proof, hrun, -⟩ := h.getAccountWithProof hp (Nat.le_refl 131) (l := l)
    exact ⟨_, _, .account _ _ proof, .getAccountWithProof hp (Nat.le_refl 131) hrun⟩
  | getStorageWithProof hp =>
    obtain ⟨proof, hrun, -⟩ := h.getStorageWithProof hp (Nat.le_refl 131) (l := l)
    exact ⟨_, _, .slot _ _ proof, .getStorageWithProof hp (Nat.le_refl 131) hrun⟩
  | stateRoot =>
    rw [← h.root]
    exact ⟨_, _, .refl _, .stateRoot⟩
  | clearCache => exact ⟨_, _, .refl _, .clearCache⟩

end Sees

/-! ### Readers -/

namespace Serves

variable {s s' : Store} {a : Snapshots} {e : Event}

/-- A reader sees the state that its users see in it. -/
private theorem view (h : Serves s a) {i : Nat} {ctx : TransactionContext}
    (hctx : s.context (.reader i) = some ctx) :
    ∃ c t, a.view (.reader i) = some c ∧ Sees s.engine ctx.snapshotId ctx c t := by
  obtain ⟨hi, rfl⟩ := List.getElem?_eq_some_iff.mp (show s.readers[i]? = some ctx from hctx)
  have hi' : i < a.reading.length := by rwa [← h.readers.length_eq]
  obtain ⟨t, ht⟩ := h.readers.get hi hi'
  exact ⟨a.reading[i], t, List.getElem?_eq_getElem hi', ht⟩

/-- A call of a reader that at most remembers locations. -/
private theorem relocate (h : Serves s a) {i : Nat} {ctx : TransactionContext} {t : State Cells}
    (hctx : s.context (.reader i) = some ctx) (hrel : Relocates (s.state ctx) t)
    (hsees : ∀ c u, Sees s.engine ctx.snapshotId ctx c u →
      Sees s.engine ctx.snapshotId t.context c u) :
    s.update t (.reader i) = { s with readers := s.readers.set i t.context } ∧
      Serves { s with readers := s.readers.set i t.context } a := by
  obtain ⟨cache, rfl⟩ := hrel
  have hi : s.readers[i]? = some ctx := hctx
  refine ⟨rfl, h.threshold, fun ctx' hmem ↦ ?_, forall₂_set h.readers fun y hy b hb ↦ ?_⟩
  · rcases List.mem_or_eq_of_mem_set hmem with hmem | rfl
    · exact h.reading ctx' hmem
    · exact h.reading ctx (List.mem_of_getElem? hi)
  · rw [hi] at hy
    cases hy
    obtain ⟨v, hv⟩ := hb
    exact ⟨v, hsees b v hv⟩

/-- Readers begin, read and end on their own. -/
private theorem step [SlotHash] (h : Serves s a)
    (hlatest : ∃ t, Sees s.engine s.readContext.snapshotId s.readContext a.committed t)
    (hwriter : s.transactionManager.hasWriter = true → a.writer ≠ .absent) (hs : Step s e s')
    (he : e.OfReader) : ∃ reading,
      Snapshots.Step a e { a with reading := reading } ∧
      Serves s' { a with reading := reading } := by
  cases hs with
  | beginRo =>
    refine ⟨_, .beginRo a, h.threshold, fun ctx hctx ↦ ?_, .cons hlatest h.readers⟩
    rcases List.mem_cons.mp hctx with rfl | hctx
    · exact ⟨h.threshold, Nat.le_refl _⟩
    · exact h.reading ctx hctx
  | @commitRo i ctx m hi hm =>
    have hi' : i < a.reading.length := by
      rw [← h.readers.length_eq]
      exact (List.getElem?_eq_some_iff.mp hi).1
    refine ⟨_, .commitRo hi', h.threshold,
      fun ctx hctx ↦ h.reading ctx (List.mem_of_mem_eraseIdx hctx), ?_⟩
    simp only [List.eraseIdx_eq_take_drop_succ]
    exact List.rel_append (List.forall₂_take i h.readers) (List.forall₂_drop (i + 1) h.readers)
  | @read tx ctx r t hctx hr =>
    cases tx with
    | writer => exact he.elim
    | reader i =>
      obtain ⟨c, u, hview, hsees⟩ := h.view hctx
      obtain ⟨hs', hserves⟩ := h.relocate hctx hr.relocates fun c u hsees ↦ (hsees.read hr).2
      rw [hs']
      exact ⟨_, .read hview (hsees.read hr).1, hserves⟩
  | refuseRw hm =>
    exact ⟨_, .refuseRw (hwriter (TransactionManager.beginRw_eq_none hm)), h⟩
  | beginRw => cases he
  | setAccount => exact he.elim
  | setStorageSlot => exact he.elim
  | commit => exact he.elim
  | panic => exact he.elim
  | rollback => exact he.elim
  | reopen => exact he.elim

/-- Readers see the same states on an engine that keeps their snapshots. -/
private theorem keeps (h : Serves s a) {e : StorageEngine Cells}
    (hk : ∀ ctx ∈ s.readers, Keeps ctx.snapshotId s.engine e) :
    List.Forall₂ (fun ctx c ↦ ∃ t, Sees e ctx.snapshotId ctx c t) s.readers a.reading := by
  refine ((List.forall₂_and_left s.readers a.reading).mpr ⟨hk, h.readers⟩).imp ?_
  rintro ctx c ⟨hctx, t, ht⟩
  exact ⟨t, ht.keeps hctx⟩

end Serves

/-! ### A write under way -/

section
variable [SlotHash]

/-- What holds at a moment of a write, with the pages held: the readers are served, new ones too. -/
structure Working (s : Store) (held : List Nat) (t : State Cells) (a : Snapshots) : Prop
    extends Serves s a where
  moment : s.amid t = s
  sorted : ∃ openTxs b, (s.working openTxs b t.context).Sorted
  latest : ∃ u, Sees s.engine s.readContext.snapshotId s.readContext a.committed u
  begun : ∃ s₀, Trace false ([], s₀) (held, t) ∧
    s₀.context.snapshotId = s.readContext.snapshotId + 1 ∧
    s₀.engine.aliveSnapshot = s.engine.aliveSnapshot ∧ s₀.engine.metaManager.RangeWF ∧
    AtRest (s.readContext.snapshotId + 1) s₀.engine

namespace Working

variable {s s' : Store} {a : Snapshots} {held held' : List Nat} {t t' : State Cells} {e : Event}

private theorem engine_eq (h : Working s held t a) : t.engine = s.engine :=
  congrArg Store.engine h.moment

private theorem lostPages_eq (h : Working s held t a) : t.strayPages = s.lostPages :=
  congrArg Store.lostPages h.moment

/-- Snapshots that are read are spared. -/
private theorem spares (h : Working s held t a) : ∃ s₀, Trace false ([], s₀) (held, t) ∧
    s₀.context.snapshotId = s.readContext.snapshotId + 1 ∧
    s₀.engine.aliveSnapshot = s.engine.aliveSnapshot ∧ s₀.engine.metaManager.RangeWF ∧
    AtRest (s.readContext.snapshotId + 1) s₀.engine ∧
    ∀ k ≤ s.readContext.snapshotId, s.engine.aliveSnapshot ≤ k →
      k < s₀.context.snapshotId ∧ s₀.engine.aliveSnapshot ≤ k ∧ Spares k s₀ held t := by
  obtain ⟨s₀, htrace, hid, halive, hrange, hrest⟩ := h.begun
  refine ⟨s₀, htrace, hid, halive, hrange, hrest, fun k hk ha ↦ ?_⟩
  have hlt : k < s₀.context.snapshotId := by omega
  have hle : s₀.engine.aliveSnapshot ≤ k := by omega
  exact ⟨hlt, hle, spares_trace htrace hrange hlt hle⟩

private theorem next (h : Working s held t a) :
    t.context.snapshotId = s.readContext.snapshotId + 1 := by
  obtain ⟨s₀, -, hid, -, -, -, hspares⟩ := h.spares
  rw [← hid]
  exact (hspares _ (Nat.le_refl _) h.threshold).2.2.frame.snapshotId

/-- The next action keeps all snapshots that are read. -/
theorem act (h : Working s held t a) (ha : Action false (held, t) (held', t')) :
    Working (s.amid t') held' t' a := by
  obtain ⟨s₀, htrace, hid, halive, hrange, hrest, hspares⟩ := h.spares
  have hkeeps (k : Nat) (hk : k ≤ s.readContext.snapshotId) (hle : s.engine.aliveSnapshot ≤ k) :
      t'.engine.aliveSnapshot = s.engine.aliveSnapshot ∧
        t'.engine.metaManager.active = s.engine.metaManager.active ∧
        Keeps k s.engine t'.engine := by
    obtain ⟨hlt, hle', hspare⟩ := hspares k hk hle
    rw [← h.engine_eq]
    exact hspare.keeps_action hlt hle' ha
  obtain ⟨halive', hactive, hkeeps'⟩ := hkeeps _ (Nat.le_refl _) h.threshold
  have hread : (s.amid t').readContext = s.readContext := by
    rw [readContext, amid, hactive, readContext]
  have hsorted := h.sorted
  rw [← h.moment] at hsorted
  obtain ⟨openTxs, b, hsorted⟩ := hsorted
  obtain ⟨u, hu⟩ := h.latest
  constructor
  case toServes =>
    refine ⟨?_, ?_, h.keeps fun ctx hctx ↦ ?_⟩
    · rw [hread]
      exact halive'.trans_le h.threshold
    · rw [hread]
      intro ctx hctx
      exact ⟨halive'.trans_le (h.reading ctx hctx).1, (h.reading ctx hctx).2⟩
    · exact (hkeeps _ (h.reading ctx hctx).2 (h.reading ctx hctx).1).2.2
  case moment => rfl
  case sorted => exact ⟨openTxs, true, sorted_action hsorted ha⟩
  case latest =>
    rw [hread]
    exact ⟨u, hu.keeps hkeeps'⟩
  case begun =>
    rw [hread]
    exact ⟨s₀, htrace.trans (.one ha), hid, halive.trans halive'.symm, hrange, hrest⟩

/-- The actions of a write keep what holds amid a commit. -/
theorem trace (h : Working s held t a) (ht : Trace false (held, t) (held', t')) :
    Working (s.amid t') held' t' a := by
  have hrun := ht.invariant (P := fun x ↦ Working (s.amid x.2) x.1 x.2 a)
    (by rw [h.moment]; exact h) fun x y hact hx ↦ hx.act hact
  exact hrun

/-- Readers go on. -/
theorem reader (h : Working s held t a) (hw : a.writer ≠ .absent) (hs : Store.Step s e s')
    (he : e.OfReader) : ∃ reading, Snapshots.Step a e { a with reading := reading } ∧
      Working s' held t { a with reading := reading } := by
  obtain ⟨reading, hstep, hserves⟩ := h.toServes.step h.latest (fun _ ↦ hw) hs he
  obtain ⟨openTxs, b, hsorted⟩ := h.sorted
  have hsorted' : ∃ openTxs b, (s'.working openTxs b t.context).Sorted := by
    refine ⟨openTxs, b, ?_⟩
    rcases calls_reader hs he (some ⟨t.context.clearCache, openTxs, b⟩) with hsame | hcall
    · rw [working, hsame]
      exact hsorted
    · exact hsorted.step hcall
  have hmoment := h.moment
  have hlatest := h.latest
  have hbegun := h.begun
  obtain ⟨m, readers, rfl⟩ := frame_reader hs he
  refine ⟨reading, hstep, hserves, ?_, hsorted', hlatest, hbegun⟩
  rw [amid, h.engine_eq, h.lostPages_eq]

end Working

end

/-! ### The end of a write -/

section
variable [SlotHash] {s : Store} {a : Snapshots} {t : State Cells}

omit [AlloyTrie] in
/-- The locations that the writer remembers are not committed. -/
private theorem session_finish (s : Store) (t : State Cells) (m : TransactionManager)
    (openTxs : List Nat) : (s.finish t m).session openTxs =
      { (s.amid t).working openTxs true t.context with
        engine := { t.engine with
          metaManager := commitMetadata t.engine.metaManager t.context.clearCache }
        transactionManager := m
        writer := none } := by
  have hmeta : t.context.clearCache.updateMetadata = t.context.updateMetadata := rfl
  simp only [commitMetadata, hmeta]
  rfl

/-- The metadata that is committed is the context. -/
private theorem readContext_finish (s : Store) (m : TransactionManager) {c : CommittedState}
    {t' : Trie Loc} (h : Made t c t') : (s.finish t m).readContext = t.context.clearCache := by
  have hroot : Anchored t t' := by
    have := h.version.sound.shaped.anchored
    cases t' <;> exact this
  rw [readContext, finish, MetadataManager.new_active_commitMetadata, h.accounts.rootOfRaw hroot]
  rfl

/-- What the writer has made becomes the committed state. -/
theorem Working.finish (h : Working s [] t a) {m : TransactionManager}
    (hm : s.transactionManager.removeTx t.context.snapshotId true = some m) {c : CommittedState}
    {t' : Trie Loc} (ht : Made t c t') :
    Refines (s.finish t m) { a with committed := c, writer := .absent } := by
  obtain ⟨openTxs, b, hsorted⟩ := h.sorted
  have hread := readContext_finish s m ht
  have hlast : (s.finish t m).readContext.snapshotId = s.readContext.snapshotId + 1 := by
    rw [hread]
    exact h.next
  have hidle : Idle (start t.engine.metaManager) := by
    rw [h.engine_eq]
    exact hsorted.idle
  have horphans : (s.finish t m).engine.metaManager.orphanPages =
      t.engine.metaManager.orphanPages := orphanPages_commitMetadata hidle t.context
  have hsorted' : ((s.finish t m).session openTxs).Sorted := by
    rw [session_finish, h.moment, h.engine_eq]
    exact hsorted.step (.commit (w := ⟨t.context.clearCache, openTxs, b⟩) rfl hm)
  have hkeeps (k : Nat) : Keeps k t.engine (s.finish t m).engine :=
    .of_same rfl (Nat.le_refl _) horphans hsorted'.range
  have halive : t.engine.aliveSnapshot = s.engine.aliveSnapshot := by rw [h.engine_eq]
  constructor
  case toServes =>
    refine ⟨?_, ?_, ?_⟩
    · rw [hlast]
      exact (halive.trans_le h.threshold).trans (Nat.le_succ _)
    · rw [hlast]
      intro ctx hctx
      obtain ⟨hlow, hhigh⟩ := h.reading ctx hctx
      exact ⟨halive.trans_le hlow, hhigh.trans (Nat.le_succ _)⟩
    · refine h.keeps fun ctx _ ↦ ?_
      rw [← h.engine_eq]
      exact hkeeps _
  case sorted => exact ⟨openTxs, hsorted'⟩
  case rest =>
    rw [hlast, ← h.next]
    exact fun q ↦ ⟨(ht.rest q).1, (ht.rest q).2.trans (Nat.le_succ _)⟩
  case committed =>
    refine ⟨t', ?_, fun tx htx ↦ (by cases htx), fun _ ↦ ?_⟩
    · rw [hread]
      exact ⟨ht.root, ht.version.keeps (hkeeps _), ht.lookup⟩
    · rw [hread]
      exact ⟨ht.accounts.congr horphans rfl rfl, ht.count⟩
  case writer => exact .absent

/-- A write that failed leaves all snapshots alone. -/
theorem Working.fail (h : Working s [] t a) :
    Refines (s.fail t) { a with writer := .panicked } := by
  obtain ⟨openTxs, b, hsorted⟩ := h.sorted
  obtain ⟨s₀, htrace, hid, -, -, hrest, -⟩ := h.spares
  have hfail : s.fail t = { s with writer := .panicked } := by
    rw [Store.fail, h.engine_eq, h.lostPages_eq]
  rw [hfail]
  constructor
  case toServes => exact ⟨h.threshold, h.reading, h.readers⟩
  case sorted =>
    refine ⟨openTxs, hsorted.work s.engine.pageManager rfl ?_ hsorted.idle rfl rfl
      hsorted.ascending hsorted.bounds⟩
    exact (hsorted.context _ rfl).symm
  case rest =>
    show AtRest (s.readContext.snapshotId + 1) s.engine
    have hrest' := hrest.trace htrace (Nat.le_of_eq hid)
    rwa [h.engine_eq] at hrest'
  case committed =>
    obtain ⟨u, hu⟩ := h.latest
    exact ⟨u, hu, fun tx htx ↦ (by cases htx), fun hne ↦ absurd rfl hne⟩
  case writer => exact .panicked

end

/-! ### Every call -/

namespace Refines

variable [SlotHash] {s s' : Store} {a : Snapshots} {e : Event}

/-- Recycling sees every call but commits and panics as a call of its own. -/
private theorem sorted_step (h : Refines s a) (hs : Step s e s') (he : e ≠ .commit)
    (he' : e ≠ .panic) : ∃ openTxs, (s'.session openTxs).Sorted := by
  obtain ⟨openTxs, hsorted⟩ := h.sorted
  obtain ⟨openTxs', hsame | hcall⟩ := calls_step hs he he' openTxs
  · exact ⟨openTxs', by rwa [hsame]⟩
  · exact ⟨openTxs', hsorted.step hcall⟩

/-- The writer has the pending changes of the snapshots. -/
theorem writer_eq (h : Refines s a) {tx : WriteTx} (hw : s.writer = .writing tx) :
    a.writer = .writing tx.pendingChanges := by
  have hsame := h.writer
  rw [hw] at hsame
  generalize a.writer = w at hsame ⊢
  cases hsame
  rfl

/-- The writer has panicked in both or in neither. -/
theorem panicked_iff (h : Refines s a) : s.writer = .panicked ↔ a.writer = .panicked := by
  have hsame := h.writer
  generalize s.writer = w, a.writer = w' at hsame ⊢
  cases hsame <;> simp

/-- The transaction manager has a writer until it is removed. -/
theorem hasWriter (h : Refines s a) :
    s.transactionManager.hasWriter = true ↔ a.writer ≠ .absent := by
  obtain ⟨openTxs, hsorted⟩ := h.sorted
  have hflag : s.transactionManager.hasWriter = (s.session openTxs).writer.isSome :=
    hsorted.hasWriter
  have hsame := h.writer
  rw [hflag, session, sessionWith, waiting]
  generalize s.writer = w, a.writer = w' at hsame ⊢
  cases hsame <;> simp

/-- The writer sees the committed state. -/
private theorem view_writer (h : Refines s a) {ctx : TransactionContext}
    (hctx : s.context .writer = some ctx) : ∃ tx t, s.writer = .writing tx ∧ tx.context = ctx ∧
      a.view .writer = some a.committed ∧
      Sees s.engine s.readContext.snapshotId ctx a.committed t := by
  obtain ⟨t, ht⟩ := h.committed
  cases hw : s.writer with
  | writing tx =>
    simp only [context, hw, Option.some.injEq] at hctx
    subst hctx
    exact ⟨tx, t, rfl, rfl, by simp only [Snapshots.view, h.writer_eq hw], (ht.writer tx hw).2.2⟩
  | absent => simp [context, hw] at hctx
  | panicked => simp [context, hw] at hctx

/-- A call of the writer that at most remembers locations. -/
private theorem relocate (h : Refines s a) {ctx : TransactionContext} {t : State Cells}
    (hctx : s.context .writer = some ctx) (hrel : Relocates (s.state ctx) t)
    (hsees : ∀ k c u, Sees s.engine k ctx c u → Sees s.engine k t.context c u) :
    Refines (s.update t .writer) a := by
  obtain ⟨tx, -, hw, rfl, -⟩ := h.view_writer hctx
  obtain ⟨openTxs, hsorted⟩ := h.sorted
  have hsession : (s.update t .writer).session openTxs = s.session openTxs := by
    obtain ⟨hwith, hwaiting⟩ := session_update hctx hrel
    rw [session, hwith, hwaiting, session]
  rw [← hsession] at hsorted
  obtain ⟨u, hu⟩ := h.committed
  obtain ⟨cache, rfl⟩ := hrel
  obtain ⟨hid, hcount, hsees'⟩ := hu.writer tx hw
  refine ⟨⟨h.threshold, h.reading, h.readers⟩, ⟨openTxs, hsorted⟩, h.rest, ⟨u, hu.sees, ?_, ?_⟩, ?_⟩
  · intro tx' htx'
    rw [writer_update hw] at htx'
    cases htx'
    exact ⟨hid, hcount, hsees _ _ u hsees'⟩
  · intro _
    exact hu.accounts (by simp [hw])
  · rw [writer_update hw, h.writer_eq hw]
    exact .writing _

/-- Readers begin, read and end beside the writer. -/
private theorem reader (h : Refines s a) (hs : Store.Step s e s') (he : e.OfReader) :
    ∃ a', Snapshots.Step a e a' ∧ Refines s' a' := by
  obtain ⟨t, ht⟩ := h.committed
  have hsorted := h.sorted_step hs he.ne.1 he.ne.2
  obtain ⟨reading, hstep, hserves⟩ := h.toServes.step ⟨t, ht.sees⟩ h.hasWriter.mp hs he
  have hrest := h.rest
  have hwriter := h.writer
  obtain ⟨m, readers, rfl⟩ := frame_reader hs he
  exact ⟨_, hstep, hserves, hsorted, hrest, ⟨t, ht.sees, ht.writer, ht.accounts⟩, hwriter⟩

private theorem range (h : Refines s a) : s.engine.metaManager.RangeWF := by
  obtain ⟨openTxs, hsorted⟩ := h.sorted
  exact hsorted.range

/-- The context of a new writer is that of a reader but for its snapshot. -/
private theorem writeContext_eq (h : Refines s a) (hw : s.writer ≠ .panicked) :
    s.writeContext = { s.readContext with snapshotId := s.readContext.snapshotId + 1 } := by
  obtain ⟨openTxs, hsorted⟩ := h.sorted
  have hdirty := (hsorted.settled (not_working hw openTxs)).dirty
  rw [writeContext, show s.engine.metaManager.dirty = _ from hdirty]
  rfl

private theorem beginRw (h : Refines s a) (hw : s.writer ≠ .panicked) (m : TransactionManager)
    {alive : Nat} (hsorted : ∃ openTxs, (session { s with
      engine := { s.engine with aliveSnapshot := alive }
      transactionManager := m
      writer := .writing ⟨s.writeContext, []⟩ } openTxs).Sorted)
    (hle : alive ≤ s.readContext.snapshotId)
    (hreaders : ∀ ctx ∈ s.readers, alive ≤ ctx.snapshotId) :
    Refines { s with
      engine := { s.engine with aliveSnapshot := alive }
      transactionManager := m
      writer := .writing ⟨s.writeContext, []⟩ } { a with writer := .writing [] } := by
  obtain ⟨t, ht⟩ := h.committed
  have hkeeps (k : Nat) : Keeps k s.engine { s.engine with aliveSnapshot := alive } :=
    .of_same rfl (Nat.le_refl _) rfl h.range
  refine ⟨⟨hle, fun ctx hctx ↦ ⟨hreaders ctx hctx, (h.reading ctx hctx).2⟩,
    h.keeps fun _ _ ↦ hkeeps _⟩, hsorted, h.rest,
    ⟨t, ht.sees.keeps (hkeeps _), ?_, fun _ ↦ ht.accounts hw⟩, .writing _⟩
  intro tx htx
  cases htx
  have hsees := ht.sees.keeps (hkeeps s.readContext.snapshotId)
  have hctx := h.writeContext_eq hw
  refine ⟨by rw [hctx]; rfl, by rw [hctx]; rfl, ?_⟩
  rw [hctx]
  exact ⟨hsees.root, hsees.version, hsees.lookup⟩

/-- The pending changes have no effect yet. -/
private theorem insert (h : Refines s a) {tx : WriteTx} (hw : s.writer = .writing tx) (c : Change)
    (hsorted : ∃ openTxs, (session { s with
      writer := .writing { tx with
        pendingChanges := tx.pendingChanges.insert c } } openTxs).Sorted) :
    Refines { s with writer := .writing { tx with pendingChanges := tx.pendingChanges.insert c } }
      { a with writer := .writing (tx.pendingChanges.insert c) } := by
  obtain ⟨t, ht⟩ := h.committed
  refine ⟨⟨h.threshold, h.reading, h.readers⟩, hsorted, h.rest, ⟨t, ht.sees, ?_, fun _ ↦ ?_⟩,
    .writing _⟩
  · intro tx' htx'
    cases htx'
    exact ht.writer tx hw
  · exact ht.accounts (by simp [hw])

private theorem rollback (h : Refines s a) {tx : WriteTx} (hw : s.writer = .writing tx)
    (m : TransactionManager)
    (hsorted : ∃ openTxs, (session { s with
      transactionManager := m
      writer := .absent } openTxs).Sorted) :
    Refines { s with transactionManager := m, writer := .absent } { a with writer := .absent } := by
  obtain ⟨t, ht⟩ := h.committed
  refine ⟨⟨h.threshold, h.reading, h.readers⟩, hsorted, h.rest, ⟨t, ht.sees, ?_, fun _ ↦ ?_⟩,
    .absent⟩
  · intro tx htx
    cases htx
  · exact ht.accounts (by simp [hw])

/-- The state that a writer starts from. -/
private theorem begun (h : Refines s a) {t : Trie Loc} (ht : Current s a.committed t) {tx : WriteTx}
    (hw : s.writer = .writing tx) : Begun (s.state tx.context) s.readContext.snapshotId t := by
  obtain ⟨hid, -, hsees⟩ := ht.writer tx hw
  obtain ⟨hacc, -⟩ := ht.accounts (by simp [hw])
  exact ⟨hid, h.threshold, hsees.version, hacc, h.rest⟩

/-- A write begins. -/
theorem working (h : Refines s a) {tx : WriteTx} (hw : s.writer = .writing tx) :
    Working s [] (s.state tx.context) a := by
  obtain ⟨openTxs, hsorted⟩ := h.sorted
  obtain ⟨t, ht⟩ := h.committed
  refine ⟨h.toServes, rfl, ⟨openTxs, false, ?_⟩, ⟨t, ht.sees⟩, s.state tx.context, .refl,
    (ht.writer tx hw).1, rfl, hsorted.range, h.rest⟩
  rw [session, waiting, hw] at hsorted
  exact hsorted

/-- What the writes of a commit make, in whatever order the changes are drained. -/
theorem made (h : Refines s a) {tx : WriteTx} (hw : s.writer = .writing tx) {fuel : Nat}
    {changes : Engine.Changes} {t : State Cells} (hok : Snapshots.Orderly a .commit)
    (hperm : tx.pendingChanges.Perm changes)
    (hrun : WriteTx.write fuel changes (s.state tx.context) = .ok () t) :
    ∃ t', Made t (a.committed.update tx.pendingChanges) t' := by
  obtain ⟨u, hu⟩ := h.committed
  obtain ⟨-, hcount, hsees⟩ := hu.writer tx hw
  obtain ⟨-, hsize⟩ := hu.accounts (by simp [hw])
  have hbatch : changes ≠ [] → Admissible a.committed.contents changes ∧
      a.committed.contents.NoneIdle changes := by
    intro hne
    have hne' : tx.pendingChanges ≠ [] := fun he ↦ hne (List.nil_perm.mp (he ▸ hperm))
    obtain ⟨hadm, hidle⟩ := hok rfl _ (h.writer_eq hw) hne'
    exact ⟨hadm.perm hperm, fun d hd ↦ hidle d (hperm.mem_iff.mpr hd)⟩
  rw [update_perm hperm fun hne ↦ (hbatch hne).1]
  exact write_spec (h.begun hu hw) hsees.root hsees.lookup (hsize.trans hcount.symm) hbatch hrun

/-- A commit makes what the writer has written the committed state. -/
private theorem commit (h : Refines s a) {tx : WriteTx} (hw : s.writer = .writing tx) {fuel : Nat}
    {changes : Engine.Changes} {t : State Cells} {m : TransactionManager}
    (hok : Snapshots.Orderly a .commit) (hperm : tx.pendingChanges.Perm changes)
    (hrun : WriteTx.write fuel changes (s.state tx.context) = .ok () t)
    (hm : s.transactionManager.removeTx t.context.snapshotId true = some m) :
    Refines (s.finish t m)
      { a with committed := a.committed.update tx.pendingChanges, writer := .absent } := by
  obtain ⟨t', ht'⟩ := h.made hw hok hperm hrun
  have htrace := (acts_write fuel changes (s.state tx.context)).ok hrun
  exact ((h.working hw).trace htrace.allow_refusals).finish hm ht'

/-- A commit that panics leaves all snapshots alone. -/
private theorem panic (h : Refines s a) {tx : WriteTx} (hw : s.writer = .writing tx) {fuel : Nat}
    {changes : Engine.Changes} {t : State Cells} {err : Error}
    (hrun : WriteTx.write fuel changes (s.state tx.context) = .error err t) :
    Refines (s.fail t) { a with writer := .panicked } := by
  have htrace := (acts_write fuel changes (s.state tx.context)).error hrun
  exact ((h.working hw).trace htrace.allow_refusals).fail

/-- The committed trie is a version of its own snapshot and of the next one. -/
private theorem sees_next (h : Refines s a) (hw : s.writer ≠ .panicked) {t : Trie Loc}
    (ht : Current s a.committed t) :
    Sees s.engine (s.readContext.snapshotId + 1)
      { s.readContext with snapshotId := s.readContext.snapshotId + 1 } a.committed t := by
  obtain ⟨hacc, -⟩ := ht.accounts hw
  have hbegun : Begun
      (s.state { s.readContext with snapshotId := s.readContext.snapshotId + 1 })
      s.readContext.snapshotId t :=
    ⟨rfl, h.threshold, ht.sees.version, hacc, h.rest⟩
  exact ⟨ht.sees.root,
    Version.of_shaped hbegun.shaped ht.sees.version.canonical hacc h.rest, ht.sees.lookup⟩

/-- A reopened database is in the committed state. -/
private theorem reopen (h : Refines s a) (hw : s.writer ≠ .panicked) {m : MetadataManager}
    (hm : MetadataManager.fromFile s.engine.metaManager.file = .ok m)
    (hsorted : ∃ openTxs, ((opened s.engine.pageManager m s.lostPages).session openTxs).Sorted) :
    Refines (.opened s.engine.pageManager m s.lostPages) (.opened a.committed) := by
  obtain ⟨openTxs, hold⟩ := h.sorted
  have hsettled := hold.settled (not_working hw openTxs)
  obtain ⟨m', hm', -, horphans, -⟩ := hsettled.reopen
  cases hm.symm.trans hm'
  obtain ⟨t, ht⟩ := h.committed
  obtain ⟨hacc, hcount⟩ := ht.accounts hw
  -- the snapshot is the last one or the next
  have hread : ∃ k, (k = s.readContext.snapshotId ∨ k = s.readContext.snapshotId + 1) ∧
      (opened s.engine.pageManager m s.lostPages).readContext =
        { s.readContext with snapshotId := k } := by
    rcases hsettled.active_reopen hm with hsame | hinc
    · refine ⟨_, .inl rfl, ?_⟩
      rw [readContext, show (opened _ m _).engine.metaManager = m from rfl, hsame]
      rfl
    · refine ⟨_, .inr rfl, ?_⟩
      rw [readContext, show (opened _ m _).engine.metaManager = m from rfl, hinc]
      rfl
  obtain ⟨k, hk, hread⟩ := hread
  have hsees : Sees s.engine k { s.readContext with snapshotId := k } a.committed t := by
    rcases hk with rfl | rfl
    · exact ht.sees
    · exact h.sees_next hw ht
  have hpages : m.active.slot.pageCount = s.engine.pageManager.pageCount := by
    rw [hcount]
    exact congrArg TransactionContext.pageCount hread
  have hkeeps : Keeps k s.engine (opened s.engine.pageManager m s.lostPages).engine := by
    obtain ⟨openTxs, hnew⟩ := hsorted
    exact .of_same rfl hpages.ge horphans hnew.range
  constructor
  case sorted => exact hsorted
  case rest =>
    rw [hread]
    refine fun q ↦ ⟨(h.rest q).1, (h.rest q).2.trans ?_⟩
    show s.readContext.snapshotId + 1 ≤ k + 1
    omega
  case toServes => exact ⟨Nat.le_refl _, fun ctx hctx ↦ (by cases hctx), .nil⟩
  case committed =>
    refine ⟨t, ?_, fun tx htx ↦ (by cases htx), fun _ ↦ ?_⟩
    · rw [hread]
      exact hsees.keeps hkeeps
    · rw [hread]
      exact ⟨hacc.congr horphans hpages rfl, hpages.trans hcount⟩
  case writer => exact .absent

/-- A new database is empty. -/
theorem created (capacity : Nat) : Refines (created capacity) (.opened .empty) := by
  have horphans : Meta.opened.orphanPages = [] := by decide
  have hsorted : ((Store.created capacity).session []).Sorted :=
    .of_new ⟨fun _ ↦ ⟨.unused, []⟩, 0, capacity⟩ Meta.fromFile_new
  have hready : Ready (seen (Store.created capacity).engine
      (Store.created capacity).readContext) := by
    refine ⟨hsorted.range, Nat.lt_succ_self _, ?_, fun o ho ↦ ?_⟩
    · rw [orphans, show (seen _ _).engine.metaManager = Meta.opened from rfl, horphans]
      exact List.nodup_nil
    · rw [orphans, show (seen _ _).engine.metaManager = Meta.opened from rfl, horphans] at ho
      cases ho
  constructor
  case sorted => exact ⟨[], hsorted⟩
  case rest => exact fun q ↦ ⟨rfl, Nat.zero_le _⟩
  case toServes => exact ⟨Nat.le_refl _, fun ctx hctx ↦ (by cases hctx), .nil⟩
  case committed =>
    refine ⟨.empty, ⟨rfl, ⟨⟨shaped_empty hready rfl, clean_seen, fun a c hc ↦ ?_⟩, .empty⟩, rfl⟩,
      fun tx htx ↦ (by cases htx), fun _ ↦ ⟨fun q ↦ ?_, rfl⟩⟩
    · cases hc
    · have hnone : orphanCount ((Store.created capacity).state
          (Store.created capacity).readContext) q = 0 := by
        rw [orphanCount, orphans, show State.engine _ = (Store.created capacity).engine from rfl,
          show StorageEngine.metaManager _ = Meta.opened from rfl, horphans]
        rfl
      rw [hnone]
      show 0 = if 0 < q ∧ q ≤ 0 then 1 else 0
      rw [if_neg (by omega)]
  case writer => exact .absent

/-- Every call does to the store what its users see. -/
theorem step (h : Refines s a) (hok : Snapshots.Orderly a e) (hs : Store.Step s e s') :
    ∃ a', Snapshots.Step a e a' ∧ Refines s' a' := by
  by_cases hreader : e.OfReader
  · exact h.reader hs hreader
  cases hs with
  | beginRo => exact absurd trivial hreader
  | commitRo => exact absurd trivial hreader
  | @read tx ctx r t hctx hr =>
    cases tx with
    | reader i => exact absurd trivial hreader
    | writer =>
      obtain ⟨-, u, -, -, hview, hsees⟩ := h.view_writer hctx
      exact ⟨a, .read hview (hsees.read hr).1,
        h.relocate hctx hr.relocates fun k c u hsees ↦ (hsees.read hr).2⟩
  | @beginRw low m hm =>
    obtain ⟨openTxs, hsorted⟩ := h.sorted
    obtain ⟨hlow, -, -, -, hle⟩ := hsorted.threshold_beginRw rfl hm
    have hlow : (if 0 < low then low - 1 + 1 else s.engine.aliveSnapshot) = low := hlow
    obtain ⟨hflag, -⟩ := TransactionManager.beginRw_eq_some hm
    have hw : a.writer = .absent := by
      by_contra hne
      have htrue := h.hasWriter.mpr hne
      rw [hflag] at htrue
      cases htrue
    have hw' : s.writer ≠ .panicked := by
      rw [ne_eq, h.panicked_iff, hw]
      simp
    have hnext : s.writeContext.snapshotId - 1 = s.readContext.snapshotId := by
      rw [h.writeContext_eq hw']
      rfl
    refine ⟨_, .beginRw hw, h.beginRw hw' m (h.sorted_step (.beginRw hm) (by simp) (by simp)) ?_ ?_⟩
    · rw [hlow, ← hnext]
      exact hle _ (List.mem_append_right _ (List.mem_singleton.mpr rfl))
    · intro ctx hctx
      rw [hlow]
      refine hle _ (List.mem_append_left _ ?_)
      rw [session, sessionWith, List.map_map]
      exact List.mem_map.mpr ⟨ctx, hctx, rfl⟩
  | refuseRw => exact absurd rfl hreader
  | setAccount account hw hp =>
    exact ⟨_, .setAccount account (h.writer_eq hw) hp,
      h.insert hw _ (h.sorted_step (.setAccount account hw hp) (by simp) (by simp))⟩
  | setStorageSlot value hw hp =>
    exact ⟨_, .setStorageSlot value (h.writer_eq hw) hp,
      h.insert hw _ (h.sorted_step (.setStorageSlot value hw hp) (by simp) (by simp))⟩
  | commit hw hperm hrun hm =>
    exact ⟨_, .commit (h.writer_eq hw), h.commit hw hok hperm hrun hm⟩
  | panic hw hperm hrun =>
    exact ⟨_, .panic (h.writer_eq hw), h.panic hw hrun⟩
  | rollback hw hm =>
    exact ⟨_, .rollback (h.writer_eq hw),
      h.rollback hw _ (h.sorted_step (.rollback hw hm) (by simp) (by simp))⟩
  | reopen hw hm =>
    have hw' : a.writer ≠ .panicked := by rwa [ne_eq, ← h.panicked_iff]
    exact ⟨_, .reopen hw', h.reopen hw hm (h.sorted_step (.reopen hw hm) (by simp) (by simp))⟩

end Refines

end

end Store

end TrieDb

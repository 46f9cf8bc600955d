import TrieDb.Base.EState
import TrieDb.Context
import TrieDb.Node
import TrieDb.Page.Manager

/-!
# Page operations of the storage engine

`src/storage/engine/engine.rs` and `src/storage/engine/page_ops.rs:26–126`: allocation from the
orphan list or the end of the file, orphaning, and copy-on-write. An operation runs on the engine
and the context of the one write transaction; on an error the state stays as the operation left
it, as the effects on the mapped files are not undone.
-/

namespace TrieDb.Engine

open Meta Base

/-- The errors of the engine, without the I/O and debug ones. `panic` stands for a failed
`expect`, `unwrap` or assertion, `outOfFuel` for a recursion cut off by the model. -/
inductive Error where
  | nodeError (e : NodeError)
  | pageError (e : PageError)
  | invalidCommonPrefixIndex
  | invalidSnapshotId
  | pageSplit (processed : Nat)
  | proofError (message : String)
  | panic
  | outOfFuel
  deriving DecidableEq

/-- `StorageEngine`. -/
structure StorageEngine (γ : Type) where
  pageManager : PageManager γ
  metaManager : MetadataManager
  aliveSnapshot : Nat

/-- What a write operation works on. `strayPages` is not part of the program: it records the pages
that an operation empties without listing them as orphans. -/
structure State (γ : Type) where
  engine : StorageEngine γ
  context : TransactionContext
  strayPages : List Nat

variable {γ : Type}

namespace State

/-- The state in which an operation starts. -/
abbrev new (engine : StorageEngine γ) (context : TransactionContext) : State γ :=
  ⟨engine, context, []⟩

/-- Replace the page manager. -/
def setPages (s : State γ) (m : PageManager γ) : State γ :=
  { s with engine := { s.engine with pageManager := m } }

/-- Replace the metadata. -/
def setMeta (s : State γ) (m : MetadataManager) : State γ :=
  { s with engine := { s.engine with metaManager := m } }

/-- Set the page count of the context. -/
def setPageCount (s : State γ) (n : Nat) : State γ :=
  { s with context := { s.context with pageCount := n } }

/-- `setPages` replaces the pages. -/
@[simp] theorem pageManager_setPages (s : State γ) (m : PageManager γ) :
    (s.setPages m).engine.pageManager = m := rfl

/-- `setPages` leaves the metadata alone. -/
@[simp] theorem metaManager_setPages (s : State γ) (m : PageManager γ) :
    (s.setPages m).engine.metaManager = s.engine.metaManager := rfl

/-- `setPages` leaves the context alone. -/
@[simp] theorem context_setPages (s : State γ) (m : PageManager γ) :
    (s.setPages m).context = s.context := rfl

/-- `setMeta` leaves the pages alone. -/
@[simp] theorem pageManager_setMeta (s : State γ) (m : MetadataManager) :
    (s.setMeta m).engine.pageManager = s.engine.pageManager := rfl

/-- `setMeta` replaces the metadata. -/
@[simp] theorem metaManager_setMeta (s : State γ) (m : MetadataManager) :
    (s.setMeta m).engine.metaManager = m := rfl

/-- `setMeta` leaves the context alone. -/
@[simp] theorem context_setMeta (s : State γ) (m : MetadataManager) :
    (s.setMeta m).context = s.context := rfl

/-- `setPageCount` leaves the engine alone. -/
@[simp] theorem engine_setPageCount (s : State γ) (n : Nat) :
    (s.setPageCount n).engine = s.engine := rfl

end State

/-- Write operations of the engine. -/
abbrev EngineM (γ : Type) := EStateM Error (State γ)

/-- Run an access that does not change the page manager. -/
def liftPage {α : Type} (x : Except PageError α) : EngineM γ α :=
  match x with
  | .ok a => pure a
  | .error e => throw (.pageError e)

/-- `get_page`. -/
def getPage (id : Nat) : EngineM γ (Page γ) := do
  liftPage ((← get).engine.pageManager.get id)

/-- `get_mut_page`. -/
def getMutPage (id : Nat) : EngineM γ Unit := do
  let s ← get
  let m ← liftPage (s.engine.pageManager.getMut s.context.snapshotId id)
  set (s.setPages m)

/-- Write the contents of a page held as `PageMut`. -/
def writeContents (id : Nat) (contents : γ) : EngineM γ Unit :=
  modify fun s ↦ s.setPages
    (s.engine.pageManager.setPage id { s.engine.pageManager.pages id with contents := contents })

/-- `set_snapshot_id` on a `PageMut`. -/
def setSnapshotId (id snapshotId : Nat) : EngineM γ Unit :=
  modify fun s ↦ s.setPages
    (s.engine.pageManager.setPage id
      { s.engine.pageManager.pages id with state := .dirty snapshotId })

/-- Drop a `PageMut`. -/
def dropPage (id : Nat) : EngineM γ Unit :=
  modify fun s ↦ s.setPages (s.engine.pageManager.drop id)

/-- `allocate_page`: recycle an orphan that is old enough, else take a new page. -/
def allocatePage [Inhabited γ] : EngineM γ Nat := do
  let s ← get
  let (orphan, m) := s.engine.metaManager.pop s.engine.aliveSnapshot
  set (s.setMeta m)
  let id ← match orphan with
    | some o => do
      getMutPage o.pageId
      setSnapshotId o.pageId s.context.snapshotId
      writeContents o.pageId default
      pure o.pageId
    | none => do
      let s ← get
      let (r, m) := s.engine.pageManager.allocate s.context.snapshotId
      set (s.setPages m)
      liftPage r
  modify fun s ↦ s.setPageCount s.engine.pageManager.pageCount
  pure id

/-- `orphan_page`. -/
def orphanPage (id : Nat) : EngineM γ Unit := do
  let s ← get
  match s.engine.metaManager.push ⟨id, s.context.snapshotId⟩ with
  | some m => set (s.setMeta m)
  | none => throw .panic

/-- Run an operation while a `PageMut` is at hand that is returned afterwards: it is dropped only
if the operation fails. -/
def dropOnError {α : Type} (p : Nat) (x : EngineM γ α) : EngineM γ α := fun s ↦
  match x s with
  | .error e s' => .error e (s'.setPages (s'.engine.pageManager.drop p))
  | r => r

/-- `get_mut_clone`: a page of this snapshot is written in place, any other is copied to a new
page and orphaned. -/
def getMutClone [Inhabited γ] (id : Nat) : EngineM γ Nat := do
  let original ← getPage id
  let s ← get
  if original.state.snapshotId = some s.context.snapshotId then
    getMutPage id
    pure id
  else
    let new ← allocatePage
    -- `original` is a view of the mapped page: it is read after the allocation
    writeContents new ((← get).engine.pageManager.pages id).contents
    dropOnError new (orphanPage id)
    pure new

/-! ### Specifications -/

/-- A page operation that succeeds. -/
@[simp] theorem liftPage_ok {α : Type} (a : α) (s : State γ) :
    (liftPage (.ok a) : EngineM γ α) s = .ok a s := rfl

/-- A page operation that fails. -/
@[simp] theorem liftPage_error {α : Type} (e : PageError) (s : State γ) :
    (liftPage (.error e) : EngineM γ α) s = .error (.pageError e) s := rfl

/-- A page that was read is in use and occupied. -/
theorem getPage_eq_ok {s s' : State γ} {id : Nat} {page : Page γ} (h : getPage id s = .ok page s') :
    s' = s ∧ page = s.engine.pageManager.pages id ∧ id ≤ s.engine.pageManager.pageCount ∧
      ∃ n, page.state = .occupied n := by
  simp only [getPage, bind_apply, get_apply] at h
  cases hg : s.engine.pageManager.get id with
  | error e => simp [hg] at h
  | ok p =>
    simp only [hg, liftPage_ok, EStateM.Result.ok.injEq] at h
    obtain ⟨rfl, rfl⟩ := h
    obtain ⟨hid, rfl, n, hn⟩ := PageManager.get_eq_ok hg
    exact ⟨rfl, rfl, hid, n, hn⟩

/-- A page acquired for writing was not dirty. -/
theorem getMutPage_eq_ok {s s' : State γ} {id : Nat} (h : getMutPage id s = .ok () s') :
    id ≤ s.engine.pageManager.pageCount ∧ (s.engine.pageManager.pages id).state.isDirty = false ∧
      s' = s.setPages (s.engine.pageManager.setPage id
        { s.engine.pageManager.pages id with state := .dirty s.context.snapshotId }) := by
  simp only [getMutPage, bind_apply, get_apply] at h
  cases hg : s.engine.pageManager.getMut s.context.snapshotId id with
  | error e => simp [hg] at h
  | ok m =>
    simp only [hg, liftPage_ok, set_apply, EStateM.Result.ok.injEq, true_and] at h
    obtain ⟨hid, hd, rfl⟩ := PageManager.getMut_eq_ok hg
    exact ⟨hid, hd, h.symm⟩

/-- A successful allocation: a zeroed page stamped with the snapshot, recycled or new. -/
theorem allocatePage_eq_ok [Inhabited γ] {s s' : State γ} {id : Nat}
    (h : allocatePage s = .ok id s') :
    (∃ o m, s.engine.metaManager.pop s.engine.aliveSnapshot = (some o, m) ∧ id = o.pageId ∧
      id ≤ s.engine.pageManager.pageCount ∧
      (s.engine.pageManager.pages id).state.isDirty = false ∧
      s' = (((s.setMeta m).setPages (s.engine.pageManager.setPage id
        ⟨.dirty s.context.snapshotId, default⟩)).setPageCount s.engine.pageManager.pageCount)) ∨
    ∃ m, s.engine.metaManager.pop s.engine.aliveSnapshot = (none, m) ∧
      id = s.engine.pageManager.pageCount + 1 ∧ id ≤ s.engine.pageManager.capacity ∧
      s' = (((s.setMeta m).setPages ({ s.engine.pageManager with pageCount := id }.setPage id
        ⟨.dirty s.context.snapshotId, default⟩)).setPageCount id) := by
  obtain ⟨orphan, m, hpop⟩ : ∃ o m, s.engine.metaManager.pop s.engine.aliveSnapshot = (o, m) :=
    ⟨_, _, rfl⟩
  simp only [allocatePage, bind_apply, get_apply, hpop, set_apply] at h
  cases orphan with
  | some o =>
    left
    simp only [bind_apply] at h
    cases hg : getMutPage o.pageId (s.setMeta m) with
    | error e t => simp [hg] at h
    | ok u t =>
      obtain ⟨hid, hd, rfl⟩ := getMutPage_eq_ok hg
      simp only [hg, setSnapshotId, writeContents, modify_apply, pure_apply,
        EStateM.Result.ok.injEq] at h
      obtain ⟨rfl, rfl⟩ := h
      refine ⟨o, m, hpop, rfl, hid, hd, ?_⟩
      simp [State.setPages, State.setMeta, State.setPageCount, PageManager.setPage]
  | none =>
    right
    obtain ⟨r, pm, hr⟩ : ∃ r pm, s.engine.pageManager.allocate s.context.snapshotId = (r, pm) :=
      ⟨_, _, rfl⟩
    simp only [bind_apply, get_apply, State.pageManager_setMeta, State.context_setMeta, hr,
      set_apply] at h
    cases r with
    | error e => simp at h
    | ok i =>
      simp only [liftPage_ok, modify_apply, pure_apply, EStateM.Result.ok.injEq] at h
      obtain ⟨rfl, rfl⟩ := h
      obtain ⟨rfl, hc, rfl⟩ := PageManager.allocate_eq_ok hr
      exact ⟨m, hpop, rfl, hc, rfl⟩

/-- An allocation fails on an orphan outside the file, on a dirty orphan or at the page limit. -/
theorem allocatePage_eq_error [Inhabited γ] {s s' : State γ} {e : Error}
    (h : allocatePage s = .error e s') :
    (∃ o m, s.engine.metaManager.pop s.engine.aliveSnapshot = (some o, m) ∧
      (s.engine.pageManager.pageCount < o.pageId ∨
        (s.engine.pageManager.pages o.pageId).state.isDirty = true)) ∨
    (∃ m, s.engine.metaManager.pop s.engine.aliveSnapshot = (none, m)) ∧
      e = .pageError .pageLimitReached := by
  obtain ⟨orphan, m, hpop⟩ : ∃ o m, s.engine.metaManager.pop s.engine.aliveSnapshot = (o, m) :=
    ⟨_, _, rfl⟩
  cases orphan with
  | some o =>
    refine .inl ⟨o, m, hpop, ?_⟩
    by_contra hc
    rw [not_or, Nat.not_lt, Bool.not_eq_true] at hc
    have hg : s.engine.pageManager.getMut s.context.snapshotId o.pageId = .ok _ :=
      PageManager.getMut_of_not_dirty hc.1 hc.2
    simp [allocatePage, hpop, getMutPage, hg, setSnapshotId, writeContents] at h
  | none =>
    refine .inr ⟨⟨m, hpop⟩, ?_⟩
    obtain ⟨r, pm, hr⟩ : ∃ r pm, s.engine.pageManager.allocate s.context.snapshotId = (r, pm) :=
      ⟨_, _, rfl⟩
    simp only [allocatePage, bind_apply, get_apply, hpop, set_apply, State.pageManager_setMeta,
      State.context_setMeta, hr] at h
    cases r with
    | ok i => simp at h
    | error e' =>
      simp only [liftPage_error, EStateM.Result.error.injEq] at h
      rw [← h.1, PageManager.allocate_eq_error hr]

/-- Also an allocation that fails has taken an orphan off the list. -/
theorem metaManager_allocatePage_error [Inhabited γ] {s s' : State γ} {e : Error}
    (h : allocatePage s = .error e s') :
    s'.engine.metaManager = (s.engine.metaManager.pop s.engine.aliveSnapshot).2 := by
  obtain ⟨orphan, m, hpop⟩ : ∃ o m, s.engine.metaManager.pop s.engine.aliveSnapshot = (o, m) :=
    ⟨_, _, rfl⟩
  rw [hpop]
  cases orphan with
  | some o =>
    simp only [allocatePage, bind_apply, get_apply, hpop, set_apply, getMutPage,
      State.pageManager_setMeta, State.context_setMeta] at h
    cases hg : s.engine.pageManager.getMut s.context.snapshotId o.pageId with
    | ok pm => simp [hg, setSnapshotId, writeContents] at h
    | error e =>
      simp only [hg, liftPage_error, EStateM.Result.error.injEq] at h
      rw [← h.2]
      rfl
  | none =>
    obtain ⟨r, pm, hr⟩ : ∃ r pm, s.engine.pageManager.allocate s.context.snapshotId = (r, pm) :=
      ⟨_, _, rfl⟩
    simp only [allocatePage, bind_apply, get_apply, hpop, set_apply, State.pageManager_setMeta,
      State.context_setMeta, hr] at h
    cases r with
    | ok i => simp at h
    | error e' =>
      simp only [liftPage_error, EStateM.Result.error.injEq] at h
      rw [← h.2]
      rfl

/-- An allocation that fails changes no page and not the context, but it may have raised the page
count. -/
theorem pages_allocatePage_error [Inhabited γ] {s s' : State γ} {e : Error}
    (h : allocatePage s = .error e s') :
    s'.engine.pageManager.pages = s.engine.pageManager.pages ∧
      s.engine.pageManager.pageCount ≤ s'.engine.pageManager.pageCount ∧
      s'.engine.aliveSnapshot = s.engine.aliveSnapshot ∧ s'.context = s.context ∧
      s'.strayPages = s.strayPages := by
  obtain ⟨orphan, m, hpop⟩ : ∃ o m, s.engine.metaManager.pop s.engine.aliveSnapshot = (o, m) :=
    ⟨_, _, rfl⟩
  cases orphan with
  | some o =>
    simp only [allocatePage, bind_apply, get_apply, hpop, set_apply, getMutPage,
      State.pageManager_setMeta, State.context_setMeta] at h
    cases hg : s.engine.pageManager.getMut s.context.snapshotId o.pageId with
    | ok pm => simp [hg, setSnapshotId, writeContents] at h
    | error e =>
      simp only [hg, liftPage_error, EStateM.Result.error.injEq] at h
      rw [← h.2]
      exact ⟨rfl, Nat.le_refl _, rfl, rfl, rfl⟩
  | none =>
    obtain ⟨r, pm, hr⟩ : ∃ r pm, s.engine.pageManager.allocate s.context.snapshotId = (r, pm) :=
      ⟨_, _, rfl⟩
    simp only [allocatePage, bind_apply, get_apply, hpop, set_apply, State.pageManager_setMeta,
      State.context_setMeta, hr] at h
    cases r with
    | ok i => simp at h
    | error e' =>
      simp only [liftPage_error, EStateM.Result.error.injEq] at h
      rw [← h.2]
      obtain ⟨hp, hc⟩ := PageManager.pages_allocate_error hr
      exact ⟨hp, hc, rfl, rfl, rfl⟩

/-- An allocation never asks for a restart. -/
theorem allocatePage_ne_pageSplit [Inhabited γ] {s s' : State γ} (n : Nat) :
    (allocatePage s : EStateM.Result Error (State γ) Nat) ≠ .error (.pageSplit n) s' := by
  intro h
  obtain ⟨orphan, m, hpop⟩ : ∃ o m, s.engine.metaManager.pop s.engine.aliveSnapshot = (o, m) :=
    ⟨_, _, rfl⟩
  cases orphan with
  | some o =>
    simp only [allocatePage, bind_apply, get_apply, hpop, set_apply, getMutPage,
      State.pageManager_setMeta, State.context_setMeta] at h
    cases hg : s.engine.pageManager.getMut s.context.snapshotId o.pageId with
    | ok pm => simp [hg, setSnapshotId, writeContents] at h
    | error e => simp [hg] at h
  | none =>
    obtain ⟨o, m', ho, -⟩ | ⟨-, he⟩ := allocatePage_eq_error h
    · rw [hpop] at ho
      cases ho
    · cases he

/-- Orphaning never fails; it appends to the list. -/
theorem orphanPage_eq_ok {s s' : State γ} {id : Nat} (h : orphanPage id s = .ok () s') :
    ∃ m, s.engine.metaManager.push ⟨id, s.context.snapshotId⟩ = some m ∧ s' = s.setMeta m := by
  simp only [orphanPage, bind_apply, get_apply] at h
  cases hp : s.engine.metaManager.push ⟨id, s.context.snapshotId⟩ with
  | none => simp [hp] at h
  | some m =>
    simp only [hp, set_apply, EStateM.Result.ok.injEq, true_and] at h
    exact ⟨m, rfl, h.symm⟩

end TrieDb.Engine

import Mathlib.Algebra.BigOperators.Fin

/-!
# Pages and the page manager

`src/page/state.rs`, `src/page/page.rs:56–300` and `src/page/manager/mmap.rs`: the state word in
the header of every page, and access to the pages of the mapped file. What a page holds is left
open; the default value is a page filled with zeros. A `PageMut` is named by the id of its page,
whose state stays dirty until the `PageMut` is dropped. I/O is taken to succeed.
-/

namespace TrieDb

/-- `PageError`. -/
inductive PageError where
  | pageNotFound (id : Nat)
  | pageOccupied (id : Nat)
  | pageDirty (id : Nat)
  | pageLimitReached
  | invalidRootPage (id : Nat)
  | invalidCellPointer
  | noFreeCells
  | pageIsFull
  | pageSplitLimitReached
  | invalidValue
  | invalidPageContents (id : Nat)
  deriving DecidableEq

/-- `PageState`: a dirty flag and a snapshot id, where no flag and no id mean unused. -/
inductive PageState where
  | unused
  | occupied (snapshotId : Nat)
  | dirty (snapshotId : Nat)
  deriving DecidableEq

namespace PageState

/-- `PageState::snapshot_id`. -/
def snapshotId : PageState → Option Nat
  | unused => none
  | occupied s => some s
  | dirty s => some s

/-- `unset_dirty`, which clears the flag in the state word. -/
def unsetDirty : PageState → PageState
  | dirty s => if s = 0 then unused else occupied s
  | state => state

/-- Whether the flag is set. -/
def isDirty : PageState → Bool
  | dirty _ => true
  | _ => false

/-- The dirty flag is gone. -/
@[simp] theorem isDirty_unsetDirty (s : PageState) : s.unsetDirty.isDirty = false := by
  cases s with
  | dirty s =>
    simp only [unsetDirty]
    split <;> rfl
  | _ => rfl

end PageState

/-- A page of the file: the state word and the contents after it. -/
structure Page (γ : Type) where
  state : PageState
  contents : γ

/-- `PageManager`: the mapped file, which is as large as the map, and the number of pages in
use. -/
structure PageManager (γ : Type) where
  pages : Nat → Page γ
  pageCount : Nat
  capacity : Nat

namespace PageManager

variable {γ : Type}

/-- `PageId::MAX`, with room for the cell indexes in a `Location`. -/
def maxPageId : Nat := 2 ^ 32 - 1 - 255

/-- Store a page of the file. -/
def setPage (m : PageManager γ) (id : Nat) (page : Page γ) : PageManager γ :=
  { m with pages := Function.update m.pages id page }

/-- `PageManager::get` with `Page::from_ptr`: only an occupied page can be read. -/
def get (m : PageManager γ) (id : Nat) : Except PageError (Page γ) :=
  if m.pageCount < id then .error (.pageNotFound id)
  else match (m.pages id).state with
    | .occupied _ => .ok (m.pages id)
    | .unused => .error (.pageNotFound id)
    | .dirty _ => .error (.pageDirty id)

/-- `PageManager::get_mut` with `PageMut::from_ptr`: any page that is not dirty becomes dirty. -/
def getMut (m : PageManager γ) (snapshotId id : Nat) : Except PageError (PageManager γ) :=
  if m.pageCount < id then .error (.pageNotFound id)
  else match (m.pages id).state with
    | .unused | .occupied _ => .ok (m.setPage id { m.pages id with state := .dirty snapshotId })
    | .dirty _ => .error (.pageDirty id)

/-- `PageManager::allocate` with `PageMut::acquire_unchecked`: a zeroed dirty page at the end of
the file, whatever state it was in. The page count is raised before the capacity is checked. -/
def allocate [Inhabited γ] (m : PageManager γ) (snapshotId : Nat) :
    Except PageError Nat × PageManager γ :=
  let id := m.pageCount + 1
  if maxPageId < id then (.error .pageLimitReached, m)
  else
    let m := { m with pageCount := id }
    if m.capacity < id then (.error .pageLimitReached, m)
    else (.ok id, m.setPage id ⟨.dirty snapshotId, default⟩)

/-- Dropping a `PageMut`. -/
def drop (m : PageManager γ) (id : Nat) : PageManager γ :=
  m.setPage id { m.pages id with state := (m.pages id).state.unsetDirty }

/-- The manager of a reopened file. -/
def reopen (m : PageManager γ) (pageCount : Nat) : PageManager γ :=
  { m with pageCount := pageCount }

/-! ### Specifications -/

/-- What reading a page tells. -/
theorem get_eq_ok {m : PageManager γ} {id : Nat} {page : Page γ} (h : m.get id = .ok page) :
    id ≤ m.pageCount ∧ page = m.pages id ∧ ∃ s, page.state = .occupied s := by
  simp only [get] at h
  split at h
  · cases h
  · split at h
    · next s hs =>
      cases h
      exact ⟨by omega, rfl, s, hs⟩
    · cases h
    · cases h

/-- What acquiring a page does. -/
theorem getMut_eq_ok {m m' : PageManager γ} {snapshotId id : Nat}
    (h : m.getMut snapshotId id = .ok m') :
    id ≤ m.pageCount ∧ (m.pages id).state.isDirty = false ∧
      m' = m.setPage id { m.pages id with state := .dirty snapshotId } := by
  simp only [getMut] at h
  split at h
  · cases h
  · split at h
    · next hs =>
      cases h
      exact ⟨by omega, by rw [hs]; rfl, rfl⟩
    · next s hs =>
      cases h
      exact ⟨by omega, by rw [hs]; rfl, rfl⟩
    · cases h

/-- A page that is not dirty can be acquired. -/
theorem getMut_of_not_dirty {m : PageManager γ} {snapshotId id : Nat} (hid : id ≤ m.pageCount)
    (hd : (m.pages id).state.isDirty = false) :
    m.getMut snapshotId id = .ok (m.setPage id { m.pages id with state := .dirty snapshotId }) := by
  have hlt : ¬ m.pageCount < id := by omega
  simp only [getMut, hlt, if_false]
  cases hs : (m.pages id).state with
  | dirty s =>
    rw [hs] at hd
    cases hd
  | _ => rfl

/-- What a fresh allocation does. -/
theorem allocate_eq_ok [Inhabited γ] {m m' : PageManager γ} {snapshotId id : Nat}
    (h : m.allocate snapshotId = (.ok id, m')) :
    id = m.pageCount + 1 ∧ id ≤ m.capacity ∧
      m' = { m with pageCount := id }.setPage id ⟨.dirty snapshotId, default⟩ := by
  simp only [allocate] at h
  split at h
  · cases h
  · split at h
    · cases h
    · cases h
      exact ⟨rfl, by omega, rfl⟩

/-- A fresh allocation can only fail at the page limit. -/
theorem allocate_eq_error [Inhabited γ] {m m' : PageManager γ} {snapshotId : Nat} {e : PageError}
    (h : m.allocate snapshotId = (.error e, m')) : e = .pageLimitReached := by
  simp only [allocate] at h
  split at h
  · cases h
    rfl
  · split at h
    · cases h
      rfl
    · cases h

/-- A fresh allocation that fails changes no page, but it may have raised the page count. -/
theorem pages_allocate_error [Inhabited γ] {m m' : PageManager γ} {snapshotId : Nat}
    {e : PageError} (h : m.allocate snapshotId = (.error e, m')) :
    m'.pages = m.pages ∧ m.pageCount ≤ m'.pageCount := by
  simp only [allocate] at h
  split at h
  · cases h
    exact ⟨rfl, Nat.le_refl _⟩
  · split at h
    · cases h
      exact ⟨rfl, Nat.le_succ _⟩
    · cases h

/-- The page is what has been written. -/
@[simp] theorem pages_setPage_self (m : PageManager γ) (id : Nat) (page : Page γ) :
    (m.setPage id page).pages id = page := Function.update_self _ _ _

/-- The other pages stay. -/
theorem pages_setPage_of_ne (m : PageManager γ) {id id' : Nat} (page : Page γ) (h : id' ≠ id) :
    (m.setPage id page).pages id' = m.pages id' := Function.update_of_ne h _ _

/-- Writing a page does not count one. -/
@[simp] theorem pageCount_setPage (m : PageManager γ) (id : Nat) (page : Page γ) :
    (m.setPage id page).pageCount = m.pageCount := rfl

/-- Writing a page leaves the capacity alone. -/
@[simp] theorem capacity_setPage (m : PageManager γ) (id : Nat) (page : Page γ) :
    (m.setPage id page).capacity = m.capacity := rfl

end PageManager

end TrieDb

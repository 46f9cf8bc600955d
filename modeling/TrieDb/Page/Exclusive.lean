import TrieDb.Page.Manager

/-!
# Exclusive access to a page

`src/page/page.rs:138–314` and `src/page/state.rs:99–132`: the life of the `PageMut` values of one
page, shared by any number of threads. Every atomic operation on the state word is one step. An
explicit `commit` or `discard` is followed by the `Drop` of the value, which is a step of its own.
-/

namespace TrieDb.PageMut

/-- What has become of a `PageMut` value. -/
inductive Handle where
  | absent
  | usable (snapshotId : Nat)
  /-- Committed or discarded, with its `Drop` still to run. -/
  | ending
  | gone
  deriving DecidableEq

/-- The state word of a page and the values that threads have of it. -/
structure Shared where
  state : PageState
  handles : Nat → Handle

/-- The operations of a value, or the attempt to construct it. -/
inductive Act where
  | fromPtr (h snapshotId : Nat)
  | acquire (h snapshotId : Nat)
  | setSnapshotId (h snapshotId : Nat)
  | commit (h : Nat)
  | downcast (h : Nat)
  | discard (h : Nat)
  | drop (h : Nat)
  deriving DecidableEq

namespace Shared

variable {σ σ' : Shared} {acts acts' : List Act} {h : Nat}

/-- The page before any value of it is constructed. -/
def start (state : PageState) : Shared := ⟨state, fun _ ↦ .absent⟩

/-- `PageState::DIRTY_MASK`: larger snapshot ids make `expect` fail. -/
def dirtyMask : Nat := 2 ^ 63

/-- Write the state word and note what becomes of a value. -/
def put (σ : Shared) (h : Nat) (state : PageState) (handle : Handle) : Shared :=
  ⟨state, Function.update σ.handles h handle⟩

/-- The successful end of a constructor. -/
def construct (σ : Shared) (h snapshotId : Nat) : Shared :=
  σ.put h (.dirty snapshotId) (.usable snapshotId)

/-- One atomic operation; `none` if there is no value to run it on. A constructor that fails or
panics changes nothing. -/
def step (σ : Shared) : Act → Option Shared
  | .fromPtr h snapshotId =>
    if σ.handles h ≠ .absent then none
    else if dirtyMask ≤ snapshotId then some σ
    else match σ.state with
      | .unused | .occupied _ => some (σ.construct h snapshotId)
      | .dirty _ => some σ
  | .acquire h snapshotId =>
    if σ.handles h ≠ .absent then none
    else if dirtyMask ≤ snapshotId then some σ
    else if σ.state = .unused then some (σ.construct h snapshotId)
    else some σ
  | .setSnapshotId h snapshotId =>
    match σ.handles h with
    | .usable _ => if dirtyMask ≤ snapshotId then some σ else some (σ.construct h snapshotId)
    | _ => none
  | .commit h =>
    match σ.handles h with
    | .usable _ => some (σ.put h σ.state.unsetDirty .ending)
    | _ => none
  | .downcast h =>
    match σ.handles h with
    | .usable _ => some (σ.put h σ.state.unsetDirty .gone)
    | _ => none
  | .discard h =>
    match σ.handles h with
    | .usable _ => some (σ.put h .unused .ending)
    | _ => none
  | .drop h =>
    match σ.handles h with
    | .usable _ | .ending => some (σ.put h σ.state.unsetDirty .gone)
    | _ => none

/-- An interleaving of operations. -/
def run (σ : Shared) : List Act → Option Shared
  | [] => some σ
  | a :: acts => (σ.step a).bind fun σ' ↦ σ'.run acts

private theorem run_append : σ.run (acts ++ acts') = (σ.run acts).bind fun σ' ↦ σ'.run acts' := by
  induction acts generalizing σ with
  | nil => rfl
  | cons a acts ih =>
    simp only [List.cons_append, run, Option.bind_assoc]
    congr 1
    funext σ'
    exact ih

/-- There is one usable value at most, and the state word is dirty with its snapshot id. -/
structure Exclusive (σ : Shared) : Prop where
  unique : ∀ h h' i i', σ.handles h = .usable i → σ.handles h' = .usable i' → h = h'
  dirty : ∀ h i, σ.handles h = .usable i → σ.state = .dirty i

/-- The `Drop` after a `commit` or `discard` does not run while another value is usable. -/
def Calm (σ : Shared) : Act → Prop
  | .drop h => σ.handles h = .ending → ∀ h' i, σ.handles h' ≠ .usable i
  | _ => True

/-- Nothing is usable after a step that leaves no usable value. -/
private theorem Exclusive.of_none (hn : ∀ h i, σ.handles h ≠ .usable i) : Exclusive σ :=
  ⟨fun h _ i _ hi _ ↦ absurd hi (hn h i), fun h i hi ↦ absurd hi (hn h i)⟩

/-- The value that a step writes for is the only usable one. -/
private theorem exclusive_put {state : PageState} {handle : Handle}
    (hothers : ∀ h' i, h' ≠ h → σ.handles h' ≠ .usable i)
    (hdirty : ∀ i, handle = .usable i → state = .dirty i) : Exclusive (σ.put h state handle) := by
  have hself (h' i : Nat) (hi : (σ.put h state handle).handles h' = .usable i) :
      h' = h ∧ handle = .usable i := by
    simp only [put, Function.update_apply] at hi
    split at hi
    · next he => exact ⟨he, hi⟩
    · next he => exact absurd hi (hothers h' i he)
  constructor
  · intro h₁ h₂ i₁ i₂ h₁i h₂i
    rw [(hself h₁ i₁ h₁i).1, (hself h₂ i₂ h₂i).1]
  · intro h' i hi
    exact hdirty i (hself h' i hi).2

/-- While the state word is not dirty no value is usable. -/
private theorem Exclusive.none_of_not_dirty (hσ : Exclusive σ) (hs : σ.state.isDirty = false)
    (h i : Nat) : σ.handles h ≠ .usable i := by
  intro hi
  rw [hσ.dirty h i hi] at hs
  cases hs

/-- While a value is usable no other one is. -/
private theorem Exclusive.others (hσ : Exclusive σ) {i : Nat} (hi : σ.handles h = .usable i)
    (h' i' : Nat) (hne : h' ≠ h) : σ.handles h' ≠ .usable i' :=
  fun hi' ↦ hne (hσ.unique h' h i' i hi' hi)

/-- A step keeps exclusive access, unless it is a late `Drop`. -/
private theorem Exclusive.step {a : Act} (hσ : Exclusive σ) (ha : Calm σ a)
    (hs : σ.step a = some σ') : Exclusive σ' := by
  have hconstruct (h snapshotId : Nat) (hstate : σ.state.isDirty = false) :
      Exclusive (σ.construct h snapshotId) :=
    exclusive_put (fun h' i _ ↦ hσ.none_of_not_dirty hstate h' i) fun i hi ↦ by cases hi; rfl
  cases a with
  | fromPtr h snapshotId =>
    simp only [Shared.step] at hs
    split at hs
    · cases hs
    · split at hs
      · cases hs
        exact hσ
      · split at hs
        · next hstate =>
          cases hs
          exact hconstruct h snapshotId (by rw [hstate]; rfl)
        · next hstate =>
          cases hs
          exact hconstruct h snapshotId (by rw [hstate]; rfl)
        · cases hs
          exact hσ
  | acquire h snapshotId =>
    simp only [Shared.step] at hs
    split at hs
    · cases hs
    · split at hs
      · cases hs
        exact hσ
      · split at hs
        · next hstate =>
          cases hs
          exact hconstruct h snapshotId (by rw [hstate]; rfl)
        · cases hs
          exact hσ
  | setSnapshotId h snapshotId =>
    simp only [Shared.step] at hs
    split at hs
    · next i hi =>
      split at hs
      · cases hs
        exact hσ
      · cases hs
        exact exclusive_put (hσ.others hi) fun i hi ↦ by cases hi; rfl
    · cases hs
  | commit h =>
    simp only [Shared.step] at hs
    split at hs
    · next i hi =>
      cases hs
      exact exclusive_put (hσ.others hi) fun i hi ↦ by cases hi
    · cases hs
  | downcast h =>
    simp only [Shared.step] at hs
    split at hs
    · next i hi =>
      cases hs
      exact exclusive_put (hσ.others hi) fun i hi ↦ by cases hi
    · cases hs
  | discard h =>
    simp only [Shared.step] at hs
    split at hs
    · next i hi =>
      cases hs
      exact exclusive_put (hσ.others hi) fun i hi ↦ by cases hi
    · cases hs
  | drop h =>
    simp only [Shared.step] at hs
    split at hs
    · next i hi =>
      cases hs
      exact exclusive_put (hσ.others hi) fun i hi ↦ by cases hi
    · next hi =>
      cases hs
      exact exclusive_put (fun h' i _ ↦ ha hi h' i) fun i hi ↦ by cases hi
    · cases hs

/-- A late `Drop` takes the dirty flag from the value that is usable. -/
private theorem not_exclusive_of_late_drop {h' i : Nat} (hh : σ.handles h = .ending)
    (hi : σ.handles h' = .usable i) (hs : σ.step (.drop h) = some σ') : ¬ Exclusive σ' := by
  intro hex
  simp only [Shared.step, hh, Option.some.injEq] at hs
  subst hs
  have hne : h' ≠ h := by
    rintro rfl
    rw [hh] at hi
    cases hi
  have hi' : (σ.put h σ.state.unsetDirty .gone).handles h' = .usable i := by
    simp only [put, Function.update_of_ne hne, hi]
  have hstate : σ.state.unsetDirty = .dirty i := hex.dirty h' i hi'
  have := PageState.isDirty_unsetDirty σ.state
  rw [hstate] at this
  cases this

/-- Along a run in which every step is calm, access is exclusive throughout. -/
private theorem exclusive_of_calm (hσ : Exclusive σ)
    (hcalm : ∀ pre a suf τ, acts = pre ++ a :: suf → σ.run pre = some τ → Calm τ a)
    (hrun : σ.run acts = some σ') : Exclusive σ' := by
  induction acts generalizing σ with
  | nil =>
    cases hrun
    exact hσ
  | cons a acts ih =>
    simp only [run] at hrun
    cases hstep : σ.step a with
    | none => simp [hstep] at hrun
    | some τ =>
      simp only [hstep, Option.bind_some] at hrun
      refine ih (hσ.step (hcalm [] a acts σ rfl rfl) hstep) (fun pre b suf υ he hυ ↦ ?_) hrun
      refine hcalm (a :: pre) b suf υ (by rw [he]; rfl) ?_
      simp only [run, hstep, Option.bind_some, hυ]

/-- In every interleaving on a page, exclusive access holds throughout if and only if no `Drop`
after a `commit` or `discard` runs while another value is usable. -/
theorem exclusive_iff_calm (state : PageState) (hrun : (start state).run acts = some σ') :
    (∀ pre suf σ, acts = pre ++ suf → (start state).run pre = some σ → Exclusive σ) ↔
      ∀ pre h suf σ, acts = pre ++ .drop h :: suf → (start state).run pre = some σ →
        σ.handles h = .ending → ∀ h' i, σ.handles h' ≠ .usable i := by
  have hstart : Exclusive (start state) := .of_none fun _ _ ↦ by simp [start]
  constructor
  · intro hex pre h suf σ he hσ hh h' i hi
    have hfull : (start state).run (pre ++ [.drop h]) = σ.step (.drop h) := by
      rw [run_append, hσ]
      simp [run]
    cases hs : σ.step (.drop h) with
    | none =>
      rw [he, run_append, hσ] at hrun
      simp [run, hs] at hrun
    | some τ =>
      refine not_exclusive_of_late_drop hh hi hs ?_
      exact hex (pre ++ [.drop h]) suf τ (by rw [he]; simp) (hfull.trans hs)
  · intro hdrop pre suf σ he hσ
    refine exclusive_of_calm hstart (fun pre' a suf' τ he' hτ ↦ ?_) hσ
    cases a with
    | drop h => exact hdrop pre' h (suf' ++ suf) τ (by rw [he, he']; simp) hτ
    | _ => trivial

/-- A value that is committed and dropped before the next one is constructed. -/
def inTurn : List Act :=
  [.fromPtr 0 1, .commit 0, .drop 0, .fromPtr 1 2, .setSnapshotId 1 3, .drop 1]

/-- The next value is constructed before the `Drop` of the first. -/
def overlapping : List Act := [.fromPtr 0 1, .commit 0, .fromPtr 1 2, .drop 0, .fromPtr 2 3]

/-- One after the other, each holder has the page for itself. -/
theorem exclusive_inTurn : ((start .unused).run inTurn).isSome ∧ ∀ pre suf σ,
    inTurn = pre ++ suf → (start .unused).run pre = some σ → Exclusive σ := by
  refine ⟨rfl, ?_⟩
  refine (@exclusive_iff_calm _ inTurn .unused rfl).mpr fun pre h suf σ he hσ hh ↦ ?_
  have hlen : pre.length < 6 := by
    have := congrArg List.length he
    simp [inTurn] at this
    omega
  have hpre : pre = inTurn.take pre.length := by rw [he, List.take_left]
  have hdrop : inTurn[pre.length]? = some (.drop h) := by
    rw [he, List.getElem?_append_right (Nat.le_refl _), Nat.sub_self]
    rfl
  rw [hpre] at hσ
  generalize pre.length = n at hlen hdrop hσ
  have hn : n = 0 ∨ n = 1 ∨ n = 2 ∨ n = 3 ∨ n = 4 ∨ n = 5 := by omega
  rcases hn with rfl | rfl | rfl | rfl | rfl | rfl
  · cases hdrop
  · cases hdrop
  · cases hσ
    intro h' i hi
    simp only [put, construct, start, Function.update_apply] at hi
    split at hi
    · cases hi
    · cases hi
  · cases hdrop
  · cases hdrop
  · cases hdrop
    cases hσ
    cases hh

/-- Two values are usable at once. -/
theorem not_exclusive_overlapping : ∃ σ, (start .unused).run overlapping = some σ ∧
    σ.handles 1 = .usable 2 ∧ σ.handles 2 = .usable 3 ∧ ¬ Exclusive σ := by
  refine ⟨_, rfl, rfl, rfl, fun hex ↦ ?_⟩
  have := hex.unique 1 2 2 3 rfl rfl
  cases this

end Shared

end TrieDb.PageMut

import TrieDb.Engine.Write

/-!
# What a write operation does, action by action

A call of `set_values` as a sequence of actions on the pages at hand, the orphan list and the
context: pages are allocated, taken again, written, orphaned and dropped. What every action keeps
holds at every moment of a call, also of one that fails. In a call that succeeds no allocation is
refused.
-/

namespace TrieDb.Engine

open Base

/-! ### Actions -/

/-- One action of a write operation, on the pages at hand and the state. An allocation is refused
only where the flag is `false`. -/
inductive Action : Bool → List Nat × State Cells → List Nat × State Cells → Prop
  | allocate {b held s id t} (h : allocatePage s = .ok id t) : Action b (held, s) (id :: held, t)
  | refuse {held s e t} (h : allocatePage s = .error e t) : Action false (held, s) (held, t)
  -- a page of this snapshot that is not at hand can be written in place
  | take {b held s id page t} (hp : getPage id s = .ok page s)
      (hs : page.state.snapshotId = some s.context.snapshotId) (h : getMutPage id s = .ok () t) :
      Action b (held, s) (id :: held, t)
  | write {b held s id t} (contents : Cells) (hid : id ∈ held)
      (h : writeContents id contents s = .ok () t) : Action b (held, s) (held, t)
  | orphan {b held s t} (id : Nat) (h : orphanPage id s = .ok () t) : Action b (held, s) (held, t)
  | drop {b held s id t} (h : dropPage id s = .ok () t) : Action b (id :: held, s) (held, t)
  -- the root is set, or locations are forgotten
  | context {b held s} (ctx : TransactionContext) (hid : ctx.snapshotId = s.context.snapshotId)
      (hcount : ctx.pageCount = s.context.pageCount)
      (hcache : ∀ a c, ctx.contractAccountLocCache a = some c →
        s.context.contractAccountLocCache a = some c) :
      Action b (held, s) (held, { s with context := ctx })
  | stray {b held s} (id : Nat) :
      Action b (held, s) (held, { s with strayPages := id :: s.strayPages })

/-- A sequence of actions. -/
def Trace (b : Bool) : List Nat × State Cells → List Nat × State Cells → Prop :=
  Relation.ReflTransGen (Action b)

section
variable {b : Bool} {x y z : List Nat × State Cells}

private theorem Action.weaken (h : Action true x y) : Action b x y := by
  cases h with
  | allocate h => exact .allocate h
  | take hp hs h => exact .take hp hs h
  | write c hid h => exact .write c hid h
  | orphan id h => exact .orphan id h
  | drop h => exact .drop h
  | context ctx hid hcount hcache => exact .context ctx hid hcount hcache
  | stray id => exact .stray id

namespace Trace

/-- No action. -/
theorem refl : Trace b x x := Relation.ReflTransGen.refl

/-- One action. -/
theorem one (h : Action b x y) : Trace b x y := Relation.ReflTransGen.single h

/-- One trace after the other. -/
theorem trans (h : Trace b x y) (h' : Trace b y z) : Trace b x z := Relation.ReflTransGen.trans h h'

private theorem weaken (h : Trace true x y) : Trace b x y :=
  Relation.ReflTransGen.mono (fun _ _ ↦ Action.weaken) x y h

/-- Refused allocations are actions too. -/
theorem allow_refusals (h : Trace b x y) : Trace false x y := by
  cases b with
  | false => exact h
  | true => exact h.weaken

/-- What every action keeps holds after any number of them. -/
theorem invariant {P : List Nat × State Cells → Prop} (h : Trace b x y) (hx : P x)
    (hP : ∀ x y, Action b x y → P x → P y) : P y := by
  induction h with
  | refl => exact hx
  | tail _ h ih => exact hP _ _ h ih

end Trace

end

/-! ### Programs -/

/-- The error that a retry follows. -/
def Error.isSplit : Error → Bool
  | .pageSplit _ => true
  | _ => false

/-- The program is a sequence of actions from the pages at hand to those that its result names, and
back to the same pages on an error. -/
def Performs {α : Type} (held : List Nat) (x : EngineM Cells α) (after : α → List Nat) : Prop :=
  ∀ s, Ensures x s (fun a t ↦ Trace true (held, s) (after a, t))
    fun e t ↦ Trace e.isSplit (held, s) (held, t)

/-- The program holds the pages at its end that it held at its start. -/
abbrev Acts {α : Type} (held : List Nat) (x : EngineM Cells α) : Prop :=
  Performs held x fun _ ↦ held

/-- The program acquires a page. -/
abbrev Takes (held : List Nat) (x : EngineM Cells Nat) : Prop := Performs held x fun p ↦ p :: held

namespace Performs

variable {α β : Type} {held : List Nat} {p : Nat} {x : EngineM Cells α} {y : EngineM Cells Nat}

/-- A returned value takes no action. -/
theorem pure (a : α) : Acts held (Pure.pure a : EngineM Cells α) := fun _ ↦ .refl

private theorem throw {after : α → List Nat} (e : Error) :
    Performs held (throwThe Error e : EngineM Cells α) after := fun _ ↦ .refl

private theorem modify {f : State Cells → State Cells}
    (h : ∀ s, Action true (held, s) (held, f s)) :
    Acts held (modify f : EngineM Cells PUnit) := fun s ↦ .one (h s)

/-- A program that only reads. -/
private theorem of_preserves (h : ∀ P, Preserves P x) : Acts held x := by
  intro s
  refine (h (· = s) s rfl).mono ?_ ?_
  · rintro _ t rfl
    exact .refl
  · rintro _ t rfl
    exact .refl

private theorem bind {f : α → EngineM Cells β} {after : β → List Nat} (hx : Acts held x)
    (hf : ∀ a, Performs held (f a) after) : Performs held (x >>= f) after := by
  intro s
  exact (hx s).seq fun a t ht ↦
    (hf a t).mono (fun _ _ h ↦ ht.trans h) fun _ _ h ↦ ht.weaken.trans h

private theorem forM {f : α → EngineM Cells PUnit} (hf : ∀ a, Acts held (f a)) (l : List α) :
    Acts held (l.forM f) := by
  induction l with
  | nil => exact .pure _
  | cons a l ih => exact .bind (hf a) fun _ ↦ ih

private theorem dropped {b : Bool} {z : List Nat × State Cells} {t : State Cells}
    (h : Trace b z (p :: held, t)) :
    Trace b z (held, t.setPages (t.engine.pageManager.drop p)) := h.trans (.one (.drop rfl))

/-- Work on a page that was acquired, which is dropped after it. -/
private theorem ensures_withPage {s t : State Cells} (h : Trace true (held, s) (p :: held, t))
    (hx : Acts (p :: held) x) : Ensures (Engine.withPage p x) t
      (fun _ t' ↦ Trace true (held, s) (held, t'))
      fun e t' ↦ Trace e.isSplit (held, s) (held, t') := by
  have hrun := hx t
  simp only [Ensures, Engine.withPage] at hrun ⊢
  cases hr : x t with
  | ok a t' =>
    rw [hr] at hrun
    exact dropped (h.trans hrun)
  | error e t' =>
    rw [hr] at hrun
    exact dropped (h.weaken.trans hrun)

private theorem withPage {f : Nat → EngineM Cells α} (hy : Takes held y)
    (hf : ∀ p, Acts (p :: held) (f p)) :
    Acts held (y >>= fun p ↦ Engine.withPage p (f p)) := fun s ↦
  (hy s).seq fun p _ ht ↦ ensures_withPage ht (hf p)

private theorem withPage_bind {f : Nat → EngineM Cells α} {g : Nat → α → EngineM Cells β}
    (hy : Takes held y) (hf : ∀ p, Acts (p :: held) (f p)) (hg : ∀ p a, Acts held (g p a)) :
    Acts held (y >>= fun p ↦ Engine.withPage p (f p) >>= g p) := fun s ↦
  (hy s).seq fun p _ ht ↦ (ensures_withPage ht (hf p)).seq fun a t' ht' ↦
    (hg p a t').mono (fun _ _ h ↦ ht'.trans h) fun _ _ h ↦ ht'.weaken.trans h

end Performs

/-! ### Acquiring and dropping pages -/

private theorem preserves_liftPage {γ α : Type} {P : State γ → Prop} (x : Except PageError α) :
    Preserves P (liftPage x : EngineM γ α) := by
  cases x with
  | ok a => exact .pure a
  | error e => exact .throw _

/-- Reading a page changes nothing. -/
theorem preserves_getPage {γ : Type} {P : State γ → Prop} (id : Nat) : Preserves P (getPage id) :=
  .bind .get fun _ ↦ preserves_liftPage _

section
variable {held : List Nat} {p : Nat}

private theorem acts_liftPage {α : Type} (x : Except PageError α) : Acts held (liftPage x) :=
  .of_preserves fun _ ↦ preserves_liftPage x

private theorem acts_getPage (id : Nat) :
    Acts held (getPage id) := .of_preserves fun _ ↦ preserves_getPage id

private theorem acts_writeContents (hp : p ∈ held) (c : Cells) : Acts held (writeContents p c) :=
  .modify fun _ ↦ .write c hp rfl

private theorem acts_orphanPage (id : Nat) : Acts held (orphanPage id) := by
  intro s
  refine .intro (fun _ t h ↦ .one (.orphan id h)) fun e t h ↦ ?_
  simp only [orphanPage, bind_apply, get_apply] at h
  cases hm : s.engine.metaManager.push ⟨id, s.context.snapshotId⟩ with
  | some m =>
    rw [hm] at h
    cases h
  | none =>
    rw [hm] at h
    cases h
    exact .refl

/-- An allocation fails for want of a page only. -/
private theorem isSplit_allocatePage {s t : State Cells} {e : Error}
    (h : allocatePage s = .error e t) : e.isSplit = false := by
  cases e with
  | pageSplit n => exact absurd h (allocatePage_ne_pageSplit n)
  | _ => rfl

private theorem takes_allocatePage : Takes held allocatePage := fun _ ↦
  .intro (fun _ _ h ↦ .one (.allocate h)) fun _ _ h ↦ by
    rw [isSplit_allocatePage h]
    exact .one (.refuse h)

/-- An operation on the page just acquired, which is dropped if it fails. -/
private theorem ensures_dropOnError {α : Type} {x : EngineM Cells α} {s t : State Cells}
    (h : Trace true (held, s) (p :: held, t)) (hx : Acts (p :: held) x) :
    Ensures (dropOnError p x) t (fun _ t' ↦ Trace true (held, s) (p :: held, t'))
      fun e t' ↦ Trace e.isSplit (held, s) (held, t') := by
  have hrun := hx t
  simp only [Ensures, dropOnError] at hrun ⊢
  cases hr : x t with
  | ok a t' =>
    rw [hr] at hrun
    exact h.trans hrun
  | error e t' =>
    rw [hr] at hrun
    exact (h.weaken.trans hrun).trans (.one (.drop rfl))

private theorem takes_getMutClone (id : Nat) : Takes held (getMutClone id) := by
  intro s
  refine .bind (.intro (fun page t ht ↦ ?_) fun e t ht ↦ (acts_getPage id s).error ht)
  obtain ⟨rfl, -⟩ := getPage_eq_ok ht
  refine .bind (.get ?_)
  split
  · next hstamp =>
    refine .bind (.intro (fun _ t' h ↦ .one (.take ht hstamp h)) fun e t' h ↦ ?_)
    -- an access that fails leaves the state
    simp only [getMutPage, bind_apply, get_apply] at h
    cases hg : t.engine.pageManager.getMut t.context.snapshotId id with
    | error e' =>
      rw [hg] at h
      cases h
      exact .refl
    | ok m =>
      rw [hg] at h
      cases h
  · refine (takes_allocatePage t).seq fun new t₁ h₁ ↦ .bind (.get (.bind (ensures_modify ?_)))
    have h₂ :=
      h₁.trans (.one (.write (t₁.engine.pageManager.pages id).contents List.mem_cons_self rfl))
    exact (ensures_dropOnError h₂ (acts_orphanPage id)).seq fun _ t₃ h₃ ↦ h₃

/-! ### Cells and subtries -/

/-- A node operation changes nothing. -/
theorem preserves_liftNode {γ α : Type} {P : State γ → Prop} (x : Except NodeError α) :
    Preserves P (liftNode x : EngineM γ α) := by
  cases x with
  | ok a => exact .pure a
  | error e => exact .throw _

private theorem preserves_cells {P : State Cells → Prop} (p : Nat) : Preserves P (cells p) :=
  .bind .get fun _ ↦ .pure _

/-- Reading a cell changes nothing. -/
theorem preserves_getValue {P : State Cells → Prop} (p i : Nat) : Preserves P (getValue p i) :=
  .bind (preserves_cells p) fun _ ↦ preserves_liftPage _

private theorem acts_liftNode {α : Type} (x : Except NodeError α) : Acts held (liftNode x) :=
  .of_preserves fun _ ↦ preserves_liftNode x

private theorem acts_cells (p : Nat) :
    Acts held (cells p) := .of_preserves fun _ ↦ preserves_cells p

private theorem acts_getValue (p i : Nat) : Acts held (getValue p i) :=
  .of_preserves fun _ ↦ preserves_getValue p i

private theorem acts_nextFreeCellIndex (p : Nat) : Acts held (nextFreeCellIndex p) :=
  .bind (acts_cells p) fun _ ↦ acts_liftPage _

private theorem acts_numFreeBytes [AlloyTrie] (p : Nat) : Acts held (numFreeBytes p) :=
  .bind (acts_cells p) fun _ ↦ .pure _

private theorem acts_deleteValue (hp : p ∈ held) (i : Nat) :
    Acts held (deleteValue p i) :=
  .bind (acts_cells p) fun _ ↦ acts_writeContents hp _

private theorem acts_swapCellPointers (hp : p ∈ held) (i j : Nat) :
    Acts held (swapCellPointers p i j) :=
  .bind (acts_cells p) fun _ ↦ .bind (acts_liftPage _) fun _ ↦
    acts_writeContents hp _

private theorem acts_orphanIfRoot (p i : Nat) : Acts held (orphanIfRoot p i) := by
  unfold orphanIfRoot
  split
  · exact acts_orphanPage p
  · exact .pure _

private theorem acts_forChildren {visit : Location → EngineM Cells Unit}
    (node : Node) (hv : ∀ l, Acts held (visit l)) : Acts held (forChildren node visit) := by
  unfold forChildren
  split
  · exact .bind (acts_liftNode _) fun children ↦ .forM (fun c ↦ hv c.2.location) children
  · exact .pure _

private theorem acts_orphanSubtrie (fuel p i : Nat) :
    Acts held (orphanSubtrie fuel p i) := by
  induction fuel generalizing p i with
  | zero => exact .throw _
  | succ fuel ih =>
    refine .bind (acts_getValue p i) fun node ↦ .bind ?_ fun _ ↦ acts_orphanIfRoot p i
    apply acts_forChildren
    intro l
    cases l with
    | cell c => exact ih p c
    | page q => exact .bind (acts_getPage q) fun _ ↦ ih q 0

private theorem acts_deleteSubtrie (hp : p ∈ held) (fuel i : Nat) :
    Acts held (deleteSubtrie fuel p i) := by
  induction fuel generalizing i with
  | zero => exact .throw _
  | succ fuel ih =>
    unfold deleteSubtrie
    split
    · exact acts_orphanSubtrie fuel p i
    · refine .bind (acts_getValue p i) fun node ↦ .bind ?_ fun _ ↦ acts_deleteValue hp i
      apply acts_forChildren
      intro l
      cases l with
      | cell c => exact ih c
      | page q => exact .bind (acts_getPage q) fun _ ↦ acts_orphanSubtrie fuel q 0

variable [AlloyTrie]

private theorem acts_setValue (hp : p ∈ held) (i : Nat) (n : Node) :
    Acts held (setValue p i n) :=
  .bind (acts_cells p) fun _ ↦ .bind (acts_writeContents hp _) fun _ ↦
    acts_liftPage _

private theorem acts_insertValue (hp : p ∈ held) (n : Node) :
    Acts held (insertValue p n) :=
  .bind (acts_cells p) fun _ ↦ .bind (acts_liftPage _) fun _ ↦
    .bind (acts_writeContents hp _) fun _ ↦ .pure _

omit [AlloyTrie] in
private theorem acts_moveChildren {move : Nat → EngineM Cells Location}
    (hm : ∀ c, Acts held (move c)) (places : List (Fin 16)) (node : Node) :
    Acts held (moveChildren move places node) := by
  induction places generalizing node with
  | nil => exact .pure _
  | cons i rest ih =>
    unfold moveChildren
    split
    · exact .bind (hm _) fun _ ↦ .bind (acts_liftNode _) fun node ↦ ih node
    · exact ih node

private theorem acts_moveBelow {move : Nat → EngineM Cells Location} {target : Nat}
    (hm : ∀ c, Acts held (move c)) (ht : target ∈ held) (new : Nat) (node : Node) :
    Acts held (moveBelow move target new node) := by
  unfold moveBelow
  split
  · exact .bind (acts_getValue target new) fun _ ↦ .bind (acts_moveChildren hm _ _)
      fun _ ↦ acts_setValue ht new _
  · exact .pure _

private theorem acts_moveSubtrieNodes {source target : Nat} (hs : source ∈ held)
    (ht : target ∈ held) (fuel i : Nat) :
    Acts held (moveSubtrieNodes source target fuel i) := by
  induction fuel generalizing i with
  | zero => exact .throw _
  | succ fuel ih =>
    exact .bind (acts_getValue source i) fun node ↦ .bind (acts_deleteValue hs i) fun _ ↦
      .bind (acts_insertValue ht node) fun new ↦ .bind (acts_moveBelow ih ht new node)
        fun _ ↦ .pure _

private theorem acts_splitLoop (hp : p ∈ held) (fuel : Nat) (children : List LocalChild)
    (root : Node) : Acts held (splitLoop fuel p children root) := by
  induction children generalizing root with
  | nil =>
    refine .bind (acts_numFreeBytes p) fun free ↦ ?_
    split
    · exact takes_allocatePage.withPage fun child ↦ .throw _
    · exact .pure _
  | cons c rest ih =>
    refine .bind (acts_numFreeBytes p) fun free ↦ ?_
    split
    · refine takes_allocatePage.withPage_bind (fun child ↦ ?_) fun _ root ↦ ih root
      exact .bind (acts_moveSubtrieNodes (List.mem_cons_of_mem child hp) List.mem_cons_self
        fuel c.cell) fun _ ↦ acts_liftNode _
    · exact .pure _

private theorem acts_splitPage (hp : p ∈ held) (fuel : Nat) :
    Acts held (splitPage fuel p) :=
  .bind (acts_getValue p 0) fun root ↦ .bind (acts_liftNode _) fun _ ↦
    .bind (acts_cells p) fun _ ↦ .bind (acts_splitLoop hp fuel _ root) fun root ↦
      acts_setValue hp 0 root

/-! ### Handlers -/

/-- The recursive call writes only pages at hand, besides those it acquires. -/
def VisitActs (visit : Changes → Nat → Nat → Nat → EngineM Cells PointerChange) : Prop :=
  ∀ held changes pathOffset p i, p ∈ held →
    Acts held (visit changes pathOffset p i)

variable {visit : Changes → Nat → Nat → Nat → EngineM Cells PointerChange}

omit [AlloyTrie] in
private theorem acts_retryLoop (hv : VisitActs visit) (hp : p ∈ held) (pathOffset splits : Nat)
    (changes : Changes) : Acts held (retryLoop visit pathOffset p splits changes) := by
  induction splits generalizing changes with
  | zero =>
    intro s
    have hrun := hv held changes pathOffset p 0 hp s
    simp only [Ensures, retryLoop] at hrun ⊢
    cases hr : visit changes pathOffset p 0 s with
    | ok a t =>
      rw [hr] at hrun
      exact hrun
    | error e t =>
      rw [hr] at hrun
      cases e with
      | pageSplit handled => exact hrun.weaken
      | _ => exact hrun
  | succ splits ih =>
    intro s
    have hrun := hv held changes pathOffset p 0 hp s
    simp only [Ensures, retryLoop] at hrun ⊢
    cases hr : visit changes pathOffset p 0 s with
    | ok a t =>
      rw [hr] at hrun
      exact hrun
    | error e t =>
      rw [hr] at hrun
      cases e with
      | pageSplit handled =>
        exact (ih (changes.drop handled) t).mono (fun _ _ h ↦ hrun.trans h)
          fun _ _ h ↦ hrun.weaken.trans h
      | _ => exact hrun

omit [AlloyTrie] in
private theorem acts_setValuesInPage (hv : VisitActs visit) (changes : Changes)
    (pathOffset pageId : Nat) :
    Acts held (setValuesInPage visit changes pathOffset pageId) :=
  (takes_getMutClone pageId).withPage fun _ ↦
    acts_retryLoop hv List.mem_cons_self pathOffset 20 changes

private theorem acts_splitAndRestart {α : Type} (hp : p ∈ held) (fuel : Nat) :
    Acts held (splitAndRestart fuel p : EngineM Cells α) :=
  .bind (acts_splitPage hp fuel) fun _ ↦ .throw _

private theorem acts_updateNodeChild (hp : p ∈ held) (node : Node) (i : Nat) (new : Option Pointer)
    (childIndex : Fin 16) :
    Acts held (updateNodeChild node p i new childIndex) :=
  .bind (acts_liftNode _) fun node ↦ .bind (acts_setValue hp i node) fun _ ↦ .pure _

private theorem acts_applyPointerChange (hp : p ∈ held) (node : Node) (i : Nat)
    (childIndex : Fin 16) (change : PointerChange) :
    Acts held (applyPointerChange node p i childIndex change) := by
  cases change with
  | none => exact .pure _
  | update new => exact acts_updateNodeChild hp node i (some new) childIndex
  | delete => exact acts_updateNodeChild hp node i none childIndex

private theorem acts_handleMissingParentBranch (hv : VisitActs visit) (hp : p ∈ held)
    (fuel : Nat) (changes : Changes) (pathOffset i : Nat) (node : Node) (commonPrefix : Nibbles) :
    Acts held
      (handleMissingParentBranch fuel visit changes pathOffset p i node commonPrefix) := by
  refine .bind (acts_liftNode _) fun branch ↦ .bind (acts_numFreeBytes p) fun free ↦ ?_
  split
  · exact acts_splitAndRestart hp fuel
  · split
    · exact .throw _
    · exact .bind (acts_liftNode _) fun node ↦ .bind (acts_setValue hp i node) fun _ ↦
        .bind (acts_nextFreeCellIndex p) fun new ↦ .bind (acts_liftNode _) fun branch ↦
        .bind (acts_insertValue hp branch) fun _ ↦
        .bind (acts_swapCellPointers hp i new) fun _ ↦ hv held changes pathOffset p i hp

omit [AlloyTrie] in
private theorem acts_visitChild (hv : VisitActs visit) (hp : p ∈ held) (changes : Changes)
    (pathOffset : Nat) (l : Location) :
    Acts held (visitChild visit changes pathOffset p l) := by
  cases l with
  | cell c => exact hv held changes pathOffset p c hp
  | page q => exact acts_setValuesInPage hv changes pathOffset q

private theorem acts_handleChildNodeTraversal (hv : VisitActs visit) (hp : p ∈ held)
    (fuel : Nat) (changes : Changes) (pathOffset i : Nat) (node : Node) (commonPrefix : Nibbles)
    (childIndex : Fin 16) :
    Acts held
      (handleChildNodeTraversal fuel visit changes pathOffset p i node commonPrefix
        childIndex) := by
  refine .bind (acts_liftNode _) fun child ↦ ?_
  split
  · exact .bind (acts_visitChild hv hp changes _ _) fun change ↦
      acts_applyPointerChange hp node i childIndex change
  · split
    · refine .bind (acts_liftNode _) fun new ↦ .bind (acts_numFreeBytes p) fun free ↦ ?_
      split
      · exact acts_splitAndRestart hp fuel
      · refine .bind (acts_insertValue hp new) fun c ↦ .bind (acts_liftNode _) fun node ↦
          .bind (acts_setValue hp i node) fun _ ↦ ?_
        split
        · exact .pure _
        · exact .bind (hv held _ _ p c hp) fun change ↦
            acts_applyPointerChange hp node i childIndex change
    · exact .pure _

omit [AlloyTrie] in
private theorem acts_addHandled {α : Type} {x : EngineM Cells α} (hx : Acts held x)
    (handled : Nat) : Acts held (addHandled handled x) := by
  intro s
  have hrun := hx s
  simp only [Ensures, addHandled] at hrun ⊢
  cases hr : x s with
  | ok a t =>
    rw [hr] at hrun
    exact hrun
  | error e t =>
    rw [hr] at hrun
    cases e <;> exact hrun

private theorem acts_traverseChildren (hv : VisitActs visit) (hp : p ∈ held) (fuel : Nat)
    (pathOffset i : Nat) (commonPrefix : Nibbles) (places : List (Fin 16)) (remaining : Changes)
    (handled : Nat) (node : Node) :
    Acts held
      (traverseChildren fuel visit pathOffset p i commonPrefix places remaining handled node) := by
  induction places generalizing remaining handled node with
  | nil => exact .pure _
  | cons j js ih =>
    simp only [traverseChildren]
    split
    · exact ih _ _ _
    · exact .bind (acts_addHandled (acts_handleChildNodeTraversal hv hp fuel _ _ _ _ _ _)
        _) fun node ↦ ih _ _ node

private theorem acts_mergeWithChildOnSamePage (hp : p ∈ held) (i child : Nat)
    (pathPrefix : Nibbles) : Acts held (mergeWithChildOnSamePage p i child pathPrefix) :=
  .bind (acts_getValue p child) fun _ ↦ .bind (acts_liftNode _) fun childNode ↦
    .bind (acts_deleteValue hp child) fun _ ↦ .bind (acts_setValue hp i childNode)
      fun _ ↦ .pure _

private theorem acts_ensureRoom (hp : p ∈ held) (fuel : Nat) :
    Acts held (ensureRoom fuel p) := by
  refine .bind (acts_numFreeBytes p) fun free ↦ ?_
  split
  · exact acts_splitPage hp fuel
  · exact .pure _

private theorem acts_mergeWithChildOnDifferentPage {childPage : Nat} (hp : p ∈ held)
    (hc : childPage ∈ held) (fuel i : Nat) (pathPrefix : Nibbles) :
    Acts held (mergeWithChildOnDifferentPage fuel p i childPage pathPrefix) :=
  .bind (acts_ensureRoom hc fuel) fun _ ↦ .bind (acts_deleteValue hp i) fun _ ↦
    .bind (acts_getValue childPage 0) fun _ ↦ .bind (acts_liftNode _) fun childNode ↦
    .bind (acts_setValue hc 0 childNode) fun _ ↦ .bind (acts_orphanIfRoot p i) fun _ ↦
    .pure _

private theorem acts_mergeBranchWithOnlyChild (hp : p ∈ held) (fuel i : Nat) (node : Node)
    (index : Fin 16) (pointer : Pointer) :
    Acts held (mergeBranchWithOnlyChild fuel p i node index pointer) := by
  unfold mergeBranchWithOnlyChild
  split
  · exact acts_mergeWithChildOnSamePage hp i _ _
  · exact (takes_getMutClone _).withPage fun childPage ↦
      acts_mergeWithChildOnDifferentPage (List.mem_cons_of_mem childPage hp)
        List.mem_cons_self fuel i _

private theorem acts_handleBranchNodeCleanup (hp : p ∈ held) (fuel i : Nat) (node : Node) :
    Acts held (handleBranchNodeCleanup fuel p i node) := by
  refine .bind (acts_liftNode _) fun children ↦ ?_
  split
  · exact .bind (acts_deleteValue hp i) fun _ ↦ .bind (acts_orphanIfRoot p i) fun _ ↦
      .pure _
  · exact acts_mergeBranchWithOnlyChild hp fuel i node _ _
  · exact .pure _

private theorem acts_handleBranchNodeTraversal (hv : VisitActs visit) (hp : p ∈ held)
    (fuel : Nat) (changes : Changes) (pathOffset i : Nat) (node : Node) (commonPrefix : Nibbles) :
    Acts held
      (handleBranchNodeTraversal fuel visit changes pathOffset p i node commonPrefix) := by
  refine .bind (acts_traverseChildren hv hp fuel pathOffset i commonPrefix _ changes 0 node)
    fun r ↦ ?_
  show Acts held (if r.1 = changes.length then _ else _)
  split
  · exact acts_handleBranchNodeCleanup hp fuel i _
  · exact .throw _

omit [AlloyTrie] in
private theorem acts_giveUp (hp : p ∈ held) (fuel i : Nat) (node : Node) :
    Acts held (giveUp fuel p i node) := by
  unfold giveUp
  split
  · exact acts_deleteSubtrie hp fuel i
  · split
    · exact .modify fun _ ↦ .stray p
    · exact .pure _

omit [AlloyTrie] in
private theorem acts_deleteNode (hp : p ∈ held) (fuel : Nat) (changes : Changes) (i : Nat)
    (node : Node) : Acts held (deleteNode fuel changes p i node) := by
  refine .bind (acts_giveUp hp fuel i node) fun _ ↦ .bind (acts_deleteValue hp i)
    fun _ ↦ ?_
  split
  · exact .pure _
  · exact .throw _

/-- The write of a leaf that `handle_exact_prefix_match` ends in, with the other changes after it.
-/
private theorem acts_writeLeaf (hv : VisitActs visit) (hp : p ∈ held) (fuel : Nat)
    (rest : Changes) (pathOffset i size : Nat) (new : Node) (updated : PointerChange)
    {finish : PointerChange → EngineM Cells PointerChange}
    (hfinish : ∀ change, Acts held (finish change)) :
    Acts held (do
      if (← numFreeBytes p) < size then splitAndRestart fuel p
      else
        setValue p i new
        if rest.isEmpty then pure updated else visit rest pathOffset p i >>= finish) := by
  refine .bind (acts_numFreeBytes p) fun free ↦ ?_
  split
  · exact acts_splitAndRestart hp fuel
  · refine .bind (acts_setValue hp i new) fun _ ↦ ?_
    split
    · exact .pure _
    · exact .bind (hv held rest pathOffset p i hp) hfinish

private theorem acts_replaceNode (hv : VisitActs visit) (hp : p ∈ held) (fuel : Nat)
    (rest : Changes) (pathOffset i : Nat) (node : Node) (path : Nibbles) (value : TrieValue) :
    Acts held
      (replaceNode fuel visit rest pathOffset p i node path value) := by
  refine .bind (acts_liftNode _) fun new ↦ ?_
  -- the ways to find the storage of the node end in the same write
  dsimp only
  split
  · refine .bind (acts_liftNode _) fun new ↦ ?_
    apply acts_writeLeaf hv hp
    intro change
    cases change with
    | delete => exact .throw _
    | _ => exact .pure _
  · apply acts_writeLeaf hv hp
    intro change
    cases change with
    | delete => exact .throw _
    | _ => exact .pure _
  · exact .throw _

private theorem acts_handleExactPrefixMatch (hv : VisitActs visit) (hp : p ∈ held)
    (fuel : Nat) (changes : Changes) (pathOffset i : Nat) (node : Node) (path : Nibbles)
    (value : Option TrieValue) :
    Acts held
      (handleExactPrefixMatch fuel visit changes pathOffset p i node path value) := by
  cases value with
  | none => exact acts_deleteNode hp fuel changes i node
  | some value =>
    refine .bind (acts_liftNode _) fun stored ↦ ?_
    split
    · split
      · exact .pure _
      · exact hv held _ pathOffset p i hp
    · exact acts_replaceNode hv hp fuel _ pathOffset i node path value

private theorem acts_createFirstStorageNode (hv : VisitActs visit) (hp : p ∈ held)
    (fuel : Nat) (changes : Changes) (pathOffset i : Nat) (node : Node) (commonPrefix : Nibbles) :
    Acts held
      (createFirstStorageNode fuel visit changes pathOffset p i node commonPrefix) := by
  unfold createFirstStorageNode
  split
  · exact .pure _
  · exact hv held _ pathOffset p i hp
  · refine .bind (acts_liftNode _) fun new ↦ .bind (acts_numFreeBytes p) fun free ↦ ?_
    split
    · exact acts_splitAndRestart hp fuel
    · refine .bind (acts_insertValue hp new) fun c ↦ .bind (acts_liftNode _) fun node ↦
        .bind (acts_setValue hp i node) fun _ ↦ ?_
      split
      · exact .pure _
      · exact hv held _ pathOffset p i hp

private theorem acts_handleAccountNodeTraversal (hv : VisitActs visit) (hp : p ∈ held)
    (fuel : Nat) (changes : Changes) (pathOffset i : Nat) (node : Node) (commonPrefix : Nibbles) :
    Acts held
      (handleAccountNodeTraversal fuel visit changes pathOffset p i node commonPrefix) := by
  refine .bind (acts_liftNode _) fun child ↦ ?_
  split
  · refine .bind (acts_visitChild hv hp changes _ _) fun change ↦ ?_
    split
    · exact .pure _
    · exact .bind (acts_applyPointerChange hp node i 0 _) fun _ ↦ .pure _
  · exact acts_createFirstStorageNode hv hp fuel changes pathOffset i node commonPrefix

/-! ### The call -/

private theorem visitActs_visitNode (hv : VisitActs visit) (fuel : Nat) :
    VisitActs (visitNode fuel visit) := by
  intro held changes pathOffset p i hp
  cases changes with
  | nil => exact .pure _
  | cons first others =>
    refine .bind (acts_getValue p i) fun node ↦ ?_
    dsimp only
    generalize (if (findShortestCommonPrefix first (others.getLastD first) (first :: others).length
      pathOffset node).1 = 0 then first else others.getLastD first) = change
    obtain ⟨fullPath, value⟩ := change
    split
    · split
      · split
        · exact hv held _ pathOffset p i hp
        · split
          · exact hv held _ pathOffset p i hp
          · exact .throw _
      · exact acts_handleMissingParentBranch hv hp fuel _ pathOffset i node _
    · split
      · split
        · exact acts_handleExactPrefixMatch hv hp fuel _ pathOffset i node _ _
        · exact .throw _
      · split
        · exact acts_handleAccountNodeTraversal hv hp fuel _ pathOffset i node _
        · split
          · exact acts_handleBranchNodeTraversal hv hp fuel _ pathOffset i node _
          · exact .throw _

private theorem visitActs_setValuesInClonedPage (fuel : Nat) :
    VisitActs (setValuesInClonedPage fuel) := by
  induction fuel with
  | zero => exact fun _ _ _ _ _ _ ↦ .throw _
  | succ fuel ih => exact visitActs_visitNode ih fuel

omit [AlloyTrie] in
private theorem acts_setRoot (pointer : Pointer) : Acts held (setRoot pointer) := by
  refine .bind ?_ fun hash ↦ .modify fun s ↦ .context _ rfl rfl fun _ _ hc ↦ hc
  unfold rootHash
  split
  · exact .pure _
  · exact .throw _

private theorem acts_initializeEmptyTrie (hp : p ∈ held) (path : Nibbles) (value : TrieValue) :
    Acts held (initializeEmptyTrie path value p) := by
  refine .bind (acts_liftNode _) fun new ↦ .bind (acts_insertValue hp new) fun i ↦ ?_
  split
  · exact .pure _
  · exact .throw _

private theorem acts_setFirstValue (changes : Changes) :
    Acts held (setFirstValue changes) := by
  refine takes_allocatePage.withPage fun p ↦ ?_
  split
  · exact .bind (acts_initializeEmptyTrie List.mem_cons_self _ _) fun pointer ↦
      .bind (acts_setRoot pointer) fun _ ↦ .pure _
  · exact .throw _

omit [AlloyTrie] in
/-- A location that is still known was known, and no change is for a slot of its account. -/
theorem invalidateCache_eq_some {changes : Changes} {ctx : TransactionContext} {a : Nibbles}
    {c : Nat × Nat} (h : (invalidateCache changes ctx).contractAccountLocCache a = some c) :
    ctx.contractAccountLocCache a = some c ∧
      ∀ d ∈ changes, d.1.length = storagePathLength → d.1.take addressPathLength ≠ a := by
  simp only [invalidateCache] at h
  split at h
  · cases h
  · next hany =>
    refine ⟨h, fun d hd hlen htake ↦ hany ?_⟩
    rw [List.any_eq_true]
    exact ⟨d, hd, decide_eq_true ⟨hlen, htake⟩⟩

/-- A call on a trie with a root, from the state in which the locations are forgotten. -/
theorem ensures_setValuesAtRoot (fuel : Nat) (changes : Changes) (s : State Cells) :
    Ensures (setValuesAtRoot fuel changes) s
      (fun _ t ↦ Trace true (held, { s with context := invalidateCache changes s.context })
        (held, t))
      fun e t ↦ Trace e.isSplit (held, { s with context := invalidateCache changes s.context })
        (held, t) := by
  refine .bind (ensures_modify (.bind (.get ?_)))
  split
  · exact .refl
  · refine (acts_setValuesInPage (visitActs_setValuesInClonedPage fuel) changes 0 _ _).seq
      fun change t ht ↦ ?_
    cases change with
    | none => exact ht
    | update pointer =>
      exact (acts_setRoot pointer t).mono (fun _ _ h ↦ ht.trans h) fun _ _ h ↦ ht.weaken.trans h
    | delete => exact ht.trans (.one (.context _ rfl rfl fun _ _ hc ↦ hc))

private theorem acts_setValuesAtRoot (fuel : Nat) (changes : Changes) :
    Acts held (setValuesAtRoot fuel changes) := by
  intro s
  have hforget {b : Bool} : Trace b (held, s)
      (held, { s with context := invalidateCache changes s.context }) :=
    .one (.context _ rfl rfl fun _ _ hc ↦ (invalidateCache_eq_some hc).1)
  exact (ensures_setValuesAtRoot fuel changes s).mono (fun _ _ h ↦ hforget.trans h)
    fun _ _ h ↦ hforget.trans h

/-- A call of `set_values` is a sequence of actions. -/
theorem acts_setValues (fuel : Nat) (changes : Changes) : Acts held (setValues fuel changes) := by
  refine .bind (.of_preserves fun _ ↦ .get) fun s ↦ ?_
  split
  · refine .bind (acts_setFirstValue _) fun rest ↦ ?_
    split
    · exact .pure _
    · exact acts_setValuesAtRoot fuel rest
  · exact acts_setValuesAtRoot fuel _

end

end TrieDb.Engine

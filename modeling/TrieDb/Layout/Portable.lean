import TrieDb.Engine.Proofs

/-!
# Reads on another engine

A read looks at pages through `PageManager::get` and at the root and the locations of its context.
Where another engine shows the same pages, it returns the same. Reads of accounts may remember a
location; reads with proofs leave the context alone.
-/

namespace TrieDb.Layout

open Base Engine

variable {e e' : StorageEngine Cells} {s s' : State Cells} {k : Nat}

/-- What can be read of an engine can be read of another. -/
structure Shows (e e' : StorageEngine Cells) : Prop where
  get : ∀ q page, e.pageManager.get q = .ok page → e'.pageManager.get q = .ok page
  contents : ∀ q, (e'.pageManager.pages q).contents = (e.pageManager.pages q).contents

/-- The same transaction on another engine. -/
def transfer (e : StorageEngine Cells) (k : Nat) (l : List Nat) (s : State Cells) : State Cells :=
  ⟨e, { s.context with snapshotId := k }, l⟩

/-- Only the locations in the context may differ. -/
def Relocates (s s' : State Cells) : Prop :=
  ∃ cache, s' = { s with context := { s.context with contractAccountLocCache := cache } }

/-- The program at most remembers locations, and on another engine that shows what it reads it does
the same. -/
def Portable {α : Type} (x : EngineM Cells α) : Prop :=
  ∀ s v s', x s = .ok v s' → Relocates s s' ∧
    ∀ e k l, Shows s.engine e → x (transfer e k l s) = .ok v (transfer e k l s')

/-- The program only reads, and on another engine that shows what it reads it returns the same. -/
def Observes {α : Type} (x : EngineM Cells α) : Prop :=
  ∀ s v s', x s = .ok v s' → s' = s ∧
    ∀ e k l, Shows s.engine e → x (transfer e k l s) = .ok v (transfer e k l s)

/-- The cache may stay as it is. -/
theorem Relocates.refl (s : State Cells) : Relocates s s := ⟨_, rfl⟩

private theorem Relocates.trans {s'' : State Cells} (h : Relocates s s') (h' : Relocates s' s'') :
    Relocates s s'' := by
  obtain ⟨cache, rfl⟩ := h
  obtain ⟨cache', rfl⟩ := h'
  exact ⟨cache', rfl⟩

namespace Observes

variable {α β : Type} {x : EngineM Cells α}

/-- What changes nothing does not depend on the cache. -/
theorem portable (h : Observes x) : Portable x := by
  intro s v s' hrun
  obtain ⟨rfl, hother⟩ := h s v s' hrun
  exact ⟨.refl _, hother⟩

private theorem pure (a : α) : Observes (Pure.pure a : EngineM Cells α) := by
  intro s v s' h
  cases h
  exact ⟨rfl, fun _ _ _ _ ↦ rfl⟩

private theorem throw (err : Error) : Observes (throwThe Error err : EngineM Cells α) := by
  intro s v s' h
  cases h

private theorem bind {f : α → EngineM Cells β} (hx : Observes x) (hf : ∀ a, Observes (f a)) :
    Observes (x >>= f) := by
  intro s v s'' h
  obtain ⟨a, s', hs, hs'⟩ := bind_eq_ok.mp h
  obtain ⟨rfl, hother⟩ := hx s a s' hs
  obtain ⟨rfl, hother'⟩ := hf a _ v s'' hs'
  exact ⟨rfl, fun e k l he ↦ bind_eq_ok.mpr ⟨a, _, hother e k l he, hother' e k l he⟩⟩

/-- A program that uses the root of its context. -/
private theorem get_bind {f : State Cells → EngineM Cells α} (hf : ∀ s, Observes (f s))
    (hsame : ∀ s e k l, f (transfer e k l s) = f s) : Observes (get >>= f) := by
  intro s v s' h
  obtain ⟨hrel, hother⟩ := hf s s v s' h
  refine ⟨hrel, fun e k l he ↦ ?_⟩
  rw [bind_apply, get_apply]
  simp only [hsame]
  exact hother e k l he

end Observes

namespace Portable

variable {α β : Type} {x : EngineM Cells α}

private theorem pure (a : α) : Portable (Pure.pure a : EngineM Cells α) := by
  intro s v s' h
  cases h
  exact ⟨.refl s, fun _ _ _ _ ↦ rfl⟩

private theorem throw (err : Error) : Portable (throwThe Error err : EngineM Cells α) := by
  intro s v s' h
  cases h

private theorem bind {f : α → EngineM Cells β} (hx : Portable x) (hf : ∀ a, Portable (f a)) :
    Portable (x >>= f) := by
  intro s v s'' h
  obtain ⟨a, s', hs, hs'⟩ := bind_eq_ok.mp h
  obtain ⟨hsame, hport⟩ := hx s a s' hs
  obtain ⟨hsame', hport'⟩ := hf a s' v s'' hs'
  refine ⟨hsame.trans hsame', fun e k l he ↦ ?_⟩
  obtain ⟨cache, rfl⟩ := hsame
  exact bind_eq_ok.mpr ⟨a, _, hport e k l he, hport' e k l he⟩

/-- A program that uses the root and the locations of its context. -/
private theorem get_bind {f : State Cells → EngineM Cells α} (hf : ∀ s, Portable (f s))
    (hsame : ∀ s e k l, f (transfer e k l s) = f s) : Portable (get >>= f) := by
  intro s v s' h
  obtain ⟨hrel, hport⟩ := hf s s v s' h
  refine ⟨hrel, fun e k l he ↦ ?_⟩
  rw [bind_apply, get_apply]
  simp only [hsame]
  exact hport e k l he

end Portable

private theorem observes_liftPage {α : Type} (r : Except PageError α) : Observes (liftPage r) := by
  cases r with
  | ok a => exact .pure a
  | error e => exact .throw _

private theorem observes_liftNode {α : Type} (r : Except NodeError α) : Observes (liftNode r) := by
  cases r with
  | ok a => exact .pure a
  | error e => exact .throw _

private theorem observes_getPage (q : Nat) : Observes (getPage q) := by
  intro s page s' h
  obtain ⟨rfl, -⟩ := getPage_eq_ok h
  refine ⟨rfl, fun e k l he ↦ ?_⟩
  simp only [getPage, bind_apply, get_apply] at h ⊢
  cases hg : s'.engine.pageManager.get q with
  | error err => simp [hg] at h
  | ok page' =>
    simp only [hg, liftPage_ok, EStateM.Result.ok.injEq, and_true] at h
    subst h
    simp only [transfer, he.get q page' hg, liftPage_ok]

private theorem observes_cells (p : Nat) : Observes (cells p) := by
  intro s v s' h
  cases h
  refine ⟨rfl, fun e k l he ↦ ?_⟩
  simp only [cells, bind_apply, get_apply, pure_apply, transfer, he.contents]

private theorem observes_getValue (p i : Nat) : Observes (getValue p i) :=
  .bind (observes_cells p) fun _ ↦ observes_liftPage _

/-! ### Plain reads -/

section
variable [AlloyTrie] (path : Nibbles)

private theorem portable_noteAccount (p i : Nat) (v : TrieValue) :
    Portable (noteAccount path p i v) := by
  cases v with
  | storage v => exact .pure _
  | account a =>
    simp only [noteAccount]
    split
    · intro s v s' h
      cases h
      exact ⟨⟨_, rfl⟩, fun _ _ _ _ ↦ rfl⟩
    · exact .pure _

private theorem portable_getValueFromPage (fuel offset p i : Nat) :
    Portable (getValueFromPage path fuel offset p i) := by
  induction fuel generalizing offset p i with
  | zero => exact .throw _
  | succ fuel ih =>
    refine .bind (observes_getValue p i).portable fun n ↦ ?_
    dsimp only
    split
    · exact .pure _
    · split
      · exact .bind (observes_liftNode _).portable fun v ↦
          .bind (portable_noteAccount path p i v) fun _ ↦ .pure _
      · refine .bind ?_ fun next ↦ ?_
        · unfold nextPointer
          split
          · exact .pure _
          · exact .pure _
          · exact .throw _
        · split
          · exact ih _ _ _
          · exact .bind (observes_getPage _).portable fun _ ↦ ih _ _ _
          · exact .pure _

/-- `get_account` returns the same whatever the cache holds. -/
theorem portable_getAccount (fuel : Nat) : Portable (getAccount fuel path) := by
  refine .get_bind (fun s ↦ ?_) fun _ _ _ _ ↦ rfl
  split
  · exact .pure _
  · refine .bind (observes_getPage _).portable fun _ ↦
      .bind (portable_getValueFromPage path fuel _ _ _) fun v ↦ ?_
    split
    · exact .pure _
    · exact .pure _

omit [AlloyTrie] in
private theorem portable_storageStart (root : Nat) : Portable (storageStart path root) := by
  refine .get_bind (fun s ↦ ?_) fun _ _ _ _ ↦ rfl
  split
  · refine .bind (observes_getPage _).portable fun _ ↦
      .bind (observes_getValue _ _).portable fun n ↦
      .bind (observes_liftNode _).portable fun child ↦ ?_
    split
    · exact .pure _
    · exact .pure _
    · exact .bind (observes_getPage _).portable fun _ ↦ .pure _
  · exact .bind (observes_getPage _).portable fun _ ↦ .pure _

/-- `get_storage` returns the same from the same place. -/
theorem portable_getStorage (fuel : Nat) : Portable (getStorage fuel path) := by
  refine .get_bind (fun s ↦ ?_) fun _ _ _ _ ↦ rfl
  split
  · exact .pure _
  · refine .bind (portable_storageStart path _) fun start ↦ ?_
    split
    · exact .pure _
    · refine .bind (portable_getValueFromPage path fuel _ _ _) fun v ↦ ?_
      split
      · exact .pure _
      · exact .pure _

end

/-! ### Reads with proofs -/

private theorem observes_fromSlice (bytes : List UInt8) : Observes (fromSlice bytes) := by
  unfold fromSlice
  split
  · exact .pure _
  · exact .throw _

private theorem observes_decodeField (size : Nat) (rlp : List UInt8) (message : String) :
    Observes (decodeField size rlp message) := by
  unfold decodeField
  split
  · exact .pure _
  · exact .throw _

private theorem observes_rootHash (rlp : RlpNode) : Observes (Engine.rootHash rlp) := by
  unfold Engine.rootHash
  split
  · exact .pure _
  · exact .throw _

section
variable [AlloyTrie] (path : Nibbles)

private theorem observes_getStorageProofFromPage (fuel offset p i : Nat) (proof : StorageProof) :
    Observes (getStorageProofFromPage path fuel offset p i proof) := by
  induction fuel generalizing offset p i proof with
  | zero => exact .throw _
  | succ fuel ih =>
    refine .bind (observes_getValue p i) fun n ↦ ?_
    dsimp only
    split
    · exact .pure _
    · split
      · split
        · exact .pure _
        · exact .throw _
        · exact .throw _
        · exact .throw _
      · split
        · exact .throw _
        · split
          · split
            · exact ih _ _ _ _
            · exact .bind (observes_getPage _) fun _ ↦ ih _ _ _ _
            · exact .pure _
          · exact .throw _

private theorem observes_getStorageProofAt (fuel p : Nat) (remaining : Nibbles)
    (location : Location) : Observes (getStorageProofAt fuel p remaining location) := by
  cases location with
  | cell c => exact observes_getStorageProofFromPage remaining fuel 0 p c _
  | page q =>
    exact .bind (observes_getPage q) fun _ ↦
      observes_getStorageProofFromPage remaining fuel 0 q 0 _

private theorem observes_getStorageProof (fuel p : Nat) (remaining : Nibbles)
    (root : Option Pointer)
    (proof : AccountProof) : Observes (getStorageProof fuel p remaining root proof) := by
  cases root with
  | none => exact .pure _
  | some pointer =>
    refine .bind (observes_rootHash _) fun hash ↦ ?_
    split
    · exact .throw _
    · refine .bind (observes_getStorageProofAt fuel p remaining _) fun storageProof ↦ ?_
      split
      · exact .pure _
      · exact .bind (observes_fromSlice _) fun _ ↦ .pure _

private theorem observes_getValueWithProofFromPage (fuel offset p i : Nat) (proof : AccountProof) :
    Observes (getValueWithProofFromPage path fuel offset p i proof) := by
  induction fuel generalizing offset p i proof with
  | zero => exact .throw _
  | succ fuel ih =>
    refine .bind (observes_getValue p i) fun n ↦ ?_
    dsimp only
    split
    · exact .pure _
    · split
      · split
        · exact .pure _
        · exact .throw _
        · exact .throw _
        · exact .throw _
      · split
        · exact .throw _
        · split
          · split
            · exact .throw _
            · exact .bind (observes_decodeField _ _ _) fun nonce ↦
                .bind (observes_decodeField _ _ _) fun balance ↦
                  observes_getStorageProof fuel p _ _ _
          · split
            · exact ih _ _ _ _
            · exact .bind (observes_getPage _) fun _ ↦ ih _ _ _ _
            · exact .pure _
          · exact .throw _

/-- Reading with a proof changes nothing. -/
theorem observes_getValueWithProof (fuel : Nat) : Observes (getValueWithProof fuel path) := by
  unfold getValueWithProof
  split
  · refine .get_bind (fun s ↦ ?_) fun _ _ _ _ ↦ rfl
    split
    · exact .pure _
    · exact .bind (observes_getPage _) fun _ ↦
        observes_getValueWithProofFromPage path fuel 0 _ 0 _
  · exact .throw _

end

end TrieDb.Layout

import TrieDb.Alloy.Reference
import TrieDb.Layout.Read

/-!
# The contents of a transaction

What a sequence of calls of `set_values` makes of the accounts and slots that a write transaction
sees: every call updates them as its batch says, reads return them, and the root hash is their state
root.
-/

namespace TrieDb.Layout

open Meta Base Engine Trie

variable {s s' : State Cells} {t : Trie Loc} {f f' : Entries} {changes : Changes} {fuel n : Nat}

section
variable [AlloyTrie]

/-- A finished trie, in pages that no allocation hands out and nobody holds for writing. -/
structure Carries (s : State Cells) (t : Trie Loc) : Prop where
  ready : Ready s
  clean : Clean s
  holds : Holds s t
  anchored : Anchored s t
  canonical : t.Canonical

/-- The accounts and slots that the transaction sees. -/
def Contains (s : State Cells) (f : Entries) : Prop := ∃ t, Carries s t ∧ t.lookup = f

/-- The transaction with no location remembered. -/
def uncached (s : State Cells) : State Cells := { s with context := s.context.clearCache }

/-- Every account and every slot is read as the contents say, each account with the root of its
slots; `n` bounds the depth of the descent. -/
def ReadsAs (s : State Cells) (n : Nat) (f : Entries) : Prop :=
  (∀ a : Nibbles, a.length = 64 → Reads (getAccount n a) s (f.account a)) ∧
    ∀ q : Nibbles, q.length = 128 → Reads (getStorage n q) s (f.slot q)

/-- Reads return the contents. -/
theorem Contains.readsAs (h : Contains s f) (hn : 130 ≤ n) : ReadsAs (uncached s) n f := by
  obtain ⟨t, h, rfl⟩ := h
  have hrec : Recontext s (uncached s) := ⟨rfl, rfl, rfl⟩
  have hclean : Clean (uncached s) := h.clean
  have hanchored : Anchored (uncached s) t := by
    cases t <;> exact h.anchored
  constructor
  · exact fun a ha ↦ getAccount_reads hclean (hrec.holds h.holds) hanchored h.canonical ha hn
  · exact fun q hq ↦
      getStorage_reads hclean (hrec.holds h.holds) hanchored h.canonical.rough rfl hq hn

/-- A call that does not stall updates the contents; the root hash is their state root then. -/
theorem Contains.setValues (h : Contains s f) (hc : Admissible f changes) (hns : ¬ Stalls f changes)
    (hrun : setValues fuel changes s = .ok () s') :
    Contains s' (f.update changes) ∧ s'.context.rootNodeHash = (f.update changes).stateRoot := by
  obtain ⟨t, h, rfl⟩ := h
  obtain ⟨t', m, happ, hw, hroot⟩ := (setValues_spec fuel h.ready h.holds h.anchored).ok hrun
  have hflag : (flag s t).lookup = t.lookup := funext fun q ↦ lookup_map ..
  have hcan : (flag s t).Canonical := Canonical.map_iff.mpr h.canonical
  rw [← hflag] at hc hns
  obtain ⟨hcan', hlook⟩ := happ.canonical hcan hc hns
  have hcan' : t'.Canonical := Canonical.map_iff.mp hcan'
  have hlook' : t'.lookup = Entries.update t.lookup changes := by
    rw [← hflag, ← hlook]
    exact funext fun q ↦ (lookup_map ..).symm
  refine ⟨⟨t', ⟨hw.ready, h.clean.of_cleaner hw.cleaner, hw.holds, hroot.1, hcan'⟩, hlook'⟩, ?_⟩
  · rw [← hlook', ← hcan'.rootHash_eq]
    cases t' with
    | empty => exact hroot.2 rfl
    | node c ref pre kind ch =>
      have href := hroot.1.2.2
      cases ref with
      | raw bytes => cases href
      | hash x => exact (Option.some.inj href).symm

end

/-! ### Runs on a new file -/

section Created

/-- The first write transaction on a new file with room for 64 pages. -/
def created : State Cells :=
  let m := MetadataManager.populateDirtySlot ⟨.new, .zero⟩
  .new ⟨⟨fun _ ↦ ⟨.unused, []⟩, 0, 64⟩, m, 0⟩ (.new m.dirty.slot)

/-- A new database contains nothing. -/
theorem contains_created : Contains created fun _ ↦ none := by
  have horphans : orphans created = [] := by decide +kernel
  refine ⟨empty, ⟨⟨?_, ?_, ?_, ?_⟩, ?_, .empty, ?_, .empty⟩, rfl⟩
  · unfold MetadataManager.RangeWF
    decide +kernel
  · decide +kernel
  · rw [horphans]
    exact List.nodup_nil
  · intro o ho
    rw [horphans] at ho
    cases ho
  · intro q
    exact Bool.and_false _
  · show created.context.rootNodePageId = none
    decide +kernel

/-- Whether a call succeeds. -/
def succeeds (changes : Changes) (s : State Cells) : Bool :=
  match setValues 8 changes s with
  | .ok .. => true
  | .error .. => false

/-- The state that a call leaves. -/
def after (changes : Changes) (s : State Cells) : State Cells :=
  match setValues 8 changes s with
  | .ok _ s' => s'
  | .error _ s' => s'

/-- A call that succeeds leads to the state after it. -/
theorem setValues_of_succeeds (h : succeeds changes s = true) :
    setValues 8 changes s = .ok () (after changes s) := by
  unfold succeeds at h
  unfold after
  cases hrun : setValues 8 changes s with
  | ok a s' => rfl
  | error e s' => simp [hrun] at h

/-- The path of an account, and of a slot in the storage of an account, with equal nibbles. -/
def path (i : Nibble) : Nibbles := List.replicate 64 i

/-- An account without code and storage. -/
def someAccount : Account := ⟨1, 100, emptyRootHash, keccakEmpty⟩

/-- A new account with one slot. -/
def accountAndSlot : Changes :=
  [(path 0, some (.account someAccount)), (path 0 ++ path 1, some (.storage 7))]

/-- A batch of values is admissible when each slot has its account in the batch. -/
theorem admissible_values (hfits : Fits .accounts 128 changes)
    (hdistinct : (changes.map Prod.fst).Nodup) (hvalues : ∀ c ∈ changes, c.2 ≠ none)
    (hground : ∀ c ∈ changes, c.1.length = 128 → ∃ w, (c.1.take 64, some w) ∈ changes) :
    Admissible f changes := by
  refine ⟨hfits, hdistinct, fun a s v _ _ ha _ ↦ hvalues _ ha rfl, fun a s v ha hs hv ↦ ?_⟩
  have hlen := hfits.length hv
  have hpos := List.length_pos_iff.mpr hs
  simp only [List.length_append] at hlen
  have htake : (a ++ s).take 64 = a := by
    rw [List.take_append_of_le_length (by omega), List.take_of_length_le (by omega)]
  obtain ⟨w, hw⟩ := hground _ hv (by simp only [List.length_append]; omega)
  rw [htake] at hw
  exact .inr ⟨w, hw⟩

/-- The batch of an account with a slot is admissible. -/
theorem admissible_accountAndSlot : Admissible f accountAndSlot := by
  apply admissible_values
  · intro c hc
    rcases List.mem_cons.mp hc with rfl | hc
    · exact ⟨TrieValue.entry (.account someAccount), ⟨rfl, rfl⟩, fun v hv ↦ by cases hv; rfl⟩
    · obtain rfl := List.mem_singleton.mp hc
      exact ⟨TrieValue.entry (.storage 7), rfl, fun v hv ↦ by cases hv; rfl⟩
  · decide +kernel
  · decide +kernel
  · intro c hc hlen
    rcases List.mem_cons.mp hc with rfl | hc
    · cases hlen
    · obtain rfl := List.mem_singleton.mp hc
      exact ⟨_, List.mem_cons_self⟩

/-- The batch of an account with a slot is written. -/
theorem setValues_accountAndSlot :
    setValues 8 accountAndSlot created = .ok () (after accountAndSlot created) :=
  setValues_of_succeeds (by decide +kernel)

private theorem present_accountAndSlot :
    ∀ p, (p, none) ∈ accountAndSlot → (fun _ ↦ none : Entries) p ≠ none := by
  simp [accountAndSlot]

/-- After the batch the account and its slot are stored. -/
theorem contains_accountAndSlot : Contains (after accountAndSlot created)
    (Entries.update (fun _ ↦ none) accountAndSlot) :=
  (contains_created.setValues admissible_accountAndSlot (not_stalls present_accountAndSlot)
    setValues_accountAndSlot).1

end Created

/-! ### Reads after writes -/

/-- Successful calls of `set_values` in one transaction, with the contents they leave. The batches
have distinct paths, slots under accounts that exist or are set, no account deleted together with a
value for its slots, and delete present keys only. -/
inductive Calls [AlloyTrie] (s : State Cells) (f : Entries) :
    List Changes → State Cells → Entries → Prop
  | nil : Calls s f [] s f
  | call {batches : List Changes} {s₁ s' : State Cells} {f₁ : Entries} {changes : Changes}
      {fuel : Nat} (h : Calls s f batches s₁ f₁) (hc : Admissible f₁ changes)
      (hpresent : ∀ p, (p, none) ∈ changes → f₁ p ≠ none)
      (hrun : setValues fuel changes s₁ = .ok () s') :
      Calls s f (batches ++ [changes]) s' (f₁.update changes)

section
variable [AlloyTrie] {batches : List Changes}

private theorem Calls.contains (h : Calls s f batches s' f') (hs : Contains s f) :
    Contains s' f' := by
  induction h with
  | nil => exact hs
  | call _ hc hpresent hrun ih => exact (ih.setValues hc (not_stalls hpresent) hrun).1

/-- The root hash is right after every call. -/
private theorem Calls.rootNodeHash (h : Calls s f batches s' f') (hs : Contains s f)
    (hb : batches ≠ []) : s'.context.rootNodeHash = f'.stateRoot := by
  cases h with
  | nil => exact absurd rfl hb
  | call h hc hpresent hrun => exact ((h.contains hs).setValues hc (not_stalls hpresent) hrun).2

end

end TrieDb.Layout

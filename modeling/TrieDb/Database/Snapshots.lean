import TrieDb.Base.Simulation
import TrieDb.Layout.Verified
import TrieDb.Trie.Effective

/-!
# What transactions promise

The database as its users see it: committed states of accounts and slots, read transactions that
keep the state they began with, and one writer at a time whose changes become the next state at
once. No pages, metadata or caches appear here. After a commit that panics readers go on, but the
database is not opened again.
-/

namespace TrieDb

open Base Engine Layout

/-- One of the open transactions. -/
inductive TxId where
  | reader (i : Nat)
  | writer

/-- A call that reads in a transaction, with what it returns. -/
inductive ReadCall where
  | getAccount (addressPath : Nibbles) (account : Option Account)
  | getStorageSlot (storagePath : Nibbles) (value : Option U256)
  | getAccountWithProof (addressPath : Nibbles) (proof : Option AccountProof)
  | getStorageWithProof (storagePath : Nibbles) (proof : Option AccountProof)
  | stateRoot (root : B256)
  | clearCache

/-- A call of a user on the database or on a transaction, with what it returns. -/
inductive Event where
  | beginRo
  | commitRo (i : Nat)
  | read (tx : TxId) (call : ReadCall)
  | beginRw (granted : Bool)
  | setAccount (addressPath : Nibbles) (account : Option Account)
  | setStorageSlot (storagePath : Nibbles) (value : Option U256)
  | commit
  | panic
  | rollback
  | reopen

/-- A call of a reader, or one for a second writer. -/
def Event.OfReader : Event → Prop
  | .beginRo => True
  | .commitRo _ => True
  | .read (.reader _) _ => True
  | .beginRw granted => granted = false
  | _ => False

/-- One call in two runs: a proof may have other nodes. -/
inductive ReadCall.Same : ReadCall → ReadCall → Prop
  | refl (r : ReadCall) : Same r r
  | account (addressPath : Nibbles) (proof proof' : Option AccountProof) :
      Same (.getAccountWithProof addressPath proof) (.getAccountWithProof addressPath proof')
  | slot (storagePath : Nibbles) (proof proof' : Option AccountProof) :
      Same (.getStorageWithProof storagePath proof) (.getStorageWithProof storagePath proof')

inductive Event.Same : Event → Event → Prop
  | refl (e : Event) : Same e e
  | read (tx : TxId) {r r' : ReadCall} (h : r.Same r') : Same (.read tx r) (.read tx r')

/-- The same event is one of a reader as well. -/
theorem Event.Same.ofReader {e e' : Event} (h : e.Same e') (he : e.OfReader) : e'.OfReader := by
  cases h with
  | refl => exact he
  | read tx h =>
    cases tx with
    | reader i => exact he
    | writer => exact he

/-- The events of readers are no ends of a commit. -/
theorem Event.OfReader.ne {e : Event} (h : e.OfReader) : e ≠ .commit ∧ e ≠ .panic := by
  constructor <;> rintro rfl <;> exact h

/-- The one writer: an open transaction, or one whose commit has panicked and that is never
removed. -/
inductive WriterState (τ : Type) where
  | absent
  | writing (tx : τ)
  | panicked

namespace Engine.Changes

/-- `HashMap::insert` into the pending changes: a path has one change, the last. -/
def insert (changes : Changes) (c : Change) : Changes := c :: changes.filter fun d ↦ d.1 ≠ c.1

end Engine.Changes

variable [AlloyTrie]

/-- A committed state: the accounts and slots, and the root hash in the metadata. -/
structure CommittedState where
  contents : Entries
  root : B256

namespace CommittedState

/-- A new database, whose metadata is zeroed. -/
def empty : CommittedState := ⟨fun _ ↦ none, .zero⟩

open Classical in
/-- A commit without changes keeps the state. -/
noncomputable def update (c : CommittedState) (changes : Engine.Changes) : CommittedState :=
  if changes = [] then c else ⟨c.contents.update changes, (c.contents.update changes).stateRoot⟩

/-- What a proof of an account is: the account of the state, with nodes that the verifier accepts
against the state root. -/
structure ProvesAccount (c : CommittedState) (addressPath : Nibbles)
    (proof : Option AccountProof) : Prop where
  account : proof.map AccountProof.account = c.contents.account addressPath
  storageProofs : ∀ p ∈ proof, p.storageProofs = fun _ ↦ none
  accepted : ∀ p ∈ proof, ∀ decode, AlloyTrie.Standard → Decodes decode →
    Accepts decode c.root addressPath (Merkle.accountRlp p.account) p.proof

/-- No node on the way from the storage root to the slot is embedded in the one above it. -/
def Unembedded (c : CommittedState) (storagePath : Nibbles) : Prop :=
  ∀ t : Trie Loc, t.Canonical → t.lookup = c.contents →
    (t.storage (storagePath.take 64)).Unembedded (storagePath.drop 64)

/-- What a proof of a slot is: the account and the value of the state. The verifier accepts the
nodes of both parts if no node is embedded. -/
structure ProvesSlot (c : CommittedState) (storagePath : Nibbles)
    (proof : Option AccountProof) : Prop where
  none : proof = none → c.contents.slot storagePath = none
  account : ∀ p ∈ proof, c.contents.account (storagePath.take 64) = some p.account
  slot : ∀ p ∈ proof, ∃ storageProof,
    p.storageProofs = Function.update (fun _ ↦ .none) (slotHash (storagePath.drop 64))
      (some storageProof) ∧
    c.contents.slot storagePath = some storageProof.value ∧
    ∀ decode, AlloyTrie.Standard → Decodes decode → c.Unembedded storagePath →
      Accepts decode c.root (storagePath.take 64) (Merkle.accountRlp p.account) p.proof ∧
      Accepts decode p.account.storageRoot (storagePath.drop 64)
        (Merkle.slotRlp storageProof.value) storageProof.proof

/-- What a read in the state may return. -/
inductive Answers (c : CommittedState) : ReadCall → Prop
  | getAccount {addressPath} (hp : addressPath.length = addressPathLength) :
      Answers c (.getAccount addressPath (c.contents.account addressPath))
  | getStorageSlot {storagePath} (hp : storagePath.length = storagePathLength) :
      Answers c (.getStorageSlot storagePath (c.contents.slot storagePath))
  | getAccountWithProof {addressPath proof} (hp : addressPath.length = addressPathLength)
      (h : c.ProvesAccount addressPath proof) : Answers c (.getAccountWithProof addressPath proof)
  | getStorageWithProof {storagePath proof} (hp : storagePath.length = storagePathLength)
      (h : c.ProvesSlot storagePath proof) : Answers c (.getStorageWithProof storagePath proof)
  | stateRoot : Answers c (.stateRoot c.root)
  | clearCache : Answers c .clearCache

end CommittedState

/-- The committed state, the states that readers see, and the pending changes of the writer. -/
structure Snapshots where
  committed : CommittedState
  reading : List CommittedState
  writer : WriterState Engine.Changes

namespace Snapshots

/-- An opened database. -/
def opened (c : CommittedState) : Snapshots := ⟨c, [], .absent⟩

/-- The state that a transaction reads: a writer does not see its own changes. -/
def view (a : Snapshots) : TxId → Option CommittedState
  | .reader i => a.reading[i]?
  | .writer => match a.writer with
    | .writing _ => some a.committed
    | _ => none

/-- The effect of a call, which also determines what it returns. -/
inductive Step : Snapshots → Event → Snapshots → Prop
  | beginRo (a : Snapshots) : Step a .beginRo { a with reading := a.committed :: a.reading }
  | commitRo {a : Snapshots} {i : Nat} (hi : i < a.reading.length) :
      Step a (.commitRo i) { a with reading := a.reading.eraseIdx i }
  | read {a : Snapshots} {tx c r} (h : a.view tx = some c) (hr : c.Answers r) :
      Step a (.read tx r) a
  | beginRw {a : Snapshots} (h : a.writer = .absent) :
      Step a (.beginRw true) { a with writer := .writing [] }
  | refuseRw {a : Snapshots} (h : a.writer ≠ .absent) : Step a (.beginRw false) a
  | setAccount {a : Snapshots} {changes addressPath} (account : Option Account)
      (h : a.writer = .writing changes) (hp : addressPath.length = addressPathLength) :
      Step a (.setAccount addressPath account)
        { a with writer := .writing (changes.insert (addressPath, account.map .account)) }
  | setStorageSlot {a : Snapshots} {changes storagePath} (value : Option U256)
      (h : a.writer = .writing changes) (hp : storagePath.length = storagePathLength) :
      Step a (.setStorageSlot storagePath value)
        { a with writer := .writing (changes.insert (storagePath, value.map .storage)) }
  | commit {a : Snapshots} {changes} (h : a.writer = .writing changes) :
      Step a .commit { a with committed := a.committed.update changes, writer := .absent }
  | panic {a : Snapshots} {changes} (h : a.writer = .writing changes) :
      Step a .panic { a with writer := .panicked }
  | rollback {a : Snapshots} {changes} (h : a.writer = .writing changes) :
      Step a .rollback { a with writer := .absent }
  | reopen {a : Snapshots} (h : a.writer ≠ .panicked) : Step a .reopen (.opened a.committed)

/-- Readers change neither the committed state nor the writer. -/
theorem Step.of_reader {a a' : Snapshots} {e : Event} (h : Step a e a') (he : e.OfReader) :
    a'.committed = a.committed ∧ a'.writer = a.writer := by
  cases h with
  | beginRo => exact ⟨rfl, rfl⟩
  | commitRo => exact ⟨rfl, rfl⟩
  | read => exact ⟨rfl, rfl⟩
  | refuseRw => exact ⟨rfl, rfl⟩
  | beginRw => cases he
  | setAccount => exact he.elim
  | setStorageSlot => exact he.elim
  | commit => exact he.elim
  | panic => exact he.elim
  | rollback => exact he.elim
  | reopen => exact he.elim

/-- What users have to respect: a batch sets slots only of accounts that exist or that it sets, does
not delete an account together with setting one of its slots, and has no change without effect. -/
def Orderly (a : Snapshots) (e : Event) : Prop :=
  e = .commit → ∀ changes, a.writer = .writing changes → changes ≠ [] →
    Admissible a.committed.contents changes ∧ a.committed.contents.NoneIdle changes

end Snapshots

end TrieDb

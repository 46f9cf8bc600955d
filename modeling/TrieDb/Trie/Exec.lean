import TrieDb.Trie.Basic

/-!
# Applying changes to a trie

The write recursion of the engine on tries. The tag of a node says whether the node is the root of
a page from before the transaction (`old`); such a page is copied when the recursion enters it, and
the copy is dropped again when the recursion reports no change. Where the engine runs out of room
on a page it splits the page and restarts; since that depends on the layout, every place at which
it may happen is a rule here, with outcome `stop` and the number of changes counted as handled.
Changes have paths relative to the node they are applied to.
-/

namespace TrieDb

open Engine (Change Changes)

/-- The outcome of a part of the recursion. -/
inductive Out where
  | none
  | update
  | delete
  | stop (handled : Nat)
  deriving DecidableEq

/-- Not stopped for a page split. -/
def Out.ended : Out → Bool
  | stop _ => false
  | _ => true

/-- The parts of the recursion: a node on a page at hand, a whole page with its restarts, an
existing child of a node, a place for a child of a branch. -/
inductive Mode where
  | node
  | page
  | child
  | slot

/-- What may go wrong: the copy of a page is dropped after the page was orphaned, or the first
slot of an account is stored and no change is reported. -/
inductive Mishap where
  | abandoned
  | stalled
  deriving DecidableEq

/-- The changes below a prefix. -/
def under (pre : Nibbles) (cs : Changes) : Changes := cs.map fun c ↦ (pre ++ c.1, c.2)

/-- The changes for the children of a branch, in order. -/
def regroup (pre : Nibbles) (g : Fin 16 → Changes) : Changes :=
  (List.finRange 16).flatMap fun i ↦ under (pre ++ [i]) (g i)

/-- The number of changes for the children before a place. -/
def countBefore (g : Fin 16 → Changes) (i : Fin 16) : Nat :=
  (((List.finRange 16).take i).map fun j ↦ (g j).length).sum

namespace Trie

variable {α : Type}

/-- The places of a branch in use. -/
def occupied (ch : Fin 16 → Trie α) : List (Fin 16) :=
  (List.finRange 16).filter fun i ↦ !(ch i).isEmpty

variable [AlloyTrie]

/-- A branch in place of a node, which becomes its only child, with the prefix cut after `length`
nibbles. The parent still has the old reference. -/
def above (tag : α) (length : Nat) : Trie α → Trie α
  | node tag' ref pre kind ch =>
    match pre.drop length with
    | i :: rest =>
      node tag ref (pre.take length) .branch
        (Function.update (fun _ ↦ empty) i (fresh tag' rest kind ch))
    | [] => node tag' ref pre kind ch
  | empty => empty

/-- A child put in place of its parent, below a longer prefix. -/
def lift (tag : α) (path : Nibbles) : Trie α → Trie α
  | node _ _ pre kind ch => fresh tag (path ++ pre) kind ch
  | empty => empty

/-- `handle_branch_node_cleanup`: a branch without children is deleted, one with a single child is
merged with it. -/
def cleanup (tag : α) (pre : Nibbles) (ch : Fin 16 → Trie α) : Out × Trie α :=
  match occupied ch with
  | [] => (.delete, empty)
  | [i] => (.update, lift tag (pre ++ [i]) (ch i))
  | _ => (.update, fresh tag pre .branch ch)

end Trie

open Trie

variable [AlloyTrie]

/-- The recursion. -/
inductive Exec : Mode → Trie Bool → Changes → Out → Trie Bool → List Mishap → Prop
  | nil {t} : Exec .node t [] .none t []
  -- a delete that leaves the node's prefix is dropped at either end
  | skipFirst {ref pre kind ch path cs o t' m} (hd : ¬ pre <+: path)
      (h : Exec .node (node false ref pre kind ch) cs o t' m) :
      Exec .node (node false ref pre kind ch) ((path, none) :: cs) o t' m
  | skipLast {ref pre kind ch path cs o t' m} (hd : ¬ pre <+: path)
      (h : Exec .node (node false ref pre kind ch) cs o t' m) :
      Exec .node (node false ref pre kind ch) (cs ++ [(path, none)]) o t' m
  -- a value that leaves the node's prefix needs a branch
  | aboveStop {ref pre kind ch path v cs} (hc : (path, some v) ∈ cs) (hd : ¬ pre <+: path) :
      Exec .node (node false ref pre kind ch) cs (.stop 0) (node false ref pre kind ch) []
  | above {ref pre kind ch path v cs length o t' m} (hc : (path, some v) ∈ cs)
      (hl : length < pre.length) (hp : pre.take length <+: path)
      (hd : ¬ pre.take (length + 1) <+: path) (hall : ∀ c ∈ cs, pre.take length <+: c.1)
      (h : Exec .node (Trie.above false length (node false ref pre kind ch)) cs o t' m) :
      Exec .node (node false ref pre kind ch) cs o t' m
  -- a change at the node itself
  | delete {ref pre kind ch} :
      Exec .node (node false ref pre kind ch) [(pre, none)] .delete empty []
  | same {ref pre kind ch v cs o t' m} (hv : (node false ref pre kind ch).value? = some v)
      (h : Exec .node (node false ref pre kind ch) cs o t' m) :
      Exec .node (node false ref pre kind ch) ((pre, some v) :: cs) o t' m
  | setStop {ref pre e ch v cs} (hv : v.entry ≠ e) :
      Exec .node (node false ref pre (.leaf e) ch) ((pre, some v) :: cs) (.stop 0)
        (node false ref pre (.leaf e) ch) []
  | setNone {ref pre e ch v cs t' m}
      (hv : (node false ref pre (.leaf e) ch).value? ≠ some v)
      (hch : ∀ i, ch i ≠ empty → (Kind.leaf v.entry).allows i)
      (h : Exec .node (node false ref pre (.leaf v.entry) ch) cs .none t' m) :
      Exec .node (node false ref pre (.leaf e) ch) ((pre, some v) :: cs) .update
        (t'.withRef ((Kind.leaf v.entry).rlp pre fun i ↦ (ch i).ref?)) m
  | setMore {ref pre e ch v cs o t' m}
      (hv : (node false ref pre (.leaf e) ch).value? ≠ some v)
      (hch : ∀ i, ch i ≠ empty → (Kind.leaf v.entry).allows i) (hall : ∀ c ∈ cs, pre <+: c.1)
      (h : Exec .node (node false ref pre (.leaf v.entry) ch) cs o t' m)
      (ho : o ≠ .none) (ho' : o ≠ .delete) :
      Exec .node (node false ref pre (.leaf e) ch) ((pre, some v) :: cs) o t' m
  -- slots of an account with storage
  | storage {ref pre info ch cs o st m} (hne : cs ≠ []) (hcs : ∀ c ∈ cs, c.1 ≠ [])
      (hch : ch 0 ≠ empty) (h : Exec .child (ch 0) cs o st m) (ho : o = .update ∨ o = .delete) :
      Exec .node (node false ref pre (.leaf (.account info)) ch) (under pre cs) .update
        (fresh false pre (.leaf (.account info)) (Function.update ch 0 st)) m
  | storageKeep {ref pre info ch cs o st m} (hne : cs ≠ []) (hcs : ∀ c ∈ cs, c.1 ≠ [])
      (hch : ch 0 ≠ empty) (h : Exec .child (ch 0) cs o st m) (ho : o ≠ .update)
      (ho' : o ≠ .delete) :
      Exec .node (node false ref pre (.leaf (.account info)) ch) (under pre cs) o
        (node false ref pre (.leaf (.account info)) (Function.update ch 0 st)) m
  -- slots of an account without storage
  | firstSkip {ref pre info ch path cs o t' m} (hp : path ≠ []) (hch : ch 0 = empty)
      (h : Exec .node (node false ref pre (.leaf (.account info)) ch) cs o t' m) :
      Exec .node (node false ref pre (.leaf (.account info)) ch) ((pre ++ path, none) :: cs) o t' m
  | firstStop {ref pre info ch path v cs} (hp : path ≠ []) (hch : ch 0 = empty) :
      Exec .node (node false ref pre (.leaf (.account info)) ch) ((pre ++ path, some v) :: cs)
        (.stop 0) (node false ref pre (.leaf (.account info)) ch) []
  | firstOnly {ref pre info ch path v} (hp : path ≠ []) (hch : ch 0 = empty) :
      Exec .node (node false ref pre (.leaf (.account info)) ch) [(pre ++ path, some v)] .update
        (fresh false pre (.leaf (.account info))
          (Function.update ch 0 (leaf false path v.entry))) []
  | firstMore {ref pre info ch path v cs o t' m} (hp : path ≠ []) (hch : ch 0 = empty)
      (hne : cs ≠ []) (hall : ∀ c ∈ cs, pre <+: c.1)
      (h : Exec .node (node false ref pre (.leaf (.account info))
        (Function.update ch 0 (leaf false path v.entry))) cs o t' m) :
      Exec .node (node false ref pre (.leaf (.account info)) ch) ((pre ++ path, some v) :: cs) o t'
        (if o = .none then .stalled :: m else m)
  -- children of a branch
  | branch {ref pre ch} {g : Fin 16 → Changes} {o : Fin 16 → Out} {ch' : Fin 16 → Trie Bool}
      {m : Fin 16 → List Mishap} (hne : regroup pre g ≠ [])
      (h : ∀ i, Exec .slot (ch i) (g i) (o i) (ch' i) (m i)) (ho : ∀ i, (o i).ended) :
      Exec .node (node false ref pre .branch ch) (regroup pre g) (cleanup false pre ch').1
        (cleanup false pre ch').2 ((List.finRange 16).flatMap m)
  | branchStop {ref pre ch} {g : Fin 16 → Changes} {o : Fin 16 → Out} {ch' : Fin 16 → Trie Bool}
      {m : Fin 16 → List Mishap} {i₀ : Fin 16} {n : Nat}
      (h : ∀ i ≤ i₀, Exec .slot (ch i) (g i) (o i) (ch' i) (m i)) (ho : ∀ i < i₀, (o i).ended)
      (hn : o i₀ = .stop n) (hch : ∀ i, i₀ < i → ch' i = ch i ∧ m i = []) :
      Exec .node (node false ref pre .branch ch) (regroup pre g) (.stop (countBefore g i₀ + n))
        (node false ref pre .branch ch') ((List.finRange 16).flatMap m)
  | slotNil {t} : Exec .slot t [] .none t []
  | slotChild {t cs o t' m} (ht : t ≠ empty) (hne : cs ≠ []) (h : Exec .child t cs o t' m) :
      Exec .slot t cs o t' m
  | slotSkip {cs} (hcs : ∀ c ∈ cs, c.2 = none) : Exec .slot empty cs .none empty []
  | slotStop {ds path v cs} (hds : ∀ c ∈ ds, c.2 = none) :
      Exec .slot empty (ds ++ (path, some v) :: cs) (.stop 0) empty []
  | slotLeaf {ds path v} (hds : ∀ c ∈ ds, c.2 = none) :
      Exec .slot empty (ds ++ [(path, some v)]) .update (leaf false path v.entry) []
  | slotMore {ds path v cs o t' m} (hds : ∀ c ∈ ds, c.2 = none) (hne : cs ≠ [])
      (h : Exec .node (leaf false path v.entry) cs o t' m) :
      Exec .slot empty (ds ++ (path, some v) :: cs) o t' m
  | childLocal {t cs o t' m} (h : Exec .node t cs o t' m) : Exec .child t cs o t' m
  | childPage {t cs o t' m} (ht : t.tag? = some false ∨ o ≠ .none)
      (h : Exec .page (t.withTag false) cs o t' m) : Exec .child t cs o t' m
  | childAbandon {t cs t' m} (ht : t.tag? = some true)
      (h : Exec .page (t.withTag false) cs .none t' m) :
      Exec .child t cs .none t (.abandoned :: m)
  | pageDone {t cs o t' m} (h : Exec .node t cs o t' m) (ho : o.ended) : Exec .page t cs o t' m
  | pageRetry {t cs n t₁ m₁ o t' m} (h : Exec .node t cs (.stop n) t₁ m₁)
      (h' : Exec .page t₁ (cs.drop n) o t' m) : Exec .page t cs o t' (m₁ ++ m)

/-- A whole batch in the order of its paths; the first value of an empty trie becomes its root. -/
inductive Applied : Trie Bool → Changes → Trie Bool → List Mishap → Prop
  | first {path v} : Applied empty [(path, some v)] (leaf false path v.entry) []
  | firstMore {path v cs o t' m} (hne : cs ≠ [])
      (h : Exec .child (leaf false path v.entry) cs o t' m) (ho : o.ended) :
      Applied empty ((path, some v) :: cs) t' m
  | root {t cs o t' m} (ht : t ≠ empty) (h : Exec .child t cs o t' m) (ho : o.ended) :
      Applied t cs t' m

end TrieDb

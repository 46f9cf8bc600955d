import TrieDb.Base.Search
import TrieDb.Trie.Changes

/-!
# Overlays

`src/overlay.rs`: changes on top of the stored trie that are collected in any order, then frozen
into a list with one entry for each path in the order of paths, of which ranges are taken without
copying. In a range below an account, the paths are read from an offset on.
-/

namespace TrieDb

open Base
open Engine (pathLe)

/-- `OverlayValue`. -/
inductive OverlayValue where
  | account (a : Account)
  | storage (v : U256)
  | hash (h : B256)
  deriving DecidableEq

/-- A change at a path; no value is a tombstone. -/
abbrev OverlayEntry := Nibbles × Option OverlayValue

/-- The derived order of `RawPath`. -/
def comparePath (a b : Nibbles) : Ordering :=
  if a = b then .eq else if pathLe a b then .lt else .gt

/-- `OverlayState`: a range of the entries, with the number of nibbles to skip in their paths. -/
structure OverlayState where
  data : List OverlayEntry
  startIdx : Nat
  endIdx : Nat
  prefixOffset : Nat
  deriving DecidableEq

/-- `OverlayStateMut`. -/
structure OverlayStateMut where
  changes : List OverlayEntry := []
  deriving DecidableEq

namespace OverlayStateMut

/-- `insert`; a slot of zero is a tombstone. -/
def insert (m : OverlayStateMut) (path : Nibbles) (value : Option OverlayValue) : OverlayStateMut :=
  ⟨m.changes ++ [(path, if value = some (.storage 0) then none else value)]⟩

/-- One round of the loop of `freeze` that drops repeated paths. -/
def dedupStep (s : List OverlayEntry × Option Nibbles) (c : OverlayEntry) :
    List OverlayEntry × Option Nibbles :=
  if s.2 ≠ some c.1 then (s.1 ++ [c], some c.1)
  else match s.1.getLast? with
    | some last => (s.1.dropLast ++ [(last.1, c.2)], s.2)
    | none => s

/-- `freeze`. -/
def freeze (m : OverlayStateMut) : OverlayState :=
  let sorted := m.changes.insertionSort fun a b ↦ pathLe a.1 b.1
  let data := (sorted.foldl dedupStep ([], none)).1
  ⟨data, 0, data.length, 0⟩

end OverlayStateMut

namespace OverlayState

/-- `empty`. -/
protected def empty : OverlayState := ⟨[], 0, 0, 0⟩

/-- `effective_slice`. -/
def effectiveSlice (o : OverlayState) : List OverlayEntry := (o.data.take o.endIdx).drop o.startIdx

/-- `len`. -/
def len (o : OverlayState) : Nat := o.endIdx - o.startIdx

/-- `is_empty`. -/
def isEmpty (o : OverlayState) : Bool := o.endIdx ≤ o.startIdx

/-- A path from the offset on; none stands for the panic of `RawPath::slice`. -/
def slicePath (o : OverlayState) (path : Nibbles) : Option Nibbles :=
  if path.length < o.prefixOffset then none else some (path.drop o.prefixOffset)

/-- `compare_with_offset`. -/
def compareWithOffset (o : OverlayState) (stored target : Nibbles) : Ordering :=
  if stored.length < o.prefixOffset then .lt else comparePath (stored.drop o.prefixOffset) target

/-- `lookup`. -/
def lookup (o : OverlayState) (path : Nibbles) : Option (Option OverlayValue) :=
  match binarySearchBy (fun e ↦ o.compareWithOffset e.1 path) o.effectiveSlice with
  | .ok i => o.effectiveSlice[i]?.map Prod.snd
  | .error _ => none

/-- `with_prefix_offset`; none where the program panics. The first and the last path are checked. -/
def withPrefixOffset (o : OverlayState) (offset : Nat) : Option OverlayState :=
  let total := o.prefixOffset + offset
  let shifted : OverlayState := { o with prefixOffset := total }
  if 1 < o.len then do
    let first ← o.effectiveSlice.head?
    let last ← o.effectiveSlice.getLast?
    if first.1.length < total ∨ last.1.length < total then none
    else if first.1.take total ≠ last.1.take total then none
    else pure shifted
  else pure shifted

/-- `find_start_index_with_prefix`. -/
def findStartIndexWithPrefix (o : OverlayState) (slice : List OverlayEntry)
    (path : Nibbles) : Nat :=
  eitherIndex (binarySearchBy (fun e ↦ o.compareWithOffset e.1 path) slice)

/-- `find_end_index_with_prefix`. -/
def findEndIndexWithPrefix (o : OverlayState) (slice : List OverlayEntry) (path : Nibbles) : Nat :=
  partitionPoint (fun e ↦
    if e.1.length < o.prefixOffset then true
    else
      let adjusted := e.1.drop o.prefixOffset
      pathLe (adjusted.take (min adjusted.length path.length)) path) slice

/-- `sub_slice`. -/
def subSlice (o : OverlayState) (start stop : Nat) : OverlayState :=
  let stop := min stop o.len
  let start := min start stop
  { o with startIdx := o.startIdx + start, endIdx := o.startIdx + stop }

/-- `sub_slice_by_prefix`: the entries before, with and after a prefix. -/
def subSliceByPrefix (o : OverlayState) (path : Nibbles) :
    OverlayState × OverlayState × OverlayState :=
  let slice := o.effectiveSlice
  let start := o.findStartIndexWithPrefix slice path
  let stop := o.findEndIndexWithPrefix slice path
  (o.subSlice 0 start, o.subSlice start stop, o.subSlice stop slice.length)

/-- `sub_slice_for_prefix`. -/
def subSliceForPrefix (o : OverlayState) (path : Nibbles) : OverlayState :=
  if o.isEmpty then .empty
  else
    let slice := o.effectiveSlice
    o.subSlice (o.findStartIndexWithPrefix slice path) (o.findEndIndexWithPrefix slice path)

end OverlayState

end TrieDb

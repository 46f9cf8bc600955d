import Mathlib.Data.List.DropRight
import Mathlib.Logic.Equiv.Basic
import TrieDb.Node
import TrieDb.Page.Manager

/-!
# Slotted pages

`src/page/slotted_page.rs`: a page as an array of cells, each a node or deleted. Where the bytes of
a cell lie within the page is left out: a value can be stored exactly when the page has room for it
after `defragment`, and defragmenting keeps every cell.
-/

namespace TrieDb

/-- The cells of a page, up to the last one in use; a zeroed page has none. -/
abbrev Cells := List (Option Node)

namespace Cells

/-- `Page::DATA_SIZE`. -/
def dataSize : Nat := 4088

/-- `CELL_POINTER_SIZE`. -/
def cellPointerSize : Nat := 3

/-- `MAX_NUM_CELLS`. -/
def maxNumCells : Nat := 255

/-- The node in a cell. -/
def cell (cells : Cells) (i : Nat) : Option Node := cells[i]?.join

/-- `get_value`. -/
def getValue (cells : Cells) (i : Nat) : Except PageError Node :=
  match cells.cell i with
  | some n => .ok n
  | none => .error .invalidCellPointer

section
variable [AlloyTrie]

/-- The bytes taken by the values of the page. -/
def occupiedSpace (cells : Cells) : Nat := (cells.map fun c ↦ (c.map Node.size).getD 0).sum

/-- `num_free_bytes`. -/
def numFreeBytes (cells : Cells) : Nat :=
  dataSize - cells.occupiedSpace - cellPointerSize * cells.length - 1

/-- `next_free_cell_index`: the first deleted cell, else a new one. -/
def nextFreeCellIndex (cells : Cells) : Except PageError Nat :=
  match cells.findIdx? Option.isNone with
  | some i => .ok i
  | none => if cells.length = maxNumCells then .error .noFreeCells else .ok cells.length

/-- `allocate_cell_pointer` and the store of the value. -/
def allocateCell (cells : Cells) (i : Nat) (n : Node) : Except PageError Cells :=
  let numCells := max cells.length (i + 1)
  if dataSize < cells.occupiedSpace + n.size + numCells * cellPointerSize + 1 then
    .error .pageIsFull
  else .ok ((cells ++ List.replicate (numCells - cells.length) none).set i (some n))

/-- `insert_value`. -/
def insertValue (cells : Cells) (n : Node) : Except PageError (Nat × Cells) := do
  let i ← cells.nextFreeCellIndex
  let cells ← cells.allocateCell i n
  pure (i, cells)

/-- `delete_value`: trailing deleted cells are given up. -/
def deleteValue (cells : Cells) (i : Nat) : Cells := (cells.set i none).rdropWhile Option.isNone

/-- `set_value`: a value that grows is deleted before room is found for it. -/
def setValue (cells : Cells) (i : Nat) (n : Node) : Except PageError Unit × Cells :=
  if cells.length ≤ i then (.error .invalidCellPointer, cells)
  else if ((cells.cell i).map Node.size).getD 0 < n.size then
    let cells := cells.deleteValue i
    match cells.allocateCell i n with
    | .ok cells => (.ok (), cells)
    | .error e => (.error e, cells)
  else (.ok (), cells.set i (some n))

/-- `swap_cell_pointers`. -/
def swapCellPointers (cells : Cells) (i j : Nat) : Except PageError Cells :=
  if cells.length ≤ i ∨ cells.length ≤ j then .error .invalidCellPointer
  else .ok ((cells.set i (cells.cell j)).set j (cells.cell i))

end

/-! ### The cells after each operation -/

/-- There is no node behind the last cell. -/
theorem cell_of_length_le {cells : Cells} {i : Nat} (h : cells.length ≤ i) :
    cells.cell i = none := by
  simp [cell, List.getElem?_eq_none h]

/-- The cells after one has been replaced. -/
theorem cell_set (cells : Cells) (i j : Nat) (n : Option Node) (hi : i < cells.length) :
    Cells.cell (cells.set i n) j = if j = i then n else cells.cell j := by
  simp only [cell, List.getElem?_set]
  by_cases hij : i = j
  · subst hij
    simp [hi]
  · simp [hij, Ne.symm hij]

/-- Deleting a cell that does not exist changes nothing. -/
private theorem cell_set_none (cells : Cells) (i j : Nat) :
    Cells.cell (cells.set i none) j = if j = i then none else cells.cell j := by
  by_cases hi : i < cells.length
  · exact cell_set cells i j none hi
  · rw [List.set_eq_of_length_le (Nat.le_of_not_lt hi)]
    split
    · next h => rw [h, cell_of_length_le (Nat.le_of_not_lt hi)]
    · rfl

private theorem cell_append_replicate (cells : Cells) (k j : Nat) :
    Cells.cell (cells ++ List.replicate k none) j = cells.cell j := by
  simp only [cell]
  by_cases hj : j < cells.length
  · rw [List.getElem?_append_left hj]
  · rw [List.getElem?_append_right (Nat.le_of_not_lt hj),
      List.getElem?_eq_none (Nat.le_of_not_lt hj),
      List.getElem?_replicate]
    split <;> rfl

private theorem cell_rdropWhile (cells : Cells) (j : Nat) :
    Cells.cell (cells.rdropWhile Option.isNone) j = cells.cell j := by
  induction cells using List.reverseRecOn with
  | nil => rfl
  | append_singleton cells c ih =>
    cases c with
    | some n => rw [List.rdropWhile_concat_neg _ _ _ (by simp)]
    | none =>
      rw [List.rdropWhile_concat_pos _ _ _ (by simp), ih]
      exact (cell_append_replicate cells 1 j).symm

/-- What reading a cell tells. -/
theorem getValue_eq_ok {cells : Cells} {i : Nat} {n : Node} :
    cells.getValue i = .ok n ↔ cells.cell i = some n := by
  simp only [getValue]
  cases cells.cell i with
  | some m => simp
  | none => simp

/-- The next free cell is not in use. -/
theorem cell_nextFreeCellIndex {cells : Cells} {i : Nat} (h : cells.nextFreeCellIndex = .ok i) :
    cells.cell i = none := by
  simp only [nextFreeCellIndex] at h
  split at h
  · next j hj =>
    cases h
    obtain ⟨hlt, hn, -⟩ := List.findIdx?_eq_some_iff_getElem.mp hj
    simpa [cell, List.getElem?_eq_getElem hlt] using hn
  · split at h
    · cases h
    · cases h
      exact cell_of_length_le (Nat.le_refl _)

/-- The cells before the next free one are in use. -/
theorem cell_ne_none_of_lt {cells : Cells} {i j : Nat} (h : cells.nextFreeCellIndex = .ok i)
    (hj : j < i) : cells.cell j ≠ none := by
  have hsome (hlt : j < cells.length) (hn : ¬ cells[j].isNone = true) : cells.cell j ≠ none := by
    rw [cell, List.getElem?_eq_getElem hlt]
    simpa using hn
  simp only [nextFreeCellIndex] at h
  split at h
  · next k hk =>
    cases h
    obtain ⟨hlt, -, hall⟩ := List.findIdx?_eq_some_iff_getElem.mp hk
    exact hsome (hj.trans hlt) (hall j hj)
  · next hk =>
    split at h
    · cases h
    · cases h
      have hn := List.findIdx?_eq_none_iff.mp hk _ (List.getElem_mem hj)
      exact hsome hj (by simp [hn])

variable [AlloyTrie]

/-- An allocated cell holds the value. -/
theorem cell_allocateCell {cells cells' : Cells} {i : Nat} {n : Node}
    (h : cells.allocateCell i n = .ok cells') (j : Nat) :
    cells'.cell j = if j = i then some n else cells.cell j := by
  simp only [allocateCell] at h
  split at h
  · cases h
  · cases h
    rw [cell_set _ _ _ _ (by simp), cell_append_replicate]

/-- An insertion fills a cell that was not in use. -/
theorem insertValue_eq_ok {cells cells' : Cells} {i : Nat} {n : Node}
    (h : cells.insertValue n = .ok (i, cells')) :
    cells.nextFreeCellIndex = .ok i ∧ cells.cell i = none ∧
      ∀ j, cells'.cell j = if j = i then some n else cells.cell j := by
  simp only [insertValue] at h
  cases hi : cells.nextFreeCellIndex with
  | error e =>
    rw [hi] at h
    cases h
  | ok k =>
    cases ha : cells.allocateCell k n with
    | error e =>
      rw [hi] at h
      simp only [bind, Except.bind, ha] at h
      cases h
    | ok c =>
      rw [hi] at h
      simp only [bind, Except.bind, ha] at h
      cases h
      exact ⟨rfl, cell_nextFreeCellIndex hi, cell_allocateCell ha⟩

omit [AlloyTrie] in
/-- A deletion empties its cell. -/
theorem cell_deleteValue (cells : Cells) (i j : Nat) :
    (cells.deleteValue i).cell j = if j = i then none else cells.cell j := by
  rw [deleteValue, cell_rdropWhile, cell_set_none]

/-- A stored value fills its cell. -/
theorem cell_setValue {cells cells' : Cells} {i : Nat} {n : Node}
    (h : cells.setValue i n = (.ok (), cells')) (j : Nat) :
    cells'.cell j = if j = i then some n else cells.cell j := by
  simp only [setValue] at h
  split at h
  · cases h
  · next hlen =>
    split at h
    · split at h
      · next c hc =>
        cases h
        rw [cell_allocateCell hc, cell_deleteValue]
        split <;> rfl
      · cases h
    · cases h
      exact cell_set _ _ _ _ (Nat.lt_of_not_le hlen)

omit [AlloyTrie] in
/-- A swap exchanges two cells. -/
theorem cell_swapCellPointers {cells cells' : Cells} {i j : Nat}
    (h : cells.swapCellPointers i j = .ok cells') (k : Nat) :
    cells'.cell k = cells.cell (Equiv.swap i j k) := by
  simp only [swapCellPointers] at h
  split at h
  · cases h
  · next hlen =>
    rw [not_or] at hlen
    cases h
    rw [cell_set _ _ _ _ (by simp; omega), cell_set _ _ _ _ (by omega)]
    by_cases hkj : k = j
    · rw [if_pos hkj, hkj, Equiv.swap_apply_right]
    · by_cases hki : k = i
      · rw [if_neg hkj, if_pos hki, hki, Equiv.swap_apply_left]
      · rw [if_neg hkj, if_neg hki, Equiv.swap_apply_of_ne_of_ne hki hkj]

end Cells

end TrieDb

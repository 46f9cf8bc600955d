import Mathlib.Data.List.Sort
import TrieDb.Base.EState
import TrieDb.Page.Manager

/-!
# Slotted pages, byte by byte

`src/page/slotted_page.rs` and `src/page/slotted_page/cell_pointer.rs`. A cell pointer keeps the
offset of a cell, counted from the end of the page, and its length in 12 bits each; values are byte
strings. A failed operation keeps the bytes it has written. Indexes and numbers of cells are `u8`,
offsets and lengths `u16`: a sum that may exceed its type wraps around, as it does in a build
without overflow checks; a build with them panics there. On well-formed pages no other sum exceeds
its type and no difference falls below zero.
-/

namespace TrieDb

/-- `CellPointer`. -/
@[ext]
structure CellPointer where
  byte0 : UInt8
  byte1 : UInt8
  byte2 : UInt8
  deriving DecidableEq

namespace CellPointer

/-- `offset`: the first 12 bits. -/
def offset (p : CellPointer) : Nat := (p.byte0.toNat <<< 4) ||| (p.byte1.toNat >>> 4)

/-- `length`: the last 12 bits. -/
def length (p : CellPointer) : Nat := ((p.byte1.toNat &&& 0b1111) <<< 8) ||| p.byte2.toNat

/-- `is_deleted`. -/
def isDeleted (p : CellPointer) : Bool := (p.byte0 ||| p.byte1 ||| p.byte2) == 0

/-- The bytes that `new` writes. -/
def encode (offset length : Nat) : CellPointer :=
  ⟨UInt8.ofNat (offset >>> 4),
    ((UInt8.ofNat offset &&& 0b1111) <<< 4) ||| UInt8.ofNat (length >>> 8),
    UInt8.ofNat length⟩

end CellPointer

/-- `Page::contents`: the bytes of a page by index; those from `dataSize` on are never reached. -/
abbrev Contents := Nat → UInt8

/-- An error, a failed assertion or slice, or more rounds of `allocate_cell_pointer` than allowed.
-/
inductive Fault where
  | error (e : PageError)
  | panic
  | rounds
  deriving DecidableEq

/-- Operations on the bytes of one page. -/
abbrev SlottedM := EStateM Fault Contents

namespace Contents

/-- `Page::DATA_SIZE`. -/
def dataSize : Nat := 4088

/-- `CELL_POINTER_SIZE`. -/
def cellPointerSize : Nat := 3

/-- `MAX_NUM_CELLS`. -/
def maxNumCells : Nat := 255

/-- A page of zeros. -/
def zero : Contents := fun _ ↦ 0

/-- The bytes `start..start + len`. -/
def bytes (c : Contents) (start len : Nat) : List UInt8 :=
  (List.range len).map fun k ↦ c (start + k)

/-- The bytes from `start` on replaced by those given. -/
def store (c : Contents) (start : Nat) (data : List UInt8) : Contents := fun k ↦
  if start ≤ k then (data[k - start]?).getD (c k) else c k

/-- `num_cells`; the cells may include deleted ones. -/
def numCells (c : Contents) : Nat := (c 0).toNat

/-- `get_content_index`. -/
def getContentIndex (index : Nat) : Nat := 1 + cellPointerSize * index

/-- The cell pointer in a place. -/
def pointer (c : Contents) (index : Nat) : CellPointer :=
  ⟨c (getContentIndex index), c (getContentIndex index + 1), c (getContentIndex index + 2)⟩

/-- `cell_pointers_iter`. -/
def cellPointers (c : Contents) : List CellPointer := (List.range c.numCells).map c.pointer

/-- `max(num_cells, index + 1)`, where the sum is a `u8`. -/
def newNumCells (c : Contents) (index : Nat) : Nat := max c.numCells ((index + 1) % 2 ^ 8)

/-- The sum of the lengths of the cells that are not deleted. -/
def totalOccupiedSpace (c : Contents) : Nat :=
  ((c.cellPointers.filter fun p ↦ !p.isDeleted).map CellPointer.length).sum

/-- `num_free_bytes_with_cell_count`. -/
def numFreeBytesWithCellCount (c : Contents) (numCells : Nat) : Nat :=
  dataSize - c.totalOccupiedSpace - cellPointerSize * numCells - 1

/-- `num_free_bytes`. -/
def numFreeBytes (c : Contents) : Nat := c.numFreeBytesWithCellCount c.numCells

/-! ### Gaps -/

/-- The search of `find_available_slot_in_used_space` through the sorted cells. -/
def findGap (length : Nat) : List (Nat × Nat) → Option Nat
  | a :: b :: used =>
    if length ≤ b.1 - a.2 then some (a.2 + length) else findGap length (b :: used)
  | _ => none

/-- `find_available_slot_in_used_space`. -/
def findAvailableSlotInUsedSpace (c : Contents) (index length : Nat) : Option Nat :=
  let headerSize := c.newNumCells index * cellPointerSize + 1
  let used := c.cellPointers.filter fun p ↦ !p.isDeleted
  if used.any fun p ↦ dataSize < p.offset + headerSize then none
  else findGap length
    ((used.map fun p ↦ (p.offset - p.length, p.offset)).insertionSort fun a b ↦ a.2 ≤ b.2)

/-- The largest offset of the live cells but for one. -/
def maxOffset (c : Contents) (index : Nat) : Nat :=
  let others := (List.range c.numCells).filter fun i ↦ i ≠ index ∧ !(c.pointer i).isDeleted
  (others.map fun i ↦ (c.pointer i).offset).foldr max 0

/-- `find_available_slot_in_remaining_space`; the offset is a `u16`. -/
def findAvailableSlotInRemainingSpace (c : Contents) (index length : Nat) : Option Nat :=
  let offset := (c.maxOffset index + length) % 2 ^ 16
  let headerSize := c.newNumCells index * cellPointerSize + 1
  if dataSize - headerSize < offset then none else some offset

/-- `find_available_slot`. -/
def findAvailableSlot (c : Contents) (index length : Nat) : Option Nat :=
  match c.findAvailableSlotInUsedSpace index length with
  | some offset => some offset
  | none => c.findAvailableSlotInRemainingSpace index length

/-- The number of cells without the deleted ones at the end. -/
def trimmed (c : Contents) : Nat → Nat
  | 0 => 0
  | n + 1 => if (c.pointer n).isDeleted then c.trimmed n else n + 1

end Contents

namespace SlottedPage

open Contents

/-- `contents()[start..stop]`. -/
def slice (start stop : Nat) : SlottedM (List UInt8) := do
  if stop < start ∨ dataSize < stop then throw .panic
  return (← get).bytes start (stop - start)

/-- `contents_mut()[start..stop]` filled with as many bytes. -/
def fill (start stop : Nat) (data : List UInt8) : SlottedM Unit := do
  if stop < start ∨ dataSize < stop ∨ data.length ≠ stop - start then throw .panic
  modify fun c ↦ c.store start data

/-- `get_cell_pointer`. -/
def getCellPointer (index : Nat) : SlottedM CellPointer := do
  let c ← get
  if c.numCells ≤ index then throw (.error .invalidCellPointer)
  return c.pointer index

/-- `set_num_cells`. -/
def setNumCells (numCells : Nat) : SlottedM Unit :=
  modify fun c ↦ c.store 0 [UInt8.ofNat numCells]

/-- `set_cell_pointer`, with the assertions of `CellPointer::new`. -/
def setCellPointer (index offset length : Nat) : SlottedM CellPointer := do
  if dataSize ≤ offset ∨ dataSize ≤ length ∨ offset < length then throw .panic
  let p := CellPointer.encode offset length
  fill (getContentIndex index) (getContentIndex index + cellPointerSize) [p.byte0, p.byte1, p.byte2]
  return p

/-- `get_value`. -/
def getValue (index : Nat) : SlottedM (List UInt8) := do
  let p ← getCellPointer index
  if p.isDeleted then throw (.error .invalidCellPointer)
  slice (dataSize - p.offset) (dataSize - p.offset + p.length)

/-- `delete_value`. -/
def deleteValue (index : Nat) : SlottedM Unit := do
  let numCells := (← get).numCells
  let _ ← setCellPointer index 0 0
  let newNumCells := (← get).trimmed numCells
  if newNumCells < numCells then setNumCells newNumCells

/-- `next_free_cell_index`. -/
def nextFreeCellIndex : SlottedM Nat := do
  let c ← get
  match (List.range c.numCells).find? fun i ↦ (c.pointer i).isDeleted with
  | some i => return i
  | none =>
    if c.numCells = maxNumCells then throw (.error .noFreeCells)
    return c.numCells

/-- `swap_cell_pointers`. -/
def swapCellPointers (index1 index2 : Nat) : SlottedM Unit := do
  let c ← get
  if c.numCells ≤ index1 ∨ c.numCells ≤ index2 then throw (.error .invalidCellPointer)
  let start1 := getContentIndex index1
  let start2 := getContentIndex index2
  set ((c.store start1 (c.bytes start2 cellPointerSize)).store start2
    (c.bytes start1 cellPointerSize))

/-- One cell of `defragment`: moved behind the one before unless it starts where that one did. -/
def moveCell (index offset length : Nat) (last : Nat × Nat) : SlottedM (Nat × Nat) := do
  if offset - length = last.1 then return (last.1, offset)
  let newOffset := last.2 + length
  let _ ← setCellPointer index newOffset length
  let data ← slice (dataSize - offset) (dataSize - offset + length)
  fill (dataSize - newOffset) (dataSize - newOffset + length) data
  return (newOffset - length, newOffset)

/-- The loop of `defragment`, with the start and the offset of the cell before. -/
def moveCells : List (Nat × Nat × Nat) → Nat × Nat → SlottedM Unit
  | [], _ => return
  | (index, offset, length) :: cells, last => do
    let last ← moveCell index offset length last
    moveCells cells last

/-- `defragment`. -/
def defragment (index additionalSlotLength : Nat) : SlottedM Bool := do
  let c ← get
  -- the sum is a `u16`, which is compared as a `usize`
  if dataSize < (c.totalOccupiedSpace + additionalSlotLength +
      c.newNumCells index * cellPointerSize + 1) % 2 ^ 16 then
    return false
  let cells := ((List.range c.numCells).filter fun i ↦ !(c.pointer i).isDeleted).map
    fun i ↦ (i, (c.pointer i).offset, (c.pointer i).length)
  moveCells (cells.insertionSort fun a b ↦ a.2.1 ≤ b.2.1) (0, 0)
  return true

/-- `allocate_cell_pointer`, for as many rounds as given. -/
def allocateCellPointer : Nat → Nat → Nat → SlottedM CellPointer
  | 0, _, _ => throw .rounds
  | rounds + 1, index, length => do
    let c ← get
    match c.findAvailableSlot index length with
    | some offset =>
      if c.numCells < c.newNumCells index then setNumCells (c.newNumCells index)
      setCellPointer index offset length
    | none =>
      if ← defragment index length then allocateCellPointer rounds index length
      else throw (.error .pageIsFull)

/-- The store of a value into its cell, at the end of `set_value` and `insert_value`. -/
def serializeInto (offset length : Nat) (value : List UInt8) : SlottedM Unit :=
  fill (dataSize - offset) (dataSize - offset + length) value

/-- `set_value`; the length of the new cell is a `u16`. -/
def setValue (rounds index : Nat) (value : List UInt8) : SlottedM Unit := do
  let p ← getCellPointer index
  if p.length < value.length then
    -- the cell is deleted first, so that its bytes count as free
    deleteValue index
    let p ← allocateCellPointer rounds index (value.length % 2 ^ 16)
    serializeInto p.offset p.length value
  else if value.length < p.length then
    let _ ← setCellPointer index p.offset value.length
    serializeInto p.offset value.length value
  else serializeInto p.offset p.length value

/-- `insert_value`; the length of the new cell is a `u16`. -/
def insertValue (rounds : Nat) (value : List UInt8) : SlottedM Nat := do
  let index ← nextFreeCellIndex
  let p ← allocateCellPointer rounds index (value.length % 2 ^ 16)
  serializeInto p.offset p.length value
  return index

end SlottedPage

end TrieDb

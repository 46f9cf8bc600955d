import TrieDb.Base.Simulation
import TrieDb.Node.RoundTrip
import TrieDb.Page.Refinement
import TrieDb.Page.Slotted

/-!
# Pages of nodes

The engine works on `Cells`, where a page is a list of nodes, and the program on the bytes of the
page (`src/page/slotted_page.rs:57–262`). A page whose bytes hold the nodes of the cells keeps doing
so: an operation on the bytes returns what the operation on the cells returns, in any sequence of
operations from a zeroed page on.
-/

namespace TrieDb

open Base Contents

/-- A node whose prefix and references fit into the bytes of a page. -/
structure Node.Storable (n : Node) : Prop where
  length_le : n.pre.length ≤ maxPrefixLength
  rlpItem : ∀ i, ∀ p ∈ n.childAt i, Codec.Pointer.RlpItem p.rlp.bytes

namespace Node

section
variable [AlloyTrie] {n : Node}

/-- The bytes of a node in a page. -/
def stored (n : Node) : List UInt8 := (Codec.ofNode n).bytes

/-- What has been stored is read as the same node. -/
private theorem Storable.fromBytes_stored (h : n.Storable) :
    Codec.Node.fromBytes n.stored = .ok (Codec.ofNode n) :=
  (Codec.fromBytes_ofNode h.length_le h.rlpItem).1

/-- A node takes as many bytes as its size says. -/
private theorem Storable.length_stored (h : n.Storable) : n.stored.length = n.size :=
  (Codec.fromBytes_ofNode h.length_le h.rlpItem).2

/-- A node takes some bytes, and always fits into an empty page. -/
private theorem Storable.size_bounds (h : n.Storable) : 0 < n.size ∧ n.size ≤ 4084 := by
  have hpre := h.length_le
  obtain ⟨pre, kind⟩ := n
  simp only [maxPrefixLength] at hpre
  cases kind with
  | storageLeaf v =>
    have hv := Rlp.length_encodeUint_le (k := 32) (n := v.toNat) v.isLt
    simp only [size]
    omega
  | accountLeaf nonce balance codeHash root =>
    have hnonce := Rlp.length_encodeUint_le (k := 8) (n := nonce.toNat) nonce.isLt
    have hbalance := Rlp.length_encodeUint_le (k := 32) (n := balance.toNat) balance.isLt
    simp only [size]
    split_ifs <;> omega
  | branch children =>
    have hslots : slotSize (countChildren children) ≤ 16 := by
      simp only [slotSize]
      split_ifs <;> omega
    simp only [size]
    omega

end

end Node

section
variable [AlloyTrie]

/-- A page whose bytes hold the nodes of the cells. -/
structure Cells.StoredIn (cells : Cells) (c : Contents) : Prop where
  wellFormed : c.WellFormed
  numCells : c.numCells = cells.length
  value : ∀ i, c.value i = (cells.cell i).map Node.stored
  storable : ∀ i n, cells.cell i = some n → n.Storable

namespace Cells

variable {cells cells' : Cells} {c c' : Contents} {i j : Nat} {n : Node}

namespace StoredIn

/-- A zeroed page has no cells. -/
theorem zero : StoredIn [] .zero where
  wellFormed := SlottedPage.wellFormed_zero
  numCells := rfl
  value i := by
    rw [cell_of_length_le (Nat.zero_le i)]
    exact value_of_le (Nat.zero_le i)
  storable i n h := by
    rw [cell_of_length_le (Nat.zero_le i)] at h
    cases h

/-- A cell is in use exactly when it holds a node. -/
private theorem live_iff (h : cells.StoredIn c) : c.Live i ↔ cells.cell i ≠ none := by
  rw [live_iff_value, h.value]
  simp

/-- The cells after one of them has been filled or emptied. -/
private theorem update {o : Option Node} (h : cells.StoredIn c) (hc : c'.WellFormed)
    (hnum : c'.numCells = cells'.length)
    (hvalue : c'.value = Function.update c.value i (o.map Node.stored))
    (hcell : ∀ j, cells'.cell j = if j = i then o else cells.cell j)
    (ho : ∀ n ∈ o, n.Storable) : cells'.StoredIn c' where
  wellFormed := hc
  numCells := hnum
  value j := by
    rw [hvalue, hcell]
    by_cases hj : j = i
    · rw [if_pos hj, hj, Function.update_self]
    · rw [if_neg hj, Function.update_of_ne hj, h.value]
  storable j n hn := by
    rw [hcell] at hn
    split at hn
    · exact ho n hn
    · exact h.storable j n hn

/-- `get_value` reads the node that is among the cells, or fails as there. -/
theorem getValue (h : cells.StoredIn c) (i : Nat) :
    match cells.getValue i with
    | .ok n => SlottedPage.getValue i c = .ok n.stored c ∧
        Codec.Node.fromBytes n.stored = .ok (Codec.ofNode n)
    | .error e => SlottedPage.getValue i c = .error (.error e) c := by
  rw [SlottedPage.getValue_eq h.wellFormed, h.value, Cells.getValue]
  cases hn : cells.cell i with
  | some n => exact ⟨rfl, (h.storable i n hn).fromBytes_stored⟩
  | none => rfl

end StoredIn

/-! ### Room -/

/-- The bytes of a value are those of its node. -/
private theorem StoredIn.length_value (h : cells.StoredIn c) (i : Nat) :
    ((c.value i).map List.length).getD 0 = ((cells.cell i).map Node.size).getD 0 := by
  rw [h.value]
  cases hn : cells.cell i with
  | none => rfl
  | some n => exact (h.storable i n hn).length_stored

/-- The bytes in use are those of the nodes. -/
private theorem StoredIn.occupiedSpace (h : cells.StoredIn c) :
    c.totalOccupiedSpace = cells.occupiedSpace := by
  have hsum : ∑ i ∈ Finset.range cells.length, ((cells.cell i).map Node.size).getD 0 =
      cells.occupiedSpace := by
    rw [Finset.sum_range, ← List.sum_ofFn, Cells.occupiedSpace]
    congr 1
    apply List.ext_getElem (by simp)
    intro k hk _
    simp [cell]
  rw [totalOccupiedSpace_eq, occupied, h.numCells, ← hsum]
  exact Finset.sum_congr rfl fun i _ ↦ h.length_value i

/-- `num_free_bytes`. -/
theorem StoredIn.numFreeBytes (h : cells.StoredIn c) : c.numFreeBytes = cells.numFreeBytes := by
  rw [Contents.numFreeBytes, numFreeBytesWithCellCount, Cells.numFreeBytes, h.occupiedSpace,
    h.numCells]
  rfl

/-! ### Operations -/

omit [AlloyTrie] in
/-- A deletion gives up the deleted cells at the end. -/
private theorem cell_deleteValue_last {m : Nat} (h : (cells.deleteValue i).length = m + 1) :
    (cells.deleteValue i).cell m ≠ none := by
  have hne : cells.deleteValue i ≠ [] := List.ne_nil_of_length_eq_add_one h
  have hlast : ¬ ((cells.deleteValue i).getLast hne).isNone = true :=
    List.rdropWhile_last_not Option.isNone (cells.set i none) hne
  have hget : (cells.deleteValue i).getLast hne = (cells.deleteValue i)[m] := by
    rw [List.getLast_eq_getElem]
    simp [h]
  rw [cell, List.getElem?_eq_getElem (by omega), ← hget]
  simpa using hlast

namespace StoredIn

/-- Both look for the first deleted cell. -/
private theorem nextFreeCellIndex (h : cells.StoredIn c) :
    SlottedPage.nextFreeCellIndex c =
      match cells.nextFreeCellIndex with
      | .ok i => .ok i c
      | .error e => .error (.error e) c := by
  have hdeleted {i : Nat} (hi : i < cells.length) :
      (c.pointer i).isDeleted = cells[i].isNone := by
    have hlive := h.live_iff (i := i)
    rw [Live, h.numCells, cell, List.getElem?_eq_getElem hi] at hlive
    cases hn : cells[i] <;> simp_all
  have hfind : (List.range cells.length).find? (fun i ↦ (c.pointer i).isDeleted) =
      cells.findIdx? Option.isNone := by
    cases hfree : cells.findIdx? Option.isNone with
    | none =>
      rw [List.findIdx?_eq_none_iff] at hfree
      rw [List.find?_eq_none]
      intro i hi
      rw [hdeleted (List.mem_range.mp hi), hfree _ (List.getElem_mem _)]
      decide
    | some i =>
      obtain ⟨hi, hnone, hall⟩ := List.findIdx?_eq_some_iff_getElem.mp hfree
      rw [List.find?_range_eq_some]
      refine ⟨by rwa [hdeleted hi], List.mem_range.mpr hi, fun j hj ↦ ?_⟩
      rw [hdeleted (hj.trans hi)]
      simpa [Option.isSome_iff_ne_none] using hall j hj
  simp only [SlottedPage.nextFreeCellIndex, bind_apply, get_apply, h.numCells, hfind,
    Cells.nextFreeCellIndex]
  cases cells.findIdx? Option.isNone with
  | some i => rfl
  | none =>
    by_cases hmax : cells.length = Contents.maxNumCells
    · have hmax' : cells.length = Cells.maxNumCells := hmax
      simp only [if_pos hmax, if_pos hmax']
      rfl
    · have hmax' : ¬ cells.length = Cells.maxNumCells := hmax
      simp only [if_neg hmax, if_neg hmax']
      rfl

/-- A cell is allocated on the bytes exactly when it is among the cells. -/
private theorem allocateCell (h : cells.StoredIn c) (hn : n.Storable) :
    cells.allocateCell i n =
      if c.totalOccupiedSpace + n.stored.length + getContentIndex (max c.numCells (i + 1)) ≤
          Contents.dataSize then
        .ok ((cells ++ List.replicate (max cells.length (i + 1) - cells.length) none).set
          i (some n))
      else .error .pageIsFull := by
  have hiff : Cells.dataSize < cells.occupiedSpace + n.size +
      max cells.length (i + 1) * Cells.cellPointerSize + 1 ↔
        ¬ cells.occupiedSpace + n.size + getContentIndex (max cells.length (i + 1)) ≤
          Contents.dataSize := by
    simp only [getContentIndex, Contents.dataSize, Cells.dataSize, Contents.cellPointerSize,
      Cells.cellPointerSize]
    omega
  rw [h.occupiedSpace, hn.length_stored, h.numCells]
  simp only [Cells.allocateCell, hiff, ite_not]

/-- A value stored in a free cell is there among the cells as well. -/
private theorem of_stored (h : cells.StoredIn c) (hn : n.Storable)
    (hstored : SlottedPage.Stored c i n.stored c') :
    ∃ cells', cells.allocateCell i n = .ok cells' ∧ cells'.StoredIn c' := by
  have halloc := h.allocateCell (i := i) hn
  rw [if_pos hstored.fits] at halloc
  refine ⟨_, halloc, h.update hstored.wellFormed ?_ hstored.value (cell_allocateCell halloc) ?_⟩
  · rw [hstored.numCells, h.numCells]
    simp
  · rintro m ⟨⟩
    exact hn

/-- `insert_value` puts a node into the cell that it has among the cells, or fails as there. -/
theorem insertValue (h : cells.StoredIn c) (hn : n.Storable) (rounds : Nat) :
    Ensures (SlottedPage.insertValue (rounds + 2) n.stored) c
      (fun i c' ↦ ∃ cells', cells.insertValue n = .ok (i, cells') ∧ cells'.StoredIn c')
      fun e c' ↦ c' = c ∧ ∃ e', e = .error e' ∧ cells.insertValue n = .error e' := by
  obtain ⟨hpos, hmax⟩ := hn.size_bounds
  rw [← hn.length_stored] at hpos hmax
  apply Ensures.bind
  rw [Ensures, h.nextFreeCellIndex]
  simp only [Cells.insertValue]
  cases hnext : cells.nextFreeCellIndex with
  | error e => exact ⟨rfl, e, rfl, rfl⟩
  | ok i =>
    have hrun : SlottedPage.nextFreeCellIndex c = .ok i c := by rw [h.nextFreeCellIndex, hnext]
    obtain ⟨-, hindex, -, hwhere⟩ := SlottedPage.nextFreeCellIndex_spec.ok hrun
    apply SlottedPage.allocate_store_spec h.wellFormed hpos hmax hindex
    · rw [h.value, cell_nextFreeCellIndex hnext]
      rfl
    · intro j hj hlt
      omega
    · intro hfull
      have halloc := h.allocateCell (i := i) hn
      rw [if_neg hfull] at halloc
      exact ⟨rfl, _, rfl, by simp [halloc, bind, Except.bind]⟩
    · intro c' hstored
      obtain ⟨cells', halloc, h'⟩ := h.of_stored hn hstored
      exact Ensures.pure ⟨cells', by simp [halloc, bind, Except.bind, pure, Except.pure], h'⟩

/-- A deletion on the bytes is one among the cells. -/
private theorem deleted (h : cells.StoredIn c) (hi : i < cells.length) :
    (cells.deleteValue i).StoredIn (SlottedPage.deleted c i) := by
  have hdel := SlottedPage.deleted_spec h.wellFormed (by rwa [h.numCells] : i < c.numCells)
  have hvalue (j : Nat) :
      (SlottedPage.deleted c i).Live j ↔ (cells.deleteValue i).cell j ≠ none := by
    rw [live_iff_value, hdel.value, cell_deleteValue]
    by_cases hj : j = i
    · simp [hj]
    · rw [Function.update_of_ne hj, if_neg hj, ← live_iff_value, h.live_iff]
  refine h.update (o := none) hdel.wellFormed ?_ hdel.value (cell_deleteValue cells i) (by simp)
  -- either number is the one after the last cell in use
  apply Nat.le_antisymm
  · cases hnum : (SlottedPage.deleted c i).numCells with
    | zero => exact Nat.zero_le _
    | succ m =>
      by_contra hle
      exact (hvalue m).mp (hdel.lastLive m hnum) (cell_of_length_le (by omega))
  · cases hlen : (cells.deleteValue i).length with
    | zero => exact Nat.zero_le _
    | succ m => exact ((hvalue m).mpr (cell_deleteValue_last hlen)).1

/-- `delete_value` of a cell that is there. -/
theorem deleteValue (h : cells.StoredIn c) (hi : i < cells.length) :
    ∃ c', SlottedPage.deleteValue i c = .ok () c' ∧ (cells.deleteValue i).StoredIn c' := by
  have hlt := c.numCells_lt
  have hnum := h.numCells
  exact ⟨_, SlottedPage.deleteValue_eq (by omega), h.deleted hi⟩

/-- The bytes of a cell, none if it is deleted. -/
private theorem length_pointer (h : cells.StoredIn c) (hi : i < cells.length) :
    (c.pointer i).length = ((cells.cell i).map Node.size).getD 0 := by
  rw [← h.length_value, Contents.length_value]
  split
  · rfl
  · next hl =>
    have hd : (c.pointer i).isDeleted = true := by
      simpa [Live, h.numCells, hi] using hl
    obtain ⟨-, h1, h2⟩ := (CellPointer.isDeleted_iff _).mp hd
    rw [CellPointer.length_eq, h1, h2]
    rfl

/-- `set_value` replaces a node as among the cells, or fails as there: with the old node deleted if
the new one is too long. -/
theorem setValue (h : cells.StoredIn c) (hn : n.Storable) (rounds i : Nat) :
    Ensures (SlottedPage.setValue (rounds + 2) i n.stored) c
      (fun _ c' ↦ ∃ cells', cells.setValue i n = (.ok (), cells') ∧ cells'.StoredIn c')
      fun e c' ↦ ∃ e' cells', e = .error e' ∧ cells.setValue i n = (.error e', cells') ∧
        cells'.StoredIn c' := by
  obtain ⟨hpos, hmax⟩ := hn.size_bounds
  rw [← hn.length_stored] at hpos hmax
  have hlength := hn.length_stored
  refine (SlottedPage.setValue_spec h.wellFormed hpos hmax).mono ?_ ?_
  · intro _ c' hreplaced
    have hi : i < cells.length := h.numCells ▸ hreplaced.index_lt
    have hnum := hreplaced.numCells
    rw [h.length_pointer hi, hlength] at hnum
    rw [Cells.setValue, if_neg (Nat.not_le.mpr hi)]
    split
    · next hgt =>
      rw [if_pos hgt] at hnum
      have hdel := SlottedPage.deleted_spec h.wellFormed hreplaced.index_lt
      have hfits := hdel.canHold_iff.mpr hreplaced.canHold
      obtain ⟨cells', halloc, h'⟩ := (h.deleted hi).of_stored hn ⟨hreplaced.wellFormed, hnum, by
        rw [hreplaced.value, hdel.value, Function.update_idem], hfits⟩
      exact ⟨cells', by simp [halloc], h'⟩
    · next hle =>
      rw [if_neg hle] at hnum
      refine ⟨_, rfl, h.update (o := some n) hreplaced.wellFormed ?_ hreplaced.value
        (fun j ↦ cell_set cells i j _ hi) ?_⟩
      · rw [hnum, h.numCells, List.length_set]
      · rintro m ⟨⟩
        exact hn
  · rintro e c' (hge | ⟨hi, hfull⟩)
    · rw [h.numCells] at hge
      exact ⟨_, cells, rfl, by rw [Cells.setValue, if_pos hge], h⟩
    · have hi' : i < cells.length := h.numCells ▸ hi
      have hdel := SlottedPage.deleted_spec h.wellFormed hi
      have hgt : ((cells.cell i).map Node.size).getD 0 < n.size := by
        by_contra hle
        have hl : c.Live i := by
          rw [h.live_iff]
          intro hnone
          simp only [hnone, Option.map_none, Option.getD_none] at hle
          omega
        rw [← h.length_pointer hi', ← hlength] at hle
        exact hfull (SlottedPage.replaced_of_le h.wellFormed hl hpos (Nat.le_of_not_lt hle)).canHold
      have halloc := (h.deleted hi').allocateCell (i := i) hn
      rw [if_neg fun hfits ↦ hfull (hdel.canHold_iff.mp hfits)] at halloc
      exact ⟨_, _, rfl, by simp [Cells.setValue, Nat.not_le.mpr hi', hgt, halloc], h.deleted hi'⟩

/-- `swap_cell_pointers`. -/
theorem swapCellPointers (h : cells.StoredIn c) (i j : Nat) :
    Ensures (SlottedPage.swapCellPointers i j) c
      (fun _ c' ↦ ∃ cells', cells.swapCellPointers i j = .ok cells' ∧ cells'.StoredIn c')
      fun e c' ↦ c' = c ∧ ∃ e', e = .error e' ∧ cells.swapCellPointers i j = .error e' := by
  apply Ensures.bind
  apply Ensures.get
  by_cases hle : cells.length ≤ i ∨ cells.length ≤ j
  · rw [← h.numCells] at hle
    simp only [if_pos hle]
    rw [h.numCells] at hle
    exact ⟨rfl, _, rfl, by rw [Cells.swapCellPointers, if_pos hle]⟩
  · have hle' := hle
    rw [← h.numCells] at hle'
    simp only [if_neg hle']
    have hswap := SlottedPage.swapped_spec (i := i) (j := j) h.wellFormed (by omega) (by omega)
    have hcells : cells.swapCellPointers i j =
        .ok ((cells.set i (cells.cell j)).set j (cells.cell i)) := if_neg hle
    refine ⟨_, hcells, hswap.wellFormed, ?_, fun k ↦ ?_, fun k n hn ↦ ?_⟩
    · refine hswap.numCells.trans ?_
      rw [h.numCells, List.length_set, List.length_set]
    · rw [cell_swapCellPointers hcells, ← h.value]
      exact hswap.value k
    · rw [cell_swapCellPointers hcells] at hn
      exact h.storable _ n hn

end StoredIn

end Cells

/-! ### Sequences of operations -/

/-- The operations on a page of nodes. -/
inductive PageOp where
  | getValue (i : Nat)
  | insertValue (n : Node)
  | setValue (i : Nat) (n : Node)
  | deleteValue (i : Nat)
  | swapCellPointers (i j : Nat)
  | numFreeBytes

/-- What an operation returns. -/
inductive PageReply where
  | node (n : Codec.Node)
  | cell (i : Nat)
  | bytes (n : Nat)
  | done
  | error (e : PageError)

/-- An operation on the cells: its reply, and the cells after it. -/
def Cells.run (cells : Cells) : PageOp → PageReply × Cells
  | .getValue i =>
    match cells.getValue i with
    | .ok n => (.node (Codec.ofNode n), cells)
    | .error e => (.error e, cells)
  | .insertValue n =>
    match cells.insertValue n with
    | .ok (i, cells') => (.cell i, cells')
    | .error e => (.error e, cells)
  | .setValue i n =>
    match cells.setValue i n with
    | (.ok _, cells') => (.done, cells')
    | (.error e, cells') => (.error e, cells')
  | .deleteValue i => (.done, cells.deleteValue i)
  | .swapCellPointers i j =>
    match cells.swapCellPointers i j with
    | .ok cells' => (.done, cells')
    | .error e => (.error e, cells)
  | .numFreeBytes => (.bytes cells.numFreeBytes, cells)

/-- The operation on the bytes, where a node is stored as its bytes and read back from them. -/
def SlottedPage.run (rounds : Nat) : PageOp → SlottedM PageReply
  | .getValue i => do
    match Codec.Node.fromBytes (← SlottedPage.getValue i) with
    | .ok n => return .node n
    | .error _ => throw .panic
  | .insertValue n => do return .cell (← SlottedPage.insertValue rounds n.stored)
  | .setValue i n => do
    SlottedPage.setValue rounds i n.stored
    return .done
  | .deleteValue i => do
    SlottedPage.deleteValue i
    return .done
  | .swapCellPointers i j => do
    SlottedPage.swapCellPointers i j
    return .done
  | .numFreeBytes => return .bytes (← get).numFreeBytes

/-- An operation with its reply, on the cells. -/
def Cells.Step (cells : Cells) (l : PageOp × PageReply) (cells' : Cells) : Prop :=
  cells.run l.1 = (l.2, cells')

/-- An operation with its reply, on the bytes: it returns or fails with an error. -/
def SlottedPage.Replies (rounds : Nat) (c : Contents) (l : PageOp × PageReply) (c' : Contents) :
    Prop :=
  SlottedPage.run rounds l.1 c = .ok l.2 c' ∨
    ∃ e, SlottedPage.run rounds l.1 c = .error (.error e) c' ∧ l.2 = .error e

/-- Operations as the engine makes them: a node that is stored fits, and a deleted cell exists. -/
def Cells.Admits (cells : Cells) : PageOp → Prop
  | .insertValue n | .setValue _ n => n.Storable
  | .deleteValue i => i < cells.length
  | _ => True

variable {cells : Cells} {c : Contents} {op : PageOp} {rounds : Nat}
  {ls : List (PageOp × PageReply)}

/-- An operation on the bytes replies what the operation on the cells replies. -/
theorem Cells.StoredIn.run (h : cells.StoredIn c) (hop : cells.Admits op) (rounds : Nat) :
    Ensures (SlottedPage.run (rounds + 2) op) c
      (fun r c' ↦ ∃ cells', cells.run op = (r, cells') ∧ cells'.StoredIn c')
      fun e c' ↦ ∃ e' cells', e = .error e' ∧ cells.run op = (.error e', cells') ∧
        cells'.StoredIn c' := by
  cases op with
  | getValue i =>
    have hget := h.getValue i
    apply Ensures.bind
    cases hn : cells.getValue i with
    | ok n =>
      rw [hn] at hget
      rw [Ensures, hget.1]
      simp only [hget.2]
      exact Ensures.pure ⟨cells, by simp only [Cells.run, hn], h⟩
    | error e =>
      rw [hn] at hget
      rw [Ensures, hget]
      exact ⟨e, cells, rfl, by simp only [Cells.run, hn], h⟩
  | insertValue n =>
    refine ((h.insertValue hop rounds).mono (fun _ _ hi ↦ hi) ?_).seq ?_
    · rintro _ _ ⟨rfl, e, rfl, he⟩
      exact ⟨e, cells, rfl, by simp only [Cells.run, he], h⟩
    · rintro i c' ⟨cells', hi, h'⟩
      exact Ensures.pure ⟨cells', by simp only [Cells.run, hi], h'⟩
  | setValue i n =>
    refine ((h.setValue hop rounds i).mono (fun _ _ hi ↦ hi) ?_).seq ?_
    · rintro _ _ ⟨e, cells', rfl, he, h'⟩
      exact ⟨e, cells', rfl, by simp only [Cells.run, he], h'⟩
    · rintro _ c' ⟨cells', hi, h'⟩
      exact Ensures.pure ⟨cells', by simp only [Cells.run, hi], h'⟩
  | deleteValue i =>
    obtain ⟨c', hrun, h'⟩ := h.deleteValue hop
    apply Ensures.bind
    rw [Ensures, hrun]
    exact Ensures.pure ⟨_, rfl, h'⟩
  | swapCellPointers i j =>
    refine ((h.swapCellPointers i j).mono (fun _ _ hi ↦ hi) ?_).seq ?_
    · rintro _ _ ⟨rfl, e, rfl, he⟩
      exact ⟨e, cells, rfl, by simp only [Cells.run, he], h⟩
    · rintro _ c' ⟨cells', hi, h'⟩
      exact Ensures.pure ⟨cells', by simp only [Cells.run, hi], h'⟩
  | numFreeBytes =>
    apply Ensures.bind
    apply Ensures.get
    exact Ensures.pure ⟨cells, by rw [Cells.run, h.numFreeBytes], h⟩

/-- Every operation on the bytes is matched by one on the cells. -/
private theorem simulates_cells : Simulates (SlottedPage.Replies (rounds + 2)) Cells.Step
    (fun cells l ↦ cells.Admits l.1) fun c cells ↦ cells.StoredIn c := by
  rintro c cells ⟨op, r⟩ c' h hop (hrun | ⟨e, hrun, rfl⟩)
  · obtain ⟨cells', hstep, h'⟩ := (h.run hop rounds).ok hrun
    exact ⟨cells', hstep, h'⟩
  · obtain ⟨e', cells', he, hstep, h'⟩ := (h.run hop rounds).error hrun
    cases he
    exact ⟨cells', hstep, h'⟩

/-- Whatever is done with a page from the zeroed one on, its bytes reply as its cells do and hold
their nodes, and every further operation has a reply. -/
theorem SlottedPage.traced_cells (ht : Traced (SlottedPage.Replies (rounds + 2)) .zero ls c)
    (hok : Obeys Cells.Step (fun cells l ↦ cells.Admits l.1) [] ls) :
    ∃ cells, Traced Cells.Step [] ls cells ∧ cells.StoredIn c ∧
      ∀ op, cells.Admits op → ∃ r c', SlottedPage.Replies (rounds + 2) c (op, r) c' := by
  obtain ⟨cells, hcells, h⟩ := simulates_cells.traced .zero ht hok
  refine ⟨cells, hcells, h, fun op hop ↦ ?_⟩
  have hspec := h.run hop rounds
  cases hrun : SlottedPage.run (rounds + 2) op c with
  | ok r c' => exact ⟨r, c', .inl hrun⟩
  | error e c' =>
    obtain ⟨e', -, rfl, -⟩ := hspec.error hrun
    exact ⟨.error e', c', .inr ⟨e', hrun, rfl⟩⟩

end

end TrieDb

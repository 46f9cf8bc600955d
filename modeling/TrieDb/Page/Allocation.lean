import Mathlib.Algebra.BigOperators.Group.Finset.Basic
import Mathlib.Data.List.MinMax
import TrieDb.Base.Intervals
import TrieDb.Page.Layout

/-!
# Finding room in a page

A slot that `find_available_slot` returns is free, `defragment` keeps every value and leaves the
cells packed at the end of the page, and after it a slot is found whenever the bytes suffice.
-/

namespace TrieDb

namespace Contents

variable {c c' : Contents}

/-! ### The bytes in use -/

/-- The number of bytes of the values in the first `n` cells. -/
def occupied (f : Nat → Option (List UInt8)) (n : Nat) : Nat :=
  ∑ i ∈ Finset.range n, ((f i).map List.length).getD 0

/-- The cells in use. -/
def liveCells (c : Contents) : List Nat :=
  (List.range c.numCells).filter fun i ↦ !(c.pointer i).isDeleted

private theorem mem_liveCells {i : Nat} : i ∈ c.liveCells ↔ c.Live i := by
  simp [liveCells, Live]

private theorem used_eq :
    (c.cellPointers.filter fun p ↦ !p.isDeleted) = c.liveCells.map c.pointer := by
  simp only [cellPointers, liveCells, List.filter_map]
  rfl

/-- The length of a value is that in its cell pointer. -/
theorem length_value {i : Nat} :
    ((c.value i).map List.length).getD 0 = if c.Live i then (c.pointer i).length else 0 := by
  by_cases h : c.Live i
  · simp [value_of_live h, h]
  · simp [value_of_not_live h, h]

/-- The bytes in use are those of the values. -/
theorem totalOccupiedSpace_eq : c.totalOccupiedSpace = occupied c.value c.numCells := by
  have hsum (is : List Nat) (his : ∀ i ∈ is, i < c.numCells) :
      ((is.filter fun i ↦ !(c.pointer i).isDeleted).map fun i ↦ (c.pointer i).length).sum =
        (is.map fun i ↦ ((c.value i).map List.length).getD 0).sum := by
    induction is with
    | nil => rfl
    | cons i is ih =>
      rw [List.forall_mem_cons] at his
      rw [List.map_cons, List.sum_cons, ← ih his.2, length_value]
      cases hd : (c.pointer i).isDeleted with
      | true => simp [hd, Live]
      | false => simp [hd, Live, his.1]
  rw [totalOccupiedSpace, used_eq, List.map_map, occupied]
  exact hsum (List.range c.numCells) fun i hi ↦ List.mem_range.mp hi

/-- The start of a cell, counted from the end of the page. -/
def cellStart (c : Contents) (i : Nat) : Nat := (c.pointer i).offset - (c.pointer i).length

private theorem cellStart_add {i : Nat} (hc : c.WellFormed) (h : c.Live i) :
    c.cellStart i + (c.pointer i).length = (c.pointer i).offset := by
  have := hc.length_le i h
  rw [cellStart]
  omega

private theorem WellFormed.pairwise_liveCells (hc : c.WellFormed) :
    c.liveCells.Pairwise fun i j ↦
      (c.pointer i).offset ≤ c.cellStart j ∨ (c.pointer j).offset ≤ c.cellStart i := by
  have hnodup : c.liveCells.Nodup := List.nodup_range.filter _
  apply hnodup.imp_of_mem
  intro i j hi hj hne
  rw [mem_liveCells] at hi hj
  have happ := hc.apart i j hi hj hne
  have hsi := cellStart_add hc hi
  have hsj := cellStart_add hc hj
  omega

/-- The cells by their offsets follow each other. -/
private theorem WellFormed.pairwise_sorted (hc : c.WellFormed) :
    (c.liveCells.insertionSort fun i j ↦ (c.pointer i).offset ≤ (c.pointer j).offset).Pairwise
      fun i j ↦ (c.pointer i).offset ≤ c.cellStart j := by
  apply Base.pairwise_insertionSort_of_apart _ hc.pairwise_liveCells
  intro i hi
  rw [mem_liveCells] at hi
  have := cellStart_add hc hi
  have := hc.pos i hi
  omega

/-- The values and the header fit into the page. -/
theorem WellFormed.total_le (hc : c.WellFormed) :
    c.totalOccupiedSpace + getContentIndex c.numCells ≤ dataSize := by
  have hperm := List.perm_insertionSort
    (fun i j ↦ (c.pointer i).offset ≤ (c.pointer j).offset) c.liveCells
  have hmem {i : Nat} (hi : i ∈ c.liveCells.insertionSort
      fun i j ↦ (c.pointer i).offset ≤ (c.pointer j).offset) : c.Live i :=
    mem_liveCells.mp (hperm.mem_iff.mp hi)
  have hidx : getContentIndex c.numCells ≤ dataSize := by
    have := c.numCells_lt
    simp only [getContentIndex, cellPointerSize, dataSize]
    omega
  have hle (i : Nat) (hi : c.Live i) :
      (c.pointer i).offset ≤ dataSize - getContentIndex c.numCells := by
    have := hc.header i hi
    omega
  have hsum := Base.sum_le_of_pairwise hc.pairwise_sorted (fun i _ ↦ Nat.sub_le _ _)
    (fun i _ ↦ Nat.zero_le _) (fun i hi ↦ hle i (hmem hi)) (Nat.zero_le _)
  have hlen : ((c.liveCells.insertionSort fun i j ↦ (c.pointer i).offset ≤ (c.pointer j).offset).map
      fun i ↦ (c.pointer i).offset - c.cellStart i).sum = c.totalOccupiedSpace := by
    rw [totalOccupiedSpace, used_eq, List.map_map, (hperm.map _).sum_eq]
    congr 1
    apply List.map_congr_left
    intro i hi
    have := cellStart_add hc (mem_liveCells.mp hi)
    simp only [Function.comp_apply]
    omega
  omega

/-! ### Free slots -/

/-- A gap lies between two cells. -/
private theorem findGap_eq_some {length o : Nat} {used : List (Nat × Nat)}
    (h : findGap length used = some o) (hord : used.Pairwise fun a b ↦ a.2 ≤ b.1)
    (hle : ∀ a ∈ used, a.1 ≤ a.2) :
    (∃ a ∈ used, o = a.2 + length) ∧ (∃ b ∈ used, o ≤ b.1) ∧
      ∀ a ∈ used, a.2 + length ≤ o ∨ o ≤ a.1 := by
  fun_induction findGap length used with
  | case1 a b used hlen =>
    cases h
    rw [List.pairwise_cons, List.pairwise_cons] at hord
    have hab := hord.1 b (List.mem_cons_self ..)
    have hb := hle b (by simp)
    refine ⟨⟨a, by simp, rfl⟩, ⟨b, by simp, by omega⟩, ?_⟩
    intro x hx
    rw [List.mem_cons, List.mem_cons] at hx
    obtain rfl | rfl | hx := hx
    · exact .inl (Nat.le_refl _)
    · exact .inr (by omega)
    · have := hord.2.1 x hx
      exact .inr (by omega)
  | case2 a b used hlen ih =>
    rw [List.pairwise_cons] at hord
    obtain ⟨⟨z, hz, hoz⟩, ⟨x, hx, hox⟩, hall⟩ :=
      ih h hord.2 fun y hy ↦ hle y (List.mem_cons_of_mem _ hy)
    refine ⟨⟨z, List.mem_cons_of_mem _ hz, hoz⟩, ⟨x, List.mem_cons_of_mem _ hx, hox⟩, ?_⟩
    intro y hy
    obtain rfl | hy := List.mem_cons.mp hy
    · have h1 := hord.1 z hz
      have h2 := hle z (List.mem_cons_of_mem _ hz)
      exact .inl (by omega)
    · exact hall y hy
  | case3 => cases h

section
variable {index length o : Nat}

/-- The index of a cell does not wrap around. -/
theorem newNumCells_eq (hindex : index < 255) :
    c.newNumCells index = max c.numCells (index + 1) := by
  rw [newNumCells, Nat.mod_eq_of_lt (by omega)]

/-- The number of cells that is computed is at most the one with the cell. -/
theorem newNumCells_le (index : Nat) : c.newNumCells index ≤ max c.numCells (index + 1) :=
  max_le_max_left _ (Nat.mod_le _ _)

private theorem room_of_usedSpace (hc : c.WellFormed) (hpos : 0 < length) (hindex : index < 255)
    (h : c.findAvailableSlotInUsedSpace index length = some o) :
    c.Room (max c.numCells (index + 1)) index o length := by
  simp only [findAvailableSlotInUsedSpace, used_eq, List.map_map, newNumCells_eq hindex] at h
  split at h
  · cases h
  · next hany =>
    simp only [List.any_map, List.any_eq_true, Function.comp_apply, decide_eq_true_eq, not_exists,
      not_and, Nat.not_lt, mem_liveCells] at hany
    have hheader (j : Nat) (hj : c.Live j) :
        (c.pointer j).offset + getContentIndex (max c.numCells (index + 1)) ≤ dataSize := by
      have := hany j hj
      simp only [getContentIndex, cellPointerSize] at this ⊢
      omega
    have hapart : (c.liveCells.map ((fun p ↦ (p.offset - p.length, p.offset)) ∘ c.pointer)).Pairwise
        fun a b ↦ a.2 ≤ b.1 ∨ b.2 ≤ a.1 := List.pairwise_map.mpr hc.pairwise_liveCells
    have hmem {a : Nat × Nat} (ha : a ∈ (c.liveCells.map
        ((fun p ↦ (p.offset - p.length, p.offset)) ∘ c.pointer)).insertionSort
          fun a b ↦ a.2 ≤ b.2) :
        ∃ j, c.Live j ∧ (c.cellStart j, (c.pointer j).offset) = a := by
      rw [List.mem_insertionSort, List.mem_map] at ha
      obtain ⟨j, hj, hja⟩ := ha
      exact ⟨j, mem_liveCells.mp hj, hja⟩
    have hlt : ∀ a ∈ c.liveCells.map ((fun p ↦ (p.offset - p.length, p.offset)) ∘ c.pointer),
        a.1 < a.2 := by
      simp only [List.forall_mem_map, mem_liveCells]
      intro j hj
      have := hc.pos j hj
      have := hc.length_le j hj
      simp only [Function.comp_apply]
      omega
    have hord := Base.pairwise_insertionSort_of_apart hlt hapart
    obtain ⟨⟨a, ha, hoa⟩, ⟨b, hb, hob⟩, hall⟩ := findGap_eq_some h hord fun a ha ↦
      (hlt a (List.mem_insertionSort _ |>.mp ha)).le
    refine ⟨hpos, by omega, ?_, fun j hj _ ↦ hheader j hj, ?_⟩
    · obtain ⟨j, hj, rfl⟩ := hmem hb
      have := hheader j hj
      have := cellStart_add hc hj
      simp only at hob
      omega
    · intro j hj _
      have := hall (c.cellStart j, (c.pointer j).offset) ((List.mem_insertionSort _).mpr
        (List.mem_map.mpr ⟨j, mem_liveCells.mpr hj, rfl⟩))
      have := cellStart_add hc hj
      simp only at *
      omega

private theorem le_maxOffset {j : Nat} (hj : c.Live j) (hne : j ≠ index) :
    (c.pointer j).offset ≤ c.maxOffset index := by
  apply List.le_max_of_le _ (Nat.le_refl _)
  exact List.mem_map.mpr ⟨j, by simpa [hne, Live] using hj, rfl⟩

private theorem maxOffset_le {n : Nat} (h : ∀ j, c.Live j → (c.pointer j).offset ≤ n) :
    c.maxOffset index ≤ n := by
  apply List.max_le_of_forall_le
  simp only [List.forall_mem_map, List.mem_filter, List.mem_range, decide_eq_true_eq]
  intro j hj
  exact h j ⟨hj.1, by simpa using hj.2.2⟩

private theorem room_of_remainingSpace (hc : c.WellFormed) (hpos : 0 < length)
    (hlength : length ≤ dataSize) (hindex : index < 255)
    (h : c.findAvailableSlotInRemainingSpace index length = some o) :
    c.Room (max c.numCells (index + 1)) index o length := by
  have hlow : c.maxOffset index ≤ dataSize := maxOffset_le fun j hj ↦ by
    have := hc.header j hj
    omega
  simp only [dataSize] at hlow hlength
  simp only [findAvailableSlotInRemainingSpace, newNumCells_eq hindex] at h
  rw [Nat.mod_eq_of_lt (by omega)] at h
  split at h
  · cases h
  · next hle =>
    cases h
    have hmax (j : Nat) (hj : c.Live j) (hne : j ≠ index) := le_maxOffset hj hne
    have hn := c.numCells_lt
    simp only [dataSize, cellPointerSize] at hle
    refine ⟨hpos, Nat.le_add_left _ _, ?_, ?_, ?_⟩
    · simp only [getContentIndex, dataSize, cellPointerSize]
      omega
    · intro j hj hne
      have := hmax j hj hne
      simp only [getContentIndex, dataSize, cellPointerSize]
      omega
    · intro j hj hne
      have := hmax j hj hne
      omega

/-- A slot that is found is free. -/
private theorem room_of_findAvailableSlot (hc : c.WellFormed) (hpos : 0 < length)
    (hlength : length ≤ dataSize) (hindex : index < 255)
    (h : c.findAvailableSlot index length = some o) :
    c.Room (max c.numCells (index + 1)) index o length := by
  simp only [findAvailableSlot] at h
  split at h
  · next o' ho =>
    cases h
    exact room_of_usedSpace hc hpos hindex ho
  · exact room_of_remainingSpace hc hpos hlength hindex h

/-- On a page whose cells are packed at its end a slot is found if the bytes suffice. -/
theorem findAvailableSlot_ne_none
    (hpacked : ∀ j, c.Live j → (c.pointer j).offset ≤ c.totalOccupiedSpace)
    (hfits : c.totalOccupiedSpace + length + getContentIndex (c.newNumCells index) ≤ dataSize) :
    c.findAvailableSlot index length ≠ none := by
  simp only [findAvailableSlot]
  split
  · simp
  · have hmax : c.maxOffset index ≤ c.totalOccupiedSpace := maxOffset_le hpacked
    simp only [getContentIndex, cellPointerSize, dataSize] at hfits
    simp only [findAvailableSlotInRemainingSpace]
    rw [Nat.mod_eq_of_lt (by omega), if_neg]
    · simp
    · simp only [cellPointerSize, dataSize]
      omega

end

end Contents

namespace SlottedPage

open Contents Base

variable {c c₀ : Contents}

/-! ### Defragmentation -/

/-- The page while its cells are moved: those of `cells` are still to come, the others lie within
the first `last` bytes from the end. -/
structure Moving (c₀ : Contents) (cells : List (Nat × Nat × Nat)) (last : Nat × Nat)
    (c : Contents) : Prop where
  wellFormed : c.WellFormed
  numCells : c.numCells = c₀.numCells
  value : c.value = c₀.value
  live : ∀ x ∈ cells, c.Live x.1
  pointer : ∀ x ∈ cells, (c.pointer x.1).offset = x.2.1 ∧ (c.pointer x.1).length = x.2.2
  ordered : cells.Pairwise fun a b ↦ a.2.1 ≤ b.2.1 - b.2.2
  nodup : (cells.map Prod.fst).Nodup
  ahead : ∀ x ∈ cells, last.2 ≤ x.2.1 - x.2.2
  packed : ∀ i, c.Live i → i ∉ cells.map Prod.fst → (c.pointer i).offset ≤ last.2
  start : last = (0, 0) ∨ last.1 < last.2
  total : last.2 + (cells.map fun x ↦ x.2.2).sum = c₀.totalOccupiedSpace
  frame : ∀ k, getContentIndex c₀.numCells ≤ k → k < dataSize - c₀.totalOccupiedSpace → c k = c₀ k

private theorem slice_spec {start stop : Nat} {E : Fault → Contents → Prop} (h : start ≤ stop)
    (hstop : stop ≤ dataSize) :
    Ensures (slice start stop) c
      (fun data c' ↦ data = c.bytes start (stop - start) ∧ c' = c) E := by
  simp [Ensures, slice, Nat.not_lt.mpr h, Nat.not_lt.mpr hstop]

/-- The bytes of a slice are replaced. -/
theorem fill_spec {start stop : Nat} {data : List UInt8} {E : Fault → Contents → Prop}
    (hstop : stop ≤ dataSize) (hlen : start + data.length = stop) :
    Ensures (fill start stop data) c (fun _ c' ↦ c' = c.store start data) E := by
  have h1 : ¬ stop < start := by omega
  have h2 : data.length = stop - start := by omega
  simp [Ensures, fill, h1, Nat.not_lt.mpr hstop, h2]

/-- `set_cell_pointer` writes the three bytes of the pointer. -/
theorem setCellPointer_spec {index offset length : Nat} {E : Fault → Contents → Prop}
    (hindex : index < 256) (ho : offset < dataSize) (hl : length ≤ offset) :
    Ensures (setCellPointer index offset length) c
      (fun p c' ↦ p = CellPointer.encode offset length ∧
        c' = c.store (getContentIndex index) [p.byte0, p.byte1, p.byte2]) E := by
  rw [setCellPointer, if_neg (by omega)]
  have hfill : Ensures (fill (getContentIndex index) (getContentIndex index + cellPointerSize)
      [(CellPointer.encode offset length).byte0, (CellPointer.encode offset length).byte1,
        (CellPointer.encode offset length).byte2]) c
      (fun _ c' ↦ c' = c.store (getContentIndex index)
        [(CellPointer.encode offset length).byte0, (CellPointer.encode offset length).byte1,
          (CellPointer.encode offset length).byte2]) E :=
    fill_spec (by simp only [getContentIndex, cellPointerSize, dataSize]; omega) rfl
  exact hfill.seq fun _ _ h ↦ Ensures.pure ⟨rfl, h⟩

/-- A cell that is next to be moved and stays where it is. -/
theorem Moving.stay {index offset length : Nat} {cells : List (Nat × Nat × Nat)} {last : Nat × Nat}
    (h : Moving c₀ ((index, offset, length) :: cells) last c) (hstart : offset - length = last.1) :
    Moving c₀ cells (last.1, offset) c := by
  have hptr := h.pointer _ (List.mem_cons_self ..)
  have hlive := h.live _ (List.mem_cons_self ..)
  have hahead := h.ahead _ (List.mem_cons_self ..)
  have hord := List.pairwise_cons.mp h.ordered
  have htotal := h.total
  have hpos := h.wellFormed.pos _ hlive
  have hle := h.wellFormed.length_le _ hlive
  simp only [List.map_cons, List.sum_cons] at hptr hahead htotal hpos hle
  rw [hptr.2] at hpos hle
  rw [hptr.1] at hle
  have hlast : last = (0, 0) := by
    obtain h0 | h0 := h.start
    · exact h0
    · omega
  subst hlast
  refine ⟨h.wellFormed, h.numCells, h.value, ?_, ?_, hord.2, ?_, hord.1, ?_, ?_, ?_, h.frame⟩
  · exact fun x hx ↦ h.live x (List.mem_cons_of_mem _ hx)
  · exact fun x hx ↦ h.pointer x (List.mem_cons_of_mem _ hx)
  · exact (List.nodup_cons.mp h.nodup).2
  · intro i hi hmem
    by_cases hii : i = index
    · rw [hii, hptr.1]
    · have := h.packed i hi (by simpa [hii] using hmem)
      omega
  · exact .inr (by omega)
  · simp only
    omega

/-- A cell that is next to be moved fits behind the one before. -/
theorem Moving.room {index offset length : Nat} {cells : List (Nat × Nat × Nat)} {last : Nat × Nat}
    (h : Moving c₀ ((index, offset, length) :: cells) last c) :
    c.Room c.numCells index (last.2 + length) length := by
  have hptr := h.pointer _ (List.mem_cons_self ..)
  have hlive := h.live _ (List.mem_cons_self ..)
  have hahead := h.ahead _ (List.mem_cons_self ..)
  have hord := List.pairwise_cons.mp h.ordered
  have hpos := h.wellFormed.pos _ hlive
  have hle := h.wellFormed.length_le _ hlive
  have hheader := h.wellFormed.header _ hlive
  simp only at hptr hahead hpos hle hheader
  rw [hptr.2] at hpos hle
  rw [hptr.1] at hle hheader
  refine ⟨hpos, Nat.le_add_left _ _, by omega, fun j hj _ ↦ h.wellFormed.header j hj, ?_⟩
  intro j hj hne
  by_cases hmem : j ∈ cells.map Prod.fst
  · obtain ⟨x, hx, rfl⟩ := List.mem_map.mp hmem
    have h1 := hord.1 x hx
    have h2 := h.pointer x (List.mem_cons_of_mem _ hx)
    have h3 := h.wellFormed.length_le _ hj
    simp only at h1
    exact .inl (by omega)
  · have := h.packed j hj (by simpa [hne] using hmem)
    exact .inr (by omega)

/-- A cell that is next to be moved, after its move. -/
theorem Moving.move {index offset length : Nat} {cells : List (Nat × Nat × Nat)} {last : Nat × Nat}
    (h : Moving c₀ ((index, offset, length) :: cells) last c) :
    Moving c₀ cells (last.2, last.2 + length)
      (c.put c.numCells index (last.2 + length) (c.bytes (dataSize - offset) length)) := by
  have hptr := h.pointer _ (List.mem_cons_self ..)
  have hlive := h.live _ (List.mem_cons_self ..)
  have hahead := h.ahead _ (List.mem_cons_self ..)
  have hord := List.pairwise_cons.mp h.ordered
  have hnodup := List.nodup_cons.mp h.nodup
  have htotal := h.total
  have hroom := h.room
  have hle := h.wellFormed.length_le _ hlive
  simp only [List.map_cons, List.sum_cons] at hptr hlive hahead htotal hnodup hle
  have hlen : (c.bytes (dataSize - offset) length).length = length := length_bytes ..
  generalize hdata : c.bytes (dataSize - offset) length = data at *
  have hval : c.value index = some data := by
    rw [value_of_live hlive, hptr.1, hptr.2, hdata]
  have hroom' : c.Room c.numCells index (last.2 + length) data.length := by
    rw [hlen]
    exact hroom
  have hput := h.wellFormed.put hroom' hlive.1 c.numCells_lt (fun j hj _ ↦ hj.1)
    fun j hj _ hge ↦ absurd hj (Nat.not_lt.mpr hge)
  have hvalue : (c.put c.numCells index (last.2 + length) data).value = c.value := by
    rw [hput.2, ← hval, Function.update_eq_self]
  have hnum : (c.put c.numCells index (last.2 + length) data).numCells = c.numCells :=
    numCells_put c.numCells_lt hroom.header
  have hlive' {j : Nat} : (c.put c.numCells index (last.2 + length) data).Live j ↔ c.Live j := by
    rw [live_iff_value, live_iff_value, hvalue]
  have hne {x : Nat × Nat × Nat} (hx : x ∈ cells) : x.1 ≠ index := by
    rintro rfl
    exact hnodup.1 (List.mem_map_of_mem hx)
  refine ⟨hput.1, hnum.trans h.numCells, hvalue.trans h.value, ?_, ?_, hord.2, hnodup.2, ?_, ?_, ?_,
    ?_, ?_⟩
  · exact fun x hx ↦ hlive'.mpr (h.live x (List.mem_cons_of_mem _ hx))
  · intro x hx
    have hx' := List.mem_cons_of_mem (index, offset, length) hx
    rw [pointer_put_of_ne (h.live x hx').1 (hne hx) hroom.header]
    exact h.pointer x hx'
  · intro x hx
    have := hord.1 x hx
    simp only at this ⊢
    rw [hptr.1, hptr.2] at hle
    omega
  · intro i hi hmem
    rw [hlive'] at hi
    by_cases hii : i = index
    · have hheader := hroom.header
      have hsize : last.2 + length < 4096 := by
        simp only [dataSize] at hheader
        omega
      rw [hii, pointer_put_self hlive.1 hheader, hlen,
        CellPointer.offset_encode hsize (by omega)]
    · have := h.packed i hi (by simpa [hii] using hmem)
      rw [pointer_put_of_ne hi.1 hii hroom.header]
      simp only
      omega
  · have := hroom.pos
    exact .inr (by simp only; omega)
  · simp only
    omega
  · intro k hk hk'
    rw [put_of_le (h.numCells ▸ hk) hlive.1 (.inl (by omega))]
    exact h.frame k hk hk'

/-- One cell stays, or is put behind the one before. -/
theorem moveCell_run {index offset length : Nat} {cells : List (Nat × Nat × Nat)}
    {last : Nat × Nat} (h : Moving c₀ ((index, offset, length) :: cells) last c) :
    Ensures (moveCell index offset length last) c
      (fun last' c' ↦ (offset - length = last.1 ∧ last' = (last.1, offset) ∧ c' = c) ∨
        (last' = (last.2, last.2 + length) ∧
          c' = c.put c.numCells index (last.2 + length) (c.bytes (dataSize - offset) length)))
      fun _ _ ↦ False := by
  rw [moveCell]
  split
  · next hstart => exact Ensures.pure (.inl ⟨hstart, rfl, rfl⟩)
  · have hptr := h.pointer _ (List.mem_cons_self ..)
    have hlive := h.live _ (List.mem_cons_self ..)
    have hheader := h.wellFormed.header _ hlive
    have hle := h.wellFormed.length_le _ hlive
    have hroom := h.room
    have hlt : index < 256 := by
      have := c.numCells_lt
      have := hlive.1
      simp only at this
      omega
    have hpos := getContentIndex_pos c.numCells
    have hidx : getContentIndex index + 3 ≤ getContentIndex c.numCells := by
      have := hlive.1
      simp only [getContentIndex, cellPointerSize] at this ⊢
      omega
    simp only at hptr hlive hheader hle
    rw [hptr.1] at hheader hle
    rw [hptr.2] at hle
    have hnew := hroom.header
    refine (setCellPointer_spec hlt (by omega) hroom.length_le).seq ?_
    rintro p c₁ ⟨rfl, rfl⟩
    refine (slice_spec (Nat.le_add_right _ _) (by omega)).seq ?_
    rintro data c₁ ⟨rfl, rfl⟩
    rw [Nat.add_sub_cancel_left, bytes_store_of_apart (.inr (by simp; omega))]
    refine (fill_spec (by omega) (by simp)).seq ?_
    rintro _ c₁ rfl
    apply Ensures.pure
    refine .inr ⟨?_, ?_⟩
    · rw [Nat.add_sub_cancel]
    · rw [put_numCells, length_bytes]

private theorem moveCell_spec {index offset length : Nat} {cells : List (Nat × Nat × Nat)}
    {last : Nat × Nat} (h : Moving c₀ ((index, offset, length) :: cells) last c) :
    Ensures (moveCell index offset length last) c (fun last' c' ↦ Moving c₀ cells last' c')
      fun _ _ ↦ False := by
  refine (moveCell_run h).mono ?_ fun _ _ h ↦ h
  rintro last' c' (⟨hstart, rfl, rfl⟩ | ⟨rfl, rfl⟩)
  · exact h.stay hstart
  · exact h.move

private theorem moveCells_spec {cells : List (Nat × Nat × Nat)} {last : Nat × Nat}
    (h : Moving c₀ cells last c) :
    Ensures (moveCells cells last) c (fun _ c' ↦ ∃ last', Moving c₀ [] last' c')
      fun _ _ ↦ False := by
  induction cells generalizing last c with
  | nil => exact Ensures.pure ⟨last, h⟩
  | cons x cells ih => exact (moveCell_spec h).seq fun last' c' h' ↦ ih h'

/-- The cells in the order in which they are moved. -/
theorem moving_start (hc : c.WellFormed) :
    Moving c
      ((c.liveCells.map fun i ↦ (i, (c.pointer i).offset, (c.pointer i).length)).insertionSort
      fun a b ↦ a.2.1 ≤ b.2.1) (0, 0) c := by
  have hperm := List.perm_insertionSort (fun a b : Nat × Nat × Nat ↦ a.2.1 ≤ b.2.1)
    (c.liveCells.map fun i ↦ (i, (c.pointer i).offset, (c.pointer i).length))
  have hmem {x : Nat × Nat × Nat} (hx : x ∈ (c.liveCells.map
      fun i ↦ (i, (c.pointer i).offset, (c.pointer i).length)).insertionSort
        fun a b ↦ a.2.1 ≤ b.2.1) :
      c.Live x.1 ∧ x = (x.1, (c.pointer x.1).offset, (c.pointer x.1).length) := by
    rw [hperm.mem_iff, List.mem_map] at hx
    obtain ⟨i, hi, rfl⟩ := hx
    exact ⟨mem_liveCells.mp hi, rfl⟩
  have hfst :
      (c.liveCells.map fun i ↦ (i, (c.pointer i).offset, (c.pointer i).length)).map Prod.fst =
      c.liveCells := by
    rw [List.map_map]
    exact List.map_id _
  have hmemfst {i : Nat} (hi : c.Live i) : i ∈ ((c.liveCells.map
      fun i ↦ (i, (c.pointer i).offset, (c.pointer i).length)).insertionSort
        fun a b ↦ a.2.1 ≤ b.2.1).map Prod.fst := by
    rw [(hperm.map Prod.fst).mem_iff, hfst]
    exact mem_liveCells.mpr hi
  refine ⟨hc, rfl, rfl, fun x hx ↦ (hmem hx).1, ?_, ?_, ?_, fun _ _ ↦ Nat.zero_le _,
    fun i hi hn ↦ absurd (hmemfst hi) hn, .inl rfl, ?_, fun _ _ _ ↦ rfl⟩
  · intro x hx
    obtain ⟨-, h⟩ := hmem hx
    rw [h]
    exact ⟨rfl, rfl⟩
  · apply pairwise_insertionSort_of_apart
    · simp only [List.forall_mem_map, mem_liveCells]
      intro i hi
      have := hc.pos i hi
      have := hc.length_le i hi
      omega
    · exact List.pairwise_map.mpr hc.pairwise_liveCells
  · rw [(hperm.map Prod.fst).nodup_iff, hfst]
    exact List.nodup_range.filter _
  · rw [(hperm.map fun x ↦ x.2.2).sum_eq, List.map_map, totalOccupiedSpace, used_eq, List.map_map,
      Nat.zero_add]
    rfl

/-- A page after its cells have been packed at its end. -/
structure Defragmented (c c' : Contents) : Prop where
  wellFormed : c'.WellFormed
  numCells : c'.numCells = c.numCells
  value : c'.value = c.value
  packed : ∀ i, c'.Live i → (c'.pointer i).offset ≤ c.totalOccupiedSpace
  frame : ∀ k, getContentIndex c.numCells ≤ k → k < dataSize - c.totalOccupiedSpace → c' k = c k

/-- `defragment` packs the cells if there are bytes enough, and leaves the page alone otherwise. -/
private theorem defragment_spec {index length : Nat} (hc : c.WellFormed)
    (hlength : length ≤ dataSize) (hindex : index < 255) :
    Ensures (defragment index length) c
      (fun done c' ↦
        if c.totalOccupiedSpace + length + getContentIndex (max c.numCells (index + 1)) ≤ dataSize
        then done = true ∧ Defragmented c c' else done = false ∧ c' = c)
      fun _ _ ↦ False := by
  apply Ensures.bind
  apply Ensures.get
  have hidx : getContentIndex (max c.numCells (index + 1)) =
      max c.numCells (index + 1) * cellPointerSize + 1 := by
    simp only [getContentIndex]
    rw [Nat.mul_comm, Nat.add_comm]
  have hsum : c.totalOccupiedSpace + length + max c.numCells (index + 1) * cellPointerSize + 1 <
      2 ^ 16 := by
    have htotal := hc.total_le
    have hnum := c.numCells_lt
    simp only [dataSize, cellPointerSize] at htotal hlength ⊢
    omega
  simp only [newNumCells_eq hindex, Nat.mod_eq_of_lt hsum]
  split
  · next hlt =>
    apply Ensures.pure
    rw [if_neg (by omega)]
    exact ⟨rfl, rfl⟩
  · next hge =>
    refine (moveCells_spec (moving_start hc)).seq ?_
    rintro _ c' ⟨last, h⟩
    apply Ensures.pure
    rw [if_pos (by omega)]
    refine ⟨rfl, h.wellFormed, h.numCells, h.value, ?_, h.frame⟩
    intro i hi
    have htotal := h.total
    have := h.packed i hi (by simp)
    simp only [List.map_nil, List.sum_nil] at htotal
    omega

/-! ### Allocation -/

/-- The page with a cell pointer for a slot that was found. -/
structure Allocated (c : Contents) (index length : Nat) (p : CellPointer) (c' : Contents) :
    Prop where
  exists_room : ∃ c₁ o,
    (c₁ = c ∨ Defragmented c c₁ ∧
      c.totalOccupiedSpace + length + getContentIndex (max c.numCells (index + 1)) ≤ dataSize) ∧
    c₁.Room (max c.numCells (index + 1)) index o length ∧ p = CellPointer.encode o length ∧
    c' = (c₁.store 0 [UInt8.ofNat (max c.numCells (index + 1))]).store (getContentIndex index)
      [p.byte0, p.byte1, p.byte2]

private theorem allocate_of_room {index length o : Nat} {E : Fault → Contents → Prop}
    (hindex : index < 255) (hroom : c.Room (max c.numCells (index + 1)) index o length) :
    Ensures (do
      if c.numCells < c.newNumCells index then setNumCells (c.newNumCells index)
      setCellPointer index o length : SlottedM CellPointer) c
      (fun p c' ↦ p = CellPointer.encode o length ∧
        c' = (c.store 0 [UInt8.ofNat (max c.numCells (index + 1))]).store (getContentIndex index)
          [p.byte0, p.byte1, p.byte2]) E := by
  have hheader := hroom.header
  have hpos := getContentIndex_pos (max c.numCells (index + 1))
  have hset := setCellPointer_spec (c := c.store 0 [UInt8.ofNat (max c.numCells (index + 1))])
    (E := E) (show index < 256 by omega) (show o < dataSize by omega) hroom.length_le
  simp only [newNumCells_eq hindex]
  split
  · exact Ensures.bind (ensures_modify hset)
  · next hle =>
    have hmax : max c.numCells (index + 1) = c.numCells := by omega
    rw [hmax, store_numCells] at hset ⊢
    exact hset

/-- One round of `allocate_cell_pointer` is enough if a slot is found, and two otherwise. -/
theorem allocateCellPointer_spec {rounds index length : Nat} (hc : c.WellFormed) (hpos : 0 < length)
    (hlength : length ≤ dataSize) (hindex : index < 255) :
    Ensures (allocateCellPointer (rounds + 2) index length) c (Allocated c index length)
      fun e c' ↦ e = .error .pageIsFull ∧ c' = c ∧
        ¬ c.totalOccupiedSpace + length + getContentIndex (max c.numCells (index + 1)) ≤
          dataSize := by
  rw [allocateCellPointer]
  apply Ensures.bind
  apply Ensures.get
  cases hslot : c.findAvailableSlot index length with
  | some o =>
    have hroom := room_of_findAvailableSlot hc hpos hlength hindex hslot
    exact (allocate_of_room hindex hroom).mono
      (fun p c' h ↦ ⟨c, o, .inl rfl, hroom, h.1, h.2⟩) fun _ _ h ↦ h
  | none =>
    simp only
    refine ((@defragment_spec c index length hc hlength hindex).mono (fun _ _ h ↦ h)
      fun _ _ h ↦ h.elim).seq ?_
    intro done c₁ h
    split at h
    · next hfits =>
      obtain ⟨rfl, h⟩ := h
      rw [if_pos rfl, allocateCellPointer]
      apply Ensures.bind
      apply Ensures.get
      have htotal : c₁.totalOccupiedSpace = c.totalOccupiedSpace := by
        rw [totalOccupiedSpace_eq, totalOccupiedSpace_eq, h.value, h.numCells]
      have hsome : c₁.findAvailableSlot index length ≠ none := by
        apply findAvailableSlot_ne_none
        · rw [htotal]
          exact h.packed
        · rw [newNumCells_eq hindex, htotal, h.numCells]
          exact hfits
      cases hslot₁ : c₁.findAvailableSlot index length with
      | none => exact absurd hslot₁ hsome
      | some o =>
        have hroom := room_of_findAvailableSlot h.wellFormed hpos hlength hindex hslot₁
        refine (allocate_of_room hindex hroom).mono (fun p c' h' ↦ ?_) fun _ _ h ↦ h
        rw [h.numCells] at hroom h'
        exact ⟨c₁, o, .inr ⟨h, hfits⟩, hroom, h'.1, h'.2⟩
    · next hfull =>
      obtain ⟨rfl, rfl⟩ := h
      exact Ensures.throw ⟨rfl, rfl, hfull⟩

end SlottedPage

end TrieDb

import Mathlib.Logic.Equiv.Basic
import TrieDb.Base.Runs
import TrieDb.Page.Allocation

/-!
# A slotted page is a finite map

What each operation of a page does to its values, over every sequence of operations from a zeroed
page, and exactly when a value can be inserted.
-/

namespace TrieDb

namespace Contents

variable {c c' : Contents}

/-! ### Values and bytes in use -/

/-- A cell behind the last one has no value. -/
theorem value_of_le {i : Nat} (h : c.numCells ≤ i) : c.value i = none :=
  value_of_not_live fun hl ↦ absurd hl.1 (Nat.not_lt.mpr h)

private theorem occupied_congr {f : Nat → Option (List UInt8)} {n n' : Nat} (hn : n ≤ n')
    (hout : ∀ j, n ≤ j → f j = none) : occupied f n = occupied f n' := by
  apply Finset.sum_subset (Finset.range_subset_range.mpr hn)
  intro j _ hj
  rw [hout j (by simpa using hj)]
  rfl

private theorem occupied_update {f : Nat → Option (List UInt8)} {n n' i : Nat} {v : List UInt8}
    (hn : n ≤ n') (hi : i < n') (hnone : f i = none) (hout : ∀ j, n ≤ j → f j = none) :
    occupied (Function.update f i (some v)) n' = occupied f n + v.length := by
  have hsub : occupied f n = occupied f n' := occupied_congr hn hout
  have hmem : i ∈ Finset.range n' := Finset.mem_range.mpr hi
  rw [hsub, occupied, occupied, ← Finset.add_sum_erase _ _ hmem, ← Finset.add_sum_erase _ _ hmem,
    Function.update_self, hnone]
  have hrest : ∑ j ∈ (Finset.range n').erase i,
      ((Function.update f i (some v) j).map List.length).getD 0 =
        ∑ j ∈ (Finset.range n').erase i, ((f j).map List.length).getD 0 := by
    apply Finset.sum_congr rfl
    intro j hj
    rw [Function.update_of_ne (Finset.ne_of_mem_erase hj)]
  rw [hrest]
  simp only [Option.map_some, Option.getD_some, Option.map_none, Option.getD_none]
  omega

/-- The page has the bytes for all live cells but one, for a value in that one, and for a header
that reaches all of them. -/
def CanHold (c : Contents) (index : Nat) (v : List UInt8) : Prop :=
  ∃ n, index < n ∧ (∀ j, c.Live j → j < n) ∧
    occupied (Function.update c.value index none) n + v.length + getContentIndex n ≤ dataSize

/-- The last cell is in use. -/
def LastLive (c : Contents) : Prop := ∀ n, c.numCells = n + 1 → c.Live n

/-- Bytes behind the header are all that the value of a cell depends on, besides its pointer. -/
private theorem value_congr {i j : Nat} (hc : c.WellFormed) (hlive : c'.Live i ↔ c.Live j)
    (hptr : c.Live j → c'.pointer i = c.pointer j)
    (hdata : ∀ k, getContentIndex c.numCells ≤ k → c' k = c k) : c'.value i = c.value j := by
  by_cases hl : c.Live j
  · rw [value_of_live hl, value_of_live (hlive.mpr hl), hptr hl]
    congr 1
    apply bytes_congr
    intro k _
    have := hc.header j hl
    exact hdata _ (by omega)
  · rw [value_of_not_live hl, value_of_not_live fun h ↦ hl (hlive.mp h)]

/-! ### Deleted cells at the end -/

private theorem trimmed_le (c : Contents) (n : Nat) : c.trimmed n ≤ n := by
  induction n with
  | zero => exact Nat.le_refl 0
  | succ n ih =>
    rw [trimmed]
    split
    · omega
    · exact Nat.le_refl _

private theorem isDeleted_of_trimmed_le {n j : Nat} (hj : c.trimmed n ≤ j) (hlt : j < n) :
    (c.pointer j).isDeleted = true := by
  induction n with
  | zero => omega
  | succ n ih =>
    rw [trimmed] at hj
    split at hj
    · next hd =>
      by_cases hjn : j = n
      · rwa [hjn]
      · exact ih hj (by omega)
    · omega

private theorem isDeleted_of_trimmed_eq {n m : Nat} (h : c.trimmed n = m + 1) :
    (c.pointer m).isDeleted = false := by
  induction n with
  | zero => cases h
  | succ n ih =>
    rw [trimmed] at h
    split at h
    · exact ih h
    · next hd =>
      cases h
      simpa using hd

end Contents

namespace SlottedPage

open Contents Base

variable {c c' : Contents} {index : Nat} {v : List UInt8}

/-! ### Reading -/

/-- The result of reading a cell with this value, or without one. -/
def readResult (c : Contents) : Option (List UInt8) → EStateM.Result Fault Contents (List UInt8)
  | some v => .ok v c
  | none => .error (.error .invalidCellPointer) c

/-- Reading a cell gives its value. -/
theorem getValue_eq (hc : c.WellFormed) (i : Nat) : getValue i c = readResult c (c.value i) := by
  by_cases hl : c.Live i
  · have h1 := hc.length_le i hl
    have h2 := hc.header i hl
    have hinside : ¬ (dataSize - (c.pointer i).offset + (c.pointer i).length <
        dataSize - (c.pointer i).offset ∨
          dataSize < dataSize - (c.pointer i).offset + (c.pointer i).length) := by
      omega
    have hpointer : getCellPointer i c = .ok (c.pointer i) c := by
      simp [getCellPointer, Nat.not_le.mpr hl.1]
    have hslice : slice (dataSize - (c.pointer i).offset) (dataSize - (c.pointer i).offset +
        (c.pointer i).length) c = .ok (c.bytes (dataSize - (c.pointer i).offset)
          (c.pointer i).length) c := by
      rw [slice, if_neg hinside, Nat.add_sub_cancel_left]
      rfl
    simp [getValue, hpointer, hl.2, hslice, value_of_live hl, readResult]
  · rw [value_of_not_live hl]
    by_cases hi : c.numCells ≤ i
    · simp [getValue, getCellPointer, hi, readResult]
    · have hd : (c.pointer i).isDeleted = true := by
        simpa [Live, Nat.lt_of_not_le hi] using hl
      simp [getValue, getCellPointer, hi, hd, readResult]

/-! ### Storing -/

/-- A page after a value has been stored in a cell that was free. -/
structure Stored (c : Contents) (index : Nat) (v : List UInt8) (c' : Contents) : Prop where
  wellFormed : c'.WellFormed
  numCells : c'.numCells = max c.numCells (index + 1)
  value : c'.value = Function.update c.value index (some v)
  fits : c.totalOccupiedSpace + v.length + getContentIndex (max c.numCells (index + 1)) ≤ dataSize

private theorem Allocated.stored {p : CellPointer} (hc : c.WellFormed) (hindex : index < 255)
    (hfree : c.value index = none)
    (hzero : ∀ j, c.numCells ≤ j → j < index → (c.pointer j).isDeleted = true)
    (h : Allocated c index v.length p c') :
    Ensures (serializeInto p.offset p.length v) c' (fun _ c'' ↦ Stored c index v c'')
      fun _ _ ↦ False := by
  obtain ⟨c₁, o, hc₁, hroom, rfl, rfl⟩ := h
  have hheader := hroom.header
  have hnum := c.numCells_lt
  have ho : o < 4096 := by
    simp only [dataSize] at hheader
    omega
  have hlen : v.length < 4096 := by
    have := hroom.length_le
    omega
  rw [serializeInto, CellPointer.offset_encode ho hlen, CellPointer.length_encode hlen]
  refine (fill_spec (by have := hroom.length_le; omega) rfl).mono ?_ fun _ _ h ↦ h
  rintro _ c' rfl
  -- either page has the values of `c`, and zeroes in the new part of its header
  have hsame : c₁.WellFormed ∧ c₁.numCells = c.numCells ∧ c₁.value = c.value := by
    obtain rfl | ⟨h, -⟩ := hc₁
    · exact ⟨hc, rfl, rfl⟩
    · exact ⟨h.wellFormed, h.numCells, h.value⟩
  obtain ⟨hwf, hn, hv⟩ := hsame
  have hnew : ∀ j < max c.numCells (index + 1), j ≠ index → c₁.numCells ≤ j →
      (c₁.pointer j).isDeleted = true := by
    intro j hj hne hge
    rw [hn] at hge
    have hz := hzero j hge (by omega)
    obtain rfl | ⟨h, hfits⟩ := hc₁
    · exact hz
    · rw [← hz]
      congr 1
      apply pointer_congr
      intro k hk hk'
      simp only [getContentIndex, cellPointerSize] at hk hk' hfits
      exact h.frame k (by simp only [getContentIndex, cellPointerSize]; omega) (by omega)
  have hput := hwf.put hroom (by omega) (by omega) (fun j hj _ ↦ by have := hj.1; omega) hnew
  have hnum' : (c₁.put (max c.numCells (index + 1)) index o v).numCells =
      max c.numCells (index + 1) := numCells_put (by omega) hheader
  refine ⟨hput.1, hnum', hv ▸ hput.2, ?_⟩
  have htotal := hput.1.total_le
  rw [totalOccupiedSpace_eq, hnum', hput.2, hv, occupied_update (Nat.le_max_left ..) (by omega)
    hfree
    fun j hj ↦ value_of_le hj, ← totalOccupiedSpace_eq] at htotal
  exact htotal

/-- `allocate_cell_pointer` and the store of the value. -/
theorem allocate_store_spec {α : Type} {rounds : Nat} {Q : α → Contents → Prop}
    {E : Fault → Contents → Prop} {rest : SlottedM α} (hc : c.WellFormed) (hpos : 0 < v.length)
    (hmax : v.length ≤ 4084) (hindex : index < 255) (hfree : c.value index = none)
    (hzero : ∀ j, c.numCells ≤ j → j < index → (c.pointer j).isDeleted = true)
    (hE : ¬ c.totalOccupiedSpace + v.length + getContentIndex (max c.numCells (index + 1)) ≤
      dataSize → E (.error .pageIsFull) c)
    (hQ : ∀ c', Stored c index v c' → Ensures rest c' Q E) :
    Ensures (do
      let p ← allocateCellPointer (rounds + 2) index (v.length % 2 ^ 16)
      serializeInto p.offset p.length v
      rest) c Q E := by
  have hlength : v.length ≤ dataSize := by
    simp only [dataSize]
    omega
  rw [Nat.mod_eq_of_lt (by omega)]
  refine ((allocateCellPointer_spec hc hpos hlength hindex).mono (fun _ _ h ↦ h) ?_).seq ?_
  · rintro e c' ⟨rfl, rfl, hfull⟩
    exact hE hfull
  · intro p c₁ h
    refine ((h.stored hc hindex hfree hzero).mono (fun _ _ h ↦ h) fun _ _ h ↦ h.elim).seq ?_
    exact fun _ c' h' ↦ hQ c' h'

/-- The first deleted cell, or a new one. -/
theorem nextFreeCellIndex_spec :
    Ensures nextFreeCellIndex c
      (fun i c' ↦ c' = c ∧ i < 255 ∧ ¬ c.Live i ∧
        (i < c.numCells ∨ i = c.numCells ∧ ∀ j < c.numCells, c.Live j))
      fun e c' ↦ c' = c ∧ e = .error .noFreeCells ∧ c.numCells = 255 ∧
        ∀ j < c.numCells, c.Live j := by
  apply Ensures.bind
  apply Ensures.get
  have hlt := c.numCells_lt
  cases hfind : (List.range c.numCells).find? fun i ↦ (c.pointer i).isDeleted with
  | some i =>
    apply Ensures.pure
    have hi : i < c.numCells := List.mem_range.mp (List.mem_of_find?_eq_some hfind)
    have hd : (c.pointer i).isDeleted = true := by
      simpa using List.find?_some hfind
    refine ⟨rfl, by omega, ?_, .inl hi⟩
    simp [Live, hd]
  | none =>
    have hall : ∀ j < c.numCells, c.Live j := by
      intro j hj
      have := List.find?_eq_none.mp hfind j (List.mem_range.mpr hj)
      exact ⟨hj, by simpa using this⟩
    simp only
    split
    · next hmax => exact Ensures.throw ⟨rfl, rfl, hmax, hall⟩
    · next hmax =>
      apply Ensures.pure
      simp only [maxNumCells] at hmax
      exact ⟨rfl, by omega, fun h ↦ absurd h.1 (Nat.lt_irrefl _), .inr ⟨rfl, hall⟩⟩

/-- `insert_value` stores into a free cell, or leaves the page as it is. -/
theorem insertValue_spec {rounds : Nat} (hc : c.WellFormed) (hpos : 0 < v.length)
    (hmax : v.length ≤ 4084) :
    Ensures (insertValue (rounds + 2) v) c
      (fun i c' ↦ Stored c i v c' ∧ ¬ c.Live i ∧
        (i < c.numCells ∨ i = c.numCells ∧ c.numCells < 255 ∧ ∀ j < c.numCells, c.Live j))
      fun e c' ↦ c' = c ∧
        (e = .error .noFreeCells ∧ c.numCells = 255 ∧ (∀ j < c.numCells, c.Live j) ∨
          e = .error .pageIsFull ∧ ∃ i, ¬ c.Live i ∧
            (i < c.numCells ∨ i = c.numCells ∧ c.numCells < 255 ∧ ∀ j < c.numCells, c.Live j) ∧
            ¬ c.totalOccupiedSpace + v.length + getContentIndex (max c.numCells (i + 1)) ≤
              dataSize) := by
  refine (nextFreeCellIndex_spec.mono (fun _ _ h ↦ h) ?_).seq ?_
  · rintro e c' ⟨rfl, rfl, hmax, hall⟩
    exact ⟨rfl, .inl ⟨rfl, hmax, hall⟩⟩
  · rintro i c' ⟨rfl, hi, hdead, hwhere⟩
    have hwhere' : i < c'.numCells ∨
        i = c'.numCells ∧ c'.numCells < 255 ∧ ∀ j < c'.numCells, c'.Live j := by
      obtain h | ⟨h, hall⟩ := hwhere
      · exact .inl h
      · exact .inr ⟨h, by omega, hall⟩
    apply allocate_store_spec hc hpos hmax hi (value_of_not_live hdead)
    · intro j hj hlt
      omega
    · intro hfull
      exact ⟨rfl, .inr ⟨rfl, i, hdead, hwhere', hfull⟩⟩
    · intro c'' h
      exact Ensures.pure ⟨h, hdead, hwhere'⟩

/-- The bytes that a value may have in the cell that it would be stored in. -/
private theorem fits_iff {i : Nat} (hc : c.WellFormed) :
    c.totalOccupiedSpace + v.length + getContentIndex (max c.numCells (i + 1)) ≤ dataSize ↔
      v.length + (getContentIndex (max c.numCells (i + 1)) - getContentIndex c.numCells) ≤
        c.numFreeBytes := by
  have htotal := hc.total_le
  simp only [numFreeBytes, numFreeBytesWithCellCount, getContentIndex, cellPointerSize] at htotal ⊢
  omega

/-- A zeroed page is well formed. -/
theorem wellFormed_zero : Contents.zero.WellFormed := by
  have hlive (i : Nat) : ¬ Contents.zero.Live i := fun h ↦ Nat.not_lt_zero i h.1
  refine ⟨?_, ?_, ?_, ?_⟩
  · exact fun i h ↦ absurd h (hlive i)
  · exact fun i h ↦ absurd h (hlive i)
  · exact fun i h ↦ absurd h (hlive i)
  · exact fun i _ h ↦ absurd h (hlive i)

/-! ### Deleting -/

/-- The page after `delete_value`. -/
def deleted (c : Contents) (index : Nat) : Contents :=
  let c₁ := c.store (getContentIndex index) [0, 0, 0]
  c₁.store 0 [UInt8.ofNat (c₁.trimmed c.numCells)]

private theorem numCells_store {start : Nat} {data : List UInt8} (h : 0 < start) :
    (c.store start data).numCells = c.numCells := by
  rw [numCells, store_of_lt h, numCells]

/-- `delete_value` does not fail. -/
theorem deleteValue_eq (hindex : index < 256) :
    deleteValue index c = .ok ⟨⟩ (deleted c index) := by
  have hset : Ensures (setCellPointer index 0 0) c
      (fun _ c' ↦ c' = c.store (getContentIndex index) [0, 0, 0]) fun _ _ ↦ False := by
    refine (setCellPointer_spec hindex (by decide) (Nat.le_refl 0)).mono ?_ fun _ _ h ↦ h
    rintro p c' ⟨rfl, rfl⟩
    rfl
  have hspec : Ensures (deleteValue index) c (fun _ c' ↦ c' = deleted c index) fun _ _ ↦ False := by
    apply Ensures.bind
    apply Ensures.get
    refine hset.seq ?_
    rintro p c₁ rfl
    apply Ensures.bind
    apply Ensures.get
    have hle := Contents.trimmed_le (c.store (getContentIndex index) [0, 0, 0]) c.numCells
    simp only
    split
    · exact ensures_modify rfl
    · next hge =>
      apply Ensures.pure
      rw [deleted,
        show (c.store (getContentIndex index) [0, 0, 0]).trimmed c.numCells = c.numCells by omega,
        ← numCells_store (c := c) (getContentIndex_pos index), store_numCells]
  cases hrun : deleteValue index c with
  | ok a c' => rw [hspec.ok hrun]
  | error e c' => exact (hspec.error hrun).elim

private theorem pointer_store_zero (c : Contents) (data : UInt8) (i : Nat) :
    (c.store 0 [data]).pointer i = c.pointer i := by
  apply pointer_congr
  intro k hk _
  have := getContentIndex_pos i
  exact store_of_le (by simp; omega)

private theorem pointer_store_of_ne {i j : Nat} {a b d : UInt8} (hne : i ≠ j) :
    (c.store (getContentIndex j) [a, b, d]).pointer i = c.pointer i := by
  apply pointer_congr
  intro k hk hk'
  simp only [getContentIndex, cellPointerSize] at hk hk'
  by_cases hij : i < j
  · exact store_of_lt (by simp only [getContentIndex, cellPointerSize]; omega)
  · exact store_of_le (by simp [getContentIndex, cellPointerSize]; omega)

private theorem pointer_deleted (c : Contents) (index i : Nat) :
    (deleted c index).pointer i = if i = index then ⟨0, 0, 0⟩ else c.pointer i := by
  simp only [deleted]
  rw [pointer_store_zero]
  split
  · next h =>
    rw [h]
    exact pointer_store_self c index ⟨0, 0, 0⟩
  · next h => exact pointer_store_of_ne h

private theorem numCells_deleted (c : Contents) (index : Nat) :
    (deleted c index).numCells =
      (c.store (getContentIndex index) [0, 0, 0]).trimmed c.numCells := by
  have hle := Contents.trimmed_le (c.store (getContentIndex index) [0, 0, 0]) c.numCells
  have hlt := c.numCells_lt
  simp only [deleted, numCells, store_apply]
  simp
  simp only [numCells] at hle hlt
  omega

/-- A page after a cell has been deleted. -/
structure Deleted (c : Contents) (index : Nat) (c' : Contents) : Prop where
  wellFormed : c'.WellFormed
  numCells : c'.numCells ≤ c.numCells
  value : c'.value = Function.update c.value index none
  lastLive : c'.LastLive
  isDeleted : ∀ i, c'.numCells ≤ i → i < c.numCells → (c'.pointer i).isDeleted = true
  pointer : (c'.pointer index).isDeleted = true

/-- A deletion takes one value and gives up the deleted cells at the end. -/
theorem deleted_spec (hc : c.WellFormed) (hindex : index < c.numCells) :
    Deleted c index (deleted c index) := by
  have hle : (deleted c index).numCells ≤ c.numCells := by
    rw [numCells_deleted]
    exact Contents.trimmed_le _ _
  have htrim {i : Nat} (h1 : (deleted c index).numCells ≤ i) (h2 : i < c.numCells) :
      ((deleted c index).pointer i).isDeleted = true := by
    rw [numCells_deleted] at h1
    have := isDeleted_of_trimmed_le h1 h2
    simp only [deleted]
    rwa [pointer_store_zero]
  have hlive {i : Nat} : (deleted c index).Live i ↔ c.Live i ∧ i ≠ index := by
    constructor
    · rintro ⟨hi, hd⟩
      rw [pointer_deleted] at hd
      split at hd
      · cases hd
      · next hne => exact ⟨⟨by omega, hd⟩, hne⟩
    · rintro ⟨⟨hi, hd⟩, hne⟩
      have hd' : ((deleted c index).pointer i).isDeleted = false := by
        rw [pointer_deleted, if_neg hne]
        exact hd
      refine ⟨?_, hd'⟩
      by_contra hge
      rw [htrim (Nat.le_of_not_lt hge) hi] at hd'
      cases hd'
  have hptr {i : Nat} (h : (deleted c index).Live i) :
      (deleted c index).pointer i = c.pointer i := by
    rw [pointer_deleted, if_neg (hlive.mp h).2]
  have hdata (k : Nat) (hk : getContentIndex c.numCells ≤ k) : deleted c index k = c k := by
    simp only [getContentIndex, cellPointerSize] at hk
    simp only [deleted]
    rw [store_of_le (by simp; omega),
      store_of_le (by simp [getContentIndex, cellPointerSize]; omega)]
  refine ⟨⟨?_, ?_, ?_, ?_⟩, hle, ?_, ?_, fun i ↦ htrim, ?_⟩
  · intro i h
    rw [hptr h]
    exact hc.pos i (hlive.mp h).1
  · intro i h
    rw [hptr h]
    exact hc.length_le i (hlive.mp h).1
  · intro i h
    have := hc.header i (hlive.mp h).1
    rw [hptr h]
    simp only [getContentIndex, cellPointerSize] at this ⊢
    omega
  · intro i j hi hj hne
    rw [hptr hi, hptr hj]
    exact hc.apart i j (hlive.mp hi).1 (hlive.mp hj).1 hne
  · funext i
    by_cases hi : i = index
    · rw [hi, Function.update_self]
      exact value_of_not_live fun h ↦ (hlive.mp h).2 rfl
    · rw [Function.update_of_ne hi]
      apply value_congr hc
      · rw [hlive]
        simp [hi]
      · intro h
        exact hptr (hlive.mpr ⟨h, hi⟩)
      · exact hdata
  · intro n hn
    refine ⟨by omega, ?_⟩
    rw [numCells_deleted] at hn
    have := isDeleted_of_trimmed_eq hn
    simp only [deleted]
    rwa [pointer_store_zero]
  · rw [pointer_deleted, if_pos rfl]
    rfl

/-- Deleting a cell again changes nothing. -/
private theorem deleted_of_isDeleted (hlast : c.LastLive)
    (hd : (c.pointer index).isDeleted = true) : deleted c index = c := by
  have hzero : c.store (getContentIndex index) [0, 0, 0] = c := by
    have hbytes : c.bytes (getContentIndex index) 3 = [0, 0, 0] := by
      rw [CellPointer.isDeleted_iff] at hd
      obtain ⟨h0, h1, h2⟩ := hd
      simp only [pointer] at h0 h1 h2
      simp [bytes, List.range_succ, h0, h1, h2]
    rw [← hbytes, store_bytes]
  have htrim : c.trimmed c.numCells = c.numCells := by
    cases hn : c.numCells with
    | zero => rfl
    | succ n => rw [trimmed, if_neg (by simp [(hlast n hn).2])]
  rw [deleted, hzero, htrim, store_numCells]

/-! ### Capacity -/

/-- A value is inserted exactly when the page has the bytes for it and for a new cell pointer, if it
needs one; otherwise the page stays as it is. No more than two rounds are needed. -/
theorem insertValue_capacity (rounds : Nat) (hc : c.WellFormed) (hpos : 1 ≤ v.length)
    (hmax : v.length ≤ 4084) :
    ((∃ i c', insertValue (rounds + 2) v c = .ok i c') ↔
      (∃ i < c.numCells, (c.pointer i).isDeleted = true) ∧ v.length ≤ c.numFreeBytes ∨
        (∀ i < c.numCells, (c.pointer i).isDeleted = false) ∧ c.numCells < 255 ∧
          v.length + 3 ≤ c.numFreeBytes) ∧
    (∀ i c', insertValue (rounds + 2) v c = .ok i c' →
      c'.WellFormed ∧ c.value i = none ∧ c'.value = Function.update c.value i (some v)) ∧
    ∀ e c', insertValue (rounds + 2) v c = .error e c' → c' = c ∧
      (c.numCells = 255 ∧ (∀ i < c.numCells, (c.pointer i).isDeleted = false) ∧
          e = .error .noFreeCells ∨
        ¬ (c.numCells = 255 ∧ ∀ i < c.numCells, (c.pointer i).isDeleted = false) ∧
          e = .error .pageIsFull) := by
  have hspec := @insertValue_spec c v rounds hc hpos hmax
  have hlive (h : ∀ i < c.numCells, c.Live i) : ∀ i < c.numCells, (c.pointer i).isDeleted = false :=
    fun i hi ↦ (h i hi).2
  have hdead {i : Nat} (hi : i < c.numCells) (h : ¬ c.Live i) : (c.pointer i).isDeleted = true := by
    simpa [Live, hi] using h
  have hidx : getContentIndex (c.numCells + 1) = getContentIndex c.numCells + 3 := by
    simp only [getContentIndex, cellPointerSize]
    omega
  refine ⟨⟨?_, ?_⟩, ?_, ?_⟩
  · rintro ⟨i, c', hok⟩
    obtain ⟨hstored, hnot, hi | ⟨rfl, hlt, hall⟩⟩ := hspec.ok hok
    · have hfits := (fits_iff hc).mp hstored.fits
      rw [show max c.numCells (i + 1) = c.numCells by omega] at hfits
      exact .inl ⟨⟨i, hi, hdead hi hnot⟩, by omega⟩
    · have hfits := (fits_iff hc).mp hstored.fits
      rw [Nat.max_eq_right (Nat.le_succ _), hidx] at hfits
      exact .inr ⟨hlive hall, hlt, by omega⟩
  · intro hcap
    cases hrun : insertValue (rounds + 2) v c with
    | ok i c' => exact ⟨i, c', rfl⟩
    | error e c' =>
      exfalso
      obtain ⟨-, ⟨-, hmax, hall⟩ | ⟨-, i, hnot, hwhere, hfull⟩⟩ := hspec.error hrun
      · obtain ⟨⟨i, hi, hd⟩, -⟩ | ⟨-, hlt, -⟩ := hcap
        · rw [(hall i hi).2] at hd
          cases hd
        · omega
      · rw [fits_iff hc] at hfull
        obtain hi | ⟨rfl, -, hall⟩ := hwhere
        · rw [show max c.numCells (i + 1) = c.numCells by omega] at hfull
          obtain ⟨-, hle⟩ | ⟨hall, -⟩ := hcap
          · omega
          · exact hnot ⟨hi, hall i hi⟩
        · rw [Nat.max_eq_right (Nat.le_succ _), hidx] at hfull
          obtain ⟨⟨i, hi, hd⟩, -⟩ | ⟨-, -, hle⟩ := hcap
          · rw [(hall i hi).2] at hd
            cases hd
          · omega
  · intro i c' hok
    obtain ⟨hstored, hnot, -⟩ := hspec.ok hok
    exact ⟨hstored.wellFormed, value_of_not_live hnot, hstored.value⟩
  · intro e c' herr
    obtain ⟨rfl, ⟨rfl, hmax, hall⟩ | ⟨rfl, i, hnot, hwhere, -⟩⟩ := hspec.error herr
    · exact ⟨rfl, .inl ⟨hmax, hlive hall, rfl⟩⟩
    · refine ⟨rfl, .inr ⟨?_, rfl⟩⟩
      rintro ⟨hmax, hall⟩
      obtain hi | ⟨-, hlt, -⟩ := hwhere
      · exact hnot ⟨hi, hall i hi⟩
      · omega

/-- Inserting a value keeps a page well-formed. -/
theorem wellFormed_insertValue {rounds i : Nat} {c' : Contents} (hc : c.WellFormed)
    (hpos : 1 ≤ v.length) (hmax : v.length ≤ 4084)
    (h : insertValue (rounds + 2) v c = .ok i c') : c'.WellFormed :=
  ((insertValue_spec hc hpos hmax).ok h).1.wellFormed

/-- Deleting a cell keeps a page well-formed. -/
theorem wellFormed_deleteValue {i : Nat} {c' : Contents} (hc : c.WellFormed)
    (hi : i < c.numCells) (h : deleteValue i c = .ok () c') : c'.WellFormed := by
  have hle := c.numCells_lt
  rw [deleteValue_eq (by omega)] at h
  obtain ⟨-, rfl⟩ := EStateM.Result.ok.inj h
  exact (deleted_spec hc hi).wellFormed

/-- The page that operations leave of a zeroed one. -/
def pageAfter (ops : SlottedM Unit) : Contents :=
  match ops Contents.zero with
  | .ok _ c => c
  | .error _ c => c

/-- Three cells, the one in the middle deleted. -/
def worn : Contents := pageAfter do
  let _ ← insertValue 2 [1, 2, 3]
  let _ ← insertValue 2 [4, 5]
  let _ ← insertValue 2 [6]
  deleteValue 1

private theorem wellFormed_worn : worn.WellFormed := by
  obtain ⟨c₁, c₂, c₃, h₁, h₂, h₃, h₄, hlt⟩ : ∃ c₁ c₂ c₃,
      insertValue 2 [1, 2, 3] Contents.zero = .ok 0 c₁ ∧
      insertValue 2 [4, 5] c₁ = .ok 1 c₂ ∧ insertValue 2 [6] c₂ = .ok 2 c₃ ∧
      deleteValue 1 c₃ = .ok () worn ∧ 1 < c₃.numCells := by
    refine ⟨_, _, _, rfl, rfl, rfl, rfl, ?_⟩
    decide +kernel
  have hw₁ := wellFormed_insertValue wellFormed_zero (by decide) (by decide) h₁
  have hw₂ := wellFormed_insertValue hw₁ (by decide) (by decide) h₂
  have hw₃ := wellFormed_insertValue hw₂ (by decide) (by decide) h₃
  exact wellFormed_deleteValue hw₃ hlt h₄

/-- On a page with a deleted cell a value goes into it, and one that is too long is refused. -/
theorem insertValue_capacity_worn :
    (worn.pointer 1).isDeleted = true ∧ worn.numFreeBytes = 4074 ∧
      (∃ c', insertValue 2 [7, 8, 9] worn = .ok 1 c' ∧
        c'.value = Function.update worn.value 1 (some [7, 8, 9])) ∧
      insertValue 2 (List.replicate 4075 0) worn = .error (.error .pageIsFull) worn := by
  have hdeleted : (worn.pointer 1).isDeleted = true := by decide +kernel
  have hfree : worn.numFreeBytes = 4074 := by decide +kernel
  have hcells : worn.numCells = 3 := by decide +kernel
  refine ⟨hdeleted, hfree, ?_, ?_⟩
  · have h := insertValue_capacity (v := [7, 8, 9]) 0 wellFormed_worn (by decide) (by decide)
    obtain ⟨i, c', hrun⟩ := h.1.mpr (.inl ⟨⟨1, by rw [hcells]; decide, hdeleted⟩, by
      rw [hfree]
      decide⟩)
    obtain ⟨-, -, hvalue⟩ := h.2.1 i c' hrun
    have hindex : i = 1 := by
      cases hrun.symm.trans (rfl : insertValue 2 [7, 8, 9] worn = .ok 1 _)
      rfl
    subst hindex
    exact ⟨c', hrun, hvalue⟩
  · have h := insertValue_capacity (v := List.replicate 4075 0) 0 wellFormed_worn
      (by rw [List.length_replicate]; decide) (by rw [List.length_replicate]; decide)
    cases hrun : insertValue 2 (List.replicate 4075 0) worn with
    | ok i c' =>
      have hroom := h.1.mp ⟨i, c', hrun⟩
      rw [hfree, List.length_replicate] at hroom
      omega
    | error e c' =>
      obtain ⟨rfl, ⟨hfull, -⟩ | ⟨-, rfl⟩⟩ := h.2.2 e c' hrun
      · omega
      · rfl

/-! ### Setting and swapping -/

/-- A page after a value has been set. -/
structure Replaced (c : Contents) (index : Nat) (v : List UInt8) (c' : Contents) : Prop where
  index_lt : index < c.numCells
  wellFormed : c'.WellFormed
  numCells : c'.numCells =
    if (c.pointer index).length < v.length then max (deleted c index).numCells (index + 1)
    else c.numCells
  value : c'.value = Function.update c.value index (some v)
  lastLive : c.LastLive → c'.LastLive

private theorem lastLive_update {n : Nat} (hnum : c'.numCells = max n (index + 1))
    (hvalue : c'.value = Function.update c.value index (some v))
    (hlast : ∀ m, n = m + 1 → c.Live m) : c'.LastLive := by
  intro m hm
  rw [live_iff_value, hvalue]
  by_cases hi : m = index
  · simp [hi]
  · rw [Function.update_of_ne hi, ← live_iff_value]
    exact hlast m (by omega)

/-- A value that is not longer than the one before stays in its place. -/
theorem replaced_of_le (hc : c.WellFormed) (hl : c.Live index) (hpos : 0 < v.length)
    (hle : v.length ≤ (c.pointer index).length) :
    Replaced c index v (c.put c.numCells index (c.pointer index).offset v) := by
  have hroom : c.Room c.numCells index (c.pointer index).offset v.length := by
    have hlen := hc.length_le index hl
    refine ⟨hpos, by omega, hc.header index hl, fun j hj _ ↦ hc.header j hj, ?_⟩
    intro j hj hne
    have := hc.apart index j hl hj hne.symm
    omega
  have hput := hc.put hroom hl.1 c.numCells_lt (fun j hj _ ↦ hj.1)
    fun j hj _ hge ↦ absurd hj (Nat.not_lt.mpr hge)
  have hnum := numCells_put (c := c) (v := v) (i := index) c.numCells_lt hroom.header
  refine ⟨hl.1, hput.1, ?_, hput.2, fun hlast ↦ lastLive_update ?_ hput.2 hlast⟩
  · rw [if_neg (Nat.not_lt.mpr hle), hnum]
  · rw [hnum]
    have := hl.1
    omega

/-- A value that has been set had the bytes it needs. -/
theorem Replaced.canHold (h : Replaced c index v c') : c.CanHold index v := by
  have hlive {j : Nat} : c'.Live j ↔ c.Live j ∨ j = index := by
    rw [live_iff_value, live_iff_value, h.value]
    by_cases hj : j = index
    · simp [hj]
    · simp [hj]
  have hindex : index < c'.numCells := (hlive.mpr (.inr rfl)).1
  refine ⟨c'.numCells, hindex, fun j hj ↦ (hlive.mpr (.inl hj)).1, ?_⟩
  have hout : ∀ j, c'.numCells ≤ j → Function.update c.value index none j = none := by
    intro j hj
    by_cases hne : j = index
    · rw [hne, Function.update_self]
    · rw [Function.update_of_ne hne, ← value_of_le hj, h.value, Function.update_of_ne hne]
  have htotal := h.wellFormed.total_le
  have hvalue : c'.value = Function.update (Function.update c.value index none) index (some v) := by
    rw [Function.update_idem, h.value]
  rw [totalOccupiedSpace_eq, hvalue,
    occupied_update (Nat.le_refl _) hindex (Function.update_self ..) hout] at htotal
  exact htotal

/-- The page left after `delete_value` has the bytes exactly if the page itself can hold them. -/
theorem Deleted.canHold_iff (h : Deleted c index c') :
    c'.totalOccupiedSpace + v.length + getContentIndex (max c'.numCells (index + 1)) ≤ dataSize ↔
      c.CanHold index v := by
  have hlive {j : Nat} (hj : c'.Live j) : c.Live j := by
    rw [live_iff_value, h.value] at hj
    by_cases hne : j = index
    · simp [hne] at hj
    · rwa [Function.update_of_ne hne, ← live_iff_value] at hj
  rw [totalOccupiedSpace_eq, h.value]
  have hout : ∀ j, c'.numCells ≤ j → Function.update c.value index none j = none :=
    fun j hj ↦ h.value ▸ value_of_le hj
  constructor
  · intro hfits
    refine ⟨max c'.numCells (index + 1), by omega, fun j hj ↦ ?_, ?_⟩
    · by_contra hge
      by_cases hne : j = index
      · omega
      · have hnone := hout j (by omega)
        rw [Function.update_of_ne hne] at hnone
        exact live_iff_value.mp hj hnone
    · rwa [← occupied_congr (Nat.le_max_left ..) hout]
  · rintro ⟨n, hindex, hn, hfits⟩
    have hle : c'.numCells ≤ n := by
      cases hc' : c'.numCells with
      | zero => exact Nat.zero_le n
      | succ m => exact hn m (hlive (h.lastLive m hc'))
    rw [← occupied_congr hle hout] at hfits
    have hheader : getContentIndex (max c'.numCells (index + 1)) ≤ getContentIndex n := by
      simp only [getContentIndex, cellPointerSize]
      omega
    omega

/-- A page after a value could not be set: the cell has been deleted if there was one. -/
inductive Refused (c : Contents) (index : Nat) (v : List UInt8) : Fault → Contents → Prop
  | index (h : c.numCells ≤ index) : Refused c index v (.error .invalidCellPointer) c
  | full (h : index < c.numCells) (hfull : ¬ c.CanHold index v) :
      Refused c index v (.error .pageIsFull) (deleted c index)

/-- `set_value` replaces the value of a cell, or fails for want of a cell or of bytes. -/
theorem setValue_spec {rounds : Nat} (hc : c.WellFormed) (hpos : 0 < v.length)
    (hmax : v.length ≤ 4084) :
    Ensures (setValue (rounds + 2) index v) c (fun _ c' ↦ Replaced c index v c')
      (Refused c index v) := by
  apply Ensures.bind
  rw [getCellPointer]
  apply Ensures.bind
  apply Ensures.get
  simp only
  split
  · next hge => exact Refused.index hge
  · next hge =>
    have hi : index < c.numCells := Nat.lt_of_not_le hge
    have hlt := c.numCells_lt
    apply Ensures.pure
    by_cases hgt : (c.pointer index).length < v.length
    · rw [if_pos hgt]
      apply Ensures.bind
      rw [Ensures, deleteValue_eq (by omega)]
      have hdel := deleted_spec hc hi
      have hstore : Ensures (do
          let p ← allocateCellPointer (rounds + 2) index (v.length % 2 ^ 16)
          serializeInto p.offset p.length v
          pure () : SlottedM Unit) (deleted c index) (fun _ c' ↦ Replaced c index v c')
          (Refused c index v) := by
        apply allocate_store_spec hdel.wellFormed hpos hmax (by omega)
        · rw [hdel.value, Function.update_self]
        · exact fun j hj hlt ↦ hdel.isDeleted j hj (by omega)
        · exact fun hfull ↦ .full hi fun h ↦ hfull (hdel.canHold_iff.mpr h)
        · intro c' h
          apply Ensures.pure
          have hvalue : c'.value = Function.update c.value index (some v) := by
            rw [h.value, hdel.value, Function.update_idem]
          exact ⟨hi, h.wellFormed, by rw [if_pos hgt, h.numCells], hvalue,
            fun _ ↦ lastLive_update h.numCells h.value hdel.lastLive⟩
      simpa using hstore
    · have hl : c.Live index := by
        refine ⟨hi, ?_⟩
        rw [Bool.eq_false_iff, ne_eq, CellPointer.isDeleted_iff]
        rintro ⟨-, h1, h2⟩
        have hzero : (c.pointer index).length = 0 := by
          rw [CellPointer.length_eq, h1, h2]
          rfl
        omega
      have hlen := hc.length_le index hl
      have hheader := hc.header index hl
      have hpos' := getContentIndex_pos c.numCells
      rw [if_neg hgt]
      have hreplaced := replaced_of_le hc hl hpos (Nat.le_of_not_lt hgt)
      rw [put_numCells] at hreplaced
      split
      · refine (setCellPointer_spec (by omega) (by omega) (by omega)).seq ?_
        rintro p c₁ ⟨rfl, rfl⟩
        refine (fill_spec (by omega) rfl).mono ?_ fun _ _ h ↦ h
        rintro _ c' rfl
        exact hreplaced
      · have heq : v.length = (c.pointer index).length := by omega
        refine (fill_spec (by omega) (by omega)).mono ?_ fun _ _ h ↦ h
        rintro _ c' rfl
        rw [heq, CellPointer.encode_offset_length] at hreplaced
        have hsame : c.store (getContentIndex index) [(c.pointer index).byte0,
            (c.pointer index).byte1, (c.pointer index).byte2] = c := by
          have hbytes : c.bytes (getContentIndex index) 3 = [(c.pointer index).byte0,
              (c.pointer index).byte1, (c.pointer index).byte2] := by
            simp [bytes, List.range_succ, pointer]
          rw [← hbytes, store_bytes]
        rwa [hsame] at hreplaced

/-- What an operation returns. -/
def answer {α : Type} : EStateM.Result Fault Contents α → Except Fault α
  | .ok a _ => .ok a
  | .error e _ => .error e

private theorem answer_getValue (hc : c.WellFormed) (i : Nat) :
    answer (getValue i c) = (c.value i).elim (.error (.error .invalidCellPointer)) .ok := by
  rw [getValue_eq hc]
  cases c.value i with
  | none => rfl
  | some v => rfl

/-- A refused value leaves what can be read from the page. -/
def Unharmed (c c' : Contents) : Prop :=
  (∀ i, answer (getValue i c') = answer (getValue i c)) ∧ c'.numCells = c.numCells

/-- Deleting a cell does no harm exactly if there was no value in it, and the last cell is in use.
-/
private theorem unharmed_deleted_iff (hc : c.WellFormed) (hi : index < c.numCells) :
    Unharmed c (deleted c index) ↔ ¬ c.Live index ∧ c.LastLive := by
  have hdel := deleted_spec hc hi
  constructor
  · rintro ⟨hread, hnum⟩
    constructor
    · intro hl
      have := hread index
      rw [answer_getValue hdel.wellFormed, answer_getValue hc, hdel.value, Function.update_self,
        value_of_live hl] at this
      cases this
    · intro n hn
      have hlast := hdel.lastLive n (hnum.trans hn)
      rw [live_iff_value, hdel.value] at hlast
      by_cases hne : n = index
      · simp [hne] at hlast
      · rwa [Function.update_of_ne hne, ← live_iff_value] at hlast
  · rintro ⟨hnot, hlast⟩
    have hd : (c.pointer index).isDeleted = true := by
      simpa [Live, hi] using hnot
    rw [deleted_of_isDeleted hlast hd]
    exact ⟨fun _ ↦ rfl, rfl⟩

/-- A value that cannot be set leaves the page as it was exactly if the cell is missing, the page
can hold the value after all, or the cell has no value and the last cell is in use. A value is
refused only for want of a cell or of bytes. -/
theorem setValue_unharmed_iff (rounds index : Nat) (hc : c.WellFormed) (hpos : 1 ≤ v.length)
    (hmax : v.length ≤ 4084) :
    ((∀ e c', setValue (rounds + 2) index v c = .error e c' → Unharmed c c') ↔
      c.numCells ≤ index ∨ c.CanHold index v ∨ ¬ c.Live index ∧ c.LastLive) ∧
    ∀ e c', setValue (rounds + 2) index v c = .error e c' →
      c.numCells ≤ index ∨ ¬ c.CanHold index v := by
  have hspec := @setValue_spec c index v rounds hc hpos hmax
  refine ⟨⟨fun hatomic ↦ ?_, fun hwhen e c' herr ↦ ?_⟩, fun e c' herr ↦ ?_⟩
  · by_cases hge : c.numCells ≤ index
    · exact .inl hge
    · cases hrun : setValue (rounds + 2) index v c with
      | ok u c' => exact .inr (.inl (hspec.ok hrun).canHold)
      | error e c' =>
        have hunharmed := hatomic e c' hrun
        cases hspec.error hrun with
        | index h => exact .inl h
        | full hi hfull => exact .inr (.inr ((unharmed_deleted_iff hc hi).mp hunharmed))
  · cases hspec.error herr with
    | index h => exact ⟨fun _ ↦ rfl, rfl⟩
    | full hi hfull =>
      rcases hwhen with hge | hhold | hfree
      · exact absurd hi (Nat.not_lt.mpr hge)
      · exact absurd hhold hfull
      · exact (unharmed_deleted_iff hc hi).mpr hfree
  · cases hspec.error herr with
    | index h => exact .inl h
    | full hi hfull => exact .inr hfull

set_option maxRecDepth 20000 in
/-- On a page with a deleted cell a value is replaced by a longer one, and a value that does not fit
into the deleted cell leaves the page as it was. -/
theorem setValue_unharmed_worn :
    (∃ c', setValue 2 0 [7, 8, 9, 10] worn = .ok () c' ∧
      answer (getValue 0 c') = .ok [7, 8, 9, 10]) ∧
    (∃ c', setValue 2 1 (List.replicate 4084 0) worn = .error (.error .pageIsFull) c' ∧
      Unharmed worn c' ∧ ¬ worn.CanHold 1 (List.replicate 4084 0)) := by
  have hlast : worn.LastLive := by
    intro n hn
    obtain rfl : n = 2 := by
      have hcells : worn.numCells = 3 := by decide +kernel
      omega
    decide +kernel
  have hdead : ¬ worn.Live 1 := by decide +kernel
  have h :=
    setValue_unharmed_iff (v := List.replicate 4084 0) 0 1 wellFormed_worn (by simp) (by simp)
  have hrun : setValue 2 1 (List.replicate 4084 0) worn = .error (.error .pageIsFull) _ := rfl
  refine ⟨⟨_, rfl, rfl⟩, _, hrun, h.1.mpr (.inr (.inr ⟨hdead, hlast⟩)) _ _ hrun, ?_⟩
  have hcells : worn.numCells = 3 := by decide +kernel
  exact (h.2 _ _ hrun).resolve_left (by omega)

set_option maxRecDepth 20000 in
/-- Two cells of one byte, and a value for the first that fills a page by itself. -/
theorem setValue_loses_value : ∃ c₁ c₂ c', insertValue 2 [7] Contents.zero = .ok 0 c₁ ∧
    insertValue 2 [8] c₁ = .ok 1 c₂ ∧ c₂.WellFormed ∧
    setValue 2 0 (List.replicate 4084 0) c₂ = .error (.error .pageIsFull) c' ∧
    answer (getValue 0 c₂) = .ok [7] ∧
    answer (getValue 0 c') = .error (.error .invalidCellPointer) := by
  refine ⟨_, _, _, rfl, rfl, ?_, rfl, rfl, rfl⟩
  have hw₁ := @wellFormed_insertValue Contents.zero [7] 0 _ _ wellFormed_zero (by decide)
    (by decide) rfl
  exact @wellFormed_insertValue _ [8] 0 _ _ hw₁ (by decide) (by decide) rfl

/-- The page after `swap_cell_pointers`. -/
def swapped (c : Contents) (i j : Nat) : Contents :=
  (c.store (getContentIndex i) (c.bytes (getContentIndex j) cellPointerSize)).store
    (getContentIndex j) (c.bytes (getContentIndex i) cellPointerSize)

private theorem bytes_getContentIndex (c : Contents) (i : Nat) :
    c.bytes (getContentIndex i) cellPointerSize =
      [(c.pointer i).byte0, (c.pointer i).byte1, (c.pointer i).byte2] := by
  simp [bytes, List.range_succ, pointer, cellPointerSize]

private theorem pointer_swapped (c : Contents) (i j k : Nat) :
    (swapped c i j).pointer k = c.pointer (Equiv.swap i j k) := by
  simp only [swapped, bytes_getContentIndex]
  by_cases hkj : k = j
  · rw [hkj, pointer_store_self, Equiv.swap_apply_right]
  · rw [pointer_store_of_ne hkj]
    by_cases hki : k = i
    · rw [hki, pointer_store_self, Equiv.swap_apply_left]
    · rw [pointer_store_of_ne hki, Equiv.swap_apply_of_ne_of_ne hki hkj]

/-- A page after two cells have been swapped. -/
structure Swapped (c : Contents) (i j : Nat) (c' : Contents) : Prop where
  wellFormed : c'.WellFormed
  numCells : c'.numCells = c.numCells
  value : ∀ k, c'.value k = c.value (Equiv.swap i j k)

/-- A swap exchanges the values of two cells. -/
theorem swapped_spec {i j : Nat} (hc : c.WellFormed) (hi : i < c.numCells) (hj : j < c.numCells) :
    Swapped c i j (swapped c i j) := by
  have hnum : (swapped c i j).numCells = c.numCells := by
    rw [swapped, numCells_store (getContentIndex_pos j), numCells_store (getContentIndex_pos i)]
  have hlt {k : Nat} : Equiv.swap i j k < c.numCells ↔ k < c.numCells := by
    by_cases hki : k = i
    · rw [hki, Equiv.swap_apply_left]
      exact iff_of_true hj hi
    · by_cases hkj : k = j
      · rw [hkj, Equiv.swap_apply_right]
        exact iff_of_true hi hj
      · rw [Equiv.swap_apply_of_ne_of_ne hki hkj]
  have hlive {k : Nat} : (swapped c i j).Live k ↔ c.Live (Equiv.swap i j k) := by
    rw [Live, Live, hnum, pointer_swapped, hlt]
  have hdata (k : Nat) (hk : getContentIndex c.numCells ≤ k) : swapped c i j k = c k := by
    simp only [getContentIndex, cellPointerSize] at hk
    rw [swapped, store_of_le (by simp [getContentIndex, cellPointerSize]; omega),
      store_of_le (by simp [getContentIndex, cellPointerSize]; omega)]
  refine ⟨⟨?_, ?_, ?_, ?_⟩, hnum, ?_⟩
  · intro k h
    rw [pointer_swapped]
    exact hc.pos _ (hlive.mp h)
  · intro k h
    rw [pointer_swapped]
    exact hc.length_le _ (hlive.mp h)
  · intro k h
    rw [pointer_swapped, hnum]
    exact hc.header _ (hlive.mp h)
  · intro k l hk hl hne
    rw [pointer_swapped, pointer_swapped]
    exact hc.apart _ _ (hlive.mp hk) (hlive.mp hl) ((Equiv.swap i j).injective.ne hne)
  · intro k
    exact value_congr hc hlive (fun _ ↦ pointer_swapped c i j k) hdata

private theorem swapCellPointers_eq_ok {i j : Nat} (h : swapCellPointers i j c = .ok () c') :
    i < c.numCells ∧ j < c.numCells ∧ c' = swapped c i j := by
  simp only [swapCellPointers, bind_apply, get_apply] at h
  split at h
  · cases h
  · next hlt =>
    rw [not_or] at hlt
    cases h
    exact ⟨Nat.lt_of_not_le hlt.1, Nat.lt_of_not_le hlt.2, rfl⟩

/-! ### Sequences of operations -/

/-- The operations of a page that change it. -/
inductive Op where
  | insert (value : List UInt8)
  | set (index : Nat) (value : List UInt8)
  | delete (index : Nat)
  | swap (index1 index2 : Nat)

/-- A page, the values last stored in its cells, and the cell that the last operation deleted. -/
structure State where
  contents : Contents
  map : Nat → Option (List UInt8)
  justDeleted : Option Nat

/-- A zeroed page. -/
def State.zero : State := ⟨.zero, fun _ ↦ none, none⟩

/-- Operations that return `Ok`: a cell that is deleted exists or has just been deleted. -/
inductive Step (rounds : Nat) : State → Op → State → Prop
  | insert {c c' : Contents} {f : Nat → Option (List UInt8)} {d : Option Nat} {i : Nat}
      {v : List UInt8} (hpos : 1 ≤ v.length) (hmax : v.length ≤ 4084)
      (h : insertValue (rounds + 2) v c = .ok i c') :
      Step rounds ⟨c, f, d⟩ (.insert v) ⟨c', Function.update f i (some v), none⟩
  | set {c c' : Contents} {f : Nat → Option (List UInt8)} {d : Option Nat} {i : Nat}
      {v : List UInt8} (hpos : 1 ≤ v.length) (hmax : v.length ≤ 4084)
      (h : setValue (rounds + 2) i v c = .ok () c') :
      Step rounds ⟨c, f, d⟩ (.set i v) ⟨c', Function.update f i (some v), none⟩
  | delete {c c' : Contents} {f : Nat → Option (List UInt8)} {d : Option Nat} {i : Nat}
      (hi : i < c.numCells ∨ d = some i) (h : deleteValue i c = .ok () c') :
      Step rounds ⟨c, f, d⟩ (.delete i) ⟨c', Function.update f i none, some i⟩
  | swap {c c' : Contents} {f : Nat → Option (List UInt8)} {d : Option Nat} {i j : Nat}
      (h : swapCellPointers i j c = .ok () c') :
      Step rounds ⟨c, f, d⟩ (.swap i j) ⟨c', fun k ↦ f (Equiv.swap i j k), none⟩

/-- What holds after every operation. -/
structure State.Inv (s : State) : Prop where
  wellFormed : s.contents.WellFormed
  value : s.contents.value = s.map
  justDeleted : ∀ i, s.justDeleted = some i →
    i < 255 ∧ (s.contents.pointer i).isDeleted = true ∧ s.contents.LastLive

private theorem inv_zero : State.zero.Inv := by
  refine ⟨wellFormed_zero, ?_, fun i h ↦ nomatch h⟩
  funext i
  exact value_of_le (Nat.zero_le i)

/-- What one operation does. -/
private theorem Step.inv {rounds : Nat} {s s' : State} {op : Op} (h : Step rounds s op s')
    (hs : s.Inv) : s'.Inv := by
  cases h with
  | insert hpos hmax h =>
    obtain ⟨hstored, -⟩ := (insertValue_spec hs.wellFormed hpos hmax).ok h
    exact ⟨hstored.wellFormed, hstored.value.trans (congrArg (Function.update · _ _) hs.value),
      fun _ h ↦ nomatch h⟩
  | set hpos hmax h =>
    have hset := (setValue_spec hs.wellFormed hpos hmax).ok h
    exact ⟨hset.wellFormed, hset.value.trans (congrArg (Function.update · _ _) hs.value),
      fun _ h ↦ nomatch h⟩
  | @delete c c' f d i hi h =>
    by_cases hlt : i < c.numCells
    · have hle := c.numCells_lt
      rw [deleteValue_eq (by omega)] at h
      cases h
      have hdel := deleted_spec hs.wellFormed hlt
      refine ⟨hdel.wellFormed, hdel.value.trans (congrArg (Function.update · _ _) hs.value), ?_⟩
      intro j hj
      cases hj
      exact ⟨by omega, hdel.pointer, hdel.lastLive⟩
    · -- the bytes of the pointer are still zero, so nothing is written
      have hd := hi.resolve_left hlt
      obtain ⟨h255, hd, hlast⟩ := hs.justDeleted i hd
      rw [deleteValue_eq (by omega), deleted_of_isDeleted hlast hd] at h
      cases h
      have hvalue : f i = none := by
        have := value_of_le (Nat.le_of_not_lt hlt)
        rwa [hs.value] at this
      refine ⟨hs.wellFormed, ?_, ?_⟩
      · rw [hs.value, ← hvalue, Function.update_eq_self]
      · intro j hj
        cases hj
        exact ⟨h255, hd, hlast⟩
  | swap h =>
    obtain ⟨hi, hj, rfl⟩ := swapCellPointers_eq_ok h
    have hswap := swapped_spec hs.wellFormed hi hj
    refine ⟨hswap.wellFormed, ?_, fun _ h ↦ nomatch h⟩
    funext k
    rw [hswap.value k, hs.value]

/-- An operation that does not swap a deleted cell with the last one. -/
def KeepsLast (s : State) : Op → Prop
  | .swap i j => ∀ n, s.contents.numCells = n + 1 →
      (i = n → s.contents.Live j) ∧ (j = n → s.contents.Live i)
  | _ => True

private theorem Step.lastLive {rounds : Nat} {s s' : State} {op : Op} (h : Step rounds s op s')
    (hs : s.Inv) (hlast : s.contents.LastLive)
    (hkeeps : KeepsLast s op) : s'.contents.LastLive := by
  cases h with
  | insert hpos hmax h =>
    obtain ⟨hstored, -⟩ := (insertValue_spec hs.wellFormed hpos hmax).ok h
    exact lastLive_update hstored.numCells hstored.value hlast
  | set hpos hmax h => exact ((setValue_spec hs.wellFormed hpos hmax).ok h).lastLive hlast
  | @delete c c' f d i hi h =>
    by_cases hlt : i < c.numCells
    · have hle := c.numCells_lt
      rw [deleteValue_eq (by omega)] at h
      cases h
      exact (deleted_spec hs.wellFormed hlt).lastLive
    · obtain ⟨h255, hd, -⟩ := hs.justDeleted i (hi.resolve_left hlt)
      rw [deleteValue_eq (by omega), deleted_of_isDeleted hlast hd] at h
      cases h
      exact hlast
  | @swap c c' f d i j h =>
    obtain ⟨hi, hj, rfl⟩ := swapCellPointers_eq_ok h
    have hswap := swapped_spec hs.wellFormed hi hj
    intro n hn
    rw [hswap.numCells] at hn
    obtain ⟨h1, h2⟩ := hkeeps n hn
    rw [live_iff_value, hswap.value, ← live_iff_value]
    by_cases hni : n = i
    · rw [hni, Equiv.swap_apply_left]
      exact h1 hni.symm
    · by_cases hnj : n = j
      · rw [hnj, Equiv.swap_apply_right]
        exact h2 hnj.symm
      · rw [Equiv.swap_apply_of_ne_of_ne hni hnj]
        exact hlast n hn

/-- What holds after every operation as long as no deleted cell is swapped with the last one. -/
def State.Tidy (s : State) : Prop := s.Inv ∧ s.contents.LastLive

/-- After every sequence of operations the page holds in each cell what was last stored there, its
cells lie apart from each other and from the header, and its last cell is in use unless a deleted
cell was swapped with the last one. -/
theorem refines_map (rounds : Nat) (s : State) :
    (Run (Step rounds) (fun _ _ ↦ True) State.zero s →
      (∀ i, getValue i s.contents = readResult s.contents (s.map i)) ∧
      s.contents.WellFormed ∧
      s.contents.totalOccupiedSpace + 3 * s.contents.numCells + 1 ≤ dataSize) ∧
    (Run (Step rounds) KeepsLast State.zero s → s.contents.LastLive) := by
  constructor
  · intro hrun
    have hinv := hrun.invariant inv_zero fun _ _ _ ht _ hstep ↦ hstep.inv ht
    refine ⟨fun i ↦ ?_, hinv.wellFormed, ?_⟩
    · rw [getValue_eq hinv.wellFormed, hinv.value]
    · have := hinv.wellFormed.total_le
      simp only [getContentIndex, cellPointerSize] at this
      omega
  · intro hrun
    have hboth : s.Tidy := hrun.invariant
      ⟨inv_zero, fun n hn ↦ absurd hn (Nat.succ_ne_zero n).symm⟩
      fun _ _ _ ht hkeeps hstep ↦ ⟨hstep.inv ht.1, hstep.lastLive ht.1 ht.2 hkeeps⟩
    exact hboth.2

/-- Three values, of which one grows, one is deleted twice and two are swapped, before a fourth
takes the deleted cell. -/
theorem refines_map_interleaved :
    ∃ s, Run (Step 0) KeepsLast State.zero s ∧
      getValue 0 s.contents = .ok [6] s.contents ∧
      getValue 1 s.contents = .ok [11, 12] s.contents ∧
      getValue 2 s.contents = .ok [7, 8, 9, 10] s.contents ∧ s.contents.LastLive := by
  obtain ⟨c₁, c₂, c₃, c₄, c₅, c₆, c₇, c₈, h₁, h₂, h₃, h₄, h₅, h₆, h₇, h₈, hcells, hnum, hlive⟩ :
      ∃ c₁ c₂ c₃ c₄ c₅ c₆ c₇ c₈, insertValue 2 [1, 2, 3] Contents.zero = .ok 0 c₁ ∧
        insertValue 2 [4, 5] c₁ = .ok 1 c₂ ∧ insertValue 2 [6] c₂ = .ok 2 c₃ ∧
        setValue 2 0 [7, 8, 9, 10] c₃ = .ok () c₄ ∧ deleteValue 1 c₄ = .ok () c₅ ∧
        deleteValue 1 c₅ = .ok () c₆ ∧ swapCellPointers 0 2 c₆ = .ok () c₇ ∧
        insertValue 2 [11, 12] c₇ = .ok 1 c₈ ∧ 1 < c₄.numCells ∧ c₆.numCells = 3 ∧ c₆.Live 0 := by
    refine ⟨_, _, _, _, _, _, _, _, rfl, rfl, rfl, rfl, rfl, rfl, rfl, rfl, ?_, ?_, ?_⟩ <;>
      decide +kernel
  have hrun : Run (Step 0) KeepsLast State.zero _ :=
    ((((((((Run.refl.tail (.insert [1, 2, 3]) trivial (.insert (by decide) (by decide) h₁)).tail
      (.insert [4, 5]) trivial (.insert (by decide) (by decide) h₂)).tail
      (.insert [6]) trivial (.insert (by decide) (by decide) h₃)).tail
      (.set 0 [7, 8, 9, 10]) trivial (.set (by decide) (by decide) h₄)).tail
      (.delete 1) trivial (.delete (.inl hcells) h₅)).tail
      (.delete 1) trivial (.delete (.inr rfl) h₆)).tail
      (.swap 0 2) ?_ (.swap h₇)).tail
      (.insert [11, 12]) trivial (.insert (by decide) (by decide) h₈))
  · have h := (refines_map 0 _).1 (hrun.mono fun _ _ _ ↦ trivial)
    exact ⟨_, hrun, h.1 0, h.1 1, h.1 2, (refines_map 0 _).2 hrun⟩
  · intro n hn
    obtain rfl : n = 2 := Nat.succ.inj (hn.symm.trans hnum)
    exact ⟨fun h ↦ absurd h (by decide), fun _ ↦ hlive⟩

/-- A deleted cell swapped with the last one stays behind at the end. -/
theorem swap_leaves_deleted_last :
    ∃ s, Run (Step 0) (fun _ _ ↦ True) State.zero s ∧ s.contents.numCells = 2 ∧
      ¬ s.contents.LastLive := by
  refine ⟨_, .tail (.swap 0 1) (.tail (.delete 0) (.tail (.insert [2]) (.tail (.insert [1]) .refl
    trivial (.insert (by decide) (by decide) rfl)) trivial (.insert (by decide) (by decide) rfl))
    trivial (.delete (.inl ?_) rfl)) trivial (.swap rfl), ?_, ?_⟩
  · decide
  · decide
  · intro h
    exact absurd (h 1 rfl) (by decide)

end SlottedPage

end TrieDb

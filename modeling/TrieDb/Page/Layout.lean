import Mathlib.Logic.Function.Basic
import TrieDb.Page.Bytes

/-!
# Where the cells of a page lie

A page is well-formed when its live cells are non-empty, lie behind the header and are pairwise
apart. Storing a value where there is room for it keeps this and changes no other cell.
-/

namespace TrieDb

namespace CellPointer

private theorem offset_eq (p : CellPointer) :
    p.offset = p.byte0.toNat * 16 + p.byte1.toNat / 16 := by
  have hlt : p.byte1.toNat >>> 4 < 2 ^ 4 := by
    have := p.byte1.toNat_lt
    rw [Nat.shiftRight_eq_div_pow]
    omega
  rw [offset, ← Nat.shiftLeft_add_eq_or_of_lt hlt, Nat.shiftLeft_eq, Nat.shiftRight_eq_div_pow]

/-- The length as a number of its two bytes. -/
theorem length_eq (p : CellPointer) : p.length = p.byte1.toNat % 16 * 256 + p.byte2.toNat := by
  have hlt : p.byte2.toNat < 2 ^ 8 := p.byte2.toNat_lt
  have hand : p.byte1.toNat &&& 0b1111 = p.byte1.toNat % 16 :=
    Nat.and_two_pow_sub_one_eq_mod p.byte1.toNat 4
  rw [length, ← Nat.shiftLeft_add_eq_or_of_lt hlt, Nat.shiftLeft_eq, hand]

/-- A pointer is deleted exactly when its bytes are zero. -/
theorem isDeleted_iff (p : CellPointer) :
    p.isDeleted = true ↔ p.byte0 = 0 ∧ p.byte1 = 0 ∧ p.byte2 = 0 := by
  simp [isDeleted, and_assoc]

private theorem byte1_encode {o l : Nat} (hl : l < 4096) :
    (encode o l).byte1.toNat = o % 16 * 16 + l / 256 := by
  have hlt : l / 2 ^ 8 < 2 ^ 4 := by omega
  have hand : o % 256 &&& 15 = o % 16 := by
    rw [show 15 = 2 ^ 4 - 1 from rfl, Nat.and_two_pow_sub_one_eq_mod]
    omega
  have h : (encode o l).byte1.toNat = (o % 16) <<< 4 % 256 ||| (l >>> 8) % 256 := by
    simp [encode, hand]
  rw [h, Nat.shiftRight_eq_div_pow, Nat.mod_eq_of_lt (show l / 2 ^ 8 < 256 by omega),
    Nat.mod_eq_of_lt (by rw [Nat.shiftLeft_eq]; omega), ← Nat.shiftLeft_add_eq_or_of_lt hlt,
    Nat.shiftLeft_eq]
  rfl

/-- A cell pointer keeps 12 bits of the offset. -/
theorem offset_encode {o l : Nat} (ho : o < 4096) (hl : l < 4096) : (encode o l).offset = o := by
  have h0 : (encode o l).byte0.toNat = o / 16 := by
    simp only [encode, UInt8.toNat_ofNat', Nat.shiftRight_eq_div_pow]
    omega
  rw [offset_eq, h0, byte1_encode hl]
  omega

/-- A cell pointer keeps 12 bits of the length. -/
theorem length_encode {o l : Nat} (hl : l < 4096) : (encode o l).length = l := by
  have h2 : (encode o l).byte2.toNat = l % 256 := by
    simp [encode]
  rw [length_eq, h2, byte1_encode hl]
  omega

private theorem isDeleted_encode {o l : Nat} (hpos : 0 < l) (hl : l < 4096) :
    (encode o l).isDeleted = false := by
  rw [Bool.eq_false_iff, ne_eq, isDeleted_iff]
  rintro ⟨-, h1, h2⟩
  have h := length_encode (o := o) hl
  rw [length_eq, h1, h2] at h
  simp at h
  omega

/-- A cell pointer is determined by its offset and its length. -/
theorem encode_offset_length (p : CellPointer) : encode p.offset p.length = p := by
  have ho := offset_eq p
  have hl := length_eq p
  have h0 := p.byte0.toNat_lt
  have h1 := p.byte1.toNat_lt
  have h2 := p.byte2.toNat_lt
  have e1 := byte1_encode (o := p.offset) (l := p.length) (by omega)
  apply CellPointer.ext
  · apply UInt8.toNat_inj.mp
    simp only [encode, UInt8.toNat_ofNat', Nat.shiftRight_eq_div_pow]
    omega
  · apply UInt8.toNat_inj.mp
    omega
  · apply UInt8.toNat_inj.mp
    simp only [encode, UInt8.toNat_ofNat']
    omega

end CellPointer

namespace Contents

variable {c c' : Contents}

/-! ### Bytes -/

/-- A byte after a store. -/
theorem store_apply (c : Contents) (start : Nat) (data : List UInt8) (k : Nat) :
    c.store start data k = if start ≤ k then (data[k - start]?).getD (c k) else c k := rfl

/-- Bytes before a store stay. -/
theorem store_of_lt {start k : Nat} {data : List UInt8} (h : k < start) :
    c.store start data k = c k := by
  simp [store_apply, Nat.not_le.mpr h]

/-- Bytes behind a store stay. -/
theorem store_of_le {start k : Nat} {data : List UInt8} (h : start + data.length ≤ k) :
    c.store start data k = c k := by
  rw [store_apply, List.getElem?_eq_none (by omega)]
  simp

private theorem store_of_mem {start k : Nat} {data : List UInt8} (h : k < data.length) :
    c.store start data (start + k) = data[k] := by
  simp [store_apply, h]

/-- A slice has as many bytes as asked for. -/
@[simp] theorem length_bytes (c : Contents) (start len : Nat) :
    (c.bytes start len).length = len := by
  simp [bytes]

private theorem bytes_store (c : Contents) (start : Nat) (data : List UInt8) :
    (c.store start data).bytes start data.length = data := by
  apply List.ext_getElem
  · simp
  · intro k _ hk
    simp [bytes, store_of_mem hk]

/-- A slice depends on its own bytes. -/
theorem bytes_congr {start len : Nat} (h : ∀ k < len, c (start + k) = c' (start + k)) :
    c.bytes start len = c'.bytes start len := by
  simp only [bytes, List.map_inj_left, List.mem_range]
  exact h

/-- A slice apart from a store stays. -/
theorem bytes_store_of_apart {start len place : Nat} {data : List UInt8}
    (h : start + len ≤ place ∨ place + data.length ≤ start) :
    (c.store place data).bytes start len = c.bytes start len := by
  apply bytes_congr
  intro k hk
  obtain h | h := h
  · exact store_of_lt (by omega)
  · exact store_of_le (by omega)

/-- Storing what is there changes nothing. -/
theorem store_bytes (c : Contents) (start len : Nat) : c.store start (c.bytes start len) = c := by
  funext k
  by_cases hlt : k < start
  · exact store_of_lt hlt
  · by_cases hle : start + len ≤ k
    · exact store_of_le (by simpa using hle)
    · obtain ⟨j, rfl⟩ : ∃ j, k = start + j := ⟨k - start, by omega⟩
      rw [store_of_mem (by simp; omega)]
      simp [bytes]

/-! ### Live cells -/

/-- A cell in use. -/
def Live (c : Contents) (i : Nat) : Prop := i < c.numCells ∧ (c.pointer i).isDeleted = false

instance (c : Contents) (i : Nat) : Decidable (c.Live i) := by
  unfold Live
  exact inferInstance

/-- The value in a cell. -/
def value (c : Contents) (i : Nat) : Option (List UInt8) :=
  if c.Live i then some (c.bytes (dataSize - (c.pointer i).offset) (c.pointer i).length) else none

/-- The value of a cell in use. -/
theorem value_of_live {i : Nat} (h : c.Live i) :
    c.value i = some (c.bytes (dataSize - (c.pointer i).offset) (c.pointer i).length) := if_pos h

/-- A cell that is not in use has no value. -/
theorem value_of_not_live {i : Nat} (h : ¬ c.Live i) : c.value i = none := if_neg h

/-- A cell is in use exactly when it has a value. -/
theorem live_iff_value {i : Nat} : c.Live i ↔ c.value i ≠ none := by
  by_cases h : c.Live i
  · simp [h, value_of_live h]
  · simp [h, value_of_not_live h]

/-- Live cells are non-empty, lie behind the header and are pairwise apart. -/
structure WellFormed (c : Contents) : Prop where
  pos : ∀ i, c.Live i → 0 < (c.pointer i).length
  length_le : ∀ i, c.Live i → (c.pointer i).length ≤ (c.pointer i).offset
  header : ∀ i, c.Live i → (c.pointer i).offset + getContentIndex c.numCells ≤ dataSize
  apart : ∀ i j, c.Live i → c.Live j → i ≠ j →
    (c.pointer i).offset + (c.pointer j).length ≤ (c.pointer j).offset ∨
      (c.pointer j).offset + (c.pointer i).length ≤ (c.pointer i).offset

/-- There is room for `length` bytes up to `offset` in cell `i` of a page with `n` cells. -/
structure Room (c : Contents) (n i offset length : Nat) : Prop where
  pos : 0 < length
  length_le : length ≤ offset
  header : offset + getContentIndex n ≤ dataSize
  others : ∀ j, c.Live j → j ≠ i → (c.pointer j).offset + getContentIndex n ≤ dataSize
  apart : ∀ j, c.Live j → j ≠ i →
    offset + (c.pointer j).length ≤ (c.pointer j).offset ∨ (c.pointer j).offset + length ≤ offset

/-- The page with `n` cells and a value in cell `i`. -/
def put (c : Contents) (n i offset : Nat) (value : List UInt8) : Contents :=
  let p := CellPointer.encode offset value.length
  ((c.store 0 [UInt8.ofNat n]).store (getContentIndex i) [p.byte0, p.byte1, p.byte2]).store
    (dataSize - offset) value

/-- The number of cells fits a byte. -/
theorem numCells_lt (c : Contents) : c.numCells ≤ 255 := by
  have := (c 0).toNat_lt
  rw [numCells]
  omega

/-- Storing the number of cells that is there changes nothing. -/
theorem store_numCells (c : Contents) : c.store 0 [UInt8.ofNat c.numCells] = c := by
  have h : [UInt8.ofNat c.numCells] = c.bytes 0 1 := by
    simp [bytes, numCells]
  rw [h, store_bytes]

/-- A cell pointer depends on its own bytes. -/
theorem pointer_congr {i : Nat}
    (h : ∀ k, getContentIndex i ≤ k → k < getContentIndex (i + 1) → c k = c' k) :
    c.pointer i = c'.pointer i := by
  simp only [getContentIndex, cellPointerSize] at h
  simp only [pointer, getContentIndex, cellPointerSize]
  rw [h _ (by omega) (by omega), h _ (by omega) (by omega), h _ (by omega) (by omega)]

/-- A stored cell pointer is read back. -/
theorem pointer_store_self (c : Contents) (i : Nat) (p : CellPointer) :
    (c.store (getContentIndex i) [p.byte0, p.byte1, p.byte2]).pointer i = p := by
  simp [pointer, store_apply]

/-! ### Storing a value -/

section
variable {n i offset : Nat} {v : List UInt8}

/-- Bytes behind the header and outside the cell stay. -/
theorem put_of_le {k : Nat} (hk : getContentIndex n ≤ k) (hi : i < n)
    (hout : k < dataSize - offset ∨ dataSize - offset + v.length ≤ k) :
    c.put n i offset v k = c k := by
  simp only [getContentIndex, cellPointerSize] at hk
  have hhead : (((c.store 0 [UInt8.ofNat n]).store (getContentIndex i)
      [(CellPointer.encode offset v.length).byte0, (CellPointer.encode offset v.length).byte1,
        (CellPointer.encode offset v.length).byte2])) k = c k := by
    rw [store_of_le (by simp [getContentIndex, cellPointerSize]; omega),
      store_of_le (by simp; omega)]
  rw [put, ← hhead]
  obtain h | h := hout
  · exact store_of_lt h
  · exact store_of_le h

/-- A page that keeps its number of cells. -/
theorem put_numCells (c : Contents) (i offset : Nat) (v : List UInt8) :
    c.put c.numCells i offset v = (c.store (getContentIndex i)
      [(CellPointer.encode offset v.length).byte0, (CellPointer.encode offset v.length).byte1,
        (CellPointer.encode offset v.length).byte2]).store (dataSize - offset) v := by
  rw [put, store_numCells]

private theorem put_of_lt {k : Nat} (hk : k < dataSize - offset) :
    c.put n i offset v k = (c.store 0 [UInt8.ofNat n]).store (getContentIndex i)
      [(CellPointer.encode offset v.length).byte0, (CellPointer.encode offset v.length).byte1,
        (CellPointer.encode offset v.length).byte2] k := store_of_lt hk

/-- No cell pointer is at the start of the page. -/
theorem getContentIndex_pos (i : Nat) : 0 < getContentIndex i := by
  rw [getContentIndex]
  omega

/-- The number of cells is what has been written. -/
theorem numCells_put (hn : n ≤ 255) (h : offset + getContentIndex n ≤ dataSize) :
    (c.put n i offset v).numCells = n := by
  have hidx := getContentIndex_pos n
  rw [numCells, put_of_lt (by omega), store_of_lt (getContentIndex_pos i), store_apply]
  simp
  omega

/-- The pointer of the cell is what has been written. -/
theorem pointer_put_self (hi : i < n) (h : offset + getContentIndex n ≤ dataSize) :
    (c.put n i offset v).pointer i = CellPointer.encode offset v.length := by
  rw [← pointer_store_self (c.store 0 [UInt8.ofNat n]) i (CellPointer.encode offset v.length)]
  apply pointer_congr
  intro k _ hk
  apply put_of_lt
  simp only [getContentIndex, cellPointerSize] at h hk
  omega

/-- The pointers of the other cells stay. -/
theorem pointer_put_of_ne {j : Nat} (hj : j < n) (hne : j ≠ i)
    (h : offset + getContentIndex n ≤ dataSize) :
    (c.put n i offset v).pointer j = c.pointer j := by
  apply pointer_congr
  intro k hle hlt
  simp only [getContentIndex, cellPointerSize] at h hle hlt
  rw [put_of_lt (by omega)]
  have hfirst : (c.store 0 [UInt8.ofNat n]) k = c k := store_of_le (by simp; omega)
  rw [← hfirst]
  by_cases hij : j < i
  · exact store_of_lt (by simp only [getContentIndex, cellPointerSize]; omega)
  · exact store_of_le (by simp [getContentIndex, cellPointerSize]; omega)

/-- A value is stored where there is room for it. -/
theorem WellFormed.put (hc : c.WellFormed) (hroom : c.Room n i offset v.length) (hi : i < n)
    (hn : n ≤ 255) (hle : ∀ j, c.Live j → j ≠ i → j < n)
    (hnew : ∀ j < n, j ≠ i → c.numCells ≤ j → (c.pointer j).isDeleted = true) :
    (c.put n i offset v).WellFormed ∧
      (c.put n i offset v).value = Function.update c.value i (some v) := by
  have hheader := hroom.header
  have hlen : v.length < 4096 := by
    have := hroom.length_le
    simp only [getContentIndex, dataSize] at hheader
    omega
  have hoff : offset < 4096 := by
    simp only [getContentIndex, dataSize] at hheader
    omega
  have hnum : (c.put n i offset v).numCells = n := numCells_put hn hheader
  have hself : (c.put n i offset v).pointer i = CellPointer.encode offset v.length :=
    pointer_put_self hi hheader
  have hlivei : (c.put n i offset v).Live i := by
    refine ⟨hi.trans_eq hnum.symm, ?_⟩
    rw [hself]
    exact CellPointer.isDeleted_encode hroom.pos hlen
  have hlive {j : Nat} (hne : j ≠ i) : (c.put n i offset v).Live j ↔ c.Live j := by
    constructor
    · rintro ⟨hj, hd⟩
      rw [hnum] at hj
      rw [pointer_put_of_ne hj hne hheader] at hd
      refine ⟨?_, hd⟩
      by_contra hge
      rw [hnew j hj hne (Nat.le_of_not_lt hge)] at hd
      cases hd
    · intro hl
      have hj := hle j hl hne
      refine ⟨hj.trans_eq hnum.symm, ?_⟩
      rw [pointer_put_of_ne hj hne hheader]
      exact hl.2
  have hother {j : Nat} (hl : c.Live j) (hne : j ≠ i) :
      (c.put n i offset v).pointer j = c.pointer j :=
    pointer_put_of_ne (hle j hl hne) hne hheader
  have hbytes {j : Nat} (hl : c.Live j) (hne : j ≠ i) :
      (c.put n i offset v).bytes (dataSize - (c.pointer j).offset) (c.pointer j).length =
        c.bytes (dataSize - (c.pointer j).offset) (c.pointer j).length := by
    apply bytes_congr
    intro k hk
    have h1 := hroom.others j hl hne
    have h2 := hroom.apart j hl hne
    have h3 := hc.length_le j hl
    have h4 := hroom.length_le
    exact put_of_le (by omega) hi (by omega)
  have hoffset := CellPointer.offset_encode hoff hlen
  have hlength := CellPointer.length_encode (o := offset) hlen
  refine ⟨⟨?_, ?_, ?_, ?_⟩, ?_⟩
  · intro j hl
    by_cases hj : j = i
    · rw [hj, hself, hlength]
      exact hroom.pos
    · rw [hother ((hlive hj).mp hl) hj]
      exact hc.pos j ((hlive hj).mp hl)
  · intro j hl
    by_cases hj : j = i
    · rw [hj, hself, hoffset, hlength]
      exact hroom.length_le
    · rw [hother ((hlive hj).mp hl) hj]
      exact hc.length_le j ((hlive hj).mp hl)
  · intro j hl
    rw [hnum]
    by_cases hj : j = i
    · rw [hj, hself, hoffset]
      exact hheader
    · rw [hother ((hlive hj).mp hl) hj]
      exact hroom.others j ((hlive hj).mp hl) hj
  · intro j k hl hl' hjk
    by_cases hj : j = i
    · have hk : k ≠ i := fun h ↦ hjk (hj.trans h.symm)
      rw [hj, hself, hoffset, hlength, hother ((hlive hk).mp hl') hk]
      exact hroom.apart k ((hlive hk).mp hl') hk
    · by_cases hk : k = i
      · rw [hk, hself, hoffset, hlength, hother ((hlive hj).mp hl) hj]
        exact (hroom.apart j ((hlive hj).mp hl) hj).symm
      · rw [hother ((hlive hj).mp hl) hj, hother ((hlive hk).mp hl') hk]
        exact hc.apart j k ((hlive hj).mp hl) ((hlive hk).mp hl') hjk
  · funext j
    by_cases hj : j = i
    · subst hj
      rw [Function.update_self, value_of_live hlivei, hself, hoffset, hlength]
      congr 1
      exact bytes_store _ _ v
    · rw [Function.update_of_ne hj]
      by_cases hl : c.Live j
      · rw [value_of_live hl, value_of_live ((hlive hj).mpr hl), hother hl hj, hbytes hl hj]
      · rw [value_of_not_live hl, value_of_not_live fun h ↦ hl ((hlive hj).mp h)]

end

end Contents

end TrieDb

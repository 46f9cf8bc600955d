import TrieDb.Page.Refinement

/-!
# Defragmentation

`defragment` moves the cells in place, in the order of their offsets, each behind the one before. A
cell never moves away from the end of the page, so that the bytes of those still to come are intact
when it is their turn.
-/

namespace TrieDb

namespace Contents

/-- The live cells with their offsets and lengths, in the order in which they are moved. -/
def sortedCells (c : Contents) : List (Nat × Nat × Nat) :=
  (c.liveCells.map fun i ↦ (i, (c.pointer i).offset, (c.pointer i).length)).insertionSort
    fun a b ↦ a.2.1 ≤ b.2.1

/-- The bytes of the cells in a list. -/
def space (cells : List (Nat × Nat × Nat)) : Nat := (cells.map fun x ↦ x.2.2).sum

/-- The space of two parts is that of both. -/
@[simp] theorem space_append (a b : List (Nat × Nat × Nat)) :
    space (a ++ b) = space a + space b := by
  simp [space]

/-- One cell takes its length. -/
@[simp] theorem space_singleton (x : Nat × Nat × Nat) : space [x] = x.2.2 := by
  simp [space]

end Contents

namespace SlottedPage

open Contents Base

variable {c c₀ : Contents} {placed cells : List (Nat × Nat × Nat)} {last : Nat × Nat}

/-- The page while its cells are moved: those of `placed` follow each other from the end. -/
structure Placing (c₀ : Contents) (placed cells : List (Nat × Nat × Nat)) (last : Nat × Nat)
    (c : Contents) : Prop where
  moving : Moving c₀ cells last c
  split : placed ++ cells = c₀.sortedCells
  last : last.2 = space placed
  offset : ∀ front x back, placed = front ++ x :: back →
    (c.pointer x.1).offset = space (front ++ [x])

/-- A place in a list with one more entry is the last one or one before. -/
private theorem concat_eq_append_cons {x y : Nat × Nat × Nat} {front back : List (Nat × Nat × Nat)}
    (h : placed ++ [x] = front ++ y :: back) :
    (front = placed ∧ y = x) ∨ ∃ back', placed = front ++ y :: back' := by
  rcases List.eq_nil_or_concat' back with rfl | ⟨back', z, rfl⟩
  · obtain ⟨hfront, hy⟩ := List.append_inj' h rfl
    exact .inl ⟨hfront.symm, (List.singleton_inj.mp hy).symm⟩
  · have h' : placed ++ [x] = (front ++ y :: back') ++ [z] := by simpa using h
    exact .inr ⟨back', (List.append_inj' h' rfl).1⟩

/-- The cells that have been placed are live, and are not among those to come. -/
private theorem Placing.mem_placed {x : Nat × Nat × Nat} (hc : c₀.WellFormed)
    (h : Placing c₀ placed cells last c) (hx : x ∈ placed) :
    c.Live x.1 ∧ x.1 ∉ cells.map Prod.fst := by
  have hstart := moving_start hc
  have hmem : x ∈ c₀.sortedCells := by
    rw [← h.split]
    exact List.mem_append_left _ hx
  have hnodup := hstart.nodup
  constructor
  · rw [live_iff_value, h.moving.value, ← live_iff_value]
    exact hstart.live x hmem
  · intro hcells
    change (c₀.sortedCells.map Prod.fst).Nodup at hnodup
    rw [← h.split, List.map_append, List.nodup_append] at hnodup
    exact hnodup.2.2 _ (List.mem_map_of_mem hx) _ hcells rfl

/-- One cell is put behind the others. -/
private theorem Placing.step (hc : c₀.WellFormed) {index offset length : Nat}
    (h : Placing c₀ placed ((index, offset, length) :: cells) last c) :
    Ensures (moveCell index offset length last) c
      (fun last' c' ↦ Placing c₀ (placed ++ [(index, offset, length)]) cells last' c')
      fun _ _ ↦ False := by
  have hptr := h.moving.pointer _ List.mem_cons_self
  have hlive := h.moving.live _ List.mem_cons_self
  have hle := h.moving.wellFormed.length_le _ hlive
  have hahead := h.moving.ahead _ List.mem_cons_self
  have hsplit : placed ++ [(index, offset, length)] ++ cells = c₀.sortedCells := by
    rw [List.append_assoc]
    exact h.split
  simp only at hptr hlive hle hahead
  rw [hptr.1, hptr.2] at hle
  refine (moveCell_run h.moving).mono ?_ fun _ _ h ↦ h
  rintro last' c' (⟨hstart, rfl, rfl⟩ | ⟨rfl, rfl⟩)
  · -- only the first cell stays where it is
    have hzero : last = (0, 0) := by
      rcases h.moving.start with h0 | h0
      · exact h0
      · omega
    have hlast := h.last
    rw [hzero] at hlast hstart
    have hoffset : offset = space (placed ++ [(index, offset, length)]) := by
      rw [space_append, space_singleton, ← hlast]
      simp only at hstart ⊢
      omega
    refine ⟨h.moving.stay (by rw [hzero]; exact hstart), hsplit, hoffset, ?_⟩
    intro front x back hplaced
    rcases concat_eq_append_cons hplaced with ⟨rfl, rfl⟩ | ⟨back', hback⟩
    · rw [← hoffset]
      exact hptr.1
    · exact h.offset front x back' hback
  · have hroom := h.moving.room
    have hheader := hroom.header
    have hlast : last.2 + length = space (placed ++ [(index, offset, length)]) := by
      rw [space_append, space_singleton, h.last]
    refine ⟨h.moving.move, hsplit, hlast, ?_⟩
    intro front x back hplaced
    rcases concat_eq_append_cons hplaced with ⟨rfl, rfl⟩ | ⟨back', hback⟩
    · have hsize : last.2 + length < 4096 := by
        simp only [dataSize] at hheader
        omega
      rw [pointer_put_self hlive.1 hheader, length_bytes,
        CellPointer.offset_encode hsize (by omega), hlast]
    · have hx : x ∈ placed := by
        rw [hback]
        simp
      obtain ⟨hxlive, hxne⟩ := h.mem_placed hc hx
      have hne : x.1 ≠ index := by
        rintro heq
        exact hxne (by simp [heq])
      rw [pointer_put_of_ne hxlive.1 hne hheader]
      exact h.offset front x back' hback

/-- After the first cells. -/
private theorem Placing.run (hc : c₀.WellFormed) {later : List (Nat × Nat × Nat)}
    (h : Placing c₀ placed (cells ++ later) last c) :
    Ensures (moveCells cells last) c
      (fun _ c' ↦ ∃ last', Placing c₀ (placed ++ cells) later last' c') fun _ _ ↦ False := by
  induction cells generalizing placed last c with
  | nil => exact Ensures.pure ⟨last, by simpa using h⟩
  | cons x cells ih =>
    refine (h.step hc).seq fun last' c' h' ↦ ?_
    refine (ih h').mono ?_ fun _ _ h ↦ h
    rintro _ c'' ⟨last'', h''⟩
    exact ⟨last'', by simpa using h''⟩

private theorem placing_start (hc : c.WellFormed) : Placing c [] c.sortedCells (0, 0) c := by
  refine ⟨moving_start hc, rfl, rfl, ?_⟩
  intro front x back h
  simp at h

/-- The cells are placed one behind the other if there are bytes enough. -/
private theorem defragment_placing {index length : Nat} (hc : c.WellFormed)
    (hsum : c.totalOccupiedSpace + length +
      (max c.numCells (index + 1) * cellPointerSize + 1) < 2 ^ 16) :
    Ensures (defragment index length) c
      (fun done c' ↦
        (done = true ∧ (∃ last, Placing c c.sortedCells [] last c') ∧
          c.totalOccupiedSpace + length + getContentIndex (c.newNumCells index) ≤ dataSize) ∨
        (done = false ∧ c' = c ∧ dataSize <
          c.totalOccupiedSpace + length + (max c.numCells (index + 1) * cellPointerSize + 1)))
      fun _ _ ↦ False := by
  apply Ensures.bind
  apply Ensures.get
  have hle := Nat.mul_le_mul_right cellPointerSize (c.newNumCells_le index)
  simp only
  rw [Nat.mod_eq_of_lt (by omega)]
  split
  · next hlt => exact Ensures.pure (.inr ⟨rfl, rfl, by omega⟩)
  · next hge =>
    have hstart := placing_start hc
    rw [← List.append_nil c.sortedCells] at hstart
    refine (hstart.run hc).seq ?_
    rintro _ c' hplaced
    refine Ensures.pure (.inl ⟨rfl, hplaced, ?_⟩)
    simp only [getContentIndex]
    rw [Nat.mul_comm]
    omega

/-- What two pages with the same values have in a cell. -/
private theorem cell_of_value {c c' : Contents} {i : Nat} (h : c'.value = c.value) (hi : c.Live i) :
    (c'.pointer i).length = (c.pointer i).length ∧
      c'.bytes (dataSize - (c'.pointer i).offset) (c'.pointer i).length =
        c.bytes (dataSize - (c.pointer i).offset) (c.pointer i).length := by
  have hi' : c'.Live i := by
    rwa [live_iff_value, h, ← live_iff_value]
  have hbytes := congrFun h i
  rw [value_of_live hi, value_of_live hi', Option.some_inj] at hbytes
  refine ⟨?_, hbytes⟩
  have hlen := congrArg List.length hbytes
  rwa [length_bytes, length_bytes] at hlen

/-- When it is the turn of a cell, its bytes are as they were. -/
private theorem bytes_intact (hc : c.WellFormed) {front back : List (Nat × Nat × Nat)}
    {x : Nat × Nat × Nat} (hcells : c.sortedCells = front ++ x :: back) :
    ∃ c₁, moveCells front (0, 0) c = .ok ⟨⟩ c₁ ∧
      c₁.bytes (dataSize - x.2.1) x.2.2 = c.bytes (dataSize - x.2.1) x.2.2 := by
  have hstart := placing_start hc
  rw [hcells] at hstart
  have hrun := hstart.run hc
  cases hx : moveCells front (0, 0) c with
  | ok u c₁ =>
    obtain ⟨last, h⟩ := hrun.ok hx
    refine ⟨c₁, rfl, ?_⟩
    have hmem : x ∈ c.sortedCells := by
      rw [hcells]
      simp
    have hptr := (moving_start hc).pointer x hmem
    have hptr' := h.moving.pointer x List.mem_cons_self
    have hbytes := (cell_of_value h.moving.value ((moving_start hc).live x hmem)).2
    rwa [hptr.1, hptr.2, hptr'.1, hptr'.2] at hbytes
  | error e c₁ => exact (hrun.error hx).elim

/-- As long as the sum of the bytes stays within 16 bits, `defragment` keeps every cell and packs
them at the end of the page in the order of their offsets, after which a slot is found; or it leaves
the page alone, and the bytes do not suffice. -/
theorem defragment_preserves {index length : Nat} (hc : c.WellFormed)
    (hsum : c.totalOccupiedSpace + length +
      (max c.numCells (index + 1) * cellPointerSize + 1) < 2 ^ 16) :
    ∃ done c', defragment index length c = .ok done c' ∧
      (done = true →
        (∀ i, c'.Live i ↔ c.Live i) ∧
        (∀ i, c.Live i → (c'.pointer i).length = (c.pointer i).length ∧
          c'.bytes (dataSize - (c'.pointer i).offset) (c'.pointer i).length =
            c.bytes (dataSize - (c.pointer i).offset) (c.pointer i).length) ∧
        (∀ front x back, c.sortedCells = front ++ x :: back →
          (c'.pointer x.1).offset = space front + (c'.pointer x.1).length) ∧
        space c.sortedCells = c.totalOccupiedSpace ∧
        (∀ front x back, c.sortedCells = front ++ x :: back →
          ∃ c₁, moveCells front (0, 0) c = .ok ⟨⟩ c₁ ∧
            c₁.bytes (dataSize - x.2.1) x.2.2 = c.bytes (dataSize - x.2.1) x.2.2) ∧
        ∃ offset, c'.findAvailableSlot index length = some offset) ∧
      (done = false → c' = c ∧ dataSize <
        c.totalOccupiedSpace + length + (max c.numCells (index + 1) * cellPointerSize + 1)) := by
  have hspec := @defragment_placing c index length hc hsum
  cases hx : defragment index length c with
  | error e c' => exact (hspec.error hx).elim
  | ok done c' =>
    refine ⟨done, c', rfl, ?_⟩
    rcases hspec.ok hx with ⟨rfl, ⟨last, h⟩, hfits⟩ | ⟨rfl, rfl, hlarge⟩
    · refine ⟨fun _ ↦ ?_, fun hfalse ↦ Bool.noConfusion hfalse⟩
      have hlive (i : Nat) : c'.Live i ↔ c.Live i := by
        rw [live_iff_value, live_iff_value, h.moving.value]
      have htotal := h.moving.total
      rw [List.map_nil, List.sum_nil, Nat.add_zero] at htotal
      have hsame : c'.totalOccupiedSpace = c.totalOccupiedSpace := by
        rw [totalOccupiedSpace_eq, totalOccupiedSpace_eq, h.moving.value, h.moving.numCells]
      refine ⟨hlive, fun i hi ↦ cell_of_value h.moving.value hi, ?_, ?_, ?_, ?_⟩
      · intro front x back hcells
        have hmem : x ∈ c.sortedCells := by
          rw [hcells]
          simp
        have hptr := (moving_start hc).pointer x hmem
        have hlen := (cell_of_value h.moving.value ((moving_start hc).live x hmem)).1
        rw [h.offset front x back hcells, space_append, space_singleton, hlen, hptr.2]
      · rw [← h.last, htotal]
      · exact fun front x back hcells ↦ bytes_intact hc hcells
      · apply Option.ne_none_iff_exists'.mp
        apply findAvailableSlot_ne_none
        · intro j hj
          rw [hsame, ← htotal]
          exact h.moving.packed j hj (by simp)
        · rw [hsame, newNumCells, h.moving.numCells]
          exact hfits
    · exact ⟨fun htrue ↦ Bool.noConfusion htrue, fun _ ↦ ⟨rfl, hlarge⟩⟩

/-- Two cells with gaps before them: the source of the first overlaps with its destination. -/
def gappy : Contents := pageAfter do
  let _ ← insertValue 2 [1]
  let _ ← insertValue 2 [2, 3, 4, 5, 6]
  let _ ← insertValue 2 [7]
  let _ ← insertValue 2 [8, 9, 10]
  deleteValue 0
  deleteValue 2

private theorem wellFormed_gappy : gappy.WellFormed := by
  obtain ⟨c₁, c₂, c₃, c₄, c₅, h₁, h₂, h₃, h₄, h₅, h₆, hlt₄, hlt₅⟩ :
      ∃ c₁ c₂ c₃ c₄ c₅, insertValue 2 [1] Contents.zero = .ok 0 c₁ ∧
        insertValue 2 [2, 3, 4, 5, 6] c₁ = .ok 1 c₂ ∧ insertValue 2 [7] c₂ = .ok 2 c₃ ∧
        insertValue 2 [8, 9, 10] c₃ = .ok 3 c₄ ∧ deleteValue 0 c₄ = .ok () c₅ ∧
        deleteValue 2 c₅ = .ok () gappy ∧ 0 < c₄.numCells ∧ 2 < c₅.numCells := by
    refine ⟨_, _, _, _, _, rfl, rfl, rfl, rfl, rfl, rfl, ?_, ?_⟩ <;> decide +kernel
  have hw₁ := wellFormed_insertValue wellFormed_zero (by decide) (by decide) h₁
  have hw₂ := wellFormed_insertValue hw₁ (by decide) (by decide) h₂
  have hw₃ := wellFormed_insertValue hw₂ (by decide) (by decide) h₃
  have hw₄ := wellFormed_insertValue hw₃ (by decide) (by decide) h₄
  exact wellFormed_deleteValue (wellFormed_deleteValue hw₄ hlt₄ h₅) hlt₅ h₆

/-- Both cells are moved and keep their bytes, and there is room for a value of four bytes. -/
theorem defragment_preserves_gappy :
    gappy.sortedCells = [(1, 6, 5), (3, 10, 3)] ∧
      ∃ c', defragment 0 4 gappy = .ok true c' ∧
        (c'.pointer 1).offset = 5 ∧ c'.bytes (dataSize - 5) 5 = [2, 3, 4, 5, 6] ∧
        (c'.pointer 3).offset = 8 ∧ c'.bytes (dataSize - 8) 3 = [8, 9, 10] ∧
        ∃ offset, c'.findAvailableSlot 0 4 = some offset := by
  have hcells : gappy.sortedCells = [(1, 6, 5), (3, 10, 3)] := by decide +kernel
  obtain ⟨done, c', hrun, htrue, hfalse⟩ :=
    @defragment_preserves gappy 0 4 wellFormed_gappy (by decide +kernel)
  cases done with
  | false =>
    exact absurd (hfalse rfl).2 (by decide +kernel)
  | true =>
    obtain ⟨-, hcell, hplace, -, -, hslot⟩ := htrue rfl
    obtain ⟨hlen₁, hbytes₁⟩ := hcell 1 (by decide +kernel)
    obtain ⟨hlen₃, hbytes₃⟩ := hcell 3 (by decide +kernel)
    have hoffset₁ : (c'.pointer 1).offset = 5 := by
      rw [hplace [] _ _ hcells, hlen₁]
      decide +kernel
    have hoffset₃ : (c'.pointer 3).offset = 8 := by
      rw [hplace [(1, 6, 5)] _ _ hcells, hlen₃]
      decide +kernel
    refine ⟨hcells, c', hrun, hoffset₁, ?_, hoffset₃, ?_, hslot⟩
    · rw [hoffset₁, hlen₁] at hbytes₁
      exact hbytes₁.trans (by decide +kernel)
    · rw [hoffset₃, hlen₃] at hbytes₃
      exact hbytes₃.trans (by decide +kernel)

/-- An additional length for which the sum of the bytes exceeds 16 bits: an empty page is said to
have the bytes, and no slot is found. -/
theorem defragment_overflows :
    Contents.zero.WellFormed ∧ 65535 < 2 ^ 16 ∧
      defragment 0 65535 Contents.zero = .ok true Contents.zero ∧
      Contents.zero.findAvailableSlot 0 65535 = none := by
  have hsum : ¬ dataSize < (Contents.zero.totalOccupiedSpace + 65535 +
      Contents.zero.newNumCells 0 * cellPointerSize + 1) % 2 ^ 16 := by decide +kernel
  refine ⟨wellFormed_zero, by decide, ?_, by decide +kernel⟩
  simp only [defragment, bind_apply, get_apply, if_neg hsum]
  rfl

end SlottedPage

end TrieDb

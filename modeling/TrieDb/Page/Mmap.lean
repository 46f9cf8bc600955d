import TrieDb.Page.Manager

/-!
# Pages, file and memory map

`src/page/manager/mmap.rs:51–247`: the number of pages, the length of the file and the length of the
memory map, which allocations change one after the other. Whether the file can be extended is up to
the file system.
-/

namespace TrieDb

/-- `Page::SIZE`. -/
def pageSize : Nat := 4096

/-- `PageManagerOptions`, without how the file is opened. -/
structure PageManagerOptions where
  pageCount : Nat
  maxPages : Nat

/-- The lengths that a `PageManager` keeps. -/
structure Mapping where
  mapLen : Nat
  fileLen : Nat
  pageCount : Nat

/-- The errors of an allocation. -/
inductive AllocateError where
  | pageLimitReached
  | io
  deriving DecidableEq

namespace Mapping

variable {m m' : Mapping} {setLen : Nat → Bool} {calls : List (Nat → Bool)}

/-- `from_file_with_options`: the file must hold the pages it is said to have. -/
def fromFileWithOptions (opts : PageManagerOptions) (fileLen : Nat) : Option Mapping :=
  if opts.pageCount * pageSize ≤ fileLen then
    some ⟨opts.maxPages * pageSize, fileLen, opts.pageCount⟩
  else none

/-- `size`. -/
def size (m : Mapping) : Nat := m.pageCount

/-- `capacity`. -/
def capacity (m : Mapping) : Nat := min (m.mapLen / pageSize) (2 ^ 32 - 1)

/-- The file grows by an eighth or by 1024 pages, within the map. -/
def grownLen (m : Mapping) : Nat :=
  min (m.fileLen + max (m.fileLen / 8) (1024 * pageSize)) m.mapLen

/-- `grow`; `setLen` says to which lengths the file can be extended. -/
def grow (setLen : Nat → Bool) (m : Mapping) : Except AllocateError Nat :=
  if 2 ^ 64 ≤ m.fileLen + max (m.fileLen / 8) (1024 * pageSize) then .error .pageLimitReached
  else if m.grownLen ≤ m.fileLen then .error .pageLimitReached
  else if setLen m.grownLen then .ok m.grownLen
  else .error .io

private theorem grow_eq_ok {newLen : Nat} (h : m.grow setLen = .ok newLen) :
    newLen = m.grownLen ∧ m.fileLen < newLen ∧ newLen ≤ m.mapLen := by
  simp only [grow] at h
  split at h
  · cases h
  · split at h
    · cases h
    · next hlt =>
      split at h
      · cases h
        exact ⟨rfl, Nat.lt_of_not_le hlt, Nat.min_le_right _ _⟩
      · cases h

/-- The loop of `grow_if_needed`, which ends because the file stays within the map. -/
def growLoop (setLen : Nat → Bool) (minLen : Nat) (m : Mapping) :
    Except AllocateError Unit × Mapping :=
  match _h : m.grow setLen with
  | .error e => (.error e, m)
  | .ok newLen =>
    if minLen ≤ newLen then (.ok (), { m with fileLen := newLen })
    else growLoop setLen minLen { m with fileLen := newLen }
termination_by m.mapLen - m.fileLen
decreasing_by
  have hg := grow_eq_ok _h
  omega

/-- `grow_if_needed`. -/
def growIfNeeded (setLen : Nat → Bool) (minLen : Nat) (m : Mapping) :
    Except AllocateError Unit × Mapping :=
  if m.fileLen < minLen then m.growLoop setLen minLen else (.ok (), m)

/-- `next_page_id`. -/
def nextPageId (m : Mapping) : Option (Nat × Mapping) :=
  let newCount := m.pageCount + 1
  if 2 ^ 32 ≤ newCount then none
  else if PageManager.maxPageId < newCount then none
  else some (newCount, { m with pageCount := newCount })

/-- `allocate`, up to the acquisition of the new page. -/
def allocate (setLen : Nat → Bool) (m : Mapping) : Except AllocateError Nat × Mapping :=
  match m.nextPageId with
  | none => (.error .pageLimitReached, m)
  | some (id, m) =>
    if m.mapLen < id * pageSize then (.error .pageLimitReached, m)
    else match m.growIfNeeded setLen (id * pageSize) with
      | (.ok (), m) => (.ok id, m)
      | (.error e, m) => (.error e, m)

/-- The ids that `get` and `get_mut` accept. -/
def accepts (m : Mapping) (id : Nat) : Bool := 1 ≤ id && id ≤ m.pageCount

/-- `as_offset`. -/
def offset (id : Nat) : Nat := (id - 1) * pageSize

/-! ### Growing the file -/

private theorem growLoop_spec (minLen : Nat) :
    (m.growLoop setLen minLen).2.mapLen = m.mapLen ∧
      (m.growLoop setLen minLen).2.pageCount = m.pageCount ∧
      m.fileLen ≤ (m.growLoop setLen minLen).2.fileLen := by
  fun_induction growLoop setLen minLen m with
  | case1 m e h => exact ⟨rfl, rfl, Nat.le_refl _⟩
  | case2 m newLen h hle => exact ⟨rfl, rfl, Nat.le_of_lt (grow_eq_ok h).2.1⟩
  | case3 m newLen h hle ih => exact ⟨ih.1, ih.2.1, (Nat.le_of_lt (grow_eq_ok h).2.1).trans ih.2.2⟩

private theorem le_grownLen {minLen : Nat} (hmin : minLen ≤ m.fileLen + pageSize)
    (hmap : minLen ≤ m.mapLen) : minLen ≤ m.grownLen := by
  simp only [grownLen, pageSize] at hmin ⊢
  omega

/-- A file that is short of one page is grown once. -/
private theorem growLoop_of_room {minLen : Nat} (hmin : minLen ≤ m.fileLen + pageSize)
    (hmap : minLen ≤ m.mapLen) (hshort : m.fileLen < minLen) (hbound : m.mapLen < 2 ^ 60) :
    m.growLoop setLen minLen = if setLen m.grownLen then (.ok (), { m with fileLen := m.grownLen })
      else (.error .io, m) := by
  have hlen : minLen ≤ m.grownLen := le_grownLen hmin hmap
  have hgrow : m.grow setLen = if setLen m.grownLen then .ok m.grownLen else .error .io := by
    have hoverflow : ¬ 2 ^ 64 ≤ m.fileLen + max (m.fileLen / 8) (1024 * pageSize) := by
      simp only [pageSize]
      omega
    rw [grow, if_neg hoverflow, if_neg (by omega)]
  rw [growLoop]
  split
  · next e he =>
    rw [hgrow] at he
    split at he
    · cases he
    · next hset =>
      cases he
      rw [if_neg hset]
  · next newLen he =>
    rw [hgrow] at he
    split at he
    · next hset =>
      cases he
      rw [if_pos hlen, if_pos hset]
    · cases he

private theorem growIfNeeded_spec (minLen : Nat) :
    (m.growIfNeeded setLen minLen).2.mapLen = m.mapLen ∧
      (m.growIfNeeded setLen minLen).2.pageCount = m.pageCount ∧
      m.fileLen ≤ (m.growIfNeeded setLen minLen).2.fileLen := by
  simp only [growIfNeeded]
  split
  · exact growLoop_spec minLen
  · exact ⟨rfl, rfl, Nat.le_refl _⟩

/-! ### Allocating pages -/

/-- All pages are inside the file, and the file is inside the map. -/
structure Inside (m : Mapping) : Prop where
  capacity : m.size ≤ m.capacity
  file : m.size * pageSize ≤ m.fileLen
  map : m.fileLen ≤ m.mapLen

/-- The ids that are accepted lie inside the file and the map, and the size can be given to a file
that is opened again. -/
structure Usable (m : Mapping) : Prop where
  accepted : ∀ id, m.accepts id = true →
    offset id + pageSize ≤ m.fileLen ∧ offset id + pageSize ≤ m.mapLen
  reopened : ∀ maxPages, fromFileWithOptions ⟨m.size, maxPages⟩ m.fileLen ≠ none

/-- The map is one that the options can ask for. -/
def Bounded (m : Mapping) : Prop := m.mapLen < 2 ^ 60

/-- What a call should do: return the next id, or leave the size as it was. -/
structure Proper (m : Mapping) (r : Except AllocateError Nat) (m' : Mapping) : Prop where
  ok : ∀ id, r = .ok id → id = m.size + 1 ∧ m'.size = id
  error : ∀ e, r = .error e → m'.size = m.size

/-- No more ids are left, or the next page has its place in the map and in the file as it is or can
be grown. -/
def Granted (setLen : Nat → Bool) (m : Mapping) : Prop :=
  PageManager.maxPageId ≤ m.size ∨ (m.size + 1) * pageSize ≤ m.mapLen ∧
    ((m.size + 1) * pageSize ≤ m.fileLen ∨ setLen m.grownLen = true)

/-- Every call of a sequence does what it should and leaves the pages inside the file. -/
def Kept (m : Mapping) : List (Nat → Bool) → Prop
  | [] => True
  | setLen :: calls => m.Proper (m.allocate setLen).1 (m.allocate setLen).2 ∧
      (m.allocate setLen).2.Inside ∧ (m.allocate setLen).2.Usable ∧ (m.allocate setLen).2.Kept calls

/-- Every call of a sequence is granted in the state it starts in. -/
def AllGranted (m : Mapping) : List (Nat → Bool) → Prop
  | [] => True
  | setLen :: calls => m.Granted setLen ∧ (m.allocate setLen).2.AllGranted calls

/-- The file is short of one page at most. -/
private theorem Inside.next_le (h : m.Inside) : (m.size + 1) * pageSize ≤ m.fileLen + pageSize := by
  rw [Nat.add_mul, Nat.one_mul]
  exact Nat.add_le_add_right h.file _

private theorem Inside.usable (h : m.Inside) : m.Usable where
  accepted id hid := by
    simp only [accepts, Bool.and_eq_true, decide_eq_true_eq] at hid
    have hle : offset id + pageSize ≤ m.size * pageSize := by
      rw [offset, ← Nat.succ_mul]
      exact Nat.mul_le_mul_right _ (by simp only [Mapping.size]; omega)
    exact ⟨hle.trans h.file, (hle.trans h.file).trans h.map⟩
  reopened maxPages := by
    rw [fromFileWithOptions, if_pos h.file]
    simp

private theorem allocate_grows : (m.allocate setLen).2.mapLen = m.mapLen ∧
    m.fileLen ≤ (m.allocate setLen).2.fileLen := by
  simp only [allocate, nextPageId]
  split
  · exact ⟨rfl, Nat.le_refl _⟩
  · next id m₁ h =>
    split at h
    · cases h
    · split at h
      · cases h
      · cases h
        split
        · exact ⟨rfl, Nat.le_refl _⟩
        · have hspec := @growIfNeeded_spec { m with pageCount := m.pageCount + 1 } setLen
            ((m.pageCount + 1) * pageSize)
          split
          · next m₂ hg =>
            rw [hg] at hspec
            exact ⟨hspec.1, hspec.2.2⟩
          · next e m₂ hg =>
            rw [hg] at hspec
            exact ⟨hspec.1, hspec.2.2⟩

/-- A call in a state with all pages inside the file: nothing happens when no id is left; else the
page is counted, whether or not there is room for it. -/
private theorem allocate_eq (h : m.Inside) (hb : m.Bounded) : m.allocate setLen =
    if PageManager.maxPageId ≤ m.size then (.error .pageLimitReached, m)
    else if m.mapLen < (m.size + 1) * pageSize then
      (.error .pageLimitReached, { m with pageCount := m.size + 1 })
    else if (m.size + 1) * pageSize ≤ m.fileLen then
      (.ok (m.size + 1), { m with pageCount := m.size + 1 })
    else if setLen m.grownLen then
      (.ok (m.size + 1), { m with pageCount := m.size + 1, fileLen := m.grownLen })
    else (.error .io, { m with pageCount := m.size + 1 }) := by
  have hsize : m.pageCount = m.size := rfl
  simp only [allocate, nextPageId, hsize]
  by_cases hmax : PageManager.maxPageId ≤ m.size
  · have hnone : 2 ^ 32 ≤ m.size + 1 ∨ PageManager.maxPageId < m.size + 1 := .inr (by omega)
    rw [if_pos hmax]
    by_cases hover : 2 ^ 32 ≤ m.size + 1
    · rw [if_pos hover]
    · rw [if_neg hover, if_pos (by omega)]
  · have hlt : ¬ 2 ^ 32 ≤ m.size + 1 := by
      simp only [PageManager.maxPageId] at hmax
      omega
    rw [if_neg hmax, if_neg hlt, if_neg (by omega)]
    simp only
    by_cases hmap : m.mapLen < (m.size + 1) * pageSize
    · rw [if_pos hmap, if_pos hmap]
    · rw [if_neg hmap, if_neg hmap]
      by_cases hfile : (m.size + 1) * pageSize ≤ m.fileLen
      · simp only [growIfNeeded, if_neg (Nat.not_lt.mpr hfile), if_pos hfile]
      · have hroom := @growLoop_of_room { m with pageCount := m.size + 1 } setLen
          ((m.size + 1) * pageSize) h.next_le (Nat.le_of_not_lt hmap) (Nat.lt_of_not_le hfile) hb
        have hgrown : ({ m with pageCount := m.size + 1 } : Mapping).grownLen = m.grownLen := rfl
        rw [hgrown] at hroom
        simp only [growIfNeeded, if_pos (Nat.lt_of_not_le hfile), if_neg hfile, hroom]
        by_cases hset : setLen m.grownLen = true
        · simp only [if_pos hset]
        · simp only [if_neg hset]

private theorem Inside.bounded_allocate (hb : m.Bounded) : (m.allocate setLen).2.Bounded := by
  rw [Bounded, allocate_grows.1]
  exact hb

/-- A granted call keeps the pages inside the file. -/
private theorem Granted.kept (h : m.Inside) (hb : m.Bounded) (hg : m.Granted setLen) :
    m.Proper (m.allocate setLen).1 (m.allocate setLen).2 ∧ (m.allocate setLen).2.Inside := by
  rw [allocate_eq h hb]
  by_cases hmax : PageManager.maxPageId ≤ m.size
  · rw [if_pos hmax]
    exact ⟨⟨(fun id hid ↦ by cases hid), fun _ _ ↦ rfl⟩, h⟩
  · rw [if_neg hmax]
    obtain ⟨hmap, hlen⟩ := hg.resolve_left hmax
    rw [if_neg (Nat.not_lt.mpr hmap)]
    have hcap : m.size + 1 ≤ m.capacity := by
      have hdiv : m.size + 1 ≤ m.mapLen / pageSize := (Nat.le_div_iff_mul_le (by decide)).mpr hmap
      simp only [Mapping.capacity, PageManager.maxPageId] at hmax ⊢
      omega
    have hproper (f : Nat) : m.Proper (.ok (m.size + 1)) ⟨m.mapLen, f, m.size + 1⟩ :=
      ⟨fun id hid ↦ ⟨(Except.ok.inj hid).symm, Except.ok.inj hid⟩, (fun e he ↦ by cases he)⟩
    by_cases hfile : (m.size + 1) * pageSize ≤ m.fileLen
    · rw [if_pos hfile]
      exact ⟨hproper _, hcap, hfile, h.map⟩
    · rw [if_neg hfile, if_pos (hlen.resolve_left hfile)]
      exact ⟨hproper _, hcap, le_grownLen h.next_le hmap, Nat.min_le_right _ _⟩

/-- A call that is not granted counts a page that it does not allocate. -/
private theorem not_proper_of_not_granted (h : m.Inside) (hb : m.Bounded)
    (hg : ¬ m.Granted setLen) : ¬ m.Proper (m.allocate setLen).1 (m.allocate setLen).2 := by
  rw [Granted, not_or, not_and, not_or] at hg
  rw [allocate_eq h hb, if_neg hg.1]
  intro hp
  by_cases hmap : m.mapLen < (m.size + 1) * pageSize
  · rw [if_pos hmap] at hp
    have := hp.error _ rfl
    simp only [Mapping.size] at this
    omega
  · obtain ⟨hfile, hset⟩ := hg.2 (Nat.le_of_not_lt hmap)
    rw [if_neg hmap, if_neg hfile, if_neg hset] at hp
    have := hp.error _ rfl
    simp only [Mapping.size] at this
    omega

private theorem kept_iff_allGranted (h : m.Inside) (hb : m.Bounded) :
    m.Kept calls ↔ m.AllGranted calls := by
  induction calls generalizing m with
  | nil => exact Iff.rfl
  | cons setLen calls ih =>
    constructor
    · rintro ⟨hp, hi, -, hk⟩
      refine ⟨by_contra fun hg ↦ not_proper_of_not_granted h hb hg hp, ?_⟩
      exact (ih hi (Inside.bounded_allocate hb)).mp hk
    · rintro ⟨hg, hk⟩
      obtain ⟨hp, hi⟩ := hg.kept h hb
      exact ⟨hp, hi, hi.usable, (ih hi (Inside.bounded_allocate hb)).mpr hk⟩

/-- A manager starts with all pages inside the file exactly if the file is not longer than the
map. -/
private theorem inside_fromFile {opts : PageManagerOptions} {fileLen : Nat}
    (hopen : fromFileWithOptions opts fileLen = some m) (hopts : opts.maxPages < 2 ^ 32) :
    m.Bounded ∧ (m.Inside ↔ fileLen ≤ opts.maxPages * pageSize) := by
  simp only [fromFileWithOptions] at hopen
  split at hopen
  · next hlen =>
    cases hopen
    refine ⟨?_, fun h ↦ h.map, fun hmap ↦ ⟨?_, hlen, hmap⟩⟩
    · simp only [Bounded, pageSize]
      omega
    · simp only [Mapping.capacity, Mapping.size, pageSize] at hlen hmap ⊢
      omega
  · cases hopen

/-- For every manager that can be opened and every sequence of allocations, each call returns the
next id or leaves the size as it was, with all pages inside the file and the map, exactly if the
file was not longer than the map and every call is granted. -/
theorem allocate_inside_iff {opts : PageManagerOptions} {fileLen : Nat}
    (hopen : fromFileWithOptions opts fileLen = some m) (hopts : opts.maxPages < 2 ^ 32)
    (hcalls : calls ≠ []) :
    m.Kept calls ↔ fileLen ≤ opts.maxPages * pageSize ∧ m.AllGranted calls := by
  obtain ⟨hb, hinside⟩ := inside_fromFile hopen hopts
  constructor
  · intro hk
    have hlen : fileLen ≤ opts.maxPages * pageSize := by
      cases calls with
      | nil => exact absurd rfl hcalls
      | cons setLen calls =>
        -- the file does not shrink, and is inside the map after the first call
        have hgrows := @allocate_grows m setLen
        have hmap := hk.2.1.map
        simp only [fromFileWithOptions] at hopen
        split at hopen
        · cases hopen
          simp only at hgrows
          omega
        · cases hopen
    exact ⟨hlen, (kept_iff_allGranted (hinside.mpr hlen) hb).mp hk⟩
  · rintro ⟨hlen, hg⟩
    exact (kept_iff_allGranted (hinside.mpr hlen) hb).mpr hg

/-- A file with one page of 2000: the first call extends it, and then there is room for two more
pages although it cannot be extended again. -/
theorem allocate_inside_grown :
    fromFileWithOptions ⟨1, 2000⟩ 4096 = some ⟨8192000, 4096, 1⟩ ∧
      (⟨8192000, 4096, 1⟩ : Mapping).allocate (fun _ ↦ true) = (.ok 2, ⟨8192000, 4198400, 2⟩) ∧
      (⟨8192000, 4096, 1⟩ : Mapping).Kept [fun _ ↦ true, fun _ ↦ false, fun _ ↦ false] := by
  have hopen : fromFileWithOptions ⟨1, 2000⟩ 4096 = some ⟨8192000, 4096, 1⟩ := rfl
  obtain ⟨hb, hinside⟩ := inside_fromFile hopen (by decide)
  have hfirst : (⟨8192000, 4096, 1⟩ : Mapping).allocate (fun _ ↦ true) =
      (.ok 2, ⟨8192000, 4198400, 2⟩) := by
    rw [allocate_eq (hinside.mpr (by decide)) hb]
    rfl
  have hsecond : (⟨8192000, 4198400, 2⟩ : Mapping).allocate (fun _ ↦ false) =
      (.ok 3, ⟨8192000, 4198400, 3⟩) := by
    have hb₂ : Bounded ⟨8192000, 4198400, 2⟩ := hb
    rw [allocate_eq ⟨by decide, by decide, by decide⟩ hb₂]
    rfl
  refine ⟨hopen, hfirst, (allocate_inside_iff hopen (by decide) (by simp)).mpr ⟨by decide, ?_⟩⟩
  refine ⟨.inr ⟨by decide, .inr rfl⟩, ?_⟩
  rw [hfirst]
  refine ⟨.inr ⟨by decide, .inl (by decide)⟩, ?_⟩
  rw [hsecond]
  exact ⟨.inr ⟨by decide, .inl (by decide)⟩, trivial⟩

/-- A full file counts a page that it has no room for. -/
theorem allocate_outside : fromFileWithOptions ⟨1, 1⟩ 4096 = some ⟨4096, 4096, 1⟩ ∧
    (⟨4096, 4096, 1⟩ : Mapping).allocate (fun _ ↦ true) =
      (.error .pageLimitReached, ⟨4096, 4096, 2⟩) ∧
    ¬ (⟨4096, 4096, 1⟩ : Mapping).Kept [fun _ ↦ true] ∧
    (⟨4096, 4096, 2⟩ : Mapping).capacity = 1 ∧
    fromFileWithOptions ⟨2, 1⟩ 4096 = none := by
  have hrun : (⟨4096, 4096, 1⟩ : Mapping).allocate (fun _ ↦ true) =
      (.error .pageLimitReached, ⟨4096, 4096, 2⟩) := rfl
  refine ⟨rfl, hrun, fun hk ↦ ?_, rfl, rfl⟩
  have hsize := hk.1.error .pageLimitReached (by rw [hrun])
  rw [hrun] at hsize
  cases hsize

end Mapping

end TrieDb

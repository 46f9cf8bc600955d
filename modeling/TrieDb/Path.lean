import TrieDb.Base.Buffer
import TrieDb.Overlay.Slices

/-!
# Paths in arrays

`src/path.rs`: a `RawPath` keeps its nibbles in an array of 128 bytes and compares the whole array
before the length. All operations leave zeros behind the last nibble, so that its derived order,
equality and hash are those of the sequence of nibbles.
-/

namespace TrieDb

open Base
open Base.Buffer (slice overwrite)
open Engine (pathLe)

/-- `is_nibble`. -/
def isNibble (x : UInt8) : Bool := x ≤ 0x0f

/-- `RawPath`; the array has 128 entries. -/
structure RawPath where
  array : List UInt8
  len : UInt8
  deriving DecidableEq

/-- `std::ops::Bound`. -/
inductive Bound where
  | included (n : Nat)
  | excluded (n : Nat)
  | unbounded

/-- The first index of a range. -/
def Bound.first : Bound → Nat
  | .included n => n
  | .excluded n => n + 1
  | .unbounded => 0

/-- The index behind a range of `len` entries. -/
def Bound.limit (len : Nat) : Bound → Nat
  | .included n => n + 1
  | .excluded n => n
  | .unbounded => len

namespace RawPath

/-- `MAX_LEN`. -/
def maxLen : Nat := 128

/-- `new`. -/
def new : RawPath := ⟨List.replicate maxLen 0, 0⟩

/-- `nibbles`. -/
def nibbles (p : RawPath) : List UInt8 := p.array.take p.len.toNat

/-- `from_nibbles`; here and below none stands for a panic. -/
def fromNibbles (nibbles : List UInt8) : Option RawPath := do
  guard (nibbles.length ≤ maxLen)
  guard (nibbles.all isNibble)
  let array ← overwrite new.array 0 nibbles.length nibbles
  pure ⟨array, UInt8.ofNat nibbles.length⟩

/-- `slice`, with the range of a slice between two bounds. -/
def sliceRange (p : RawPath) (start stop : Bound) : Option RawPath := do
  let nibbles ← slice p.nibbles start.first (stop.limit p.len.toNat)
  fromNibbles nibbles

/-- An entry behind the nibbles is set, for `push` and `from_iter`. -/
def append (p : RawPath) (nibble : UInt8) : Option RawPath := do
  let array ← overwrite p.array p.len.toNat (p.len.toNat + 1) [nibble]
  pure ⟨array, p.len + 1⟩

/-- `push`. -/
def push (p : RawPath) (nibble : UInt8) : Option RawPath := do
  guard (isNibble nibble)
  p.append nibble

/-- `pop`. -/
def pop (p : RawPath) : Option (UInt8 × RawPath) := do
  let nibble ← p.nibbles.getLast?
  let array ← overwrite p.array (p.len.toNat - 1) p.len.toNat [0]
  pure (nibble, ⟨array, p.len - 1⟩)

/-- `extend`. -/
def extend (p other : RawPath) : Option RawPath := do
  let array ← overwrite p.array p.len.toNat (p.len.toNat + other.len.toNat) other.nibbles
  pure ⟨array, p.len + other.len⟩

/-- `join`. -/
def join (p other : RawPath) : Option RawPath := p.extend other

/-- `starts_with`. -/
def startsWith (p other : RawPath) : Bool :=
  if p.len < other.len then false
  else p.array.take other.len.toNat == other.array.take other.len.toNat

/-- `truncate`; a path that is shorter becomes longer. -/
def truncate (p : RawPath) (newLen : Nat) : Option RawPath := do
  guard (newLen ≤ maxLen)
  let array ← overwrite p.array newLen maxLen (List.replicate (maxLen - newLen) 0)
  pure ⟨array, UInt8.ofNat newLen⟩

/-- The loop of `pack`. -/
def packLoop : Nat → List UInt8 → Option (List UInt8)
  | 0, _ => some []
  | n + 1, high :: low :: rest => do
    let bytes ← packLoop n rest
    pure ((high <<< 4 ||| low) :: bytes)
  | _, _ => none

/-- `pack`, into `n` bytes. -/
def pack (n : Nat) (p : RawPath) : Option (List UInt8) := do
  guard (2 * n = p.len.toNat)
  packLoop n p.nibbles

/-- `unpack`. -/
def unpack (bytes : List UInt8) : Option RawPath := do
  let nibbles := bytes.flatMap fun b : UInt8 ↦ [b >>> 4, b &&& 0x0f]
  let array ← overwrite new.array 0 nibbles.length nibbles
  pure ⟨array, UInt8.ofNat (bytes.length * 2)⟩

/-- `from_iter`. -/
def fromIter (nibbles : List UInt8) : Option RawPath := nibbles.foldlM append new

/-- The derived order: the array, then the length. -/
def cmp (p q : RawPath) : Ordering := (compare p.array q.array).then (compare p.len q.len)

/-- What the derived hash is computed from. -/
def hashed (p : RawPath) : List UInt8 := p.array ++ [p.len]

/-- The paths that the operations build. -/
inductive Built : RawPath → Prop
  | new : Built new
  | fromNibbles {nibbles p} (h : fromNibbles nibbles = some p) : Built p
  | fromIter {nibbles p} (hnibbles : ∀ n ∈ nibbles, isNibble n = true)
      (h : fromIter nibbles = some p) : Built p
  | unpack {bytes p} (h : unpack bytes = some p) : Built p
  | push {p p' nibble} (hp : Built p) (h : p.push nibble = some p') : Built p'
  | pop {p p' nibble} (hp : Built p) (h : p.pop = some (nibble, p')) : Built p'
  | extend {p q p'} (hp : Built p) (hq : Built q) (h : p.extend q = some p') : Built p'
  | join {p q p'} (hp : Built p) (hq : Built q) (h : p.join q = some p') : Built p'
  | slice {p p' start stop} (hp : Built p) (h : p.sliceRange start stop = some p') : Built p'
  | truncate {p p' n} (hp : Built p) (h : p.truncate n = some p') : Built p'

/-! ### The nibbles of a path -/

/-- A nibble as a byte. -/
def toByte (n : Nibble) : UInt8 := UInt8.ofNat n

/-- The array has the nibbles, then zeros. -/
structure Holds (p : RawPath) (ns : Nibbles) : Prop where
  array : p.array = ns.map toByte ++ List.replicate (maxLen - ns.length) 0
  len : p.len.toNat = ns.length
  le : ns.length ≤ maxLen

private theorem isNibble_toByte (n : Nibble) : isNibble (toByte n) = true := by
  revert n
  decide

private theorem exists_toByte {x : UInt8} (h : isNibble x = true) : ∃ n, x = toByte n := by
  have hlt : x.toNat < 16 := by
    have hle := UInt8.le_iff_toNat_le.mp (of_decide_eq_true h)
    exact Nat.lt_succ_of_le hle
  refine ⟨⟨x.toNat, hlt⟩, ?_⟩
  exact (UInt8.ofNat_toNat).symm

private theorem exists_map_toByte {l : List UInt8} (h : ∀ x ∈ l, isNibble x = true) :
    ∃ ns : Nibbles, l = ns.map toByte := by
  induction l with
  | nil => exact ⟨[], rfl⟩
  | cons x l ih =>
    rw [List.forall_mem_cons] at h
    obtain ⟨n, rfl⟩ := exists_toByte h.1
    obtain ⟨ns, rfl⟩ := ih h.2
    exact ⟨n :: ns, rfl⟩

private theorem toByte_injective : Function.Injective toByte := by
  intro a b
  revert a b
  decide

section
variable {p q p' : RawPath} {a b ns : Nibbles}

private theorem Holds.nibbles (h : Holds p ns) : p.nibbles = ns.map toByte := by
  rw [RawPath.nibbles, h.array, h.len]
  exact List.take_left' (List.length_map _)

private theorem Holds.length_array (h : Holds p ns) : p.array.length = maxLen := by
  have hle := h.le
  rw [h.array, List.length_append, List.length_map, List.length_replicate]
  omega

private theorem toNat_ofNat_le {n : Nat} (h : n ≤ maxLen) : (UInt8.ofNat n).toNat = n := by
  rw [UInt8.toNat_ofNat']
  exact Nat.mod_eq_of_lt (Nat.lt_of_le_of_lt h (by decide))

private theorem holds_new : Holds new [] := ⟨rfl, rfl, Nat.zero_le _⟩

/-- Writing nibbles from the end of those that are there. -/
private theorem Holds.overwrite (h : Holds p a) {array : List UInt8} {stop : Nat}
    (ho : overwrite p.array p.len.toNat stop (b.map toByte) = some array) :
    stop = (a ++ b).length ∧ (a ++ b).length ≤ maxLen ∧
      array = (a ++ b).map toByte ++ List.replicate (maxLen - (a ++ b).length) 0 := by
  unfold Buffer.overwrite at ho
  split at ho
  · next hcond =>
    obtain ⟨hstart, hstop, hlen⟩ := hcond
    rw [h.len] at hstart hlen
    rw [h.length_array] at hstop
    rw [List.length_map] at hlen
    have hstop' : stop = a.length + b.length := by omega
    cases ho
    have htake : p.array.take p.len.toNat = a.map toByte := h.nibbles
    have hdrop : p.array.drop stop = List.replicate (maxLen - (a ++ b).length) 0 := by
      rw [h.array, List.drop_append, List.drop_eq_nil_of_le (by rw [List.length_map]; omega),
        List.nil_append, List.drop_replicate, List.length_map, List.length_append]
      congr 1
      omega
    refine ⟨by rw [List.length_append, hstop'], by rw [List.length_append]; omega, ?_⟩
    rw [htake, hdrop, List.map_append, List.append_assoc]
  · cases ho

/-- There is room for as many nibbles as fit. -/
private theorem Holds.overwrite_of_le (h : Holds p a) (hle : a.length + b.length ≤ maxLen) :
    Buffer.overwrite p.array p.len.toNat (p.len.toNat + b.length) (b.map toByte) =
      some ((a ++ b).map toByte ++ List.replicate (maxLen - (a ++ b).length) 0) := by
  rw [h.array, h.len, Buffer.overwrite_append (by simp) (by simp)]
  · rw [List.drop_replicate, List.map_append, List.length_map, List.length_append,
      List.append_assoc, Nat.sub_add_eq]
  · rw [List.length_replicate, List.length_map]
    omega

private theorem Holds.append (h : Holds p ns) {n : Nibble} (ha : p.append (toByte n) = some p') :
    Holds p' (ns ++ [n]) := by
  obtain ⟨array, ho, hp⟩ := Option.bind_eq_some_iff.mp ha
  cases hp
  obtain ⟨-, hle, harray⟩ := h.overwrite (b := [n]) ho
  refine ⟨harray, ?_, hle⟩
  have hlen := h.len
  rw [List.length_append, List.length_singleton] at hle ⊢
  rw [UInt8.toNat_add, hlen]
  exact Nat.mod_eq_of_lt (Nat.lt_of_le_of_lt hle (by decide))

private theorem Holds.foldlM_append (h : Holds p a)
    (hf : (b.map toByte).foldlM RawPath.append p = some p') : Holds p' (a ++ b) := by
  induction b generalizing p a with
  | nil =>
    cases hf
    rwa [List.append_nil]
  | cons n b ih =>
    rw [List.map_cons, List.foldlM_cons] at hf
    obtain ⟨p₁, h₁, hf⟩ := Option.bind_eq_some_iff.mp hf
    have := ih (h.append h₁) hf
    rwa [List.append_assoc] at this

private theorem Holds.extend (hp : Holds p a) (hq : Holds q b) (he : p.extend q = some p') :
    Holds p' (a ++ b) := by
  obtain ⟨array, ho, hp'⟩ := Option.bind_eq_some_iff.mp he
  cases hp'
  rw [hq.nibbles] at ho
  obtain ⟨-, hle, harray⟩ := hp.overwrite ho
  refine ⟨harray, ?_, hle⟩
  rw [List.length_append] at hle ⊢
  rw [UInt8.toNat_add, hp.len, hq.len]
  exact Nat.mod_eq_of_lt (Nat.lt_of_le_of_lt hle (by decide))

private theorem overwrite_new (hle : ns.length ≤ maxLen) :
    Buffer.overwrite new.array 0 ns.length (ns.map toByte) =
      some (ns.map toByte ++ List.replicate (maxLen - ns.length) 0) := by
  have h := holds_new.overwrite_of_le (b := ns) (by simpa using hle)
  rwa [show new.len.toNat = 0 from rfl, Nat.zero_add] at h

/-- A path is built from nibbles that fit. -/
private theorem fromNibbles_map (hle : ns.length ≤ maxLen) :
    ∃ p, fromNibbles (ns.map toByte) = some p ∧ Holds p ns := by
  have hall : (ns.map toByte).all isNibble = true := by
    rw [List.all_map, List.all_eq_true]
    exact fun n _ ↦ isNibble_toByte n
  refine ⟨⟨_, UInt8.ofNat ns.length⟩, ?_, rfl, toNat_ofNat_le hle, hle⟩
  simp [fromNibbles, hle, hall, overwrite_new hle]

private theorem holds_fromNibbles {l : List UInt8} (h : fromNibbles l = some p) :
    ∃ ns, l = ns.map toByte ∧ Holds p ns := by
  have hle : l.length ≤ maxLen := by
    by_contra hle
    simp [fromNibbles, hle, guard] at h
  have hall : l.all isNibble = true := by
    by_contra hall
    simp [fromNibbles, hle, hall, guard] at h
  obtain ⟨ns, rfl⟩ := exists_map_toByte (List.all_eq_true.mp hall)
  rw [List.length_map] at hle
  obtain ⟨p₁, h₁, hp₁⟩ := fromNibbles_map hle
  rw [h] at h₁
  cases h₁
  exact ⟨ns, rfl, hp₁⟩

private theorem Holds.sliceRange (hp : Holds p ns) {start stop : Bound}
    (h : p.sliceRange start stop = some p') : ∃ i j, Holds p' ((ns.drop i).take j) := by
  obtain ⟨l, hl, h⟩ := Option.bind_eq_some_iff.mp h
  unfold slice at hl
  split at hl
  · cases hl
    obtain ⟨ns', hns, hp'⟩ := holds_fromNibbles h
    rw [hp.nibbles, ← List.map_drop, ← List.map_take] at hns
    rw [← toByte_injective.list_map hns] at hp'
    exact ⟨_, _, hp'⟩
  · cases hl

/-- The whole array as nibbles. -/
private theorem Holds.array_eq (h : Holds p ns) :
    p.array = (ns ++ List.replicate (maxLen - ns.length) 0).map toByte := by
  rw [h.array, List.map_append, List.map_replicate]
  rfl

private theorem Holds.truncate (hp : Holds p ns) {n : Nat} (h : p.truncate n = some p') :
    Holds p' ((ns ++ List.replicate (maxLen - ns.length) 0).take n) := by
  have hle : n ≤ maxLen := by
    by_contra hle
    simp [RawPath.truncate, hle, guard] at h
  have hfull : (ns ++ List.replicate (maxLen - ns.length) (0 : Nibble)).length = maxLen := by
    have := hp.le
    rw [List.length_append, List.length_replicate]
    omega
  have hlen : ((ns ++ List.replicate (maxLen - ns.length) (0 : Nibble)).take n).length = n := by
    rw [List.length_take, hfull, Nat.min_eq_left hle]
  have hwrite : Buffer.overwrite p.array n maxLen (List.replicate (maxLen - n) 0) =
      some (p.array.take n ++ List.replicate (maxLen - n) 0) := by
    rw [Buffer.overwrite, if_pos ⟨hle, hp.length_array.ge, List.length_replicate⟩,
      List.drop_eq_nil_of_le hp.length_array.le, List.append_nil]
  have h' : p' = ⟨p.array.take n ++ List.replicate (maxLen - n) 0, UInt8.ofNat n⟩ := by
    simpa [RawPath.truncate, hle, hwrite, eq_comm] using h
  subst h'
  refine ⟨?_, ?_, ?_⟩
  · rw [hlen, hp.array_eq, List.map_take]
  · rw [hlen, toNat_ofNat_le hle]
  · rwa [hlen]

private theorem Holds.pop (hp : Holds p ns) {nibble : UInt8} (h : p.pop = some (nibble, p')) :
    ∃ ns' n, ns = ns' ++ [n] ∧ nibble = toByte n ∧ Holds p' ns' := by
  obtain ⟨x, hx, h⟩ := Option.bind_eq_some_iff.mp h
  obtain ⟨array, ho, h⟩ := Option.bind_eq_some_iff.mp h
  cases h
  rw [hp.nibbles, List.getLast?_map] at hx
  obtain ⟨n, hn, rfl⟩ := Option.map_eq_some_iff.mp hx
  obtain ⟨ns', rfl⟩ := List.getLast?_eq_some_iff.mp hn
  have hlen := hp.len
  have hle := hp.le
  rw [List.length_append, List.length_singleton] at hlen hle
  refine ⟨ns', n, rfl, rfl, ?_, ?_, by omega⟩
  · have harray : p.array = ns'.map toByte ++
        (toByte n :: List.replicate (maxLen - (ns'.length + 1)) 0) := by
      rw [hp.array, List.map_append, List.append_assoc, List.length_append]
      rfl
    rw [harray, hlen, Nat.add_sub_cancel,
      Buffer.overwrite_append (by simp) (by simp) (by simp)] at ho
    cases ho
    have hsucc : maxLen - ns'.length = maxLen - (ns'.length + 1) + 1 := by omega
    rw [hsucc, List.replicate_succ]
    rfl
  · have hone : (1 : UInt8) ≤ p.len := by
      rw [UInt8.le_iff_toNat_le, hlen]
      exact Nat.le_add_left _ _
    rw [UInt8.toNat_sub_of_le _ _ hone, hlen]
    rfl

/-! ### Bytes -/

private theorem isNibble_shiftRight (b : UInt8) : isNibble (b >>> 4) = true := by
  have h := b.toNat_lt
  apply decide_eq_true
  rw [UInt8.le_iff_toNat_le, UInt8.toNat_shiftRight]
  show b.toNat >>> 4 ≤ 15
  rw [Nat.shiftRight_eq_div_pow]
  omega

private theorem isNibble_and (b : UInt8) : isNibble (b &&& 0x0f) = true := by
  apply decide_eq_true
  rw [UInt8.le_iff_toNat_le, UInt8.toNat_and]
  exact Nat.and_le_right

/-- The nibbles of some bytes. -/
private theorem exists_unpacked (bytes : List UInt8) : ∃ ns : Nibbles,
    (bytes.flatMap fun b : UInt8 ↦ [b >>> 4, b &&& 0x0f]) = ns.map toByte ∧
      ns.length = bytes.length * 2 := by
  induction bytes with
  | nil => exact ⟨[], rfl, rfl⟩
  | cons b bytes ih =>
    obtain ⟨ns, hns, hlen⟩ := ih
    obtain ⟨high, hhigh⟩ := exists_toByte (isNibble_shiftRight b)
    obtain ⟨low, hlow⟩ := exists_toByte (isNibble_and b)
    refine ⟨high :: low :: ns, ?_, ?_⟩
    · rw [List.flatMap_cons, hns, hhigh, hlow]
      rfl
    · rw [List.length_cons, List.length_cons, List.length_cons, hlen]
      omega

/-- Bytes are unpacked into their nibbles, if they fit. -/
private theorem unpack_eq_some {bytes : List UInt8} : unpack bytes = some p ↔
    ∃ ns, (bytes.flatMap fun b : UInt8 ↦ [b >>> 4, b &&& 0x0f]) = ns.map toByte ∧
      ns.length = bytes.length * 2 ∧ Holds p ns := by
  obtain ⟨ns, hns, hlen⟩ := exists_unpacked bytes
  have hsome : ns.length ≤ maxLen → unpack bytes =
      some ⟨ns.map toByte ++ List.replicate (maxLen - ns.length) 0, UInt8.ofNat ns.length⟩ := by
    intro hle
    simp only [unpack, hns, List.length_map, overwrite_new hle, ← hlen]
    rfl
  constructor
  · intro h
    have hle : ns.length ≤ maxLen := by
      by_contra hle
      have hwrite : Buffer.overwrite new.array 0 (ns.map toByte).length (ns.map toByte) = none := by
        rw [Buffer.overwrite, if_neg]
        simpa [new] using hle
      simp only [unpack, hns, hwrite] at h
      cases h
    rw [hsome hle] at h
    cases h
    exact ⟨ns, hns, hlen, rfl, toNat_ofNat_le hle, hle⟩
  · rintro ⟨ns', hns', -, hp⟩
    rw [hns] at hns'
    have := toByte_injective.list_map hns'
    subst this
    rw [hsome hp.le]
    obtain ⟨array, len⟩ := p
    have hlen' : len = UInt8.ofNat ns.length := by
      rw [← hp.len]
      exact UInt8.ofNat_toNat.symm
    rw [hlen', ← hp.array]

private theorem exists_append_of_push {nibble : UInt8} (h : p.push nibble = some p') :
    ∃ n, nibble = toByte n ∧ p.append (toByte n) = some p' := by
  by_cases hnibble : isNibble nibble = true
  · obtain ⟨n, rfl⟩ := exists_toByte hnibble
    refine ⟨n, rfl, ?_⟩
    simpa [push, hnibble, guard] using h
  · simp [push, hnibble, guard] at h

/-- Paths that are built have their nibbles in front of zeros. -/
private theorem Built.holds (h : Built p) : ∃ ns, Holds p ns := by
  induction h with
  | new => exact ⟨[], holds_new⟩
  | fromNibbles h =>
    obtain ⟨ns, -, hp⟩ := holds_fromNibbles h
    exact ⟨ns, hp⟩
  | fromIter hnibbles h =>
    obtain ⟨ns, rfl⟩ := exists_map_toByte hnibbles
    exact ⟨ns, holds_new.foldlM_append h⟩
  | unpack h =>
    obtain ⟨ns, -, -, hp⟩ := unpack_eq_some.mp h
    exact ⟨ns, hp⟩
  | push _ h ih =>
    obtain ⟨ns, hp⟩ := ih
    obtain ⟨n, -, happend⟩ := exists_append_of_push h
    exact ⟨_, hp.append happend⟩
  | pop _ h ih =>
    obtain ⟨ns, hp⟩ := ih
    obtain ⟨ns', -, -, -, hp'⟩ := hp.pop h
    exact ⟨ns', hp'⟩
  | extend _ _ h ihp ihq =>
    obtain ⟨a, hp⟩ := ihp
    obtain ⟨b, hq⟩ := ihq
    exact ⟨a ++ b, hp.extend hq h⟩
  | join _ _ h ihp ihq =>
    obtain ⟨a, hp⟩ := ihp
    obtain ⟨b, hq⟩ := ihq
    exact ⟨a ++ b, hp.extend hq h⟩
  | slice _ h ih =>
    obtain ⟨ns, hp⟩ := ih
    obtain ⟨i, j, hp'⟩ := hp.sliceRange h
    exact ⟨_, hp'⟩
  | truncate _ h ih =>
    obtain ⟨ns, hp⟩ := ih
    exact ⟨_, hp.truncate h⟩

/-! ### The order -/

private theorem compare_toByte (x y : Nibble) : compare (toByte x) (toByte y) = compare x y := by
  revert x y
  decide

private theorem comparePath_cons (x y : Nibble) (a b : Nibbles) :
    comparePath (x :: a) (y :: b) = (compare x y).then (comparePath a b) := by
  cases h : compare x y with
  | lt =>
    rw [compare_lt_iff_lt] at h
    rw [Ordering.lt_then, comparePath_eq_lt]
    exact .inr (.inl h)
  | eq =>
    rw [compare_eq_iff_eq] at h
    rw [h]
    exact comparePath_append [y] a b
  | gt =>
    rw [compare_gt_iff_gt] at h
    rw [Ordering.gt_then, comparePath_eq_gt]
    exact .inr (.inl h)

/-- The order of the nibbles is the lexicographic order of their bytes. -/
private theorem comparePath_eq_compare (a b : Nibbles) :
    comparePath a b = compare (a.map toByte) (b.map toByte) := by
  induction a generalizing b with
  | nil => cases b <;> rfl
  | cons x a ih =>
    cases b with
    | nil => rfl
    | cons y b =>
      rw [comparePath_cons, List.map_cons, List.map_cons, List.compare_cons_cons, compare_toByte,
        ih]

/-- Zeros are not greater than anything. -/
private theorem compare_zeros_ne_gt (n : Nat) (l : List UInt8) (h : l.length = n) :
    compare (List.replicate n 0) l ≠ .gt ∧ compare l (List.replicate n 0) ≠ .lt := by
  induction n generalizing l with
  | zero => simp [List.length_eq_zero_iff.mp h]
  | succ n ih =>
    obtain ⟨x, l, rfl⟩ := List.exists_cons_of_length_eq_add_one h
    obtain ⟨hgt, hlt⟩ := ih l (Nat.succ.inj h)
    have hx : compare 0 x ≠ .gt := by
      rw [UInt8.compare_eq_toNat_compare_toNat, ne_eq, Nat.compare_eq_gt]
      exact Nat.not_lt_zero _
    have hx' : compare x 0 ≠ .lt := by
      rw [UInt8.compare_eq_toNat_compare_toNat, ne_eq, Nat.compare_eq_lt]
      exact Nat.not_lt_zero _
    rw [List.replicate_succ, List.compare_cons_cons, List.compare_cons_cons]
    constructor
    · cases h : compare 0 x with
      | lt => exact Ordering.noConfusion
      | eq => exact hgt
      | gt => exact absurd h hx
    · cases h : compare x 0 with
      | lt => exact absurd h hx'
      | eq => exact hlt
      | gt => exact Ordering.noConfusion

/-- The order of arrays with zeros behind the nibbles, then of lengths, is the order of the
nibbles. -/
private theorem compare_padded (n : Nat) (a b : Nibbles) (ha : a.length ≤ n) (hb : b.length ≤ n) :
    (compare (a.map toByte ++ List.replicate (n - a.length) 0)
      (b.map toByte ++ List.replicate (n - b.length) 0)).then (compare a.length b.length) =
        comparePath a b := by
  induction a generalizing n b with
  | nil =>
    rcases b with _ | ⟨y, b⟩
    · rw [Std.compare_self, Std.compare_self]
      rfl
    · have hzeros := (compare_zeros_ne_gt n
        ((y :: b).map toByte ++ List.replicate (n - (y :: b).length) 0) (by simp at hb ⊢; omega)).1
      show (compare (List.replicate n 0) _).then .lt = .lt
      cases h : compare (List.replicate n 0)
        ((y :: b).map toByte ++ List.replicate (n - (y :: b).length) 0) with
      | lt => rfl
      | eq => rfl
      | gt => exact absurd h hzeros
  | cons x a ih =>
    rcases b with _ | ⟨y, b⟩
    · have hzeros := (compare_zeros_ne_gt n
        ((x :: a).map toByte ++ List.replicate (n - (x :: a).length) 0) (by simp at ha ⊢; omega)).2
      show (compare _ (List.replicate n 0)).then .gt = .gt
      cases h : compare ((x :: a).map toByte ++ List.replicate (n - (x :: a).length) 0)
        (List.replicate n 0) with
      | lt => exact absurd h hzeros
      | eq => rfl
      | gt => rfl
    · obtain ⟨m, rfl⟩ : ∃ m, n = m + 1 := ⟨n - 1, by simp at ha; omega⟩
      rw [List.length_cons] at ha hb
      have hlen : compare (a.length + 1) (b.length + 1) = compare a.length b.length := by
        simp only [Nat.compare_eq_ite_lt, Nat.add_lt_add_iff_right]
      rw [List.map_cons, List.map_cons, List.cons_append, List.cons_append, List.compare_cons_cons,
        compare_toByte, comparePath_cons, List.length_cons, List.length_cons, hlen,
        Nat.add_sub_add_right, Nat.add_sub_add_right, Ordering.then_assoc,
        ih m b (Nat.le_of_succ_le_succ ha) (Nat.le_of_succ_le_succ hb)]

/-- The derived order is the order of the nibbles. -/
private theorem Holds.cmp (hp : Holds p a) (hq : Holds q b) : p.cmp q = comparePath a b := by
  rw [RawPath.cmp, hp.array, hq.array, UInt8.compare_eq_toNat_compare_toNat, hp.len, hq.len]
  exact compare_padded maxLen a b hp.le hq.le

private theorem Holds.startsWith (hp : Holds p a) (hq : Holds q b) :
    p.startsWith q = true ↔ b <+: a := by
  have htake : q.array.take q.len.toNat = b.map toByte := hq.nibbles
  unfold RawPath.startsWith
  rw [htake]
  split
  · next hlt =>
    rw [UInt8.lt_iff_toNat_lt, hp.len, hq.len] at hlt
    constructor
    · exact fun h ↦ Bool.noConfusion h
    · exact fun h ↦ absurd h.length_le (Nat.not_le.mpr hlt)
  · next hle =>
    rw [UInt8.lt_iff_toNat_lt, hp.len, hq.len, Nat.not_lt] at hle
    rw [beq_iff_eq, hq.len, hp.array, List.take_append_of_le_length (by rwa [List.length_map]),
      ← List.map_take, toByte_injective.list_map.eq_iff, List.prefix_iff_eq_take, eq_comm]

/-! ### Runs of a sorted list -/

private theorem pathLe_of_comparePath_ne_gt (h : comparePath a b ≠ .gt) : pathLe a b = true := by
  cases hc : comparePath a b with
  | lt => exact OverlayState.pathLe_of_comparePath hc
  | eq =>
    rw [comparePath_eq_eq.mp hc]
    exact pathLe_refl b
  | gt => exact absurd hc h

private theorem comparePath_lt_of_ne_gt (h : comparePath a b ≠ .gt) (h' : comparePath b ns = .lt) :
    comparePath a ns = .lt := by
  cases hc : comparePath a b with
  | lt => exact comparePath_trans hc h'
  | eq => rwa [comparePath_eq_eq.mp hc]
  | gt => exact absurd hc h

/-- The paths with a common beginning follow each other in a sorted list. -/
private theorem exists_run {l : List RawPath} (hl : ∀ p ∈ l, ∃ ns, Holds p ns) (hq : Holds q ns)
    (hsorted : l.Pairwise fun x y ↦ x.cmp y ≠ .gt) : ∃ earlier run later,
      l = earlier ++ run ++ later ∧ (∀ p ∈ run, p.startsWith q = true) ∧
        ∀ p ∈ earlier ++ later, p.startsWith q = false := by
  have hlow :
      l.Pairwise fun x y ↦ decide (y.cmp q = .lt) = true → decide (x.cmp q = .lt) = true := by
    refine hsorted.imp_of_mem fun {x y} hx hy hxy ↦ ?_
    obtain ⟨a, ha⟩ := hl x hx
    obtain ⟨b, hb⟩ := hl y hy
    rw [ha.cmp hb] at hxy
    rw [decide_eq_true_eq, decide_eq_true_eq, ha.cmp hq, hb.cmp hq]
    exact comparePath_lt_of_ne_gt hxy
  have hrest : (l.filter fun x ↦ !decide (x.cmp q = .lt)).Pairwise fun x y ↦
      y.startsWith q = true → x.startsWith q = true := by
    refine (hsorted.filter _).imp_of_mem fun {x y} hx hy hxy ↦ ?_
    obtain ⟨hx, hge⟩ := List.mem_filter.mp hx
    obtain ⟨a, ha⟩ := hl x hx
    obtain ⟨b, hb⟩ := hl y (List.mem_filter.mp hy).1
    rw [Bool.not_eq_true', decide_eq_false_iff_not, ha.cmp hq] at hge
    rw [ha.cmp hb] at hxy
    rw [ha.startsWith hq, hb.startsWith hq]
    intro hpre
    refine prefix_of_between List.prefix_rfl hpre ?_ (pathLe_of_comparePath_ne_gt hxy)
    apply pathLe_of_comparePath_ne_gt
    rwa [ne_eq, OverlayState.comparePath_gt_iff]
  let rest := l.filter fun x ↦ !decide (x.cmp q = .lt)
  refine ⟨l.filter fun x ↦ decide (x.cmp q = .lt), rest.filter (startsWith · q),
    rest.filter fun x ↦ !x.startsWith q, ?_, ?_, ?_⟩
  · rw [List.append_assoc, filter_append_filter_not hrest, filter_append_filter_not hlow]
  · exact fun p hp ↦ (List.mem_filter.mp hp).2
  · intro p hp
    rcases List.mem_append.mp hp with hp | hp
    · obtain ⟨hp, hlt⟩ := List.mem_filter.mp hp
      obtain ⟨a, ha⟩ := hl p hp
      rw [decide_eq_true_eq, ha.cmp hq, comparePath_eq_lt] at hlt
      rw [← Bool.not_eq_true, ha.startsWith hq]
      intro hpre
      rcases hlt with ⟨hpre', hne⟩ | hleft
      · exact hne (hpre'.eq_of_length (le_antisymm hpre'.length_le hpre.length_le))
      · exact hleft.not_prefix_symm hpre
    · simpa using (List.mem_filter.mp hp).2

/-! ### Packing -/

private theorem shift_or_toByte (high low : Nibble) :
    (toByte high <<< 4 ||| toByte low) >>> 4 = toByte high ∧
      (toByte high <<< 4 ||| toByte low) &&& 0x0f = toByte low := by
  revert high low
  decide

private theorem shift_or_and (b : UInt8) : (b >>> 4) <<< 4 ||| (b &&& 0x0f) = b := by
  have h :
      ∀ n : Fin 256, (UInt8.ofNat n >>> 4) <<< 4 ||| (UInt8.ofNat n &&& 0x0f) = UInt8.ofNat n := by
    decide +kernel
  have hb := h ⟨b.toNat, b.toNat_lt⟩
  rwa [UInt8.ofNat_toNat] at hb

/-- Bytes are got back from their nibbles. -/
private theorem packLoop_flatMap (bytes : List UInt8) :
    packLoop bytes.length (bytes.flatMap fun b : UInt8 ↦ [b >>> 4, b &&& 0x0f]) = some bytes := by
  induction bytes with
  | nil => rfl
  | cons b bytes ih =>
    show (packLoop bytes.length (bytes.flatMap fun b : UInt8 ↦ [b >>> 4, b &&& 0x0f])).bind _ = _
    rw [ih]
    exact congrArg (fun x ↦ some (x :: bytes)) (shift_or_and b)

/-- Nibbles are got back from the bytes they are packed into. -/
private theorem packLoop_map (n : Nat) (hlen : ns.length = 2 * n) : ∃ bytes,
    packLoop n (ns.map toByte) = some bytes ∧ bytes.length = n ∧
      (bytes.flatMap fun b : UInt8 ↦ [b >>> 4, b &&& 0x0f]) = ns.map toByte := by
  induction n generalizing ns with
  | zero =>
    rw [List.length_eq_zero_iff.mp hlen]
    exact ⟨[], rfl, rfl, rfl⟩
  | succ n ih =>
    rcases ns with _ | ⟨high, _ | ⟨low, ns⟩⟩
    · simp at hlen
    · simp at hlen
      omega
    · obtain ⟨bytes, hpack, hn, hflat⟩ := @ih ns (by simp at hlen; omega)
      refine ⟨(toByte high <<< 4 ||| toByte low) :: bytes, ?_, ?_, ?_⟩
      · show (packLoop n (ns.map toByte)).bind _ = _
        rw [hpack]
        rfl
      · rw [List.length_cons, hn]
      · rw [List.flatMap_cons, hflat, (shift_or_toByte high low).1, (shift_or_toByte high low).2]
        rfl

/-! ### Equality and slices -/

private theorem Holds.eq (hp : Holds p ns) (hq : Holds q ns) : p = q := by
  obtain ⟨array, len⟩ := p
  obtain ⟨array', len'⟩ := q
  have hlen : len = len' := UInt8.toNat_inj.mp (hp.len.trans hq.len.symm)
  have harray : array = array' := hp.array.trans hq.array.symm
  rw [harray, hlen]

private theorem Holds.nibbles_eq_iff (hp : Holds p a) (hq : Holds q b) :
    p.nibbles = q.nibbles ↔ a = b := by
  rw [hp.nibbles, hq.nibbles, toByte_injective.list_map.eq_iff]

/-- The nibbles from a place on. -/
private theorem Holds.sliceFrom (hp : Holds p ns) {n : Nat} (hn : n ≤ p.len.toNat) :
    ∃ p', p.sliceRange (.included n) .unbounded = some p' ∧ Holds p' (ns.drop n) := by
  have hslice : slice p.nibbles n p.len.toNat = some ((ns.drop n).map toByte) := by
    rw [slice, if_pos ⟨hn, by rw [hp.nibbles, List.length_map, hp.len]⟩, hp.nibbles,
      ← List.map_drop, hp.len, List.take_of_length_le (by simp)]
  obtain ⟨p', hp', h⟩ := @fromNibbles_map (ns.drop n) (by
    have := hp.le
    rw [List.length_drop]
    omega)
  refine ⟨p', ?_, h⟩
  show (slice p.nibbles n p.len.toNat).bind fromNibbles = some p'
  rw [hslice]
  exact hp'

/-- Paths that are built have zeros behind their nibbles, so that equality, hash and order are those
of the nibbles, and bytes and nibbles are packed into each other. -/
theorem built_canonical :
    (∀ p, Built p → p.array.length = maxLen ∧
      ∀ i, p.len.toNat ≤ i → i < maxLen → p.array[i]? = some 0) ∧
    (∀ p q, Built p → Built q →
      (p = q ↔ p.nibbles = q.nibbles) ∧ (p.hashed = q.hashed ↔ p.nibbles = q.nibbles) ∧
      p.cmp q = compare p.nibbles q.nibbles ∧
      (p.nibbles <+: q.nibbles → p.nibbles ≠ q.nibbles → p.cmp q = .lt) ∧
      (p.startsWith q = true ↔ q.nibbles <+: p.nibbles) ∧
      ∀ n, n ≤ p.len.toNat → n ≤ q.len.toNat → p.nibbles.take n = q.nibbles.take n →
        ∃ p' q', p.sliceRange (.included n) .unbounded = some p' ∧
          q.sliceRange (.included n) .unbounded = some q' ∧
          p'.nibbles = p.nibbles.drop n ∧ q'.nibbles = q.nibbles.drop n ∧ p'.cmp q' = p.cmp q) ∧
    (∀ (q : RawPath) (l : List RawPath), Built q → (∀ p ∈ l, Built p) →
      l.Pairwise (fun x y ↦ x.cmp y ≠ .gt) →
      ∃ earlier run later, l = earlier ++ run ++ later ∧ (∀ p ∈ run, p.startsWith q = true) ∧
        ∀ p ∈ earlier ++ later, p.startsWith q = false) ∧
    (∀ bytes, bytes.length ≤ 64 → ∃ p, unpack bytes = some p ∧ p.pack bytes.length = some bytes) ∧
    ∀ p n, Built p → p.len.toNat = 2 * n → ∃ bytes, p.pack n = some bytes ∧
      unpack bytes = some p := by
  refine ⟨?_, ?_, ?_, ?_, ?_⟩
  · intro p hb
    obtain ⟨ns, hp⟩ := hb.holds
    refine ⟨hp.length_array, fun i hi hlt ↦ ?_⟩
    rw [hp.len] at hi
    rw [hp.array, List.getElem?_append_right (by rwa [List.length_map]), List.length_map,
      List.getElem?_replicate, if_pos (by omega)]
  · intro p q hbp hbq
    obtain ⟨a, hp⟩ := hbp.holds
    obtain ⟨b, hq⟩ := hbq.holds
    have hcmp : p.cmp q = compare p.nibbles q.nibbles := by
      rw [hp.cmp hq, hp.nibbles, hq.nibbles, comparePath_eq_compare]
    refine ⟨?_, ?_, hcmp, ?_, ?_, ?_⟩
    · constructor
      · exact fun h ↦ h ▸ rfl
      · intro h
        rw [hp.nibbles_eq_iff hq] at h
        exact hp.eq (h ▸ hq)
    · constructor
      · intro h
        obtain ⟨harray, hlen⟩ := List.append_inj' h rfl
        rw [RawPath.nibbles, RawPath.nibbles, harray, List.singleton_inj.mp hlen]
      · intro h
        rw [hp.nibbles_eq_iff hq] at h
        rw [hp.eq (h ▸ hq)]
    · intro hpre hne
      rw [hp.nibbles, hq.nibbles, List.prefix_map_iff_of_injective toByte_injective] at hpre
      rw [ne_eq, hp.nibbles_eq_iff hq] at hne
      rw [hp.cmp hq, comparePath_eq_lt]
      exact .inl ⟨hpre, hne⟩
    · rw [hp.startsWith hq, hp.nibbles, hq.nibbles,
        List.prefix_map_iff_of_injective toByte_injective]
    · intro n hn hn' htake
      obtain ⟨p', hp', h⟩ := hp.sliceFrom hn
      obtain ⟨q', hq', h'⟩ := hq.sliceFrom hn'
      rw [hp.nibbles, hq.nibbles, ← List.map_take, ← List.map_take,
        toByte_injective.list_map.eq_iff] at htake
      refine ⟨p', q', hp', hq', ?_, ?_, ?_⟩
      · rw [h.nibbles, hp.nibbles, List.map_drop]
      · rw [h'.nibbles, hq.nibbles, List.map_drop]
      · rw [h.cmp h', hp.cmp hq]
        conv_rhs => rw [← List.take_append_drop n a, ← List.take_append_drop n b, htake]
        exact (comparePath_append _ _ _).symm
  · intro q l hq hl hsorted
    obtain ⟨b, hq⟩ := hq.holds
    exact exists_run (fun p hp ↦ (hl p hp).holds) hq hsorted
  · intro bytes hlen
    obtain ⟨ns, hns, hns'⟩ := exists_unpacked bytes
    obtain ⟨p, -, hp⟩ := @fromNibbles_map ns (by rw [hns', maxLen]; omega)
    refine ⟨p, unpack_eq_some.mpr ⟨ns, hns, hns', hp⟩, ?_⟩
    have heven : 2 * bytes.length = p.len.toNat := by
      rw [hp.len, hns', Nat.mul_comm]
    have hpack := packLoop_flatMap bytes
    rw [hns, ← hp.nibbles] at hpack
    simp [pack, heven, hpack, guard]
  · intro p n hb hlen
    obtain ⟨ns, hp⟩ := hb.holds
    have hlen' := hlen
    rw [hp.len] at hlen'
    obtain ⟨bytes, hpack, hn, hflat⟩ := packLoop_map n hlen'
    refine ⟨bytes, ?_, unpack_eq_some.mpr ⟨ns, hflat, by rw [hlen', hn, Nat.mul_comm], hp⟩⟩
    rw [← hp.nibbles] at hpack
    simp [pack, hlen, hpack, guard]

end

end RawPath

end TrieDb

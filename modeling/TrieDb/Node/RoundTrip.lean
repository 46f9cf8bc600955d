import TrieDb.Alloy.Reference
import TrieDb.Node.Codec

/-!
# Nodes and pointers are read back from their bytes

The bytes of a node carry no lengths but that of the prefix: the flags tell which parts there are,
the headers of RLP items where they end, and the mask of a branch which children it has. Each field
is written, and read again, behind the fields before it.
-/

namespace TrieDb.Codec

open Base

/-! ### What is written -/

open Buffer

/-- A step that succeeds. -/
@[simp] theorem ok_bind {α β : Type} (a : α) (f : α → Except Error β) :
    (Except.ok a >>= f) = f a := rfl

private theorem appends_copyFromSlice {start stop : Nat} {data : List UInt8}
    (hstop : stop = start + data.length) :
    Appends (copyFromSlice start stop data) start () data := by
  intro done rest hdone hlen
  simp only [copyFromSlice, bind_apply, get_apply,
    overwrite_append hdone.symm hstop hlen, set_apply, List.append_assoc]

private theorem appends_setByte (index : Nat) (byte : UInt8) :
    Appends (setByte index byte) index () [byte] := appends_copyFromSlice rfl

/-- A part of the buffer is written by itself. -/
private theorem appends_onSlice {α : Type} {x : BufferM α} {start stop : Nat} {a : α}
    {data : List UInt8} (h : Appends x 0 a data) (hstop : stop = start + data.length) :
    Appends (onSlice start stop x) start a data := by
  intro done rest hdone hlen
  have hrest : rest = rest.take data.length ++ rest.drop data.length :=
    (List.take_append_drop ..).symm
  have hpart : (rest.take data.length).length = data.length := by
    rw [List.length_take]
    omega
  have hslice : Buffer.slice (done ++ rest) start stop = some (rest.take data.length) := by
    conv_lhs => rw [hrest]
    exact slice_append hdone.symm (by omega)
  have hdrop : (done ++ rest).drop stop = rest.drop data.length := by
    rw [hstop, ← hdone, List.drop_append, List.drop_eq_nil_of_le (Nat.le_add_right ..),
      Nat.add_sub_cancel_left, List.nil_append]
  rw [onSlice, hslice]
  simp only
  rw [h.run hpart]
  simp only
  rw [hdrop, ← hdone, List.take_left, List.append_assoc]

namespace Pointer

variable {p : Pointer}

/-- An RLP node that a pointer can hold: a hash, or one RLP item of at most 31 bytes. -/
inductive RlpItem : List UInt8 → Prop
  | hash (h : B256) : RlpItem (0xa0 :: h.toList)
  | byte {b : UInt8} (hb : b < 0x80) : RlpItem [b]
  | string {payload : List UInt8} (h : payload.length ≤ 30) :
      RlpItem (UInt8.ofNat (0x80 + payload.length) :: payload)
  | list {payload : List UInt8} (h : payload.length ≤ 30) :
      RlpItem (UInt8.ofNat (0xc0 + payload.length) :: payload)

/-- An RLP node as it is read from the bytes of a pointer: a hash, or one RLP item of at most 32
bytes. -/
inductive Item : List UInt8 → Prop
  | hash (h : B256) : Item (0xa0 :: h.toList)
  | byte {b : UInt8} (hb : b < 0x80) : Item [b]
  | string {payload : List UInt8} (h : payload.length ≤ 31) :
      Item (UInt8.ofNat (0x80 + payload.length) :: payload)
  | list {payload : List UInt8} (h : payload.length ≤ 31) :
      Item (UInt8.ofNat (0xc0 + payload.length) :: payload)

private theorem RlpItem.item {rlp : List UInt8} (h : RlpItem rlp) : Item rlp := by
  cases h with
  | hash h => exact .hash h
  | byte hb => exact .byte hb
  | string h => exact .string (h.trans (by decide))
  | list h => exact .list (h.trans (by decide))

private theorem length_toBeBytes (n : UInt32) : (toBeBytes n).length = 4 := rfl

private theorem toArray_of_hash {h : B256} (hp : p.rlp = 0xa0 :: h.toList) :
    p.toArray = toBeBytes p.location ++ (1 :: h.toList) := by
  simp [toArray, isHash, hp]

private theorem toArray_of_short (hp : p.rlp.length ≤ 32) :
    p.toArray = toBeBytes p.location ++ (0 :: (p.rlp ++ List.replicate (32 - p.rlp.length) 0)) := by
  have hhash : p.isHash = false := by
    simp only [isHash, beq_eq_false_iff_ne]
    omega
  simp only [toArray, hhash, Bool.false_eq_true, if_false]
  rw [Nat.min_eq_left (by omega), List.take_length]

private theorem length_toArray (hp : Item p.rlp) : p.toArray.length = 37 := by
  have hshort (hlen : p.rlp.length ≤ 32) : p.toArray.length = 37 := by
    rw [toArray_of_short hlen]
    simp only [List.length_append, length_toBeBytes, List.length_cons, List.length_replicate]
    omega
  generalize hr : p.rlp = rlp at hp
  cases hp with
  | hash h =>
    rw [toArray_of_hash hr]
    simp [length_toBeBytes]
  | byte hb => exact hshort (by rw [hr]; simp)
  | string h => exact hshort (by rw [hr, List.length_cons]; omega)
  | list h => exact hshort (by rw [hr, List.length_cons]; omega)

private theorem appends_serializeInto (hp : Item p.rlp) :
    Appends p.serializeInto 0 37 p.toArray := by
  intro done rest hdone hlen
  have hlt : ¬ (done ++ rest).length < 37 := by
    rw [length_toArray hp] at hlen
    rw [List.length_append]
    omega
  have hcopy : Appends (copyFromSlice 0 37 p.toArray) 0 () p.toArray :=
    appends_copyFromSlice (by rw [length_toArray hp])
  simp only [serializeInto, bind_apply, get_apply, if_neg hlt, pure_apply]
  rw [hcopy done rest hdone hlen]

/-! ### Pointers are read back -/

private theorem fromBeBytes_toBeBytes (n : UInt32) : fromBeBytes (toBeBytes n) = n := by
  have hlt := n.toNat_lt
  apply UInt32.toNat_inj.mp
  simp only [fromBeBytes, toBeBytes, List.foldl_cons, List.foldl_nil, UInt8.toNat_ofNat',
    UInt32.toNat_ofNat']
  omega

/-- Reading the byte behind a number of bytes. -/
private theorem byteAt_append {pre post : List UInt8} {b : UInt8} {index : Nat}
    (h : index = pre.length) : byteAt (pre ++ (b :: post)) index = .ok b := by
  rw [byteAt, h, List.getElem?_append_right (Nat.le_refl _), Nat.sub_self]
  rfl

private theorem slice_eq {pre data post : List UInt8} {start stop : Nat}
    (hstart : start = pre.length) (hstop : stop = start + data.length) :
    Codec.slice (pre ++ (data ++ post)) start stop = .ok data := by
  rw [Codec.slice, slice_append hstart hstop]

/-- The header and the payload of an item, behind the location and the flag. -/
private theorem item_eq (location : UInt32) (b : UInt8) (payload : List UInt8) :
    let bytes := toBeBytes location ++ (0 :: ((b :: payload) ++
      List.replicate (32 - (b :: payload).length) 0))
    byteAt bytes 5 = .ok b ∧ Codec.slice bytes 5 (6 + payload.length) = .ok (b :: payload) := by
  intro bytes
  constructor
  · exact @byteAt_append (toBeBytes location ++ [0]) _ b 5 rfl
  · exact @slice_eq (toBeBytes location ++ [0]) (b :: payload) _ 5 (6 + payload.length) rfl
      (by simp; omega)

/-- An RLP item gives its own length. -/
private theorem rlpFromBytes_toArray (hp : Item p.rlp) : rlpFromBytes p.toArray = .ok p.rlp := by
  generalize hr : p.rlp = rlp at hp
  have hflag {b : UInt8} {post : List UInt8} :
      byteAt (toBeBytes p.location ++ (b :: post)) 4 = .ok b := byteAt_append rfl
  cases hp with
  | hash h =>
    have hslice : Codec.slice (toBeBytes p.location ++ (1 :: h.toList)) 5 37 = .ok h.toList := by
      have := @slice_eq (toBeBytes p.location ++ [1]) h.toList [] 5 37 rfl (by simp)
      simpa using this
    rw [toArray_of_hash hr, rlpFromBytes, hflag]
    simp only [ok_bind, hslice]
    rfl
  | @byte b hb =>
    rw [toArray_of_short (by rw [hr]; simp), hr, rlpFromBytes, hflag]
    have hfirst : byteAt (toBeBytes p.location ++ (0 :: ([b] ++ List.replicate (32 - 1) 0))) 5 =
        .ok b := @byteAt_append (toBeBytes p.location ++ [0]) _ b 5 rfl
    simp only [ok_bind, List.length_singleton, hfirst]
    rw [if_neg (by decide), if_pos hb]
    rfl
  | @string payload h =>
    have hn : (UInt8.ofNat (0x80 + payload.length)).toNat = 0x80 + payload.length := by
      rw [UInt8.toNat_ofNat']
      omega
    obtain ⟨hfirst, hslice⟩ := item_eq (p.location) (UInt8.ofNat (0x80 + payload.length)) payload
    rw [toArray_of_short (by rw [hr, List.length_cons]; omega), hr, rlpFromBytes, hflag]
    simp only [ok_bind, hfirst]
    rw [if_neg (by decide), if_neg (by rw [UInt8.lt_iff_toNat_lt, hn]; simp),
      if_pos (by rw [UInt8.le_iff_toNat_le, hn]; simp; omega), hn, Nat.add_sub_cancel_left, hslice]
  | @list payload h =>
    have hn : (UInt8.ofNat (0xc0 + payload.length)).toNat = 0xc0 + payload.length := by
      rw [UInt8.toNat_ofNat']
      omega
    obtain ⟨hfirst, hslice⟩ := item_eq (p.location) (UInt8.ofNat (0xc0 + payload.length)) payload
    rw [toArray_of_short (by rw [hr, List.length_cons]; omega), hr, rlpFromBytes, hflag]
    simp only [ok_bind, hfirst]
    rw [if_neg (by decide), if_neg (by rw [UInt8.lt_iff_toNat_lt, hn]; simp; omega),
      if_neg (by rw [UInt8.le_iff_toNat_le, hn]; simp; omega),
      if_pos ⟨by rw [UInt8.le_iff_toNat_le, hn]; simp,
        by rw [UInt8.le_iff_toNat_le, hn]; simp; omega⟩, hn, Nat.add_sub_cancel_left, hslice]

/-- A pointer is read back. -/
private theorem fromBytes_toArray (hp : Item p.rlp) : fromBytes p.toArray = .ok p := by
  have htake : p.toArray.take 4 = toBeBytes p.location := by
    rw [toArray, ← length_toBeBytes p.location]
    exact List.take_left
  rw [fromBytes, if_neg (by rw [length_toArray hp]; decide), rlpFromBytes_toArray hp]
  simp only [ok_bind]
  rw [htake, fromBeBytes_toBeBytes]
  rfl

/-! ### Arrays that are no pointer -/

section
variable {pre rest : List UInt8} {flags first : UInt8}

/-- A string or a list behind the flag, with the length that its first byte gives. -/
private theorem slice_item (hpre : pre.length = 4) (hrest : rest.length = 31) {n : Nat}
    (hn : n ≤ 31) :
    Codec.slice (pre ++ (flags :: first :: rest)) 5 (6 + n) = .ok (first :: rest.take n) := by
  have hsplit : pre ++ (flags :: first :: rest) =
      (pre ++ [flags]) ++ ((first :: rest.take n) ++ rest.drop n) := by
    simp
  rw [hsplit]
  apply slice_eq
  · rw [List.length_append, hpre]
    rfl
  · rw [List.length_cons, List.length_take, hrest, Nat.min_eq_left hn]
    omega

/-- A payload as long as its header says. -/
private theorem item_of_header {base : Nat} {payload : List UInt8} (hbase : base ≤ first.toNat)
    (hle : first.toNat - base ≤ 31) (hlen : payload.length = first.toNat - base)
    (hitem : ∀ {payload : List UInt8}, payload.length ≤ 31 →
      Item (UInt8.ofNat (base + payload.length) :: payload)) : Item (first :: payload) := by
  have hheader : UInt8.ofNat (base + payload.length) = first := by
    rw [hlen, Nat.add_sub_cancel' hbase]
    exact UInt8.ofNat_toNat
  rw [← hheader]
  exact hitem (hlen.trans_le hle)

/-- What the bytes behind the location are read as. -/
private theorem rlpFromBytes_cases (hpre : pre.length = 4) (hrest : rest.length = 31) :
    (∃ rlp, rlpFromBytes (pre ++ (flags :: first :: rest)) = .ok rlp ∧ Item rlp ∧
      (flags &&& 1 = 1 ∨ first ≠ 0xa0)) ∨
    (rlpFromBytes (pre ++ (flags :: first :: rest)) = .error .invalidEncoding ∧ first ≠ 0xa0) ∨
    (rlpFromBytes (pre ++ (flags :: first :: rest)) = .error .panic ∧ flags &&& 1 ≠ 1 ∧
      first = 0xa0) := by
  have hflags : byteAt (pre ++ (flags :: first :: rest)) 4 = .ok flags := byteAt_append hpre.symm
  have hfirst : byteAt (pre ++ (flags :: first :: rest)) 5 = .ok first := by
    rw [show pre ++ (flags :: first :: rest) = (pre ++ [flags]) ++ (first :: rest) by simp]
    apply byteAt_append
    rw [List.length_append, hpre]
    rfl
  rw [rlpFromBytes, hflags]
  simp only [ok_bind]
  by_cases hhash : flags &&& 1 = 1
  · rw [if_pos hhash, slice_item hpre hrest (Nat.le_refl 31), ← hrest, List.take_length]
    refine .inl ⟨0xa0 :: first :: rest, rfl, ?_, .inl hhash⟩
    exact .hash ⟨(first :: rest).toArray, by simp [hrest]⟩
  · rw [if_neg hhash, hfirst]
    simp only [ok_bind]
    by_cases h80 : first < 0x80
    · rw [if_pos h80]
      refine .inl ⟨[first], rfl, .byte h80, .inr ?_⟩
      rintro rfl
      revert h80
      decide
    · rw [if_neg h80]
      have hge : 0x80 ≤ first.toNat := by
        rw [UInt8.lt_iff_toNat_lt] at h80
        exact Nat.not_lt.mp h80
      by_cases ha0 : first ≤ 0xa0
      · rw [if_pos ha0]
        by_cases heq : first = 0xa0
        · -- 33 bytes are asked for where 32 are left
          subst heq
          refine .inr (.inr ⟨?_, hhash, rfl⟩)
          rw [Codec.slice, Buffer.slice, if_neg]
          simp [hpre, hrest]
        · have hlt : first.toNat < 0xa0 := by
            rw [UInt8.le_iff_toNat_le] at ha0
            exact Nat.lt_of_le_of_ne ha0 fun h ↦ heq (UInt8.toNat_inj.mp h)
          have hitem : Item (first :: rest.take (first.toNat - 0x80)) :=
            item_of_header hge (by omega) (by rw [List.length_take]; omega) .string
          rw [slice_item hpre hrest (by omega)]
          exact .inl ⟨_, rfl, hitem, .inr heq⟩
      · have hne : first ≠ 0xa0 := by
          rintro rfl
          exact ha0 (UInt8.le_refl _)
        rw [if_neg ha0]
        by_cases hlist : 0xc0 ≤ first ∧ first ≤ 0xdf
        · have hle : 0xc0 ≤ first.toNat ∧ first.toNat ≤ 0xdf := by
            rw [UInt8.le_iff_toNat_le, UInt8.le_iff_toNat_le] at hlist
            exact hlist
          have hitem : Item (first :: rest.take (first.toNat - 0xc0)) :=
            item_of_header hle.1 (by omega) (by rw [List.length_take]; omega) .list
          rw [if_pos hlist, slice_item hpre hrest (by omega)]
          exact .inl ⟨_, rfl, hitem, .inr hne⟩
        · rw [if_neg hlist]
          exact .inr (.inl ⟨rfl, hne⟩)

end

private theorem Item.length_le {rlp : List UInt8} (h : Item rlp) : rlp.length ≤ 33 := by
  cases h with
  | hash h => simp
  | byte hb => simp
  | string h =>
    rw [List.length_cons]
    omega
  | list h =>
    rw [List.length_cons]
    omega

/-- The location, the flag and the first byte of the RLP. -/
private theorem exists_parts (bytes : Vector UInt8 37) : ∃ pre rest,
    bytes.toList = pre ++ (bytes[4] :: bytes[5] :: rest) ∧ pre.length = 4 ∧ rest.length = 31 := by
  refine ⟨bytes.toList.take 4, bytes.toList.drop 6, ?_, by simp, by simp⟩
  have h4 : bytes.toList.drop 4 = bytes[4] :: bytes.toList.drop 5 := by
    rw [List.drop_eq_getElem_cons (by simp)]
    simp
  have h5 : bytes.toList.drop 5 = bytes[5] :: bytes.toList.drop 6 := by
    rw [List.drop_eq_getElem_cons (by simp)]
    simp
  rw [← h5, ← h4, List.take_append_drop]

/-- An array is read without a failed slice, and what is read is written and read again, unless its
RLP without the flag begins with `0xa0`. -/
theorem fromBytes_total_iff (bytes : Vector UInt8 37) :
    (((∃ p, fromBytes bytes.toList = .ok p) ∨ fromBytes bytes.toList = .error .invalidEncoding) ∧
      ∀ p, fromBytes bytes.toList = .ok p → p.rlp.length ≤ 33 ∧ ∀ buf : List UInt8,
        buf.length = 37 → p.serializeInto buf = .ok 37 p.toArray ∧ fromBytes p.toArray = .ok p) ↔
    bytes[4] &&& 1 = 1 ∨ bytes[5] ≠ 0xa0 := by
  obtain ⟨pre, rest, hbytes, hpre, hrest⟩ := exists_parts bytes
  have hread : fromBytes bytes.toList =
      rlpFromBytes bytes.toList >>= fun rlp ↦ .ok ⟨fromBeBytes (bytes.toList.take 4), rlp⟩ := by
    rw [fromBytes, if_neg (by simp)]
    rfl
  rw [hread, hbytes]
  rcases rlpFromBytes_cases hpre hrest with ⟨rlp, hrlp, hitem, hcond⟩ | ⟨hrlp, hne⟩ |
    ⟨hrlp, hflag, hfirst⟩
  · rw [hrlp, iff_true_right hcond]
    refine ⟨.inl ⟨_, rfl⟩, fun p hp ↦ ?_⟩
    cases hp
    refine ⟨hitem.length_le, fun buf hbuf ↦ ⟨?_, fromBytes_toArray hitem⟩⟩
    exact (appends_serializeInto hitem).run (hbuf.trans (length_toArray hitem).symm)
  · rw [hrlp, iff_true_right (.inr hne)]
    exact ⟨.inr rfl, fun p hp ↦ by cases hp⟩
  · rw [hrlp, hfirst]
    constructor
    · rintro ⟨⟨p, hp⟩ | herr, -⟩
      · cases hp
      · cases herr
    · rintro (h | h)
      · exact absurd h hflag
      · exact absurd rfl h

/-- An item of 33 bytes without the flag of a hash. -/
theorem fromBytes_overrun : ¬ ∀ bytes : Vector UInt8 37,
    (∃ p, fromBytes bytes.toList = .ok p) ∨ fromBytes bytes.toList = .error .invalidEncoding := by
  intro h
  have hpanic : fromBytes ((Vector.replicate 37 0).set 5 0xa0).toList = .error .panic := by decide
  rcases h ((Vector.replicate 37 0).set 5 0xa0) with ⟨p, hp⟩ | herr
  · rw [hpanic] at hp
    cases hp
  · rw [hpanic] at herr
    cases herr

end Pointer

/-! ### Paths and integers -/

/-- Two nibbles are packed into a byte. -/
theorem length_packTo (path : Nibbles) : (packTo path).length = (path.length + 1) / 2 := by
  induction path using packTo.induct with
  | case1 => rfl
  | case2 a => simp [packTo]
  | case3 a b path ih =>
    simp only [packTo, List.length_cons, ih]
    omega

private theorem nibblesOf_ofNat (a b : Nibble) : nibblesOf (UInt8.ofNat (a * 16 + b)) = [a, b] := by
  have hn : (UInt8.ofNat (a * 16 + b)).toNat = a * 16 + b := by
    rw [UInt8.toNat_ofNat']
    omega
  simp only [nibblesOf, hn, List.cons.injEq, and_true]
  constructor
  · apply Fin.ext
    simp only
    omega
  · apply Fin.ext
    simp only
    omega

/-- A packed path is unpacked again, up to the padding of a last odd nibble. -/
private theorem take_unpack_packTo (path : Nibbles) :
    ((packTo path).flatMap nibblesOf).take path.length = path := by
  induction path using packTo.induct with
  | case1 => rfl
  | case2 a =>
    have hpair := nibblesOf_ofNat a 0
    rw [Fin.val_zero, Nat.add_zero] at hpair
    rw [packTo, List.flatMap_singleton, hpair]
    rfl
  | case3 a b path ih =>
    rw [packTo, List.flatMap_cons, nibblesOf_ofNat]
    simp only [List.length_cons, List.cons_append, List.nil_append, List.take_succ_cons, ih]

/-- The RLP of an integer in a leaf: a single byte, or a header that gives the number of bytes. -/
inductive IntRlp (capacity : Nat) : List UInt8 → Prop
  | byte {b : UInt8} (hb : b ≤ 128) : IntRlp capacity [b]
  | bytes {payload : List UInt8} (hpos : 0 < payload.length) (h : payload.length ≤ 32)
      (hcapacity : payload.length + 1 ≤ capacity) :
      IntRlp capacity (UInt8.ofNat (128 + payload.length) :: payload)

/-- The RLP of an unsigned integer of at most 32 bytes. -/
private theorem intRlp_encodeUint {k n : Nat} (h : n < 256 ^ k) (hk : k ≤ 32) :
    IntRlp (k + 1) (Rlp.encodeUint n) := by
  rw [Rlp.encodeUint]
  split
  · exact .byte (by decide)
  · next h0 =>
    split
    · next h1 =>
      refine .byte ?_
      rw [UInt8.le_iff_toNat_le, UInt8.toNat_ofNat']
      simp
      omega
    · have hle := Rlp.length_bigEndian_le h
      have hpos : 0 < (Rlp.bigEndian n).length := by
        rw [Rlp.bigEndian, List.length_reverse, Rlp.littleEndian, if_neg h0]
        simp
      exact .bytes hpos (by omega) (by omega)

/-- An integer is read back. -/
private theorem readRlp_eq {capacity offset : Nat} {pre rlp post : List UInt8}
    (h : IntRlp capacity rlp) (hoffset : offset = pre.length) :
    Node.readRlp (pre ++ (rlp ++ post)) offset capacity = .ok rlp := by
  cases h with
  | @byte b hb =>
    rw [Node.readRlp, List.singleton_append, Pointer.byteAt_append hoffset]
    simp only [ok_bind, if_pos hb]
    rfl
  | @bytes payload hpos hlen hcapacity =>
    have hn : (UInt8.ofNat (128 + payload.length)).toNat = 128 + payload.length := by
      rw [UInt8.toNat_ofNat']
      omega
    have hheader : byteAt (pre ++ (UInt8.ofNat (128 + payload.length) :: payload ++ post)) offset =
        .ok (UInt8.ofNat (128 + payload.length)) := Pointer.byteAt_append hoffset
    have hslice : slice (pre ++ (UInt8.ofNat (128 + payload.length) :: payload ++ post)) offset
        (offset + payload.length + 1) = .ok (UInt8.ofNat (128 + payload.length) :: payload) :=
      Pointer.slice_eq hoffset (by rw [List.length_cons]; omega)
    have hstring : ¬ UInt8.ofNat (128 + payload.length) ≤ 128 := by
      rw [UInt8.le_iff_toNat_le, hn]
      show ¬ 128 + payload.length ≤ 128
      omega
    rw [Node.readRlp, hheader]
    simp only [ok_bind]
    rw [if_neg hstring, hn, Nat.add_sub_cancel_left, hslice]
    simp only [ok_bind]
    rw [if_neg (by rw [List.length_cons]; omega)]
    rfl

/-! ### Nodes are read back -/

namespace Node

variable {n : Node} {pre : Nibbles}

/-- A node with a prefix of at most 64 nibbles, integers in their RLP, and pointers to RLP items. -/
def Proper (n : Node) : Prop :=
  n.pre.length ≤ 64 ∧
    match n.kind with
    | .storageLeaf valueRlp => ∃ v : U256, valueRlp = Rlp.encodeUint v.toNat
    | .accountLeaf nonceRlp balanceRlp _ storageRoot =>
      (∃ v : BitVec 64, nonceRlp = Rlp.encodeUint v.toNat) ∧
        (∃ v : U256, balanceRlp = Rlp.encodeUint v.toNat) ∧
        ∀ p ∈ storageRoot, Pointer.RlpItem p.rlp
    | .branch children => ∀ i, ∀ p ∈ children i, Pointer.RlpItem p.rlp

/-- The bytes of a node: its flags, the length of the prefix, the prefix and the rest. -/
def withHead (flags : UInt8) (pre : Nibbles) (rest : List UInt8) : List UInt8 :=
  [flags] ++ ([UInt8.ofNat pre.length] ++ (packTo pre ++ rest))

private theorem length_withHead (flags : UInt8) (pre : Nibbles) (rest : List UInt8) :
    (withHead flags pre rest).length = 2 + (pre.length + 1) / 2 + rest.length := by
  simp only [withHead, List.length_append, List.length_singleton, length_packTo]
  omega

/-- The flags, the length of the prefix and the prefix, before other fields. -/
private theorem appends_head {flags : UInt8} {x : BufferM Nat} {k : Nat} {rest : List UInt8}
    (h : Appends x (2 + (pre.length + 1) / 2) k rest) :
    Appends (do
      setByte 0 flags
      setByte 1 (UInt8.ofNat pre.length)
      copyFromSlice 2 (2 + (pre.length + 1) / 2) (packTo pre)
      x) 0 k (withHead flags pre rest) := by
  have hpath :
      Appends (copyFromSlice 2 (2 + (pre.length + 1) / 2) (packTo pre)) 2 () (packTo pre) :=
    appends_copyFromSlice (by rw [length_packTo])
  refine (appends_setByte 0 flags).bind rfl ((appends_setByte 1 _).bind rfl (hpath.bind ?_ h))
  rw [length_packTo]

/-- The children of a branch, one behind the other. -/
private theorem appends_serializeChildren {children : List Pointer} {offset : Nat}
    (h : ∀ p ∈ children, Pointer.RlpItem p.rlp) :
    Appends (serializeChildren children offset) offset (offset + children.length * 37)
      (children.flatMap Pointer.toArray) := by
  induction children generalizing offset with
  | nil => exact .pure offset
  | cons p children ih =>
    have hlen := Pointer.length_toArray (h p List.mem_cons_self).item
    have hchild : Appends (onSlice offset (offset + 37) p.serializeInto) offset 37 p.toArray :=
      appends_onSlice (Pointer.appends_serializeInto (h p List.mem_cons_self).item) (by rw [hlen])
    have hrest := @ih (offset + 37) fun q hq ↦ h q (List.mem_cons_of_mem _ hq)
    rw [show offset + (p :: children).length * 37 = offset + 37 + children.length * 37 by
      rw [List.length_cons]; omega]
    exact hchild.bind (by rw [hlen]) hrest

private theorem length_flatMap_toArray {children : List Pointer}
    (h : ∀ p ∈ children, Pointer.RlpItem p.rlp) :
    (children.flatMap Pointer.toArray).length = children.length * 37 := by
  induction children with
  | nil => rfl
  | cons p children ih =>
    rw [List.flatMap_cons, List.length_append, Pointer.length_toArray (h p List.mem_cons_self).item,
      ih fun q hq ↦ h q (List.mem_cons_of_mem _ hq), List.length_cons]
    omega

/-- The prefix is read back. -/
private theorem readPrefix_withHead {flags : UInt8} {rest : List UInt8} (h : pre.length ≤ 64) :
    readPrefix (withHead flags pre rest) = .ok (pre, (pre.length + 1) / 2) := by
  have hn : (UInt8.ofNat pre.length).toNat = pre.length := by
    rw [UInt8.toNat_ofNat']
    omega
  have hlen : byteAt (withHead flags pre rest) 1 = .ok (UInt8.ofNat pre.length) :=
    @Pointer.byteAt_append [flags] _ _ 1 rfl
  have hslice : slice (withHead flags pre rest) 2 (2 + (pre.length + 1) / 2) = .ok (packTo pre) :=
    @Pointer.slice_eq [flags, UInt8.ofNat pre.length] (packTo pre) rest 2 _ rfl
      (by rw [length_packTo])
  have hunpack : unpack (packTo pre) = .ok ((packTo pre).flatMap nibblesOf) := by
    rw [unpack, if_neg (by rw [length_packTo]; omega)]
  rw [readPrefix, hlen]
  simp only [ok_bind, hn, hslice, hunpack]
  rw [if_neg (by omega), take_unpack_packTo]
  rfl

private theorem toNibbles_eq (h : pre.length ≤ 64) : toNibbles pre = .ok pre := if_pos h

variable [AlloyTrie]

/-- The bytes of the code hash of an account. -/
def codeBytes (codeHash : B256) : List UInt8 :=
  if codeHash ≠ keccakEmpty then codeHash.toList else []

omit [AlloyTrie] in
/-- The bytes of the storage root of an account. -/
def rootBytes (storageRoot : Option Pointer) : List UInt8 :=
  (storageRoot.map Pointer.toArray).getD []

omit [AlloyTrie] in
/-- The number of bytes that fill up the slots of a branch. -/
def paddingSize (children : Fin 16 → Option Pointer) : Nat :=
  (TrieDb.Node.slotSize (countChildren children) - countChildren children) * 37

/-- What `serialize_into` writes. -/
def bytes (n : Node) : List UInt8 :=
  match n.kind with
  | .storageLeaf valueRlp => withHead 0 n.pre valueRlp
  | .accountLeaf nonceRlp balanceRlp codeHash storageRoot =>
    withHead (accountFlags codeHash storageRoot) n.pre
      (nonceRlp ++ (balanceRlp ++ (codeBytes codeHash ++ rootBytes storageRoot)))
  | .branch children =>
    withHead 2 n.pre ([UInt8.ofNat (childrenBitmask children / 256),
      UInt8.ofNat (childrenBitmask children)] ++
        (((List.ofFn children).filterMap id).flatMap Pointer.toArray ++
          List.replicate (paddingSize children) 0))

private theorem length_codeBytes (codeHash : B256) :
    (codeBytes codeHash).length = if codeHash ≠ keccakEmpty then 32 else 0 := by
  rw [codeBytes]
  split
  · simp
  · rfl

omit [AlloyTrie] in
private theorem length_rootBytes {storageRoot : Option Pointer}
    (h : ∀ p ∈ storageRoot, Pointer.RlpItem p.rlp) :
    (rootBytes storageRoot).length = if storageRoot.isSome then 37 else 0 := by
  cases storageRoot with
  | none => rfl
  | some p => exact Pointer.length_toArray (h p rfl).item

private theorem appends_writeCodeHash {codeHash : B256} {offset : Nat} :
    Appends (writeCodeHash codeHash offset) offset (offset + (codeBytes codeHash).length)
      (codeBytes codeHash) := by
  rw [length_codeBytes, writeCodeHash, codeBytes]
  split
  · have hcopy : Appends (copyFromSlice offset (offset + 32) codeHash.toList) offset ()
        codeHash.toList := appends_copyFromSlice (by simp)
    exact hcopy.thenPure fun _ ↦ offset + 32
  · exact .pure offset

omit [AlloyTrie] in
private theorem appends_writeStorageRoot {storageRoot : Option Pointer} {offset : Nat}
    (h : ∀ p ∈ storageRoot, Pointer.RlpItem p.rlp) :
    Appends (writeStorageRoot storageRoot offset) offset (offset + (rootBytes storageRoot).length)
      (rootBytes storageRoot) := by
  rw [length_rootBytes h]
  cases storageRoot with
  | none => exact .pure offset
  | some p =>
    have hlen := Pointer.length_toArray (h p rfl).item
    have hroot : Appends (onSlice offset (offset + 37) p.serializeInto) offset 37 p.toArray :=
      appends_onSlice (Pointer.appends_serializeInto (h p rfl).item) (by rw [hlen])
    exact hroot.thenPure fun n ↦ offset + n

omit [AlloyTrie] in
/-- A branch has slots for all its children. -/
private theorem countChildren_le (children : Fin 16 → Option Pointer) :
    countChildren children ≤ TrieDb.Node.slotSize (countChildren children) := by
  have hle : countChildren children ≤ 16 := by
    have := List.length_filterMap_le id (List.ofFn children)
    rwa [List.length_ofFn] at this
  rw [TrieDb.Node.slotSize]
  split
  · assumption
  · split
    · assumption
    · split
      · assumption
      · exact hle

omit [AlloyTrie] in
private theorem rlpItem_of_mem {children : Fin 16 → Option Pointer}
    (h : ∀ i, ∀ p ∈ children i, Pointer.RlpItem p.rlp) :
    ∀ p ∈ (List.ofFn children).filterMap id, Pointer.RlpItem p.rlp := by
  intro p hp
  obtain ⟨q, hq, rfl⟩ := List.mem_filterMap.mp hp
  obtain ⟨i, hi⟩ := List.mem_ofFn.mp hq
  exact h i p hi

private theorem length_bytes (hn : n.Proper) : n.bytes.length = n.size := by
  obtain ⟨pre, kind⟩ := n
  obtain ⟨-, hkind⟩ := hn
  cases kind with
  | storageLeaf v => simp only [bytes, size, length_withHead]
  | accountLeaf nonce balance codeHash root =>
    simp only [bytes, size, length_withHead, List.length_append, length_codeBytes,
      length_rootBytes hkind.2.2]
    omega
  | branch children =>
    have hle := countChildren_le children
    have hcount : ((List.ofFn children).filterMap id).length = countChildren children := rfl
    simp only [bytes, size, length_withHead, List.length_append, List.length_cons, List.length_nil,
      length_flatMap_toArray (rlpItem_of_mem hkind), hcount, List.length_replicate, paddingSize]
    omega

/-- A node writes its bytes, as many as its size says. -/
private theorem appends_writeFields (hn : n.Proper) :
    Appends (n.writeFields n.size) 0 n.size n.bytes := by
  have hlen := length_bytes hn
  obtain ⟨pre, kind⟩ := n
  obtain ⟨-, hkind⟩ := hn
  cases kind with
  | storageLeaf v =>
    have hvalue : Appends (copyFromSlice (2 + (pre.length + 1) / 2)
        (2 + (pre.length + 1) / 2 + v.length) v) (2 + (pre.length + 1) / 2) () v :=
      appends_copyFromSlice rfl
    exact appends_head (hvalue.thenPure fun _ ↦ 2 + (pre.length + 1) / 2 + v.length)
  | accountLeaf nonce balance codeHash root =>
    have hnonce := @appends_copyFromSlice (2 + (pre.length + 1) / 2) _ nonce rfl
    have hbalance := @appends_copyFromSlice (2 + (pre.length + 1) / 2 + nonce.length) _ balance rfl
    have htail : Appends (do
        let offset ← writeCodeHash codeHash
          (2 + (pre.length + 1) / 2 + nonce.length + balance.length)
        writeStorageRoot root offset) (2 + (pre.length + 1) / 2 + nonce.length + balance.length)
        (⟨pre, .accountLeaf nonce balance codeHash root⟩ : Node).size
        (codeBytes codeHash ++ rootBytes root) := by
      have hsize : (⟨pre, .accountLeaf nonce balance codeHash root⟩ : Node).size =
          2 + (pre.length + 1) / 2 + nonce.length + balance.length +
            (codeBytes codeHash).length + (rootBytes root).length := by
        rw [← hlen]
        simp only [bytes, length_withHead, List.length_append]
        omega
      rw [hsize]
      exact appends_writeCodeHash.bind rfl (appends_writeStorageRoot hkind.2.2)
    exact appends_head (hnonce.bind rfl (hbalance.bind rfl htail))
  | branch children =>
    have hcount : ((List.ofFn children).filterMap id).length = countChildren children := rfl
    have hle := countChildren_le children
    have hsize : (⟨pre, .branch children⟩ : Node).size = 2 + (pre.length + 1) / 2 + 2 +
        countChildren children * 37 + paddingSize children := by
      simp only [size, paddingSize]
      omega
    rw [hsize]
    have hmask := @appends_copyFromSlice (2 + (pre.length + 1) / 2) (2 + (pre.length + 1) / 2 + 2)
      [UInt8.ofNat (childrenBitmask children / 256), UInt8.ofNat (childrenBitmask children)] rfl
    have hchildren := @appends_serializeChildren _ (2 + (pre.length + 1) / 2 + 2)
      (rlpItem_of_mem hkind)
    rw [hcount] at hchildren
    have hpadding := @appends_copyFromSlice
      (2 + (pre.length + 1) / 2 + 2 + countChildren children * 37)
      (2 + (pre.length + 1) / 2 + 2 + countChildren children * 37 + paddingSize children)
      (List.replicate (paddingSize children) 0) (by rw [List.length_replicate])
    have hnext : 2 + (pre.length + 1) / 2 + 2 + countChildren children * 37 =
        2 + (pre.length + 1) / 2 + 2 +
          (((List.ofFn children).filterMap id).flatMap Pointer.toArray).length := by
      rw [length_flatMap_toArray (rlpItem_of_mem hkind), hcount]
    exact appends_head (hmask.bind rfl (hchildren.bind hnext (hpadding.thenPure fun _ ↦
      2 + (pre.length + 1) / 2 + 2 + countChildren children * 37 + paddingSize children)))

/-- `serialize_into` fills a buffer of the right size, whatever it held before. -/
private theorem serializeInto_eq (hn : n.Proper) {buf : List UInt8} (hbuf : buf.length = n.size) :
    n.serializeInto buf = .ok n.size n.bytes := by
  have hrun := (appends_writeFields hn).run (hbuf.trans (length_bytes hn).symm)
  simp only [serializeInto, bind_apply, get_apply, hbuf, if_neg (Nat.lt_irrefl _)]
  exact hrun

omit [AlloyTrie] in
private theorem withHead_eq (flags : UInt8) (pre : Nibbles) (rest : List UInt8) :
    withHead flags pre rest = (flags :: UInt8.ofNat pre.length :: packTo pre) ++ rest := by
  simp [withHead]

omit [AlloyTrie] in
private theorem length_head (flags : UInt8) (pre : Nibbles) :
    2 + (pre.length + 1) / 2 = (flags :: UInt8.ofNat pre.length :: packTo pre).length := by
  simp only [List.length_cons, length_packTo]
  omega

omit [AlloyTrie] in
private theorem byteAt_withHead (flags : UInt8) (pre : Nibbles) (rest : List UInt8) :
    byteAt (withHead flags pre rest) 0 = .ok flags := @Pointer.byteAt_append [] _ flags 0 rfl

/-- The flags of an account leaf tell it from the other kinds, and which parts it has. -/
private theorem accountFlags_spec (codeHash : B256) (storageRoot : Option Pointer) :
    accountFlags codeHash storageRoot ≠ 0 ∧ accountFlags codeHash storageRoot &&& 1 = 1 ∧
      (accountFlags codeHash storageRoot &&& 0b01000000 ≠ 0 ↔ codeHash ≠ keccakEmpty) ∧
      (accountFlags codeHash storageRoot &&& 0b10000000 ≠ 0 ↔ storageRoot.isSome = true) := by
  rw [accountFlags]
  by_cases hcode : codeHash = keccakEmpty
  · cases storageRoot with
    | none =>
      simp only [hcode, ne_eq, not_true_eq_false, if_false, Option.isSome_none]
      decide
    | some p =>
      simp only [hcode, ne_eq, not_true_eq_false, if_false, Option.isSome_some, if_true]
      decide
  · cases storageRoot with
    | none =>
      simp only [hcode, ne_eq, not_false_eq_true, if_true, Option.isSome_none]
      decide
    | some p =>
      simp only [hcode, ne_eq, not_false_eq_true, if_true, Option.isSome_some]
      decide

/-- The code hash is read back. -/
private theorem readCodeHash_eq {flags : UInt8} {codeHash : B256} {before after : List UInt8}
    {offset : Nat} (hflags : flags &&& 0b01000000 ≠ 0 ↔ codeHash ≠ keccakEmpty)
    (hoffset : offset = before.length) :
    readCodeHash (before ++ (codeBytes codeHash ++ after)) flags offset =
      .ok (codeHash, offset + (codeBytes codeHash).length) := by
  rw [length_codeBytes, readCodeHash, codeBytes]
  by_cases hcode : codeHash = keccakEmpty
  · rw [if_neg (by rw [hflags]; simp [hcode]), if_neg (by simp [hcode]), hcode]
    rfl
  · have hslice : slice (before ++ (codeHash.toList ++ after)) offset (offset + 32) =
        .ok codeHash.toList := Pointer.slice_eq hoffset (by simp)
    rw [if_pos (hflags.mpr hcode), if_pos hcode, if_pos hcode, if_neg (by simp; omega), hslice]
    simp only [ok_bind]
    have hword : (Vector.ofFn fun i : Fin 32 ↦ codeHash.toList.getD i 0) = codeHash := by
      apply Vector.ext
      intro i hi
      simp [List.getD]
    rw [hword]
    rfl

omit [AlloyTrie] in
/-- The storage root is read back. -/
private theorem readStorageRoot_eq {flags : UInt8} {storageRoot : Option Pointer}
    {before : List UInt8} {offset : Nat}
    (hflags : flags &&& 0b10000000 ≠ 0 ↔ storageRoot.isSome = true)
    (hoffset : offset = before.length) (h : ∀ p ∈ storageRoot, Pointer.RlpItem p.rlp) :
    readStorageRoot (before ++ rootBytes storageRoot) flags offset = .ok storageRoot := by
  rw [readStorageRoot]
  cases storageRoot with
  | none => rw [if_neg (by rw [hflags]; simp)]
  | some p =>
    have hlen := Pointer.length_toArray (h p rfl).item
    have hroot : rootBytes (some p) = p.toArray := rfl
    have hslice : slice (before ++ p.toArray) offset (offset + 37) = .ok p.toArray := by
      have := @Pointer.slice_eq before p.toArray [] offset (offset + 37) hoffset (by rw [hlen])
      rwa [List.append_nil] at this
    rw [if_pos (hflags.mpr rfl), hroot, if_neg (by rw [List.length_append, hlen]; omega), hslice]
    simp only [ok_bind]
    rw [Pointer.fromBytes_toArray (h p rfl).item]
    rfl

omit [AlloyTrie] in
/-- The children from a place on are read back, if the mask tells where they are. -/
private theorem readChildren_eq {packed mask index count : Nat} {children : List (Option Pointer)}
    {before after : List UInt8} (hbefore : before.length = 4 + packed + count * 37)
    (hmask : ∀ i (hi : i < children.length),
      mask &&& (1 <<< (15 - (index + i))) = 0 ↔ children[i] = none)
    (h : ∀ p ∈ children.filterMap id, Pointer.RlpItem p.rlp) :
    readChildren (before ++ ((children.filterMap id).flatMap Pointer.toArray ++ after)) packed mask
      (List.range' index children.length) count = .ok children := by
  induction children generalizing index count before with
  | nil => rfl
  | cons child children ih =>
    have hhere := hmask 0 (by simp)
    have hthere : ∀ i (hi : i < children.length),
        mask &&& (1 <<< (15 - (index + 1 + i))) = 0 ↔ children[i] = none := by
      intro i hi
      have := hmask (i + 1) (by simpa using hi)
      rwa [show index + (i + 1) = index + 1 + i by omega] at this
    rw [Nat.add_zero, List.getElem_cons_zero] at hhere
    rw [List.length_cons, List.range'_succ, readChildren]
    cases child with
    | none =>
      have hrest := ih hbefore hthere h
      rw [if_pos (hhere.mpr rfl), List.filterMap_cons_none rfl, hrest]
      rfl
    | some p =>
      have hp : Pointer.RlpItem p.rlp := h p (by simp)
      have hlen := Pointer.length_toArray hp.item
      have hslice :
          slice (before ++ (p.toArray ++ ((children.filterMap id).flatMap Pointer.toArray ++
          after))) (4 + packed + count * 37) (4 + packed + count * 37 + 37) = .ok p.toArray :=
        Pointer.slice_eq hbefore.symm (by rw [hlen])
      have hnext : (before ++ p.toArray).length = 4 + packed + (count + 1) * 37 := by
        rw [List.length_append, hbefore, hlen]
        omega
      have hrest := ih hnext hthere fun q hq ↦ h q (by
        rw [List.filterMap_cons_some (f := id) rfl]
        exact List.mem_cons_of_mem _ hq)
      rw [List.append_assoc] at hrest
      rw [if_neg (by rw [hhere]; simp), List.filterMap_cons_some (f := id) rfl, List.flatMap_cons,
        List.append_assoc]
      simp only
      rw [hslice]
      simp only [ok_bind]
      rw [Pointer.fromBytes_toArray hp.item]
      simp only [ok_bind]
      rw [hrest]
      rfl

omit [AlloyTrie] in
private theorem childrenBitmask_lt (children : Fin 16 → Option Pointer) :
    childrenBitmask children < 65536 := by
  have := @maskFrom_lt 16 ((List.ofFn children).map Option.isSome) 0 (by simp)
  simpa [childrenBitmask] using this

omit [AlloyTrie] in
/-- The mask tells where the children are. -/
private theorem childrenBitmask_and (children : Fin 16 → Option Pointer) (i : Nat)
    (hi : i < (List.ofFn children).length) :
    childrenBitmask children &&& (1 <<< (15 - (0 + i))) = 0 ↔ (List.ofFn children)[i] = none := by
  have hbit := @testBit_maskFrom 16 ((List.ofFn children).map Option.isSome) 0 i (by simp)
    (by simpa using hi)
  rw [Nat.one_shiftLeft, Nat.and_two_pow]
  rw [show 16 - 1 - (0 + i) = 15 - (0 + i) by omega, List.getElem_map] at hbit
  rw [childrenBitmask, hbit]
  cases (List.ofFn children)[i] <;> simp

omit [AlloyTrie] in
private theorem join_ofFn (children : Fin 16 → Option Pointer) :
    (fun i : Fin 16 ↦ ((List.ofFn children)[i.val]?).join) = children := by
  funext i
  rw [List.getElem?_ofFn, dif_pos i.isLt, Option.join_some]

private theorem fromBytes_storageLeaf (hpre : pre.length ≤ 64) (v : U256) :
    fromBytes (⟨pre, .storageLeaf (Rlp.encodeUint v.toNat)⟩ : Node).bytes =
      .ok ⟨pre, .storageLeaf (Rlp.encodeUint v.toNat)⟩ := by
  have hvalue : readRlp (withHead 0 pre (Rlp.encodeUint v.toNat)) (2 + (pre.length + 1) / 2) 33 =
      .ok (Rlp.encodeUint v.toNat) := by
    have := @readRlp_eq 33 _ _ _ [] (@intRlp_encodeUint 32 v.toNat v.isLt (by decide))
      (length_head 0 pre)
    rwa [List.append_nil, ← withHead_eq] at this
  rw [bytes, fromBytes, byteAt_withHead]
  simp only [ok_bind, if_true, readPrefix_withHead hpre, hvalue, toNibbles_eq hpre]
  rfl

/-- Each field behind the head of an account leaf is read behind those before it. -/
private theorem fromBytes_accountLeaf {nonce balance : List UInt8} {codeHash : B256}
    {root : Option Pointer} (hpre : pre.length ≤ 64) (hn : IntRlp 9 nonce) (hb : IntRlp 33 balance)
    (hr : ∀ p ∈ root, Pointer.RlpItem p.rlp) :
    fromBytes (⟨pre, .accountLeaf nonce balance codeHash root⟩ : Node).bytes =
      .ok ⟨pre, .accountLeaf nonce balance codeHash root⟩ := by
  obtain ⟨hne, hone, hcode, hstorage⟩ := accountFlags_spec codeHash root
  have hflags := byteAt_withHead (accountFlags codeHash root) pre
    (nonce ++ (balance ++ (codeBytes codeHash ++ rootBytes root)))
  have hprefix := @readPrefix_withHead pre (accountFlags codeHash root)
    (nonce ++ (balance ++ (codeBytes codeHash ++ rootBytes root))) hpre
  have hlen := length_head (accountFlags codeHash root) pre
  rw [withHead_eq] at hflags hprefix
  simp only [bytes]
  rw [withHead_eq]
  generalize accountFlags codeHash root :: UInt8.ofNat pre.length :: packTo pre = head at *
  have hnonce : readRlp (head ++ (nonce ++ (balance ++ (codeBytes codeHash ++ rootBytes root))))
      (2 + (pre.length + 1) / 2) 9 = .ok nonce := readRlp_eq hn hlen
  have hbalance : readRlp (head ++ (nonce ++ (balance ++ (codeBytes codeHash ++ rootBytes root))))
      (2 + (pre.length + 1) / 2 + nonce.length) 33 = .ok balance := by
    rw [← List.append_assoc]
    exact readRlp_eq hb (by rw [hlen, List.length_append])
  have hcodeHash : readCodeHash
      (head ++ (nonce ++ (balance ++ (codeBytes codeHash ++ rootBytes root))))
      (accountFlags codeHash root) (2 + (pre.length + 1) / 2 + nonce.length + balance.length) =
      .ok (codeHash, 2 + (pre.length + 1) / 2 + nonce.length + balance.length +
        (codeBytes codeHash).length) := by
    rw [← List.append_assoc, ← List.append_assoc]
    exact readCodeHash_eq hcode (by rw [hlen, List.length_append, List.length_append])
  have hstorageRoot : readStorageRoot
      (head ++ (nonce ++ (balance ++ (codeBytes codeHash ++ rootBytes root))))
      (accountFlags codeHash root) (2 + (pre.length + 1) / 2 + nonce.length + balance.length +
        (codeBytes codeHash).length) = .ok root := by
    rw [← List.append_assoc, ← List.append_assoc, ← List.append_assoc]
    exact readStorageRoot_eq hstorage
      (by rw [hlen, List.length_append, List.length_append, List.length_append]) hr
  rw [fromBytes, hflags]
  simp only [ok_bind, if_neg hne, if_pos hone, hprefix, hnonce, hbalance, hcodeHash, hstorageRoot,
    toNibbles_eq hpre]
  rfl

private theorem fromBytes_branch {children : Fin 16 → Option Pointer} (hpre : pre.length ≤ 64)
    (h : ∀ i, ∀ p ∈ children i, Pointer.RlpItem p.rlp) :
    fromBytes (⟨pre, .branch children⟩ : Node).bytes = .ok ⟨pre, .branch children⟩ := by
  have hmask := childrenBitmask_lt children
  have hmaskBytes : slice (⟨pre, .branch children⟩ : Node).bytes (2 + (pre.length + 1) / 2)
      (2 + (pre.length + 1) / 2 + 2) = .ok [UInt8.ofNat (childrenBitmask children / 256),
        UInt8.ofNat (childrenBitmask children)] := by
    simp only [bytes]
    rw [withHead_eq]
    exact Pointer.slice_eq (length_head 2 pre) rfl
  have hvalue : [UInt8.ofNat (childrenBitmask children / 256),
      UInt8.ofNat (childrenBitmask children)].foldl (fun n b ↦ n * 256 + b.toNat) 0 =
        childrenBitmask children := by
    simp only [List.foldl_cons, List.foldl_nil, UInt8.toNat_ofNat']
    omega
  have hchildren : readChildren (⟨pre, .branch children⟩ : Node).bytes ((pre.length + 1) / 2)
      (childrenBitmask children) (List.range 16) 0 = .ok (List.ofFn children) := by
    have hbefore : ((2 :: UInt8.ofNat pre.length :: packTo pre) ++
        [UInt8.ofNat (childrenBitmask children / 256),
          UInt8.ofNat (childrenBitmask children)]).length
          = 4 + (pre.length + 1) / 2 + 0 * 37 := by
      rw [List.length_append, ← length_head 2 pre, List.length_cons, List.length_singleton]
      omega
    have hread := @readChildren_eq _ _ _ _ _ _ (List.replicate (paddingSize children) 0) hbefore
      (childrenBitmask_and children) (rlpItem_of_mem h)
    simp only [bytes]
    rw [withHead_eq, ← List.append_assoc]
    rwa [List.length_ofFn, ← List.range_eq_range'] at hread
  have hflags : byteAt (⟨pre, .branch children⟩ : Node).bytes 0 = .ok 2 := byteAt_withHead ..
  have hprefix : readPrefix (⟨pre, .branch children⟩ : Node).bytes =
      .ok (pre, (pre.length + 1) / 2) := readPrefix_withHead hpre
  rw [fromBytes, hflags]
  simp only [ok_bind, if_neg (show (2 : UInt8) ≠ 0 by decide),
    if_neg (show ¬ (2 : UInt8) &&& 1 = 1 by decide), if_true, hprefix, hmaskBytes, hvalue,
      hchildren,
    toNibbles_eq hpre, join_ofFn]
  rfl

/-- A node is read back from its bytes. -/
private theorem fromBytes_bytes (hn : n.Proper) : fromBytes n.bytes = .ok n := by
  obtain ⟨pre, kind⟩ := n
  obtain ⟨hpre, hkind⟩ := hn
  cases kind with
  | storageLeaf v =>
    obtain ⟨x, rfl⟩ := hkind
    exact fromBytes_storageLeaf hpre x
  | accountLeaf nonce balance codeHash root =>
    obtain ⟨⟨x, rfl⟩, ⟨y, rfl⟩, hroot⟩ := hkind
    exact fromBytes_accountLeaf hpre (@intRlp_encodeUint 8 x.toNat x.isLt (by decide))
      (@intRlp_encodeUint 32 y.toNat y.isLt (by decide)) hroot
  | branch children => exact fromBytes_branch hpre hkind

end Node

/-- Every node and every pointer is read back from what it writes into a buffer of its size, every
byte of which it writes. -/
theorem fromBytes_serializeInto [AlloyTrie] :
    (∀ n : Node, n.Proper → ∃ bytes, bytes.length = n.size ∧
      (∀ buf : List UInt8, buf.length = n.size → n.serializeInto buf = .ok n.size bytes) ∧
      Node.fromBytes bytes = .ok n) ∧
    ∀ p : Pointer, Pointer.RlpItem p.rlp → ∃ bytes, bytes.length = 37 ∧
      (∀ buf : List UInt8, buf.length = 37 → p.serializeInto buf = .ok 37 bytes) ∧
      Pointer.fromBytes bytes = .ok p := by
  constructor
  · intro n hn
    exact ⟨n.bytes, Node.length_bytes hn, fun _ hbuf ↦ Node.serializeInto_eq hn hbuf,
      Node.fromBytes_bytes hn⟩
  · intro p hp
    have hlen := Pointer.length_toArray hp.item
    exact ⟨p.toArray, hlen,
      fun _ hbuf ↦ (Pointer.appends_serializeInto hp.item).run (hbuf.trans hlen.symm),
      Pointer.fromBytes_toArray hp.item⟩

/-- A branch with a prefix of three nibbles and one child, which is embedded. -/
def oddBranch : Node :=
  ⟨[1, 2, 3], .branch fun i ↦ if i = 5 then some ⟨260, [0xc1, 0x80]⟩ else none⟩

/-- A branch with a prefix of three nibbles is read back. -/
theorem fromBytes_oddBranch :
    oddBranch.Proper ∧ ∃ bytes, bytes.length = oddBranch.size ∧
      (∀ buf : List UInt8, buf.length = oddBranch.size →
        oddBranch.serializeInto buf = .ok oddBranch.size bytes) ∧
      Node.fromBytes bytes = .ok oddBranch := by
  have hproper : oddBranch.Proper := by
    refine ⟨by decide, fun i p hp ↦ ?_⟩
    simp only at hp
    split at hp
    · cases hp
      exact @Pointer.RlpItem.list [0x80] (by decide)
    · cases hp
  exact ⟨hproper, fromBytes_serializeInto.1 oddBranch hproper⟩

/-! ### The nodes of the engine -/

section

/-- `Location` as its number. -/
def ofLocation : Location → UInt32
  | .cell index => UInt32.ofNat index
  | .page id => UInt32.ofNat (255 + id)

/-- A pointer of the engine, as it is stored. -/
def ofPointer (p : TrieDb.Pointer) : Pointer := ⟨ofLocation p.location, p.rlp.bytes⟩

/-- A node of the engine, as it is stored. -/
def ofNode (n : TrieDb.Node) : Node where
  pre := n.pre
  kind :=
    match n.kind with
    | .accountLeaf nonce balance codeHash root =>
      .accountLeaf (Rlp.encodeUint nonce.toNat) (Rlp.encodeUint balance.toNat) codeHash
        (root.map ofPointer)
    | .storageLeaf v => .storageLeaf (Rlp.encodeUint v.toNat)
    | .branch children => .branch fun i ↦ (children i).map ofPointer

private theorem countChildren_ofNode (children : Fin 16 → Option TrieDb.Pointer) :
    Node.countChildren (fun i ↦ (children i).map ofPointer) =
      TrieDb.Node.countChildren children := by
  have hcount (l : List (Option Pointer)) :
      (l.filterMap id).length = l.countP Option.isSome := by
    induction l with
    | nil => rfl
    | cons c l ih =>
      cases c with
      | none => rw [List.filterMap_cons_none rfl, ih, List.countP_cons_of_neg (by simp)]
      | some p =>
        rw [List.filterMap_cons_some (f := id) rfl, List.length_cons, ih,
          List.countP_cons_of_pos rfl]
  rw [Node.countChildren, hcount, List.ofFn_eq_map, List.countP_map, TrieDb.Node.countChildren]
  congr 1
  funext i
  simp

variable [AlloyTrie]

/-- The room that the engine reserves for a node is what the node writes. -/
private theorem size_ofNode (n : TrieDb.Node) : (ofNode n).size = n.size := by
  obtain ⟨pre, kind⟩ := n
  cases kind with
  | storageLeaf v => rfl
  | accountLeaf nonce balance codeHash root => simp [ofNode, Node.size, TrieDb.Node.size]
  | branch children => simp [ofNode, Node.size, TrieDb.Node.size, countChildren_ofNode]

omit [AlloyTrie] in
/-- A node of the engine can be stored if its prefix and the references of its children can. -/
private theorem proper_ofNode {n : TrieDb.Node} (hpre : n.pre.length ≤ maxPrefixLength)
    (h : ∀ i, ∀ p ∈ n.childAt i, Pointer.RlpItem p.rlp.bytes) : (ofNode n).Proper := by
  refine ⟨hpre, ?_⟩
  obtain ⟨pre, kind⟩ := n
  cases kind with
  | storageLeaf v => exact ⟨v, rfl⟩
  | accountLeaf nonce balance codeHash root =>
    refine ⟨⟨nonce, rfl⟩, ⟨balance, rfl⟩, ?_⟩
    rintro q hq
    obtain ⟨p, hp, rfl⟩ := Option.mem_map.mp hq
    exact h 0 p (by simpa [TrieDb.Node.childAt] using hp)
  | branch children =>
    rintro i q hq
    obtain ⟨p, hp, rfl⟩ := Option.mem_map.mp hq
    exact h i p hp

/-- What the engine stores is what it finds. -/
theorem fromBytes_ofNode {n : TrieDb.Node} (hpre : n.pre.length ≤ maxPrefixLength)
    (h : ∀ i, ∀ p ∈ n.childAt i, Pointer.RlpItem p.rlp.bytes) :
    Node.fromBytes (ofNode n).bytes = .ok (ofNode n) ∧ (ofNode n).bytes.length = n.size :=
  ⟨Node.fromBytes_bytes (proper_ofNode hpre h),
    (Node.length_bytes (proper_ofNode hpre h)).trans (size_ofNode n)⟩

end

end TrieDb.Codec

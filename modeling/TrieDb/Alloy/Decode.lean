import TrieDb.Alloy.Primitives

/-!
# Decoding integers

`alloy_rlp::decode_exact` for the unsigned integers of a leaf: a single byte or a short string
without a leading zero, and nothing after it. A longer string does not fit into 32 bytes.
-/

namespace TrieDb.Rlp

/-- The number with the given bytes, the most significant one first. -/
def ofBytes (bytes : List UInt8) : Nat := bytes.foldl (fun n b ↦ n * 256 + b.toNat) 0

/-- `static_left_pad`: an integer of at most `size` bytes. -/
def staticLeftPad (size : Nat) (bytes : List UInt8) : Option Nat :=
  if size < bytes.length then none
  else if bytes.head? = some 0 then none
  else some (ofBytes bytes)

/-- `decode_exact` for an integer of `size` bytes. -/
def decodeExact (size : Nat) : List UInt8 → Option Nat
  | [] => none
  | header :: payload =>
    if header < 0x80 then
      if payload.isEmpty then staticLeftPad size [header] else none
    else if header ≤ 0xb7 then
      if payload.length ≠ header.toNat - 0x80 then none
      -- a byte below `0x80` is its own encoding
      else if payload.length = 1 ∧ payload.headD 0 < 0x80 then none
      else staticLeftPad size payload
    else none

/-! ### Round trip -/

private theorem ofBytes_concat (bytes : List UInt8) (b : UInt8) :
    ofBytes (bytes ++ [b]) = ofBytes bytes * 256 + b.toNat := by
  rw [ofBytes, List.foldl_append]
  rfl

private theorem ofBytes_reverse_littleEndian {k n : Nat} (h : n < 256 ^ k) :
    ofBytes (littleEndian k n).reverse = n := by
  induction k generalizing n with
  | zero =>
    rw [Nat.pow_zero] at h
    obtain rfl : n = 0 := by omega
    rfl
  | succ k ih =>
    rw [littleEndian]
    split
    · next h0 =>
      rw [h0]
      rfl
    · have hlt : n / 256 < 256 ^ k :=
        Nat.div_lt_of_lt_mul (by rwa [Nat.pow_succ, Nat.mul_comm] at h)
      have hbyte : (UInt8.ofNat (n % 256)).toNat = n % 256 := by
        rw [UInt8.toNat_ofNat']
        omega
      rw [List.reverse_cons, ofBytes_concat, ih hlt, hbyte]
      omega

/-- The most significant byte is not zero. -/
private theorem getLast?_littleEndian {k n : Nat} (h : n < 256 ^ k) :
    (littleEndian k n).getLast? ≠ some 0 := by
  induction k generalizing n with
  | zero => simp [littleEndian]
  | succ k ih =>
    rw [littleEndian]
    split
    · simp
    · next h0 =>
      have hlt : n / 256 < 256 ^ k :=
        Nat.div_lt_of_lt_mul (by rwa [Nat.pow_succ, Nat.mul_comm] at h)
      cases hrest : littleEndian k (n / 256) with
      | cons b rest =>
        rw [List.getLast?_cons_cons, ← hrest]
        exact ih hlt
      | nil =>
        -- nothing above the byte, which is the whole number then
        have hval := ofBytes_reverse_littleEndian hlt
        rw [hrest] at hval
        have hzero : n / 256 = 0 := hval.symm
        have hbyte : (UInt8.ofNat (n % 256)).toNat = n % 256 := by
          rw [UInt8.toNat_ofNat']
          omega
        intro hlast
        have heq : UInt8.ofNat (n % 256) = 0 := by simpa using hlast
        rw [heq] at hbyte
        have : (0 : UInt8).toNat = 0 := rfl
        omega

/-- A number is what its bytes say. -/
theorem ofBytes_bigEndian (n : Nat) : ofBytes (bigEndian n) = n :=
  ofBytes_reverse_littleEndian (lt_pow_log2 n)

/-- The bytes of an integer are read back. -/
private theorem staticLeftPad_bigEndian {size n : Nat} (h : n < 256 ^ size) :
    staticLeftPad size (bigEndian n) = some n := by
  have hlen : (bigEndian n).length ≤ size := length_bigEndian_le h
  have hhead : (bigEndian n).head? ≠ some 0 := by
    rw [bigEndian, List.head?_reverse]
    exact getLast?_littleEndian (lt_pow_log2 n)
  rw [staticLeftPad, if_neg (by omega), if_neg hhead, ofBytes_bigEndian]

/-- An encoded integer is read back. -/
theorem decodeExact_encodeUint {size n : Nat} (hpos : 0 < size) (hsize : size ≤ 32)
    (h : n < 256 ^ size) : decodeExact size (encodeUint n) = some n := by
  have h32 : n < 256 ^ 32 := lt_of_lt_of_le h (Nat.pow_le_pow_right (by decide) hsize)
  have hval := ofBytes_bigEndian n
  unfold encodeUint
  by_cases h0 : n = 0
  · rw [if_pos h0, h0, decodeExact, if_neg (by decide), if_pos (by decide), if_neg (by decide),
      if_neg (by decide)]
    rfl
  · by_cases hsmall : n < 0x80
    · have hn : (UInt8.ofNat n).toNat = n := by
        rw [UInt8.toNat_ofNat']
        omega
      have hbyte : UInt8.ofNat n < 0x80 := by
        rw [UInt8.lt_iff_toNat_lt, hn]
        exact hsmall
      have hhead : [UInt8.ofNat n].head? ≠ some 0 := by
        intro he
        rw [Option.some.inj he] at hn
        exact h0 hn.symm
      have hof : ofBytes [UInt8.ofNat n] = n := (Nat.zero_add _).trans hn
      rw [if_neg h0, if_pos hsmall, decodeExact, if_pos hbyte, List.isEmpty_nil, if_pos rfl,
        staticLeftPad,
        if_neg (by rw [List.length_singleton]; omega), if_neg hhead, hof]
    · have hlen : (bigEndian n).length ≤ 32 := length_bigEndian_le h32
      have hn :
          (UInt8.ofNat (0x80 + (bigEndian n).length)).toNat = 0x80 + (bigEndian n).length := by
        rw [UInt8.toNat_ofNat']
        omega
      have hge : ¬ UInt8.ofNat (0x80 + (bigEndian n).length) < 0x80 := by
        rw [UInt8.lt_iff_toNat_lt, hn]
        show ¬ 0x80 + (bigEndian n).length < 0x80
        omega
      have hle : UInt8.ofNat (0x80 + (bigEndian n).length) ≤ 0xb7 := by
        rw [UInt8.le_iff_toNat_le, hn]
        show 0x80 + (bigEndian n).length ≤ 0xb7
        omega
      have hcanonical : ¬ ((bigEndian n).length = 1 ∧ (bigEndian n).headD 0 < 0x80) := by
        rintro ⟨hone, hhead⟩
        obtain ⟨b, hb⟩ := List.length_eq_one_iff.mp hone
        rw [hb] at hval hhead
        have hb' : b.toNat = n := (Nat.zero_add _).symm.trans hval
        have hlt : b.toNat < 0x80 := UInt8.lt_iff_toNat_lt.mp hhead
        omega
      rw [if_neg h0, if_neg hsmall, decodeExact, if_neg hge, if_pos hle, hn,
        Nat.add_sub_cancel_left,
        if_neg (not_not_intro rfl), if_neg hcanonical]
      exact staticLeftPad_bigEndian h

end TrieDb.Rlp

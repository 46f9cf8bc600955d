import Mathlib.Data.Nat.Digits.Defs

/-!
# Recursive length prefix

RLP from its definition: byte strings, integers as the strings of their digits, and lists of items
that are encoded already, each behind a header with the length of its payload.
-/

namespace TrieDb.Base.Rlp

/-- The digits of a number in base 256, the most significant one first. -/
def digits (n : Nat) : List UInt8 := (Nat.digits 256 n).reverse.map UInt8.ofNat

/-- The header of a payload of `n` bytes: `0x80` starts strings and `0xc0` lists. -/
def lengthHeader (start n : Nat) : List UInt8 :=
  if n < 56 then [UInt8.ofNat (start + n)]
  else UInt8.ofNat (start + 55 + (digits n).length) :: digits n

/-- The encoding of a byte string; a byte below `0x80` stands for itself. -/
def string (bytes : List UInt8) : List UInt8 :=
  if bytes.length = 1 ∧ bytes.all fun b ↦ b < 0x80 then bytes
  else lengthHeader 0x80 bytes.length ++ bytes

/-- The encoding of an unsigned integer. -/
def integer (n : Nat) : List UInt8 := string (digits n)

/-- The encoding of a list of encoded items. -/
def list (items : List (List UInt8)) : List UInt8 :=
  lengthHeader 0xc0 items.flatten.length ++ items.flatten

/-- Zero has no digits. -/
theorem digits_zero : digits 0 = [] := rfl

/-- The least significant digit comes last. -/
theorem digits_of_pos {n : Nat} (h : 0 < n) :
    digits n = digits (n / 256) ++ [UInt8.ofNat (n % 256)] := by
  rw [digits, Nat.digits_def' (by decide) h, List.reverse_cons, List.map_append]
  rfl

/-- A number below 256 is one digit. -/
theorem digits_of_lt {n : Nat} (h : 0 < n) (hn : n < 256) : digits n = [UInt8.ofNat n] := by
  rw [digits_of_pos h, Nat.div_eq_of_lt hn, Nat.mod_eq_of_lt hn, digits_zero, List.nil_append]

/-- A string of another length than one has a header. -/
theorem string_of_length_ne {bytes : List UInt8} (h : bytes.length ≠ 1) :
    string bytes = lengthHeader 0x80 bytes.length ++ bytes := if_neg fun hb ↦ h hb.1

/-- A byte below 0x80 encodes itself. -/
theorem string_singleton {b : UInt8} (h : b < 0x80) : string [b] = [b] := by
  rw [string, if_pos]
  exact ⟨rfl, by simpa using h⟩

/-- A payload of fewer than 56 bytes has a header of one byte. -/
theorem lengthHeader_short {start n : Nat} (h : n < 56) :
    lengthHeader start n = [UInt8.ofNat (start + n)] := if_pos h

/-- A payload of fewer than 256 bytes has a header of at most two bytes. -/
theorem lengthHeader_medium {start n : Nat} (h : 56 ≤ n) (hn : n < 256) :
    lengthHeader start n = [UInt8.ofNat (start + 56), UInt8.ofNat n] := by
  rw [lengthHeader, if_neg (Nat.not_lt.mpr h), digits_of_lt (by omega) hn]
  rfl

end TrieDb.Base.Rlp

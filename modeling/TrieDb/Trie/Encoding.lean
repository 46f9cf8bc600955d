import TrieDb.Base.Rlp
import TrieDb.Node

/-!
# Nodes of Merkle-Patricia tries as RLP lists

What the values and branches of a Merkle-Patricia trie are: an account is the list of its nonce,
balance, storage root and code hash, a slot is an integer, and a branch is the list of its sixteen
children and an empty value. The encoders of `src/node.rs:639–684` write these lists.
-/

namespace TrieDb

open Base

namespace Merkle

/-- The value of a slot. -/
def slotRlp (v : U256) : List UInt8 := Rlp.integer v.toNat

/-- The value of an account. -/
def accountRlp (account : Account) : List UInt8 :=
  Rlp.list [Rlp.integer account.nonce.toNat, Rlp.integer account.balance.toNat,
    Rlp.string account.storageRoot.toList, Rlp.string account.codeHash.toList]

/-- A child of a branch: itself if it is short, else its hash. -/
def childRlp : Option RlpNode → List UInt8
  | none => Rlp.string []
  | some (.raw bytes) => bytes
  | some (.hash x) => Rlp.string x.toList

/-- A branch without a value. -/
def branchRlp (children : Fin 16 → Option RlpNode) : List UInt8 :=
  Rlp.list ((List.finRange 16).map (fun i ↦ childRlp (children i)) ++ [Rlp.string []])

end Merkle

/-! ### Integers and headers -/

namespace Rlp

/-- The bytes of a number are its digits. -/
private theorem littleEndian_eq {k n : Nat} (h : n < 256 ^ k) :
    (littleEndian k n).reverse = Base.Rlp.digits n := by
  induction k generalizing n with
  | zero =>
    rw [Nat.pow_zero] at h
    obtain rfl : n = 0 := by omega
    rfl
  | succ k ih =>
    rw [littleEndian]
    split
    · next h0 =>
      rw [h0]
      rfl
    · next h0 =>
      have hlt : n / 256 < 256 ^ k :=
        Nat.div_lt_of_lt_mul (by rwa [Nat.pow_succ, Nat.mul_comm] at h)
      rw [List.reverse_cons, ih hlt, Base.Rlp.digits_of_pos (Nat.pos_of_ne_zero h0)]

private theorem bigEndian_eq (n : Nat) :
    bigEndian n = Base.Rlp.digits n := littleEndian_eq (lt_pow_log2 n)

private theorem listHeader_eq (n : Nat) : listHeader n = Base.Rlp.lengthHeader 0xc0 n := by
  rw [listHeader, bigEndian_eq]
  rfl

/-- The encoder of integers writes the string of the digits. -/
private theorem encodeUint_eq {n : Nat} (h : n < 256 ^ 32) : encodeUint n = Base.Rlp.integer n := by
  have hlen := length_bigEndian_le h
  rw [bigEndian_eq] at hlen
  rw [encodeUint, bigEndian_eq, Base.Rlp.integer]
  by_cases h0 : n = 0
  · rw [if_pos h0, h0]
    rfl
  · rw [if_neg h0]
    by_cases hsmall : n < 0x80
    · have hdigits := Base.Rlp.digits_of_lt (Nat.pos_of_ne_zero h0) (show n < 256 by omega)
      have hbyte : UInt8.ofNat n < 0x80 := by
        rw [UInt8.lt_iff_toNat_lt, UInt8.toNat_ofNat']
        show n % 2 ^ 8 < 0x80
        omega
      rw [if_pos hsmall, hdigits, Base.Rlp.string_singleton hbyte]
    · have hlong : ¬ ((Base.Rlp.digits n).length = 1 ∧
          (Base.Rlp.digits n).all fun b ↦ b < 0x80) := by
        rintro ⟨hone, hall⟩
        by_cases hn : n < 256
        · rw [Base.Rlp.digits_of_lt (Nat.pos_of_ne_zero h0) hn] at hall
          have hlt := UInt8.lt_iff_toNat_lt.mp (by simpa using hall)
          rw [UInt8.toNat_ofNat'] at hlt
          have : (0x80 : UInt8).toNat = 128 := rfl
          omega
        · -- the digits of the quotient are at least one more
          rw [Base.Rlp.digits_of_pos (Nat.pos_of_ne_zero h0),
            Base.Rlp.digits_of_pos (n := n / 256) (by omega)] at hone
          simp at hone
      rw [if_neg hsmall, Base.Rlp.string, if_neg hlong, Base.Rlp.lengthHeader_short (by omega)]
      rfl

end Rlp

/-! ### The encoders -/

/-- A hash is a string of 32 bytes. -/
private theorem Merkle.string_hash (x : B256) : Rlp.string x.toList = 0xa0 :: x.toList := by
  have hlen : x.toList.length = 32 := Vector.length_toList
  rw [Rlp.string_of_length_ne (by omega), Rlp.lengthHeader_short (by omega), hlen]
  rfl

private theorem Merkle.childRlp_eq (child : Option RlpNode) : childRlp child = embedded child := by
  rcases child with _ | _ | x
  · rfl
  · rfl
  · exact string_hash x

/-- `encode_branch` writes the list of the children. -/
theorem Node.encodeBranch_eq_branchRlp (children : Fin 16 → Option RlpNode) :
    Node.encodeBranch children = Merkle.branchRlp children := by
  have hitems : ((List.finRange 16).map (fun i ↦ Merkle.childRlp (children i)) ++
      [Base.Rlp.string []]).flatten =
        (List.finRange 16).flatMap (fun i ↦ embedded (children i)) ++ [0x80] := by
    rw [List.flatten_append, ← List.flatMap_def]
    simp only [Merkle.childRlp_eq]
    rfl
  rw [encodeBranch_eq children hitems, Rlp.listHeader_eq]
  rfl

/-- `encode_account_leaf` writes the list of the four fields, which is longer than 55 bytes. -/
theorem Node.encodeAccountLeaf_eq_accountRlp (account : Account) :
    Node.encodeAccountLeaf account.nonce account.balance account.codeHash account.storageRoot =
      Merkle.accountRlp account := by
  have hnonce : account.nonce.toNat < 256 ^ 8 := by
    have := account.nonce.isLt
    omega
  have hbalance : account.balance.toNat < 256 ^ 32 := by
    have := account.balance.isLt
    omega
  have hle := Rlp.length_encodeUint_le hnonce
  have hle' := Rlp.length_encodeUint_le hbalance
  have hpos := Rlp.length_encodeUint_pos account.nonce.toNat
  have hpos' := Rlp.length_encodeUint_pos account.balance.toNat
  rw [Merkle.accountRlp, ← Rlp.encodeUint_eq (by omega), ← Rlp.encodeUint_eq hbalance,
    Merkle.string_hash, Merkle.string_hash, Base.Rlp.list]
  simp only [Node.encodeAccountLeaf]
  generalize Rlp.encodeUint account.nonce.toNat = nonce at *
  generalize Rlp.encodeUint account.balance.toNat = balance at *
  have hlength : [nonce, balance, 0xa0 :: account.storageRoot.toList,
      0xa0 :: account.codeHash.toList].flatten.length = nonce.length + balance.length + 33 * 2 := by
    simp
    omega
  rw [hlength, Base.Rlp.lengthHeader_medium (by omega) (by omega)]
  simp

namespace Merkle

/-- The program encodes the value of a slot as an integer. -/
theorem encodeUint_eq_slotRlp (v : U256) : Rlp.encodeUint v.toNat = slotRlp v :=
  Rlp.encodeUint_eq (by have := v.isLt; omega)

/-- The encoding of a slot is not empty. -/
theorem length_slotRlp_pos (v : U256) : 0 < (slotRlp v).length := by
  rw [← encodeUint_eq_slotRlp]
  exact Rlp.length_encodeUint_pos _

/-- The encoding of a slot has at most 33 bytes. -/
theorem length_slotRlp_le (v : U256) : (slotRlp v).length ≤ 33 := by
  rw [← encodeUint_eq_slotRlp]
  exact Rlp.length_encodeUint_le (by have := v.isLt; omega)

/-- An account has two hashes, two integers and a header of two bytes. -/
theorem length_accountRlp (account : Account) :
    70 ≤ (accountRlp account).length ∧ (accountRlp account).length ≤ 110 := by
  have hnonce : (Rlp.encodeUint account.nonce.toNat).length ≤ 8 + 1 :=
    Rlp.length_encodeUint_le (by have := account.nonce.isLt; omega)
  have hbalance : (Rlp.encodeUint account.balance.toNat).length ≤ 32 + 1 :=
    Rlp.length_encodeUint_le (by have := account.balance.isLt; omega)
  have hpos := Rlp.length_encodeUint_pos account.nonce.toNat
  have hpos' := Rlp.length_encodeUint_pos account.balance.toNat
  rw [← Node.encodeAccountLeaf_eq_accountRlp]
  simp only [Node.encodeAccountLeaf, List.length_cons, List.length_append, Vector.length_toList]
  omega

end Merkle

end TrieDb

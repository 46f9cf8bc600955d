import Mathlib.Data.Nat.Bitwise
import TrieDb.Base.EState

/-!
# Slices of a buffer

Reading and overwriting a range of a list of fixed length, in the form in which records are written
field by field from the front and read back the same way; and masks of one bit for each entry of a
list.
-/

namespace TrieDb.Base

namespace Buffer

variable {α : Type}

/-- The entries `start..stop`; none if the list does not have them. -/
def slice (l : List α) (start stop : Nat) : Option (List α) :=
  if start ≤ stop ∧ stop ≤ l.length then some ((l.drop start).take (stop - start)) else none

/-- The list with the entries `start..stop` replaced by as many others. -/
def overwrite (l : List α) (start stop : Nat) (data : List α) : Option (List α) :=
  if start ≤ stop ∧ stop ≤ l.length ∧ data.length = stop - start then
    some (l.take start ++ (data ++ l.drop stop))
  else none

/-- A field that follows those before it is read back. -/
theorem slice_append {pre data post : List α} {start stop : Nat} (hstart : start = pre.length)
    (hstop : stop = start + data.length) :
    slice (pre ++ (data ++ post)) start stop = some data := by
  subst hstart hstop
  rw [slice, if_pos ⟨Nat.le_add_right .., by simp⟩, List.drop_left, Nat.add_sub_cancel_left,
    List.take_left]

/-- A field is written behind those before it. -/
theorem overwrite_append {pre data rest : List α} {start stop : Nat} (hstart : start = pre.length)
    (hstop : stop = start + data.length) (hrest : data.length ≤ rest.length) :
    overwrite (pre ++ rest) start stop data = some (pre ++ (data ++ rest.drop data.length)) := by
  subst hstart hstop
  rw [overwrite, if_pos ⟨Nat.le_add_right .., by simp; omega, by omega⟩, List.take_left,
    List.drop_append, List.drop_eq_nil_of_le (Nat.le_add_right ..), Nat.add_sub_cancel_left,
    List.nil_append]

/-! ### Writing from the front -/

section
variable {ε β δ : Type}

/-- The program writes the data at the given place, behind what has been written before, and returns
the value. -/
def Appends (x : EStateM ε (List α) β) (start : Nat) (b : β) (data : List α) : Prop :=
  ∀ done rest, done.length = start → data.length ≤ rest.length →
    x (done ++ rest) = .ok b (done ++ data ++ rest.drop data.length)

/-- A returned value writes nothing. -/
theorem Appends.pure {start : Nat} (b : β) :
    Appends (Pure.pure b : EStateM ε (List α) β) start b [] := by
  intro done rest _ _
  simp

/-- Two writes one after the other append the bytes of both. -/
theorem Appends.bind {x : EStateM ε (List α) β} {f : β → EStateM ε (List α) δ} {start next : Nat}
    {b : β} {d : δ} {data data' : List α} (h : Appends x start b data)
    (hnext : next = start + data.length) (h' : Appends (f b) next d data') :
    Appends (x >>= f) start d (data ++ data') := by
  intro done rest hdone hlen
  rw [List.length_append] at hlen
  have hrest : data'.length ≤ (rest.drop data.length).length := by
    rw [List.length_drop]
    omega
  rw [bind_apply, h done rest hdone (by omega)]
  simp only
  rw [h' (done ++ data) (rest.drop data.length) (by rw [List.length_append]; omega) hrest,
    List.drop_drop, List.length_append, List.append_assoc done]

/-- A value is computed after the data has been written. -/
theorem Appends.thenPure {x : EStateM ε (List α) β} {start : Nat} {b : β} {data : List α}
    (h : Appends x start b data) (f : β → δ) :
    Appends (x >>= fun b ↦ Pure.pure (f b)) start (f b) data := by
  have := h.bind (f := fun b ↦ Pure.pure (f b)) rfl (.pure (f b))
  rwa [List.append_nil] at this

/-- The whole buffer is written. -/
theorem Appends.run {x : EStateM ε (List α) β} {b : β} {data buf : List α}
    (h : Appends x 0 b data) (hbuf : buf.length = data.length) : x buf = .ok b data := by
  have hrun := h [] buf rfl hbuf.ge
  rwa [List.nil_append, List.nil_append, ← hbuf, List.drop_length, List.append_nil] at hrun

end

end Buffer

/-! ### Bit masks -/

/-- The mask of a list of flags, from the given index on: the flag at index `i` of `n` is bit
`n - 1 - i`. -/
def maskFrom (n : Nat) (flags : List Bool) (index : Nat) : Nat :=
  ((flags.zipIdx index).map fun x ↦ x.1.toNat <<< (n - 1 - x.2)).sum

/-- The mask of a list is the bit of its first flag and the mask of the others. -/
theorem maskFrom_cons (n : Nat) (flag : Bool) (flags : List Bool) (index : Nat) :
    maskFrom n (flag :: flags) index =
      flag.toNat * 2 ^ (n - 1 - index) + maskFrom n flags (index + 1) := by
  simp [maskFrom, Nat.shiftLeft_eq]

/-- A mask has no bits but those of its flags. -/
theorem maskFrom_lt {n : Nat} {flags : List Bool} {index : Nat} (h : index + flags.length = n) :
    maskFrom n flags index < 2 ^ flags.length := by
  induction flags generalizing index with
  | nil => exact Nat.one_pos
  | cons flag flags ih =>
    rw [List.length_cons] at h
    have hlt := @ih (index + 1) (by omega)
    have hexp : n - 1 - index = flags.length := by omega
    have hflag : flag.toNat * 2 ^ flags.length ≤ 2 ^ flags.length := by
      cases flag <;> simp
    rw [maskFrom_cons, hexp, List.length_cons, Nat.pow_succ]
    omega

/-- Each flag can be read off the mask. -/
theorem testBit_maskFrom {n : Nat} {flags : List Bool} {index i : Nat}
    (h : index + flags.length = n) (hi : i < flags.length) :
    (maskFrom n flags index).testBit (n - 1 - (index + i)) = flags[i] := by
  induction flags generalizing index i with
  | nil => cases hi
  | cons flag flags ih =>
    rw [List.length_cons] at h hi
    have hlt := @maskFrom_lt n flags (index + 1) (by omega)
    have hexp : n - 1 - index = flags.length := by omega
    rw [maskFrom_cons, hexp, Nat.mul_comm]
    cases i with
    | zero =>
      rw [show n - 1 - (index + 0) = flags.length by omega, Nat.testBit_two_pow_mul_add _ hlt,
        if_neg (Nat.lt_irrefl _),
        Nat.sub_self]
      cases flag <;> rfl
    | succ i =>
      rw [Nat.testBit_two_pow_mul_add _ hlt, if_pos (by omega)]
      have hi' := @ih (index + 1) i (by omega) (by omega)
      rw [List.getElem_cons_succ, ← hi']
      congr 1
      omega

end TrieDb.Base

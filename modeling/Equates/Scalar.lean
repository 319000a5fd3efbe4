/-
Scalars: integers of a declared width and signedness, as they stand in the
operands of machine instructions.

A `Scalar` is at most 64 bits wide and its bits fit its width.  `Scalar.truncate`
builds one from a raw 64-bit word, of which it keeps what `Scalar.mask` lets
through.  Two scalars are equal only when width, signedness and bits agree: a
byte-sized 1 is not a word-sized 1.
-/
namespace Equates

structure Scalar where
  /-- The width in bits. -/
  width : Nat
  signed : Bool
  bits : UInt64
  width_le : width ≤ 64 := by omega
  bits_lt : bits.toNat < 1 <<< width
deriving DecidableEq, Repr

namespace Scalar

/-- The scalar without any bits. -/
def empty : Scalar where
  width := 0
  signed := false
  bits := 0
  bits_lt := by decide

/-- The word with the bit at place `n` and no other. -/
def bit (n : Nat) : UInt64 :=
  (1 : UInt64) <<< .ofNat n

theorem toNat_bit {n : Nat} (hn : n < 64) : (bit n).toNat = 1 <<< n := by
  have hcount : (UInt64.ofNat n).toNat = n :=
    UInt64.toNat_ofNat_of_lt' (Nat.lt_trans hn (by decide))
  have hone : (1 : UInt64).toNat = 1 := rfl
  rw [bit, UInt64.toNat_shiftLeft, hcount, hone, Nat.mod_eq_of_lt hn, Nat.one_shiftLeft]
  exact Nat.mod_eq_of_lt (Nat.pow_lt_pow_right (by decide) hn)

/-- The word whose lowest `width` bits are set. -/
def mask (width : Nat) : UInt64 :=
  if width = 0 then 0
  else if 64 ≤ width then ~~~0
  else bit width - 1

theorem toNat_mask {width : Nat} (hwidth : width ≤ 64) : (mask width).toNat = 1 <<< width - 1 := by
  rw [mask]
  split
  · next h => rw [h]; rfl
  split
  · next h => rw [Nat.le_antisymm hwidth h]; rfl
  · next h =>
    have hbit := toNat_bit (Nat.lt_of_not_le h)
    have hone : 1 ≤ bit width := by
      rw [UInt64.le_iff_toNat_le, hbit, Nat.one_shiftLeft]
      exact Nat.two_pow_pos width
    rw [UInt64.toNat_sub_of_le _ _ hone, hbit]
    rfl

/-- What a mask lets through is the residue. -/
theorem toNat_and_mask {width : Nat} (hwidth : width ≤ 64) (raw : UInt64) :
    (raw &&& mask width).toNat = raw.toNat % 1 <<< width := by
  rw [UInt64.toNat_and, toNat_mask hwidth, Nat.one_shiftLeft, Nat.and_two_pow_sub_one_eq_mod]

/-- The low bits of `raw`, as many as `width` says, and at most 64. -/
def truncate (width : Nat) (raw : UInt64) (signed : Bool) : Scalar where
  width := min width 64
  signed := signed
  bits := raw &&& mask (min width 64)
  width_le := Nat.min_le_right _ _
  bits_lt := by
    rw [toNat_and_mask (Nat.min_le_right _ _), Nat.one_shiftLeft]
    exact Nat.mod_lt _ (Nat.two_pow_pos _)

/-- The bits read as a two's complement number of the scalar's width: if the sign bit
is set, then so are all bits above it. -/
def asSigned (s : Scalar) : Int64 :=
  if s.width = 0 then 0
  else if 64 ≤ s.width then s.bits.toInt64
  else if s.bits &&& bit (s.width - 1) ≠ 0 then
    (s.bits ||| ~~~mask s.width).toInt64
  else s.bits.toInt64

/-- The number that the scalar stands for, in 64 bits: sign-extended if the scalar
is signed and zero-extended otherwise. -/
def value (s : Scalar) : Int64 :=
  if s.signed then s.asSigned else s.bits.toInt64

/-- Signedness, width and value: `s8:-1`, `u16:255`. -/
instance : ToString Scalar where
  toString s := (if s.signed then "s" else "u") ++ toString s.width ++ ":" ++ toString s.value

end Scalar

end Equates

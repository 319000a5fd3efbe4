/-
What a scalar stands for.

Of a word a scalar keeps the residue at its width (`Scalar.toNat_and_mask`), and with its sign bit
extended it stands for the balanced one (`Scalar.toInt_asSigned`).  Either way its value has its
bits as residue (`Scalar.toInt_value_emod`), so a scalar is told by its width, its signedness and
its value (`Scalar.arithmetic_exact`).  A number that was cut down to a width is the value of the
result just where the signedness allows it (`Scalar.value_truncate_eq_iff`): a signed scalar stands
for the lower half of what fits its width, an unsigned one for no number below zero, and at 64 bits
nothing is cut off.
-/
import Equates.Scalar
import Mathlib.Data.Int.ModEq
import Mathlib.Data.Nat.Bitwise
import Mathlib.Tactic.Common
import Mathlib.Tactic.Linarith

namespace Equates.Scalar

/-- The bits of a signed number are its residue. -/
theorem toNat_word (v : Int64) : (v.toUInt64.toNat : Int) = v.toInt % 2 ^ 64 := by
  have hbits : v.toInt = Int.bmod v.toUInt64.toNat (2 ^ 64) := v.toBitVec.toInt_eq_toNat_bmod
  have hlt := v.toUInt64.toNat_lt
  rw [hbits]
  refine Eq.trans ?_ Int.bmod_emod.symm
  exact (Int.emod_eq_of_lt (by omega) (by omega)).symm

/-- The balanced residue at a width is a residue. -/
theorem bmod_emod_two_pow (x : Int) (w : Nat) : Int.bmod x (2 ^ w) % 2 ^ w = x % 2 ^ w := by
  have h := Int.bmod_emod (x := x) (m := 2 ^ w)
  push_cast at h
  exact h

theorem toNat_bits_lt (s : Scalar) : (s.bits.toNat : Int) < 2 ^ s.width := by
  have hlt := s.bits_lt
  rw [Nat.one_shiftLeft] at hlt
  exact_mod_cast hlt

theorem toNat_bits_emod (s : Scalar) : (s.bits.toNat : Int) % 2 ^ s.width = s.bits.toNat :=
  Int.emod_eq_of_lt (Int.natCast_nonneg _) s.toNat_bits_lt

/-! ### Two's complement -/

/-- `n` is what the lowest `width` bits of `x` stand for in two's complement: of all numbers with
these bits the one from `-2 ^ (width - 1)` on and below `2 ^ (width - 1)`.  Without any bits it is
zero. -/
def IsTwosComplement (width : Nat) (x n : Int) : Prop :=
  if width = 0 then n = 0
  else n ≡ x [ZMOD 2 ^ width] ∧ -2 ^ (width - 1) ≤ n ∧ n < 2 ^ (width - 1)

theorem isTwosComplement_iff {width : Nat} {x n : Int} :
    IsTwosComplement width x n ↔ n = Int.bmod x (2 ^ width) := by
  by_cases hzero : width = 0
  · rw [IsTwosComplement, if_pos hzero, hzero, pow_zero, Int.bmod_one]
  · have hhalf : (2 : Int) ^ width = 2 * 2 ^ (width - 1) := by
      rw [← pow_succ', Nat.sub_add_cancel (Nat.one_le_iff_ne_zero.mpr hzero)]
    rw [IsTwosComplement, if_neg hzero, eq_comm, Int.bmod_eq_iff (Nat.two_pow_pos width),
      Int.modEq_comm, Int.modEq_iff_dvd]
    push_cast
    rw [hhalf]
    constructor
    · rintro ⟨hdvd, hlow, hhigh⟩
      exact ⟨by omega, by omega, hdvd⟩
    · rintro ⟨hlow, hhigh, hdvd⟩
      exact ⟨hdvd, by omega, by omega⟩

/-- Balanced, the lower half of the residues stays as it is. -/
theorem bmod_of_lt {m h x : Nat} (hm : m = 2 * h) (hx : x < h) : Int.bmod x m = x :=
  Int.bmod_eq_of_le (by omega) (by omega)

/-- Balanced, the upper half of the residues goes one turn down. -/
theorem bmod_of_le {m h x : Nat} (hm : m = 2 * h) (hx : h ≤ x) (hlt : x < m) :
    Int.bmod x m = x - m := by
  rw [← Int.sub_bmod_right]
  exact Int.bmod_eq_of_le (by omega) (by omega)

theorem toInt_toInt64 (x : UInt64) : x.toInt64.toInt = Int.bmod x.toNat (2 ^ 64) :=
  x.toBitVec.toInt_eq_toNat_bmod

section

variable {w : Nat} {bits : UInt64} (hbits : bits.toNat < 2 ^ w)
include hbits

/-- The sign bit is set in the upper half of what fits the width. -/
theorem and_bit_ne_zero_iff (hpos : 1 ≤ w) (hw : w ≤ 64) :
    bits &&& bit (w - 1) ≠ 0 ↔ 2 ^ (w - 1) ≤ bits.toNat := by
  have hword : (bits &&& bit (w - 1)).toNat = (bits.toNat.testBit (w - 1)).toNat * 2 ^ (w - 1) := by
    rw [UInt64.toNat_and, toNat_bit (by omega), Nat.one_shiftLeft, Nat.and_two_pow]
  rw [ne_eq, ← UInt64.toNat_inj, hword]
  by_cases hsign : 2 ^ (w - 1) ≤ bits.toNat
  · have htest := Nat.testBit_of_two_pow_le_and_two_pow_add_one_gt hsign
      (by rwa [Nat.sub_add_cancel hpos])
    rw [htest]
    simp [hsign]
  · rw [Nat.testBit_lt_two_pow (Nat.lt_of_not_le hsign)]
    simp [hsign]

/-- The bits above the width are set beside what fits it. -/
theorem toNat_or_not_mask (hw : w ≤ 64) :
    (bits ||| ~~~mask w).toNat = 2 ^ 64 - 2 ^ w + bits.toNat := by
  have hpos := Nat.two_pow_pos w
  have hsize : UInt64.size = 2 ^ 64 := rfl
  -- What is set above is a multiple of `2 ^ w`.
  have habove : (~~~mask w).toNat = 2 ^ w * (2 ^ (64 - w) - 1) := by
    rw [UInt64.toNat_not, toNat_mask hw, Nat.one_shiftLeft, hsize, Nat.mul_sub, mul_one, ← pow_add,
      Nat.add_sub_cancel' hw]
    omega
  rw [UInt64.toNat_or, Nat.or_comm, habove, ← Nat.two_pow_add_eq_or_of_lt hbits, ← habove,
    UInt64.toNat_not, toNat_mask hw, Nat.one_shiftLeft, hsize]
  omega

end

/-- Extending the sign gives the number that the bits are in two's complement. -/
theorem toInt_asSigned (s : Scalar) : s.asSigned.toInt = Int.bmod s.bits.toNat (2 ^ s.width) := by
  have hbits : s.bits.toNat < 2 ^ s.width := by exact_mod_cast s.toNat_bits_lt
  rw [asSigned]
  split
  · next hzero =>
    rw [hzero, pow_zero, Int.bmod_one]
    rfl
  split
  · next h64 => rw [toInt_toInt64, Nat.le_antisymm s.width_le h64]
  · next hzero h64 =>
    have hpos : 1 ≤ s.width := Nat.one_le_iff_ne_zero.mpr hzero
    have hhalf : 2 ^ s.width = 2 * 2 ^ (s.width - 1) := by
      rw [← pow_succ', Nat.sub_add_cancel hpos]
    have hle : 2 ^ s.width ≤ 2 ^ 63 := Nat.pow_le_pow_right (by decide) (by omega)
    have hword : 2 ^ 64 = 2 * 2 ^ 63 := rfl
    have hsign := and_bit_ne_zero_iff hbits hpos s.width_le
    split
    · next hset =>
      -- One turn of the width below the bits is one turn of the word below the extended bits.
      rw [toInt_toInt64, toNat_or_not_mask hbits s.width_le, bmod_of_le hhalf (hsign.mp hset) hbits,
        bmod_of_le hword (by omega) (by omega)]
      omega
    · next hclear =>
      have hlt : s.bits.toNat < 2 ^ (s.width - 1) := Nat.lt_of_not_le (mt hsign.mpr hclear)
      rw [toInt_toInt64, bmod_of_lt hhalf hlt, bmod_of_lt hword (by omega)]

/-! ### The value of a scalar -/

theorem toInt_value_of_unsigned {s : Scalar} (h : s.signed = false) :
    s.value.toInt = Int.bmod s.bits.toNat (2 ^ 64) := by
  rw [value, h]
  exact toInt_toInt64 s.bits

theorem toInt_value_of_signed {s : Scalar} (h : s.signed = true) :
    s.value.toInt = Int.bmod s.bits.toNat (2 ^ s.width) := by
  rw [value, h, if_pos rfl, toInt_asSigned]

/-- Modulo its width the value of a scalar is what its bits say. -/
theorem toInt_value_emod (s : Scalar) : s.value.toInt % 2 ^ s.width = s.bits.toNat := by
  refine Eq.trans ?_ s.toNat_bits_emod
  cases h : s.signed with
  | true => rw [toInt_value_of_signed h, bmod_emod_two_pow]
  | false =>
    have hdvd : 2 ^ s.width ∣ 2 ^ 64 := Nat.pow_dvd_pow 2 s.width_le
    rw [toInt_value_of_unsigned h, ← bmod_emod_two_pow, Int.bmod_bmod_of_dvd hdvd,
      bmod_emod_two_pow]

/-! ### Cutting a number down -/

attribute [ext] Scalar

theorem toNat_bits_truncate (w : Nat) (v : Int64) (signed : Bool) :
    ((truncate w v.toUInt64 signed).bits.toNat : Int) = v.toInt % 2 ^ min w 64 := by
  have hw := Nat.min_le_right w 64
  have hdvd : (2 : Int) ^ min w 64 ∣ 2 ^ 64 := pow_dvd_pow 2 hw
  rw [truncate, toNat_and_mask hw, Nat.one_shiftLeft, Int.natCast_emod, toNat_word, Nat.cast_pow,
    Nat.cast_ofNat, Int.emod_emod_of_dvd _ hdvd]

/-- A scalar is a number cut down if it has the width and is congruent to the number there. -/
theorem eq_truncate_iff {s : Scalar} {w : Nat} {v : Int64} :
    s = truncate w v.toUInt64 s.signed ↔
      s.width = min w 64 ∧ v.toInt ≡ s.bits.toNat [ZMOD 2 ^ min w 64] := by
  have hbits := toNat_bits_truncate w v s.signed
  constructor
  · intro heq
    have hwidth : s.width = min w 64 := congrArg width heq
    refine ⟨hwidth, ?_⟩
    rw [Int.ModEq, ← hbits, ← heq, ← hwidth, toNat_bits_emod]
  · rintro ⟨hwidth, hcongr⟩
    ext
    · exact hwidth
    · rfl
    · rw [← Int.natCast_inj, hbits, hcongr, ← hwidth, toNat_bits_emod]

/-- A scalar is its value, cut down to its width. -/
theorem truncate_value (s : Scalar) : truncate s.width s.value.toUInt64 s.signed = s := by
  have hwidth : s.width = min s.width 64 := (Nat.min_eq_left s.width_le).symm
  refine (eq_truncate_iff.mpr ⟨hwidth, ?_⟩).symm
  rw [← hwidth, Int.ModEq, toInt_value_emod, toNat_bits_emod]

/-- A number that fits a width, signed or not, is the value of what it is cut down to just where
the signedness allows it. -/
theorem value_truncate_eq_iff {w : Nat} (hpos : 1 ≤ w) (hw : w ≤ 64) {v : Int64} (signed : Bool)
    (hlow : -2 ^ (w - 1) ≤ v.toInt) (hhigh : v.toInt < 2 ^ w) :
    (truncate w v.toUInt64 signed).value = v ↔
      w = 64 ∨ if signed then v.toInt < 2 ^ (w - 1) else 0 ≤ v.toInt := by
  have hwidth : (truncate w v.toUInt64 signed).width = w := Nat.min_eq_left hw
  have hbits : ((truncate w v.toUInt64 signed).bits.toNat : Int) = v.toInt % 2 ^ w := by
    rw [toNat_bits_truncate, Nat.min_eq_left hw]
  have hhalf : (2 : Int) ^ w = 2 * 2 ^ (w - 1) := by
    rw [← pow_succ', Nat.sub_add_cancel hpos]
  rw [← Int64.toInt_inj]
  cases signed with
  | true =>
    have hvalue : (truncate w v.toUInt64 true).value.toInt = Int.bmod v.toInt (2 ^ w) := by
      have hmod := Int.emod_bmod v.toInt (2 ^ w)
      push_cast at hmod
      rw [toInt_value_of_signed rfl, hbits, hwidth, hmod]
    rw [hvalue, if_pos rfl]
    constructor
    · intro h
      have hlt := Int.bmod_lt (x := v.toInt) (Nat.two_pow_pos w)
      push_cast at hlt
      right
      omega
    · intro h
      have hlt : v.toInt < 2 ^ (w - 1) := by
        obtain rfl | h := h
        · exact v.toInt_lt
        · exact h
      refine Int.bmod_eq_of_le ?_ ?_
      · push_cast
        omega
      · push_cast
        omega
  | false =>
    rw [toInt_value_of_unsigned rfl, hbits, if_neg Bool.false_ne_true]
    by_cases h64 : w = 64
    · subst h64
      have hmod := Int.emod_bmod v.toInt (2 ^ 64)
      refine iff_of_true (hmod.trans ?_) (.inl rfl)
      exact Int.bmod_eq_of_le v.le_toInt v.toInt_lt
    · -- What is left of the number fits 64 bits without a sign.
      have hle : (2 : Int) ^ w ≤ 2 ^ 63 := pow_le_pow_right₀ (by decide) (by omega)
      have hnonneg := Int.emod_nonneg v.toInt (b := 2 ^ w) (by omega)
      have hlt := Int.emod_lt_of_pos v.toInt (b := 2 ^ w) (by omega)
      rw [Int.bmod_eq_of_le (by omega) (by omega), or_iff_right h64]
      exact ⟨fun h => h ▸ hnonneg, fun h => Int.emod_eq_of_lt h hhigh⟩

/-! ### Exactness -/

/-- Whatever the width, what is kept of a word is its residue, the signed reading is the number in
two's complement, and the value gives the scalar back and tells it from all others. -/
theorem arithmetic_exact :
    (∀ (width : Nat) (raw : UInt64) (signed : Bool),
      let b := min width 64
      let s := truncate width raw signed
      s.bits.toNat = raw.toNat % 2 ^ b ∧
        (∀ n : Int, n = s.asSigned.toInt ↔ IsTwosComplement b raw.toNat n) ∧
        IsTwosComplement (if signed then b else 64) s.bits.toNat s.value.toInt ∧
        truncate b s.value.toUInt64 signed = s) ∧
      ∀ s t : Scalar, s = t ↔ s.width = t.width ∧ s.signed = t.signed ∧ s.value = t.value := by
  refine ⟨fun width raw signed => ?_, fun s t => ?_⟩
  · intro b s
    have hbits : s.bits.toNat = raw.toNat % 2 ^ b :=
      Nat.one_shiftLeft b ▸ toNat_and_mask (Nat.min_le_right _ _) raw
    refine ⟨hbits, fun n => ?_, ?_, s.truncate_value⟩
    · have hwidth : s.width = b := rfl
      rw [isTwosComplement_iff, toInt_asSigned, hbits, hwidth, Int.natCast_emod, Int.emod_bmod]
    · rw [isTwosComplement_iff]
      cases signed with
      | true => exact toInt_value_of_signed rfl
      | false => exact toInt_value_of_unsigned rfl
  · constructor
    · rintro rfl
      exact ⟨rfl, rfl, rfl⟩
    · rintro ⟨hwidth, hsigned, hvalue⟩
      rw [← s.truncate_value, hwidth, hsigned, hvalue, t.truncate_value]

/-- With one bit there are no numbers but 0 and -1, and at 64 bits an unsigned scalar may stand for
a number below zero. -/
example : (truncate 1 3 true).value = -1 ∧
    (truncate 64 0x8000000000000000 false).value = Int64.minValue := by
  decide

end Equates.Scalar

/-
Keys as they are stored.

A stored key is a signed 64-bit word.  The offset of a mappable address stays below the bits of the
space and the space below the sign, so that the word is the key of the address
(`Address.toInt_storedKey`), and what stands for a missing key is the key of no address
(`Address.key?_eq`).  Shifting and masking takes the key apart again (`Address.ofStoredKey?_eq`).

Mappable addresses and the keys that can be decoded stand for each other, in the same order
(`Address.storedKey_orderIso`).
-/
import Equates.Proofs.Address.Window

namespace Equates.Address

/-! ### Packing -/

section packing

variable {a : Address} (h : a.Mappable)
include h

/-- The offset does not reach into the bits of the space. -/
theorem toNat_packed : a.packed.toNat = a.space.toNat * offsetLimit + a.offset.toNat := by
  have hspace := a.space.toNat_lt
  have hfits : 2 ^ 48 * a.space.toNat < 2 ^ 64 := by omega
  have hshift : (a.space.toUInt64 <<< 48).toNat = 2 ^ 48 * a.space.toNat := by
    rw [UInt64.toNat_shiftLeft, UInt16.toNat_toUInt64, Nat.shiftLeft_eq, Nat.mul_comm]
    exact Nat.mod_eq_of_lt hfits
  have hoffset : a.offset.toNat < 2 ^ 48 := h.2
  rw [packed, UInt64.toNat_or, hshift, ← Nat.two_pow_add_eq_or_of_lt hoffset, Nat.mul_comm]
  rfl

/-- Nor does the space reach the sign. -/
theorem toInt_storedKey :
    a.storedKey.toInt = ((a.space.toNat * offsetLimit + a.offset.toNat : Nat) : Int) := by
  have hpacked := toNat_packed h
  have hlt : 2 * a.packed.toNat < 2 ^ 64 := by
    obtain ⟨hspace, hoffset⟩ := h
    unfold maxSpace at hspace
    unfold offsetLimit at hoffset hpacked
    omega
  rw [storedKey, if_pos h, ← hpacked]
  exact BitVec.toInt_eq_toNat_of_lt hlt

theorem storedKey_ne_noKey : a.storedKey ≠ noKey := by
  intro hkey
  have hint := toInt_storedKey h
  have hnoKey : noKey.toInt = -1 := rfl
  rw [hkey, hnoKey] at hint
  omega

/-- The stored key is the key. -/
theorem key?_of_storedKey : a.key? = some a.storedKey.toInt := by
  rw [key?_of_mappable h, toInt_storedKey h]

end packing

theorem storedKey_eq_noKey_iff {a : Address} : a.storedKey = noKey ↔ ¬ a.Mappable :=
  ⟨fun hkey hm => storedKey_ne_noKey hm hkey, fun hm => if_neg hm⟩

/-- What stands for a missing key is not mistaken for a key. -/
theorem key?_eq (a : Address) :
    a.key? = if a.storedKey = noKey then none else some a.storedKey.toInt := by
  split
  · next hkey => exact if_neg (storedKey_eq_noKey_iff.mp hkey)
  · next hkey => exact key?_of_storedKey (not_not.mp (mt storedKey_eq_noKey_iff.mpr hkey))

/-! ### Unpacking -/

/-- A negative word is no key, and the parts of any other are quotient and remainder. -/
theorem ofStoredKey?_eq (k : Int64) : ofStoredKey? k = ofKey? k.toInt := by
  have hneg : k < 0 ↔ ¬ 0 ≤ k.toInt := Int64.lt_iff_toInt_lt.trans Int.not_le.symm
  by_cases hk : 0 ≤ k.toInt
  · have hword : k.toUInt64.toNat = k.toInt.toNat :=
      Int64.toNat_toUInt64_of_le (Int64.le_iff_toInt_le.mpr hk)
    have hquotient : (k.toUInt64 >>> 48).toNat = k.toInt.toNat / offsetLimit := by
      rw [UInt64.toNat_shiftRight, hword, Nat.shiftRight_eq_div_pow]
      rfl
    have hspace : (k.toUInt64 >>> 48).toUInt16 = .ofNat (k.toInt.toNat / offsetLimit) := by
      rw [← UInt16.toNat_inj, UInt64.toNat_toUInt16, hquotient, UInt16.toNat_ofNat']
    have hoffset : k.toUInt64 &&& 0xFFFFFFFFFFFF = .ofNat (k.toInt.toNat % offsetLimit) := by
      have hlt : k.toInt.toNat % offsetLimit < UInt64.size :=
        lt_trans (Nat.mod_lt _ (by decide)) (by decide)
      rw [← UInt64.toNat_inj, UInt64.toNat_and, hword, UInt64.toNat_ofNat_of_lt' hlt]
      exact Nat.and_two_pow_sub_one_eq_mod _ 48
    have hno : (k < 0 ∨ maxSpace < (k.toUInt64 >>> 48).toNat) ↔
        ¬ (0 ≤ k.toInt ∧ k.toInt.toNat / offsetLimit ≤ maxSpace) := by
      rw [hneg, hquotient, not_and_or, Nat.not_le]
    rw [ofStoredKey?, ofKey?, hspace, hoffset]
    exact (if_congr hno rfl rfl).trans (ite_not _ _ _)
  · rw [ofStoredKey?, ofKey?, if_pos (.inl (hneg.mpr hk)), if_neg fun h => hk h.1]

/-- Mappable addresses and the keys that can be decoded stand for each other, in the same order; and
the words are the keys that the tables work with. -/
theorem storedKey_orderIso :
    (∀ a : Address, (a.storedKey = noKey ↔ ¬ a.Mappable) ∧
        (a.Mappable → ofStoredKey? a.storedKey = some a)) ∧
      (∀ (k : Int64) (a : Address), ofStoredKey? k = some a → a.Mappable ∧ a.storedKey = k) ∧
      (∀ a b : Address, a.Mappable → b.Mappable → (a < b ↔ a.storedKey < b.storedKey)) ∧
      (∀ a : Address, a.key? = if a.storedKey = noKey then none else some a.storedKey.toInt) ∧
      ∀ k : Int64, ofKey? k.toInt = ofStoredKey? k := by
  refine ⟨fun a => ⟨storedKey_eq_noKey_iff, fun ha => ?_⟩, fun k a hk => ?_, fun a b ha hb => ?_,
    key?_eq, fun k => (ofStoredKey?_eq k).symm⟩
  · rw [ofStoredKey?_eq]
    exact ofKey?_of_key? (key?_of_storedKey ha)
  · rw [ofStoredKey?_eq] at hk
    have hkey := key?_of_ofKey? hk
    have ha := mappable_of_key? hkey
    exact ⟨ha, Int64.toInt_inj.mp (Option.some.inj ((key?_of_storedKey ha).symm.trans hkey))⟩
  · rw [Int64.lt_iff_toInt_lt, key?_lt_iff (key?_of_storedKey ha) (key?_of_storedKey hb)]

/-- The last mappable address of all, the last one of another space and the first one of the next. -/
theorem storedKey_orderIso_ends :
    ofStoredKey? (storedKey ⟨0x7FFE, 0xFFFFFFFFFFFF⟩) = some ⟨0x7FFE, 0xFFFFFFFFFFFF⟩ ∧
      storedKey ⟨0x7FFE, 0xFFFFFFFFFFFF⟩ = 0x7FFEFFFFFFFFFFFF ∧
      storedKey ⟨3, 0xFFFFFFFFFFFF⟩ < storedKey ⟨4, 0⟩ ∧
      storedKey ⟨0x7FFF, 0⟩ = noKey := by
  obtain ⟨hkeys, hdecoded, horder, -⟩ := storedKey_orderIso
  have hlast : Mappable ⟨0x7FFE, 0xFFFFFFFFFFFF⟩ := by decide
  have hdecode : ofStoredKey? 0x7FFEFFFFFFFFFFFF = some ⟨0x7FFE, 0xFFFFFFFFFFFF⟩ := by decide
  exact ⟨(hkeys _).2 hlast, (hdecoded _ _ hdecode).2,
    (horder ⟨3, 0xFFFFFFFFFFFF⟩ ⟨4, 0⟩ (by decide) (by decide)).mp (by decide),
    (hkeys _).1.mpr (by decide)⟩

end Equates.Address

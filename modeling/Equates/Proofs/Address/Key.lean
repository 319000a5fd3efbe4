/-
Storage keys and mappable addresses stand for each other.

`key?` and `ofKey?` are inverse to each other (`Address.ofKey?_of_key?` and
`Address.key?_of_ofKey?`); so an address has a key exactly if it is mappable
(`Address.key?_isSome_iff`), and different addresses have different keys
(`Address.key?_inj`).
-/
import Equates.Address.Key
import Mathlib.Algebra.Order.Ring.Int
import Mathlib.Tactic.Common

namespace Equates.Address

theorem key?_isSome_iff {a : Address} : a.key?.isSome ↔ a.Mappable := by
  rw [key?]
  split
  · next h => simp [h]
  · next h => simp [h]

theorem key?_of_mappable {a : Address} (h : a.Mappable) :
    a.key? = some ((a.space.toNat * offsetLimit + a.offset.toNat : Nat) : Int) := by
  rw [key?, if_pos h]

theorem mappable_of_key? {a : Address} {k : Int} (h : a.key? = some k) : a.Mappable := by
  rw [← key?_isSome_iff, h]
  rfl

theorem ofKey?_of_key? {a : Address} {k : Int} (h : a.key? = some k) : ofKey? k = some a := by
  have hm := mappable_of_key? h
  rw [key?_of_mappable hm] at h
  obtain rfl := Option.some.inj h
  obtain ⟨hs, ho⟩ := hm
  have hdiv : (a.space.toNat * offsetLimit + a.offset.toNat) / offsetLimit = a.space.toNat := by
    rw [Nat.mul_comm, Nat.mul_add_div (by decide), Nat.div_eq_of_lt ho, Nat.add_zero]
  have hmod : (a.space.toNat * offsetLimit + a.offset.toNat) % offsetLimit = a.offset.toNat := by
    rw [Nat.mul_add_mod_self_right, Nat.mod_eq_of_lt ho]
  rw [ofKey?, Int.toNat_natCast, hdiv, hmod, if_pos ⟨Int.natCast_nonneg _, hs⟩]
  rw [UInt16.ofNat_toNat, UInt64.ofNat_toNat]

theorem key?_of_ofKey? {a : Address} {k : Int} (h : ofKey? k = some a) : a.key? = some k := by
  rw [ofKey?] at h
  split at h
  · next hk =>
    obtain ⟨hnonneg, hs⟩ := hk
    cases h
    have ho : k.toNat % offsetLimit < offsetLimit := Nat.mod_lt _ (by decide)
    have hspace : (UInt16.ofNat (k.toNat / offsetLimit)).toNat = k.toNat / offsetLimit :=
      UInt16.toNat_ofNat_of_lt' (lt_of_le_of_lt hs (by decide))
    have hoffset : (UInt64.ofNat (k.toNat % offsetLimit)).toNat = k.toNat % offsetLimit :=
      UInt64.toNat_ofNat_of_lt' (lt_trans ho (by decide))
    have hm : Mappable ⟨.ofNat (k.toNat / offsetLimit), .ofNat (k.toNat % offsetLimit)⟩ := by
      refine ⟨?_, ?_⟩
      · rw [hspace]
        exact hs
      · rw [hoffset]
        exact ho
    rw [key?_of_mappable hm, hspace, hoffset, Nat.div_add_mod', Int.toNat_of_nonneg hnonneg]
  · cases h

theorem key?_inj {a b : Address} {k : Int} (ha : a.key? = some k) (hb : b.key? = some k) :
    a = b :=
  Option.some.inj ((ofKey?_of_key? ha).symm.trans (ofKey?_of_key? hb))

end Equates.Address

/-
Addresses of a program: an offset within a numbered space.

Addresses are ordered by space and then by offset.  `AddressRange` is the set of
addresses between two bounds, both included; the bounds of a range that is worth
storing lie in one space (`AddressRange.WithinSpace`).
-/
import Equates.Numeral

namespace Equates

structure Address where
  space : UInt16
  offset : UInt64
deriving DecidableEq, Repr

namespace Address

/-- By space, then by offset. -/
instance : LT Address where
  lt a b := a.space < b.space ∨ (a.space = b.space ∧ a.offset < b.offset)

instance : LE Address where
  le a b := ¬ b < a

instance (a b : Address) : Decidable (a < b) :=
  inferInstanceAs (Decidable (_ ∨ _))

instance (a b : Address) : Decidable (a ≤ b) :=
  inferInstanceAs (Decidable (¬ _))

/-- The last offset of a space. -/
def maxOffset : UInt64 := 0xFFFFFFFFFFFFFFFF

/-- The space in decimal and the offset in hexadecimal, `3:0x1f`. -/
instance : ToString Address where
  toString a := toString a.space ++ ":0x" ++ Numeral.hex a.offset.toNat

end Address

/-- The addresses from `min` to `max`, both included. -/
structure AddressRange where
  min : Address
  max : Address
deriving DecidableEq, Repr

namespace AddressRange

instance : Membership Address AddressRange where
  mem r a := r.min ≤ a ∧ a ≤ r.max

instance (a : Address) (r : AddressRange) : Decidable (a ∈ r) :=
  inferInstanceAs (Decidable (_ ∧ _))

/-- The range lies in one space and is not empty. -/
def WithinSpace (r : AddressRange) : Prop :=
  r.min.space = r.max.space ∧ r.min ≤ r.max

instance (r : AddressRange) : Decidable r.WithinSpace :=
  inferInstanceAs (Decidable (_ ∧ _))

end AddressRange

end Equates

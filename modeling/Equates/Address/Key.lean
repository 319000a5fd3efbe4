/-
Storage keys of addresses.

Each space has its own window of `2 ^ 48` keys, so the key of `(space, offset)`
is `space * 2 ^ 48 + offset`.  An address has a key only if its offset lies below
`2 ^ 48` and its space is at most `0x7FFE`, which keeps every key a nonnegative
signed 64-bit number; `Address.Mappable` says so.

* `Address.key?` and `Address.ofKey?` translate both ways;
* `Address.storedKey` and `Address.ofStoredKey?` do so on signed 64-bit words, as
  keys are stored, and `Address.noKey` is stored for an address without a key;
* `KeyWindow.between? a b` is the interval of the keys of all mappable addresses
  from `a` to `b`.
-/
import Equates.Address.Set

namespace Equates

namespace Address

/-- Offsets from here on have no key. -/
def offsetLimit : Nat := 0x1000000000000

/-- Spaces above this one have no key. -/
def maxSpace : Nat := 0x7FFE

/-- The address has a storage key. -/
def Mappable (a : Address) : Prop :=
  a.space.toNat ≤ maxSpace ∧ a.offset.toNat < offsetLimit

instance (a : Address) : Decidable a.Mappable :=
  inferInstanceAs (Decidable (_ ∧ _))

/-- The storage key of a mappable address. -/
def key? (a : Address) : Option Int :=
  if a.Mappable then some ((a.space.toNat * offsetLimit + a.offset.toNat : Nat) : Int) else none

/-- The address whose key is `k`. -/
def ofKey? (k : Int) : Option Address :=
  if 0 ≤ k ∧ k.toNat / offsetLimit ≤ maxSpace then
    some ⟨.ofNat (k.toNat / offsetLimit), .ofNat (k.toNat % offsetLimit)⟩
  else none

/-- What is stored for an address without a key. -/
def noKey : Int64 := -1

/-- The space in the upper 16 bits of a word and the offset in the 48 bits below. -/
def packed (a : Address) : UInt64 :=
  a.space.toUInt64 <<< 48 ||| a.offset

/-- The key as it is stored. -/
def storedKey (a : Address) : Int64 :=
  if a.Mappable then a.packed.toInt64 else noKey

/-- The address for which `k` is stored. -/
def ofStoredKey? (k : Int64) : Option Address :=
  if k < 0 ∨ maxSpace < (k.toUInt64 >>> 48).toNat then none
  else some ⟨(k.toUInt64 >>> 48).toUInt16, k.toUInt64 &&& 0xFFFFFFFFFFFF⟩

/-- The least mappable address that is not before `a`: past the mappable offsets
of a space the next space begins. -/
def firstMappable? (a : Address) : Option Address :=
  if a.Mappable then some a
  else if a.space.toNat < maxSpace then some ⟨a.space + 1, 0⟩
  else none

/-- The greatest mappable address that is not after `a`. -/
def lastMappable (a : Address) : Address :=
  if maxSpace < a.space.toNat then ⟨.ofNat maxSpace, .ofNat (offsetLimit - 1)⟩
  else if a.offset.toNat < offsetLimit then a
  else ⟨a.space, .ofNat (offsetLimit - 1)⟩

end Address

/-- The keys from `first` to `last`, both included. -/
structure KeyWindow where
  first : Int
  last : Int
deriving DecidableEq, Repr

namespace KeyWindow

instance : Membership Int KeyWindow where
  mem w k := w.first ≤ k ∧ k ≤ w.last

instance (k : Int) (w : KeyWindow) : Decidable (k ∈ w) :=
  inferInstanceAs (Decidable (_ ∧ _))

/-- The keys of the mappable addresses from `first` to `last`, or `none` if there
is no such address. -/
def between? (first last : Address) : Option KeyWindow := do
  let low ← (← first.firstMappable?).key?
  let high ← last.lastMappable.key?
  if low ≤ high then some ⟨low, high⟩ else none

/-- The part of the window behind the key `k`. -/
def after (w : KeyWindow) (k : Int) : KeyWindow :=
  ⟨k + 1, w.last⟩

/-- The number of keys in the window. -/
def size (w : KeyWindow) : Nat :=
  (w.last + 1 - w.first).toNat

/-- Every key that a signed 64-bit number can hold, from zero on. -/
def everything : KeyWindow :=
  ⟨0, 0x7FFFFFFFFFFFFFFF⟩

end KeyWindow

/-- The windows of the keys of all mappable addresses of the set, ascending. -/
def AddressSet.keyWindows (s : AddressSet) : List KeyWindow :=
  s.ranges.filterMap fun r => KeyWindow.between? r.min r.max

end Equates

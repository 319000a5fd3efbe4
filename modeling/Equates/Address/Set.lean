/-
Sets of addresses, kept as a list of ranges in normal form.

`AddressSet.insert` keeps the list sorted and merges ranges that overlap or
touch, so that a set of addresses has one representation: consecutive ranges lie
in different spaces or leave at least one offset between them.  Ranges that are
empty or span two spaces are ignored.

`a ∈ s` looks at every range of the set; `AddressSet.contains` finds the only one
that can hold the address by bisection.

`AddressSet.size` counts the addresses of a set in 64 bits and stops at
`2 ^ 64 - 1`.
-/
import Equates.Address.Basic

namespace Equates

namespace AddressRange

/-- Every address of `r` comes before every address of `s`, and the two leave a
gap or lie in different spaces: their union is no single range.  No gap can follow
the last offset of a space, which has no successor. -/
def Precedes (r s : AddressRange) : Prop :=
  r.min.space < s.min.space ∨
    (r.min.space = s.min.space ∧ r.max.offset ≠ Address.maxOffset ∧
      r.max.offset + 1 < s.min.offset)

instance (r s : AddressRange) : Decidable (r.Precedes s) :=
  inferInstanceAs (Decidable (_ ∨ _))

/-- The least range that covers both `r` and `s`. -/
def hull (r s : AddressRange) : AddressRange where
  min := if s.min < r.min then s.min else r.min
  max := if r.max < s.max then s.max else r.max

/-- Adds `r` to a sorted list of separated ranges in one pass, merging it with every
range that it meets.  What it has become stands before the first range behind it, or
at the end; `placed` says that it has been put there already. -/
def insertInto (r : AddressRange) (placed : Bool) : List AddressRange → List AddressRange
  | [] => if placed then [] else [r]
  | s :: rest =>
    if s.Precedes r then s :: r.insertInto placed rest
    else if r.Precedes s then
      if placed then s :: r.insertInto true rest else r :: s :: r.insertInto true rest
    else (r.hull s).insertInto placed rest

/-- The number of addresses of a range within one space, less one: the number
itself may be `2 ^ 64`. -/
def span (r : AddressRange) : UInt64 :=
  r.max.offset - r.min.offset

end AddressRange

/-- A set of addresses. -/
structure AddressSet where
  /-- The ranges of the set, ascending, none of which meets or touches another. -/
  ranges : List AddressRange := []
deriving DecidableEq, Repr

namespace AddressSet

instance : EmptyCollection AddressSet := ⟨{}⟩

instance : Membership Address AddressSet where
  mem s a := ∃ r ∈ s.ranges, a ∈ r

instance (a : Address) (s : AddressSet) : Decidable (a ∈ s) :=
  inferInstanceAs (Decidable (∃ r ∈ s.ranges, a ∈ r))

/-- Adds the addresses of a range within one space; any other range adds none. -/
def insert (s : AddressSet) (r : AddressRange) : AddressSet :=
  if r.WithinSpace then ⟨r.insertInto false s.ranges⟩ else s

def insertAddress (s : AddressSet) (a : Address) : AddressSet :=
  s.insert ⟨a, a⟩

/-- The union of the ranges of `l`, added in order. -/
def ofRanges (l : List AddressRange) : AddressSet :=
  l.foldl insert ∅

/-- The place of the first range that begins behind `a`, by bisection: the ranges
before `low` do not begin behind `a`, and those from `low + count` on do. -/
def upperBound (ranges : List AddressRange) (a : Address) (low count : Nat) : Nat :=
  if count = 0 then low
  else
    let half := count / 2
    if ranges[low + half]?.any (a < ·.min) then upperBound ranges a low half
    else upperBound ranges a (low + half + 1) (count - half - 1)
termination_by count

/-- The last range that does not begin behind `a` holds it. -/
def contains (s : AddressSet) (a : Address) : Bool :=
  match upperBound s.ranges a 0 s.ranges.length with
  | 0 => false
  | i + 1 => s.ranges[i]?.any (a ∈ ·)

def isEmpty (s : AddressSet) : Bool :=
  s.ranges.isEmpty

/-- The greatest count that fits. -/
def maxSize : UInt64 := 0xFFFFFFFFFFFFFFFF

/-- Adds the sizes of the given ranges to `total`, stopping at `maxSize`. -/
def addSizes (total : UInt64) : List AddressRange → UInt64
  | [] => total
  | r :: rest =>
    if r.span = maxSize ∨ maxSize - r.span - 1 < total then maxSize
    else addSizes (total + (r.span + 1)) rest

/-- The number of addresses in the set, or `maxSize` if there are more. -/
def size (s : AddressSet) : UInt64 :=
  addSizes 0 s.ranges

end AddressSet

end Equates

/-
Walks over the referenced addresses, in ascending order.

A `Walk` visits all addresses, those from a start on, or those in an address set.
The table may be changed between two steps.  A failing storage call is reported
and ends the walk, and a walk that has ended stays at its end.
-/
import Equates.Table.Cursor

namespace Equates

structure Walk where
  cursor : Cursor
  ended : Bool := false
deriving DecidableEq, Repr

namespace Walk

/-- Every referenced address. -/
def all : Walk := ⟨.whole, false⟩

/-- The referenced addresses that are not before `a`. -/
def startingAt (a : Address) : Walk := ⟨.startingAt a, false⟩

/-- The referenced addresses in the set. -/
def within (s : AddressSet) : Walk := ⟨s.keyWindows, false⟩

/-- The next referenced address, and the walk behind it. -/
def next (w : Walk) : Action (Option Address × Walk) := do
  if w.ended then
    return (none, w)
  match ← w.cursor.next with
  | (.ok (some a), c) => return (some a, ⟨c, false⟩)
  | (.ok none, c) => return (none, ⟨c, true⟩)
  | (.error d, c) => do
    report d
    return (none, ⟨c, true⟩)

/-- A step to an address leaves fewer keys. -/
theorem size_next_lt {w w' : Walk} {t t' : Table} {a : Address}
    (h : w.next.run t = ((some a, w'), t')) : w'.cursor.size < w.cursor.size := by
  simp only [next] at h
  split at h
  · cases h
  · obtain ⟨⟨⟨r, c⟩, t₁⟩, hs⟩ : ∃ p, w.cursor.next.run t = pure p := ⟨_, rfl⟩
    simp only [StateT.run_bind, hs, pure_bind] at h
    rcases r with d | _ | b
    · cases h
    · cases h
    · cases h
      exact Cursor.size_next_lt hs

/-- All addresses that are left, and the walk at its end. -/
def drain (w : Walk) : Action (List Address × Walk) := fun t =>
  match _h : w.next.run t with
  | ((none, w'), t') => (([], w'), t')
  | ((some a, w'), t') => ((fun (l, w'') => (a :: l, w'')) <$> w'.drain).run t'
termination_by w.cursor.size
decreasing_by exact size_next_lt _h

end Walk

end Equates

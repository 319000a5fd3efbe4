/-
The stored references: rows under ascending keys, with an index of their
addresses and an index of their equates.

Keys are handed out by a counter, which starts at 1 and never goes back.
-/
import Equates.Rows.Index

namespace Equates

/-- A use of an equate at the address with a given key.  The hash zero stands for
the operand as a whole, any other hash for a part of an operand. -/
structure ReferenceRow where
  id : Key
  addressKey : Int
  operand : Int
  hash : UInt64
  equate : Key
deriving DecidableEq, Repr

structure ReferenceRows where
  rows : Std.ExtTreeMap Key ReferenceRow := ∅
  byAddress : Index := {}
  byEquate : Index := {}
  /-- The key of the next new row. -/
  next : Key := 1

namespace ReferenceRows

def get? (t : ReferenceRows) (id : Key) : Option ReferenceRow :=
  t.rows[id]?

/-- All rows in the order of their keys. -/
def toList (t : ReferenceRows) : List ReferenceRow :=
  t.rows.values

def size (t : ReferenceRows) : Nat :=
  t.rows.size

/-- The rows at an address, ascending. -/
def keysAt (t : ReferenceRows) (addressKey : Int) : List Key :=
  t.byAddress.keys addressKey

/-- The rows that use an equate, ascending. -/
def keysTo (t : ReferenceRows) (equate : Key) : List Key :=
  t.byEquate.keys equate

/-- The least address key in the window that has a row. -/
def firstAddressIn? (t : ReferenceRows) (w : KeyWindow) : Option { k : Int // k ∈ w } :=
  t.byAddress.firstIn? w

/-- Stores the row and files it in both indices. -/
def enter (t : ReferenceRows) (r : ReferenceRow) : ReferenceRows :=
  { t with
    rows := t.rows.insert r.id r
    byAddress := t.byAddress.link r.addressKey r.id
    byEquate := t.byEquate.link r.equate r.id }

/-- Takes the row out of both indices. -/
def withdraw (t : ReferenceRows) (r : ReferenceRow) : ReferenceRows :=
  { t with
    byAddress := t.byAddress.unlink r.addressKey r.id
    byEquate := t.byEquate.unlink r.equate r.id }

/-- Adds a row under the next key. -/
def create (t : ReferenceRows) (addressKey : Int) (operand : Int) (hash : UInt64)
    (equate : Key) : ReferenceRow × ReferenceRows :=
  let r : ReferenceRow := ⟨t.next, addressKey, operand, hash, equate⟩
  (r, { t.enter r with next := t.next + 1 })

/-- Overwrites the row with the key of `r`, which is filed anew. -/
def update (t : ReferenceRows) (r : ReferenceRow) : Except Problem Unit × ReferenceRows :=
  Rows.run t do
    let some old := (← get).get? r.id | throw (.noReferenceRow r.id)
    modify (·.withdraw old)
    modify (·.enter r)

/-- Removes the row `id` if there is one. -/
def erase (t : ReferenceRows) (id : Key) : ReferenceRows :=
  match t.get? id with
  | none => t
  | some old => { t.withdraw old with rows := t.rows.erase id }

end ReferenceRows

end Equates

/-
The stored equates: rows under ascending keys, with a unique index of names.

Keys are handed out by a counter, which starts at 1 and never goes back.  A name
that another row has is refused by the index.
-/
import Equates.Rows.Index

namespace Equates

/-- A name bound to an integer. -/
structure Equate where
  id : Key
  name : String
  value : Int64
deriving DecidableEq, Repr

structure EquateRows where
  rows : Std.ExtTreeMap Key Equate := ∅
  /-- The key of the row with a name. -/
  byName : Std.ExtTreeMap String Key := ∅
  /-- The key of the next new row. -/
  next : Key := 1

namespace EquateRows

def get? (t : EquateRows) (id : Key) : Option Equate :=
  t.rows[id]?

def idOf? (t : EquateRows) (name : String) : Option Key :=
  t.byName[name]?

def hasName (t : EquateRows) (name : String) : Bool :=
  t.byName.contains name

/-- All rows in the order of their keys. -/
def toList (t : EquateRows) : List Equate :=
  t.rows.values

def size (t : EquateRows) : Nat :=
  t.rows.size

/-- Adds a row under the next key. -/
def create (t : EquateRows) (name : String) (value : Int64) : Except Problem Equate × EquateRows :=
  Rows.run t do
    if (← get).hasName name then throw (.nameIndexed name)
    let e : Equate := ⟨(← get).next, name, value⟩
    modify fun t => { t with next := t.next + 1 }
    modify fun t => { t with byName := t.byName.insert e.name e.id }
    modify fun t => { t with rows := t.rows.insert e.id e }
    return e

/-- Overwrites the row with the key of `e`.  A new name moves its index entry first. -/
def update (t : EquateRows) (e : Equate) : Except Problem Unit × EquateRows :=
  Rows.run t do
    let some old := (← get).get? e.id | throw (.noEquateRow e.id)
    if old.name ≠ e.name then
      if ((← get).idOf? e.name).any (· ≠ e.id) then throw (.nameIndexed e.name)
      modify fun t => { t with byName := t.byName.erase old.name }
      modify fun t => { t with byName := t.byName.insert e.name e.id }
    modify fun t => { t with rows := t.rows.insert e.id e }

/-- Removes the row `id` if there is one. -/
def erase (t : EquateRows) (id : Key) : EquateRows :=
  match t.get? id with
  | none => t
  | some old => { t with rows := t.rows.erase id, byName := t.byName.erase old.name }

end EquateRows

end Equates

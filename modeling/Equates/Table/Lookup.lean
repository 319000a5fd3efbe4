/-
Queries on a table.

A query always answers: a failing storage call is reported, and the answer is
empty.  `label` is the text to show for an equate.  The name of an equate is its
label unless it is a derived one; then the type it was derived from names the
value.
-/
import Equates.Name.Derived
import Equates.Table.Equates
import Equates.Table.References

namespace Equates.Table

def equateNamed (name : String) : Action (Option Equate) :=
  (fetchNamed name).orElseReport none

def equateWithId (id : Key) : Action (Option Equate) :=
  (fetchEquate id).orElseReport none

/-- The equates of the given references, as far as they exist. -/
def fetchReferenced (refs : List Reference) : Attempt (List Equate) :=
  fetchEquates (refs.map Reference.equate)

/-- The equates that the references at `a` use, only those at the operand index if
one is given. -/
def fetchEquatesAt (a : Address) (operand : Option Int) : Attempt (List Equate) := do
  fetchReferenced ((← fetchAt a).filter fun r => operand.all (r.operand = ·))

def equatesAt (a : Address) (operand : Option Int) : Action (List Equate) :=
  (fetchEquatesAt a operand).orElseReport []

/-- The first equate at an operand of `a` that has the value. -/
def equateAt (a : Address) (operand : Int) (value : Int64) : Action (Option Equate) := do
  return (← equatesAt a operand).find? (·.value = value)

/-- All equates in the order of their keys. -/
def allEquates : Action (List Equate) :=
  fetchAll.orElseReport []

def equatesWithValue (value : Int64) : Action (List Equate) :=
  (fetchWithValue value).orElseReport []

def referencesAt (a : Address) : Action (List Reference) :=
  (fetchAt a).orElseReport []

def referencesTo (id : Key) : Action (List Reference) :=
  (fetchTo id).orElseReport []

def countReferences (id : Key) : Action Nat :=
  (List.length <$> keysTo id).orElseReport 0

/-- The name of the member of the type `id` that has the value. -/
def memberName (id : UInt64) (value : Int64) : Action (Option String) :=
  modifyGet fun t =>
    match t.registry with
    | none => (none, t)
    | some r =>
      let (type?, r) := r.find id
      (type?.bind (·.memberName? value), { t with registry := some r })

/-- The text to show for an equate with this name and value. -/
def label (name : String) (value : Int64) : Action String := do
  if DerivedName.hasTag name then
    match DerivedName.ofText? name with
    | some d => return (← memberName d.typeId value).getD (DerivedName.badName value)
    | none => return DerivedName.badName value
  else
    return name

end Equates.Table

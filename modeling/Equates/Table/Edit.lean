/-
Mutations of single equates and slots.

Validation problems go back to the caller; storage failures are reported as well.
Removals answer with a truth value, so they report every diagnostic and answer
that nothing was removed.
-/
import Equates.Table.Slot

namespace Equates.Table

/-- Stores a new equate. -/
def define (name : String) (value : Int64) : Attempt Equate := do
  let e ← (storeEquate name value).reportingFailure
  trace (.created e.name value)
  return e

/-- The equate with this name, which is stored with the value if it is missing. -/
def obtain (name : String) (value : Int64) : Attempt Equate := do
  if let some e ← fetchNamed name then
    return e
  let e ← storeEquate name value
  trace (.created e.name value)
  return e

/-- The equate with this name, whatever its value; a new one has the given value. -/
def ensure (name : String) (value : Int64) : Attempt Equate :=
  (obtain name value).reportingFailure

/-- Refers from a slot of `a` to the equate `id`.  The former occupant of the slot
goes, and its equate with it if nothing else refers to that. -/
def attach (id : Key) (a : Address) (operand : Int) (hash : UInt64) : Attempt Reference :=
  (fillSlot id a operand hash).reportingFailure

/-- Removes a reference to the equate `id` with this operand index at `a`. -/
def detachOperand (id : Key) (a : Address) (operand : Int) : Action Bool :=
  (emptySlot id fun r => r.address = a && r.operand = operand).orElseReport false

/-- Removes a reference to the equate `id` with this hash at `a`. -/
def detachHash (id : Key) (a : Address) (hash : UInt64) : Action Bool :=
  (emptySlot id fun r => r.address = a && r.hash = hash).orElseReport false

/-- Removes the equate and every reference to it, if it exists. -/
def eraseNamed (name : String) : Attempt Bool := do
  let some e ← fetchNamed name | return false
  detachAll (← fetchTo e.id)
  eraseEquate e.id
  trace (.removed e.name)
  return true

/-- Removes the equate with this name and every reference to it. -/
def remove (name : String) : Action Bool :=
  (eraseNamed name).orElseReport false

/-- Reports a diagnostic of any kind and passes it on. -/
def reportingAll {α : Type} (attempt : Attempt α) : Attempt α :=
  tryCatch attempt fun d => do
    report d
    throw d

/-- Gives the equate `id` a new name. -/
def rename (id : Key) (name : String) : Attempt Equate := do
  let before ← reportingAll (fetchEquate id)
  let e ← (relabel id name).reportingFailure
  if let some old := before then
    if old.name ≠ e.name then
      trace (.renamed old.name e.name)
  return e

/-- Empties both record caches. -/
def dropCaches : Action Unit := do
  dropEquateCache
  dropReferenceCache

end Equates.Table

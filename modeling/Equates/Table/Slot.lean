/-
Slots, and the steps that fill and empty them.

A reference occupies a slot of its address: the operand as a whole if its hash is
zero, and otherwise the part of an operand that the hash identifies, whatever
operand index it carries.  `fillSlot` empties the slot before it fills it, and
then drops the equates whose last reference was there.
-/
import Equates.Table.Equates
import Equates.Table.References

namespace Equates

inductive Slot where
  | operand (index : Int)
  | hashed (hash : UInt64)
deriving DecidableEq, Repr

def Slot.of (operand : Int) (hash : UInt64) : Slot :=
  if hash = 0 then .operand operand else .hashed hash

/-- The slot that the reference occupies. -/
def Reference.slot (r : Reference) : Slot :=
  .of r.operand r.hash

/-- The reference under the name and value of its equate `e`. -/
def Reference.attachment (r : Reference) (e : Option Equate) : Attachment where
  name := (e.map Equate.name).getD ""
  value := (e.map Equate.value).getD 0
  address := r.address
  operand := r.operand
  hash := r.hash

namespace Table

/-- Removes a reference and makes that known. -/
def detach (r : Reference) : Attempt Unit := do
  let e ← fetchEquate r.equate
  eraseReference r.id
  notify (.referenceRemoved (r.attachment e))
  trace (.detached (r.attachment e))

/-- Removes the given references in order. -/
def detachAll : List Reference → Attempt Unit
  | [] => return ()
  | r :: rest => do
    detach r
    detachAll rest

/-- Removes the equate `id` if no reference to it is left. -/
def prune (id : Key) : Attempt Unit := do
  if (← keysTo id).isEmpty then
    let some e ← fetchEquate id | return ()
    eraseEquate id
    trace (.pruned e.name)

/-- Prunes the given equates in order. -/
def pruneAll : List Key → Attempt Unit
  | [] => return ()
  | id :: rest => do
    prune id
    pruneAll rest

/-- The greatest operand index that a reference can have. -/
def maxOperand : Int := 32767

/-- Makes a reference to the equate `id` the only occupant of its slot. -/
def fillSlot (id : Key) (a : Address) (operand : Int) (hash : UInt64) :
    Attempt Reference := do
  unless 0 ≤ operand ∧ operand ≤ maxOperand do
    refuse (.operandOutOfRange operand)
  let some e ← fetchEquate id | refuse (.noSuchEquate id)
  unless a.Mappable do
    refuse (.unmappable a)
  let occupants := (← fetchAt a).filter fun r => r.slot = .of operand hash
  detachAll occupants
  let r ← storeReference a operand hash id
  notify (.referenceAdded (r.attachment e))
  trace (.attached (r.attachment e))
  pruneAll ((occupants.map Reference.equate).filter (· ≠ id))
  return r

/-- Removes the first reference to the equate `id` that passes the test, and the
equate if that was its last one.  The answer is false if none passes. -/
def emptySlot (id : Key) (test : Reference → Bool) : Attempt Bool := do
  match (← fetchTo id).find? test with
  | none => return false
  | some r => do
    detach r
    prune id
    return true

end Table

end Equates

/-
Annotation of a listing: every operand that holds a value of an enumerated type
gets a reference to an equate with the derived name of the value.
-/
import Equates.Scan
import Equates.Table.Edit

namespace Equates.Table

/-- Refers from the operand to the equate with the derived name. -/
def bindOperand (b : Binding) : Attempt Unit := do
  let e ← obtain b.name b.value
  let _ ← fillSlot e.id b.address b.operand 0

/-- Runs a scan over the table, with the monitor and the registry of the table.
Beside the outcome it answers with the numbers of instructions visited and of scalars
bound. -/
def scanTable (listing : Listing) (registry : TypeRegistry) (set : AddressSet)
    (type : EnumType) (parts : Bool) :
    Action (Except Diagnostic Outcome × Nat × Nat) := fun t =>
  let (r, s) := (Scan.run (fun _ b => (bindOperand b).run) listing set type parts).run.run
    { monitor := t.monitor, registry, client := t }
  ((r, s.visited, s.bound),
    { s.client with monitor := s.monitor, registry := some s.registry })

/-- Binds the operands in the set that hold a value of the type; with `parts`, the
parts of operands as well. -/
def annotate (set : AddressSet) (type : EnumType) (parts : Bool) : Attempt Outcome := do
  let t ← get
  let (some listing, some registry) := (t.listing, t.registry) | refuse .nothingToScan
  unless 1 ≤ type.length ∧ type.length ≤ 8 do
    refuse (.unsupportedLength type.name type.length)
  let (r, visited, bound) ← scanTable listing registry set type parts
  match r with
  | .ok outcome =>
    trace (.scanned type.name visited bound outcome)
    return outcome
  | .error d =>
    unless d.isStorageFailure do throw d
    report d
    trace (.scanFailed type.name)
    return .storageFailed

end Equates.Table

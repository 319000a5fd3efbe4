/-
Scans of a listing for the values of an enumerated type.

A scan visits the instructions of an address set in address order and hands every
scalar that matches the type to `bind`, with the derived name of the type's value,
the address and the operand index.  The type is resolved in the registry before
the first binding and never again; names carry the identity that the registry gave.

The scan stops at the first poll that asks it to, and at the first binding that
fails.  `bind` acts on a state of the client's choice, and may look into the registry
as it stands at the call.
-/
import Equates.Diagnostic
import Equates.EnumType
import Equates.Listing
import Equates.Monitor
import Equates.Name.Derived

namespace Equates

/-- A matching operand, with the name and the value of the equate to bind there. -/
structure Binding where
  name : String
  value : Int64
  address : Address
  operand : Nat
deriving DecidableEq, Repr

/-- The state of a running scan. -/
structure Scan (σ : Type) where
  monitor : Monitor
  registry : TypeRegistry
  client : σ
  /-- The registered form of the type, once a scalar has matched. -/
  registered : Option EnumType := none
  /-- The number of instructions visited. -/
  visited : Nat := 0
  /-- The number of scalars bound. -/
  bound : Nat := 0

abbrev ScanM (σ : Type) := ExceptT Diagnostic (StateM (Scan σ))

namespace Scan

variable {σ : Type} (bind : TypeRegistry → Binding → StateM σ (Except Diagnostic Unit))

/-- The registered form of the type, which is resolved at the first request. -/
def register (type : EnumType) : ScanM σ EnumType := do
  let s ← get
  match s.registered with
  | some known => return known
  | none => do
    let (known, registry) := s.registry.resolve type
    set { s with registry, registered := some known }
    return known

/-- Lets the client act on a binding. -/
def submit (b : Binding) : ScanM σ Unit := ExceptT.mk fun s =>
  let (r, client) := (bind s.registry b).run s.client
  (r, { s with client })

def bindScalar (type : EnumType) (a : Address) (operand : Nat) (s : Scalar) :
    ScanM σ Unit := do
  let known ← register type
  submit bind ⟨(DerivedName.mk known.id s.value).text, s.value, a, operand⟩
  modify fun st => { st with bound := st.bound + 1 }

/-- Binds the given scalars of the instruction at `a` in order. -/
def bindScalars (type : EnumType) (a : Address) : List (Nat × Scalar) → ScanM σ Unit
  | [] => return ()
  | (i, s) :: rest => do
    bindScalar bind type a i s
    bindScalars type a rest

/-- The scalars of an instruction that match the type, with their operand indices. -/
def matching (type : EnumType) (parts : Bool) (insn : Instruction) : List (Nat × Scalar) :=
  (insn.scalars parts).filter fun (_, s) => type.Matches s

def stopRequested : ScanM σ Bool :=
  modifyGet fun s => let (stop, m) := s.monitor.poll; (stop, { s with monitor := m })

/-- Visits the given instructions in order. -/
def visit (type : EnumType) (parts : Bool) : List Instruction → ScanM σ Outcome
  | [] => return .completed
  | insn :: rest => do
    if ← stopRequested then
      return .cancelled
    modify fun s => { s with visited := s.visited + 1 }
    bindScalars bind type insn.address (matching type parts insn)
    visit type parts rest

/-- Scans the instructions of the listing in the set. -/
def run (listing : Listing) (set : AddressSet) (type : EnumType) (parts : Bool) :
    ScanM σ Outcome := do
  modify fun s => { s with monitor := s.monitor.tell "Applying enum equates" }
  visit bind type parts (listing.within set)

end Scan

end Equates

/-
Listings: the decoded instructions of a program in address order.

An operand may be a single scalar, and it has a representation in parts, some of
them scalars and some of them text such as register names.  `Instruction.scalars`
lists the scalars of an instruction with the index of their operand: either the
operands that are scalars as a whole, or all scalar parts.
-/
import Equates.Address.Set
import Equates.Scalar

namespace Equates

/-- One element of the representation of an operand. -/
inductive OperandPart where
  | scalar (s : Scalar)
  | text (token : String)
deriving DecidableEq, Repr

/-- The scalar of a part that is one. -/
def OperandPart.scalar? : OperandPart → Option Scalar
  | scalar s => some s
  | text _ => none

structure Operand where
  /-- The scalar that the operand is as a whole, if it is one. -/
  scalar? : Option Scalar
  /-- The representation of the operand. -/
  parts : List OperandPart
deriving DecidableEq, Repr

namespace Operand

/-- An operand that is one scalar, and is written as one. -/
def whole (s : Scalar) : Operand :=
  ⟨some s, [.scalar s]⟩

/-- An operand that is no single scalar. -/
def compound (parts : List OperandPart) : Operand :=
  ⟨none, parts⟩

/-- The scalars of an operand: those among its parts with `parts`, and otherwise
only the operand itself if it is a scalar. -/
def scalars (parts : Bool) (o : Operand) : List Scalar :=
  if parts then o.parts.filterMap OperandPart.scalar? else o.scalar?.toList

end Operand

structure Instruction where
  address : Address
  operands : List Operand
deriving DecidableEq, Repr

/-- The scalars of the instruction in operand order, each with the index of its
operand. -/
def Instruction.scalars (insn : Instruction) (parts : Bool) : List (Nat × Scalar) :=
  insn.operands.zipIdx.flatMap fun (operand, i) => (operand.scalars parts).map (i, ·)

/-- The instructions of a program, in ascending address order and with one entry
for an address. -/
structure Listing where
  instructions : List Instruction := []

namespace Listing

/-- Adds an instruction to a sorted list.  At an address that has one already, the
operands go behind those that are there. -/
def insertInto (insn : Instruction) : List Instruction → List Instruction
  | [] => [insn]
  | i :: rest =>
    if i.address < insn.address then i :: insertInto insn rest
    else if i.address = insn.address then
      ⟨i.address, i.operands ++ insn.operands⟩ :: rest
    else insn :: i :: rest

def insert (l : Listing) (insn : Instruction) : Listing :=
  ⟨insertInto insn l.instructions⟩

def ofInstructions (l : List Instruction) : Listing :=
  l.foldl insert {}

/-- The instructions whose address is in the set. -/
def within (l : Listing) (set : AddressSet) : List Instruction :=
  l.instructions.filter fun insn => insn.address ∈ set

end Listing

end Equates

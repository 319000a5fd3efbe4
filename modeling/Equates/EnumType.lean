/-
Enumerated types and the registry that owns them.

An `EnumType` declares named values of a fixed width in bytes.  A scalar matches
the type if it has that width and equals one of the values there
(`EnumType.Matches`).  The width is counted in 32 bits, so that a length of
`2 ^ 29` bytes is a width of zero bits.

`TypeRegistry` stores types under their identity.  `TypeRegistry.add` stores a
type under a new identity, at a fixed distance from the declared one, unless
that identity is taken; `TypeRegistry.resolve` asks for a type and adds it only
if it is missing.  The registry counts both kinds of request.
-/
import Equates.Scalar
import Std.Data.ExtTreeMap

namespace Equates

structure EnumMember where
  name : String
  value : Int64
deriving DecidableEq, Repr

structure EnumType where
  id : UInt64
  name : String
  /-- The width in bytes. -/
  length : UInt32
  members : List EnumMember
deriving DecidableEq, Repr

namespace EnumType

/-- The declared values in the order of the members, repetitions included. -/
def values (type : EnumType) : List Int64 :=
  type.members.map EnumMember.value

/-- The name of the first member with the value `v`. -/
def memberName? (type : EnumType) (v : Int64) : Option String :=
  (type.members.find? fun m => m.value = v).map EnumMember.name

/-- The width of the type's values in bits. -/
def bitWidth (type : EnumType) : Nat :=
  (type.length * 8).toNat

/-- The scalar is one of the declared values, at the width of the type and with
the scalar's own signedness. -/
def Matches (type : EnumType) (s : Scalar) : Prop :=
  ∃ v ∈ type.values, s = .truncate type.bitWidth v.toUInt64 s.signed

instance (type : EnumType) (s : Scalar) : Decidable (type.Matches s) :=
  inferInstanceAs (Decidable (∃ v ∈ type.values, _))

end EnumType

structure TypeRegistry where
  types : Std.ExtTreeMap UInt64 EnumType := ∅
  /-- The distance between the declared identity of an added type and the one
  that it is stored under. -/
  idShift : UInt64 := 0
  /-- The number of look-ups so far. -/
  finds : Nat := 0
  /-- The number of requests to add a type so far. -/
  adds : Nat := 0

namespace TypeRegistry

/-- Stores a type under its own identity, in place of any earlier one. -/
def preload (r : TypeRegistry) (type : EnumType) : TypeRegistry :=
  { r with types := r.types.insert type.id type }

def find (r : TypeRegistry) (id : UInt64) : Option EnumType × TypeRegistry :=
  (r.types[id]?, { r with finds := r.finds + 1 })

/-- Stores the type under its shifted identity unless that is taken.  Answers with
the type that is stored there afterwards. -/
def add (r : TypeRegistry) (type : EnumType) : EnumType × TypeRegistry :=
  let shifted := { type with id := type.id + r.idShift }
  let r := { r with adds := r.adds + 1 }
  match r.types[shifted.id]? with
  | some known => (known, r)
  | none => (shifted, { r with types := r.types.insert shifted.id shifted })

/-- The registered form of a type, which is added if its identity is unknown. -/
def resolve (r : TypeRegistry) (type : EnumType) : EnumType × TypeRegistry :=
  match r.find type.id with
  | (some known, r) => (known, r)
  | (none, r) => r.add type

end TypeRegistry

end Equates

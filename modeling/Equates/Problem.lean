/-
The causes of failure.

Each `Problem` is one reason why an operation is refused or a storage call fails.
`Problem.diagnostic` gives its classification and its wording.
-/
import Equates.Address.Basic
import Equates.Diagnostic

namespace Equates

inductive Problem where
  /-- The name belongs to another equate. -/
  | nameTaken (name : String)
  | emptyName
  | blankName
  | noSuchEquate (id : Int)
  /-- The operand index is not in `[0, 32767]`. -/
  | operandOutOfRange (operand : Int)
  /-- The address has no storage key. -/
  | unmappable (address : Address)
  /-- The last destination of a move lies beyond the greatest offset. -/
  | destinationWraps
  /-- A destination of a move has no storage key. -/
  | destinationUnmappable (address : Address)
  /-- There is no listing or no type registry to scan with. -/
  | nothingToScan
  /-- The enumerated type is not one to eight bytes wide. -/
  | unsupportedLength (type : String) (length : UInt32)
  /-- The name index of the equate rows holds the name already. -/
  | nameIndexed (name : String)
  /-- There is no equate row to overwrite. -/
  | noEquateRow (id : Int)
  /-- There is no reference row to overwrite. -/
  | noReferenceRow (id : Int)
  /-- The address index holds a key of no address. -/
  | undecodableKey (key : Int)
  /-- A reference row holds a key of no address. -/
  | undecodableReference (id key : Int)
  /-- A reference row to be moved holds a key of no address. -/
  | undecodableMove (id : Int)
deriving DecidableEq, Repr

namespace Problem

def code : Problem → ErrorCode
  | nameTaken _ => .duplicateName
  | emptyName | blankName => .invalidName
  | noSuchEquate _ | operandOutOfRange _ | unmappable _ | destinationWraps
  | destinationUnmappable _ | nothingToScan | unsupportedLength .. => .invalidArgument
  | nameIndexed _ | noEquateRow _ | noReferenceRow _ | undecodableKey _
  | undecodableReference .. | undecodableMove _ => .storageFailure

def message : Problem → String
  | nameTaken name => name ++ " already exists for an equate"
  | emptyName => "equate name is empty"
  | blankName => "equate name is blank"
  | noSuchEquate id => "no equate with key " ++ toString id
  | operandOutOfRange operand => "operand index " ++ toString operand ++ " is out of range"
  | unmappable address => "address " ++ toString address ++ " has no storage key"
  | destinationWraps => "move destination wraps the address space"
  | destinationUnmappable address =>
    "move destination " ++ toString address ++ " has no storage key"
  | nothingToScan => "applying enum equates needs a listing and a type registry"
  | unsupportedLength type length =>
    "enum '" ++ type ++ "' has unsupported length " ++ toString length
  | nameIndexed name => "equate name index already holds '" ++ name ++ "'"
  | noEquateRow id => "no equate record " ++ toString id
  | noReferenceRow id => "no equate reference record " ++ toString id
  | undecodableKey key =>
    "reference table holds undecodable address key " ++ toString key
  | undecodableReference id key =>
    "reference " ++ toString id ++ " holds undecodable address key " ++ toString key
  | undecodableMove id => "reference " ++ toString id ++ " holds undecodable address key"

def diagnostic (p : Problem) : Diagnostic :=
  .error p.code p.message

end Problem

end Equates

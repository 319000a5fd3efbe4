/-
Names derived from a value of an enumerated type.

The name of value `v` of the type `t` is `dtID:t:v`, both numbers in decimal.
`DerivedName.ofText?` reads such names back: a tag, an unsigned 64-bit number and
a signed 64-bit number, separated by colons, and nothing else.  A name with the
tag that cannot be read still counts as derived (`DerivedName.hasTag`), and stands
for no type.

`DerivedName.typeId?` and `DerivedName.value?` read one of the two numbers, each of a
name of which the other can be read as well.

`badName v` is shown where no name for a value can be found.
-/
import Equates.Numeral

namespace Equates

structure DerivedName where
  typeId : UInt64
  value : Int64
deriving DecidableEq, Repr

namespace DerivedName

/-- What every derived name starts with. -/
def tag : List Char := ['d', 't', 'I', 'D', ':']

/-- The written form of a derived name. -/
def text (d : DerivedName) : String :=
  String.ofList tag ++ toString d.typeId ++ ":" ++ toString d.value

def hasTag (name : String) : Bool :=
  tag.isPrefixOf name.toList

/-- Reads an unsigned 64-bit number. -/
def readUnsigned? (cs : List Char) : Option UInt64 := do
  let n ← Numeral.ofDigits? cs
  if n < UInt64.size then some (.ofNat n) else none

/-- The least magnitude that a signed 64-bit number reaches below zero only. -/
def signedLimit : Nat := 0x8000000000000000

/-- Reads a signed 64-bit number; only a minus sign may stand before the digits. -/
def readSigned? : List Char → Option Int64
  | '-' :: cs => do
    let n ← Numeral.ofDigits? cs
    if n ≤ signedLimit then some (.ofInt (-n)) else none
  | cs => do
    let n ← Numeral.ofDigits? cs
    if n < signedLimit then some (.ofInt n) else none

/-- Reads the fields behind the tag. -/
def readFields? (cs : List Char) : Option DerivedName :=
  match cs.span (· ≠ ':') with
  | (type, _ :: value) => do some ⟨← readUnsigned? type, ← readSigned? value⟩
  | (_, []) => none

/-- The derived name with this written form. -/
def ofText? (name : String) : Option DerivedName :=
  if hasTag name then readFields? (name.toList.drop tag.length) else none

/-- What is written for the type and for the value in a name with the tag: the parts before and
behind the only colon that follows the tag. -/
def fields? (name : String) : Option (List Char × List Char) :=
  if hasTag name then
    match (name.toList.drop tag.length).span (· ≠ ':') with
    | (type, _ :: value) => if ':' ∈ value then none else some (type, value)
    | (_, []) => none
  else none

def typeId? (name : String) : Option UInt64 := do
  let (type, value) ← fields? name
  let _ ← readSigned? value
  readUnsigned? type

def value? (name : String) : Option Int64 := do
  let (type, value) ← fields? name
  let _ ← readUnsigned? type
  readSigned? value

/-- The text shown for a value without a name, its hexadecimal magnitude behind
`0x` and a mark. -/
def badName (v : Int64) : String :=
  "0x" ++ (if v < 0 then "-" else "") ++ Numeral.hex v.toInt.natAbs ++ " <BAD EQUATE>"

end DerivedName

end Equates

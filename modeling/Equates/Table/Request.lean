/-
The operations of an equate table as data.

A `Request` is one operation with its arguments, and `Request.run` carries it out.
What comes back is an `Answer`; an operation that ends with a diagnostic answers
`failed`.  A step of a walk is an operation too: it answers with the walk behind
the step.
-/
import Equates.Table.Annotate
import Equates.Table.Lookup
import Equates.Table.Range
import Equates.Table.Walk

namespace Equates

inductive Request where
  | define (name : String) (value : Int64)
  | ensure (name : String) (value : Int64)
  | equateNamed (name : String)
  | equateWithId (id : Key)
  | equateAt (address : Address) (operand : Int) (value : Int64)
  | equatesAt (address : Address) (operand : Option Int)
  | allEquates
  | equatesWithValue (value : Int64)
  | referencesAt (address : Address)
  | referencesTo (id : Key)
  | countReferences (id : Key)
  | step (walk : Walk)
  | drain (walk : Walk)
  | attach (id : Key) (address : Address) (operand : Int) (hash : UInt64)
  | detachOperand (id : Key) (address : Address) (operand : Int)
  | detachHash (id : Key) (address : Address) (hash : UInt64)
  | remove (name : String)
  | rename (id : Key) (name : String)
  | clear (first last : Address)
  | move (source target : Address) (length : UInt64)
  | annotate (set : AddressSet) (type : EnumType) (parts : Bool)
  | dropCaches
  | label (name : String) (value : Int64)
deriving DecidableEq, Repr

inductive Answer where
  | done
  | failed (d : Diagnostic)
  | equate (e : Equate)
  | equate? (e : Option Equate)
  | equates (l : List Equate)
  | reference (r : Reference)
  | references (l : List Reference)
  | count (n : Nat)
  | stepped (a : Option Address) (walk : Walk)
  | drained (l : List Address) (walk : Walk)
  | flag (b : Bool)
  | outcome (o : Outcome)
  | text (s : String)
deriving DecidableEq, Repr

/-- The answer of an operation that may end with a diagnostic. -/
def Attempt.answer {α : Type} (attempt : Attempt α) (f : α → Answer) : Action Answer := do
  match ← attempt.run with
  | .ok a => return f a
  | .error d => return .failed d

/-- Carries out the operation. -/
def Request.run : Request → Action Answer
  | define name value => (Table.define name value).answer .equate
  | ensure name value => (Table.ensure name value).answer .equate
  | equateNamed name => .equate? <$> Table.equateNamed name
  | equateWithId id => .equate? <$> Table.equateWithId id
  | equateAt a operand value => .equate? <$> Table.equateAt a operand value
  | equatesAt a operand => .equates <$> Table.equatesAt a operand
  | allEquates => .equates <$> Table.allEquates
  | equatesWithValue value => .equates <$> Table.equatesWithValue value
  | referencesAt a => .references <$> Table.referencesAt a
  | referencesTo id => .references <$> Table.referencesTo id
  | countReferences id => .count <$> Table.countReferences id
  | step walk => do
    let (a, rest) ← walk.next
    return .stepped a rest
  | drain walk => do
    let (l, rest) ← walk.drain
    return .drained l rest
  | attach id a operand hash => (Table.attach id a operand hash).answer .reference
  | detachOperand id a operand => .flag <$> Table.detachOperand id a operand
  | detachHash id a hash => .flag <$> Table.detachHash id a hash
  | remove name => .flag <$> Table.remove name
  | rename id name => (Table.rename id name).answer .equate
  | clear first last => .outcome <$> Table.clear first last
  | move source target length => (Table.move source target length).answer .outcome
  | annotate set type parts => (Table.annotate set type parts).answer .outcome
  | dropCaches => do
    Table.dropCaches
    return .done
  | label name value => .text <$> Table.label name value

end Equates

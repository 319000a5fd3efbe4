/-
Fault plans built call by call.

`Table.inject` lets the next calls of one kind go through, fails the ones after
them, and leaves the plan for all other kinds as it is.
-/
import Equates.Table.Basic

namespace Equates

/-- The number of calls of a kind in a history. -/
def countCalls (calls : List CallRecord) (call : StorageCall) : Nat :=
  calls.countP fun r => r.call = call

namespace Table

/-- The `skip` next calls of the given kind go through, and the `count` calls after
them do not, or none after them if there is no `count`. -/
def inject (t : Table) (call : StorageCall) (skip : Nat) (count : Option Nat)
    (fault : Fault) : Table :=
  let before := countCalls t.calls call
  { t with
    plan := fun calls c =>
      if c = call then
        let made := countCalls calls call - before
        if skip ≤ made ∧ count.all (made < skip + ·) then some fault else none
      else t.plan calls c }

/-- Every call goes through from now on. -/
def clearFaults (t : Table) : Table :=
  { t with plan := .none }

end Table

end Equates

/-
Monitors of bulk operations, and how such an operation ends.

A bulk operation polls its monitor before every step and stops at the first poll
that asks it to.  A monitor with the allowance `n` lets `n` polls pass and
answers every later one with a request to stop; without an allowance it never
asks.  It also keeps the messages and the progress that it was told.
-/
namespace Equates

/-- How a bulk operation ended. -/
inductive Outcome where
  | completed
  /-- The monitor asked to stop; what was done before stays done. -/
  | cancelled
  /-- A storage call failed; what was done before stays done. -/
  | storageFailed
deriving DecidableEq, Repr

def Outcome.label : Outcome → String
  | .completed => "completed"
  | .cancelled => "cancelled"
  | .storageFailed => "storage-failed"

structure Monitor where
  /-- The number of polls that do not ask to stop, if it is limited. -/
  allowance : Option Nat := none
  /-- The number of polls so far. -/
  polls : Nat := 0
  messages : Array String := #[]
  /-- The pairs of steps done and steps in all. -/
  progress : Array (Nat × Nat) := #[]
deriving DecidableEq, Repr

namespace Monitor

/-- Counts a poll.  The answer is true if the operation has to stop. -/
def poll (m : Monitor) : Bool × Monitor :=
  (m.allowance.any (· ≤ m.polls), { m with polls := m.polls + 1 })

def tell (m : Monitor) (message : String) : Monitor :=
  { m with messages := m.messages.push message }

def advance (m : Monitor) (done total : Nat) : Monitor :=
  { m with progress := m.progress.push (done, total) }

end Monitor

end Equates

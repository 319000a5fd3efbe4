/-
Operations on whole ranges of addresses: clearing and moving.

Both first collect what is in the range and then go through it record by record,
polling the monitor before each step.  What was done before a request to stop or
a failing storage call stays done.
-/
import Equates.Table.Cursor
import Equates.Table.Slot

namespace Equates.Table

/-! ### Clearing -/

/-- Removes the given references in order, and after each the equate that has lost
its last reference.  `done` of `total` are removed already; the answer tells how
many are in the end. -/
def removeEach (total done : Nat) :
    List Reference → Action (Nat × Except Diagnostic Outcome)
  | [] => do
    advanceMonitor total total
    return (done, .ok .completed)
  | r :: rest => do
    if ← poll then
      return (done, .ok .cancelled)
    advanceMonitor done total
    match ← (detach r).run with
    | .error d => return (done, .error d)
    | .ok () =>
      match ← (prune r.equate).run with
      | .error d => return (done + 1, .error d)
      | .ok () => removeEach total (done + 1) rest

/-- Removes the references in a key window. -/
def clearWindow (w : KeyWindow) : Action (Nat × Except Diagnostic Outcome) := do
  tellMonitor "Deleting equate references"
  match ← (Cursor.gather fetchAt [w]).run with
  | .error d => return (0, .error d)
  | .ok none => return (0, .ok .cancelled)
  | .ok (some doomed) => removeEach doomed.length 0 doomed

/-- Removes the references from `first` to `last` and the equates that lose their
last one. -/
def clear (first last : Address) : Action Outcome := do
  match KeyWindow.between? first last with
  | none => return .completed
  | some w =>
    match ← clearWindow w with
    | (removed, .ok outcome) =>
      trace (.cleared first last removed outcome)
      return outcome
    | (removed, .error d) =>
      report d
      trace (.cleared first last removed .storageFailed)
      return .storageFailed

/-! ### Moving -/

/-- The greatest offset. -/
def lastOffset : UInt64 := 0xFFFFFFFFFFFFFFFF

/-- The last of the `length` addresses from `a` on; the end of the space if they do
not fit. -/
def lastOf (a : Address) (length : UInt64) : Address :=
  if lastOffset - a.offset < length - 1 then ⟨a.space, lastOffset⟩
  else ⟨a.space, a.offset + (length - 1)⟩

/-- The address as far behind `target` as `a` is behind `source`. -/
def translate (source target a : Address) : Address :=
  ⟨target.space, target.offset + (a.offset - source.offset)⟩

/-- Moves a row from its address to the translated one, whose key is taken as it comes. -/
def moveRow (source target : Address) (r : ReferenceRow) : Attempt Unit := do
  let some a := Address.ofKey? r.addressKey | refuse (.undecodableMove r.id)
  let k := (translate source target a).key?.getD Address.noKey.toInt
  changeReferences .update (·.update { r with addressKey := k })
  uncacheReference r.id

/-- Moves the given rows in order; `done` of `total` are moved already. -/
def moveEach (source target : Address) (total done : Nat) :
    List ReferenceRow → Attempt Outcome
  | [] => do
    advanceMonitor total total
    return .completed
  | r :: rest => do
    if ← poll then
      return .cancelled
    advanceMonitor done total
    moveRow source target r
    moveEach source target total (done + 1) rest

/-- Refuses a destination that is not mappable as a whole. -/
def checkDestination (target : Address) (length : UInt64) : Attempt Unit := do
  if lastOffset - target.offset < length - 1 then
    refuse .destinationWraps
  unless target.Mappable ∧ (lastOf target length).Mappable do
    refuse (.destinationUnmappable target)

/-- Moves the references in a key window. -/
def moveWindow (source target : Address) (w : KeyWindow) : Attempt Outcome := do
  tellMonitor "Moving equate references"
  match ← Cursor.gather (fun a => do fetchRows (← keysAt a)) [w] with
  | none => return .cancelled
  | some rows => moveEach source target rows.length 0 rows

/-- Moves the references at the `length` addresses from `source` on to the addresses
from `target` on. -/
def relocate (source target : Address) (length : UInt64) : Attempt Outcome := do
  if length = 0 then
    return .completed
  checkDestination target length
  dropReferenceCache
  match KeyWindow.between? source (lastOf source length) with
  | none => return .completed
  | some w => moveWindow source target w

/-- Moves references and makes the operation known.  A storage failure is reported
and turns into an outcome. -/
def move (source target : Address) (length : UInt64) : Attempt Outcome := do
  dropEquateCache
  let outcome ← tryCatch (relocate source target length) fun d => do
    unless d.isStorageFailure do throw d
    report d
    return .storageFailed
  trace (.moved source target length outcome)
  return outcome

end Equates.Table

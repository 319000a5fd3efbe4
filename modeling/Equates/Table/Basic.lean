/-
The state of an equate table and the storage calls that every operation is made of.

A `Table` holds the stored rows, the two record caches in front of them, the
journal and what a table works with: the listing and the type registry of its
program, and the monitor of the running bulk operation.

Storage may fail.  The `FaultPlan` of a table decides, from all calls made so far
and from the call at hand, whether the call goes through; a call that does not go
through leaves the rows alone.  `storageCall` is the only way to the rows, and
keeps the history of calls.

* `Action` — operations that always answer;
* `Attempt` — operations that may end with a diagnostic, which keeps the effects
  that came before it.
-/
import Equates.Cache
import Equates.EnumType
import Equates.Journal
import Equates.Listing
import Equates.Rows.Equate
import Equates.Rows.Reference

namespace Equates

/-- The calls on the stored equates. -/
inductive EquateCall where
  | create
  | hasName
  | read
  | idOf
  | update
  | erase
  | list
deriving DecidableEq, Repr

/-- The calls on the stored references. -/
inductive ReferenceCall where
  | create
  | read
  | update
  | erase
  | keysAt
  | keysTo
  | firstAddress
deriving DecidableEq, Repr

inductive StorageCall where
  | equates (c : EquateCall)
  | references (c : ReferenceCall)
deriving DecidableEq, Repr

/-- What becomes of a call that does not go through. -/
structure Fault where
  /-- The diagnostic that the call ends with. -/
  diagnostic : Diagnostic
  /-- The call answers as if it had found nothing, or changed nothing, instead of
  failing.  A call that has to answer with a new row fails all the same. -/
  silent : Bool := false
deriving DecidableEq, Repr

/-- A call that was made, with the diagnostic that it failed with. -/
structure CallRecord where
  call : StorageCall
  failure : Option Diagnostic
deriving DecidableEq, Repr

/-- Decides which calls do not go through, from the calls made so far, newest
first, and the call at hand. -/
abbrev FaultPlan := List CallRecord → StorageCall → Option Fault

/-- Every call goes through. -/
def FaultPlan.none : FaultPlan := fun _ _ => Option.none

structure Table where
  equates : EquateRows := {}
  references : ReferenceRows := {}
  equateCache : Cache Equate := .empty 100
  referenceCache : Cache ReferenceRow := .empty 100
  /-- The monitor of the running bulk operation. -/
  monitor : Monitor := {}
  listing : Option Listing := none
  registry : Option TypeRegistry := none
  plan : FaultPlan := .none
  /-- The storage calls so far, newest first. -/
  calls : List CallRecord := []
  /-- What was made known so far, newest first. -/
  journal : Journal := []

/-- An operation on a table that always has an answer. -/
abbrev Action := StateM Table

/-- An operation on a table that may end with a diagnostic. -/
abbrev Attempt := ExceptT Diagnostic Action

namespace Table

/-- An empty table whose caches have the given capacities. -/
def withCaches (equates references : Nat) : Table where
  equateCache := .empty equates
  referenceCache := .empty references

def recordCall (t : Table) (call : StorageCall) (failure : Option Diagnostic) : Table :=
  { t with calls := ⟨call, failure⟩ :: t.calls }

end Table

/-- Makes a storage call: `act` is what it does when it goes through, where it may still end
with a problem, and `silence` its answer when it is silently dropped. -/
def storageCall {α : Type} (call : StorageCall) (silence : Option α)
    (act : Table → Except Problem α × Table) : Attempt α :=
  ExceptT.mk fun t =>
    match t.plan t.calls call with
    | none =>
      match act t with
      | (.ok a, t') => (.ok a, t'.recordCall call none)
      | (.error p, t') => (.error p.diagnostic, t'.recordCall call p.diagnostic)
    | some fault =>
      match fault.silent, silence with
      | true, some a => (.ok a, t.recordCall call none)
      | _, _ => (.error fault.diagnostic, t.recordCall call fault.diagnostic)

/-- A call that reads the stored equates. -/
def queryEquates {α : Type} (call : EquateCall) (silence : α) (f : EquateRows → α) :
    Attempt α :=
  storageCall (.equates call) (some silence) fun t => (.ok (f t.equates), t)

/-- A call that reads the stored references. -/
def queryReferences {α : Type} (call : ReferenceCall) (silence : α)
    (f : ReferenceRows → α) : Attempt α :=
  storageCall (.references call) (some silence) fun t => (.ok (f t.references), t)

/-- A call that changes the stored equates. -/
def changeEquates (call : EquateCall) (f : EquateRows → Except Problem Unit × EquateRows) :
    Attempt Unit :=
  storageCall (.equates call) (some ()) fun t =>
    let (done, rows) := f t.equates
    (done, { t with equates := rows })

/-- A call that changes the stored references. -/
def changeReferences (call : ReferenceCall)
    (f : ReferenceRows → Except Problem Unit × ReferenceRows) : Attempt Unit :=
  storageCall (.references call) (some ()) fun t =>
    let (done, rows) := f t.references
    (done, { t with references := rows })

/-- Ends the operation with the diagnostic of a problem. -/
def refuse {α : Type} (p : Problem) : Attempt α :=
  throw p.diagnostic

/-! ### Entries of the journal -/

def enter (e : Entry) : Action Unit :=
  modify fun t => { t with journal := e :: t.journal }

def notify (c : Change) : Action Unit := enter (.changed c)

def trace (l : TraceLine) : Action Unit := enter (.traced l)

/-- Hands the diagnostic to the error handler. -/
def report (d : Diagnostic) : Action Unit := enter (.failed d)

/-! ### Diagnostics at the border of the table -/

/-- Reports a diagnostic of any kind and answers with `fallback`. -/
def Attempt.orElseReport {α : Type} (attempt : Attempt α) (fallback : α) : Action α := do
  match ← attempt.run with
  | .ok a => return a
  | .error d => do
    report d
    return fallback

/-- Reports a storage failure, and passes every diagnostic on. -/
def Attempt.reportingFailure {α : Type} (attempt : Attempt α) : Attempt α :=
  tryCatch attempt fun d => do
    if d.isStorageFailure then report d
    throw d

/-! ### The monitor -/

/-- Polls the monitor; true asks to stop. -/
def poll : Action Bool :=
  modifyGet fun t => let (stop, m) := t.monitor.poll; (stop, { t with monitor := m })

def tellMonitor (message : String) : Action Unit :=
  modify fun t => { t with monitor := t.monitor.tell message }

def advanceMonitor (done total : Nat) : Action Unit :=
  modify fun t => { t with monitor := t.monitor.advance done total }

end Equates

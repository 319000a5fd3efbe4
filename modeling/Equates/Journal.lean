/-
The journal of a table: what its operations make known, newest entry first.

There are three kinds of entries.  A `Change` says how the stored equates or
references changed and is meant for listeners; moves of references make none.  A
`TraceLine` describes a mutation for a reader.  A failure is the diagnostic of a
failing storage call that was handed to the error handler.

`Console` says where trace lines and failures are shown.  A failure is also
traced.
-/
import Equates.Diagnostic
import Equates.Address.Basic
import Equates.Monitor

namespace Equates

/-- A reference as listeners see it, with the name and the value of its equate. -/
structure Attachment where
  name : String
  value : Int64
  address : Address
  operand : Int
  hash : UInt64
deriving DecidableEq, Repr

/-- A change of the stored equates or references. -/
inductive Change where
  | equateAdded (name : String) (value : Int64)
  | equateRemoved (name : String) (value : Int64)
  | equateRenamed (old new : String)
  | referenceAdded (a : Attachment)
  | referenceRemoved (a : Attachment)
deriving DecidableEq, Repr

/-- A description of a mutation. -/
inductive TraceLine where
  | created (name : String) (value : Int64)
  | attached (a : Attachment)
  | detached (a : Attachment)
  | pruned (name : String)
  | removed (name : String)
  | renamed (old new : String)
  | cleared (first last : Address) (removed : Nat) (outcome : Outcome)
  | moved (source target : Address) (length : UInt64) (outcome : Outcome)
  | scanned (type : String) (visited bound : Nat) (outcome : Outcome)
  | scanFailed (type : String)
  | failed (message : String)
deriving DecidableEq, Repr

namespace TraceLine

/-- The place of a reference: its name, address, operand index and hash. -/
def renderAttachment (a : Attachment) : String :=
  "'" ++ a.name ++ "' at " ++ toString a.address ++ " op " ++ toString a.operand
    ++ " hash 0x" ++ Numeral.hex a.hash.toNat

def body : TraceLine → String
  | created name value => "create '" ++ name ++ "' = " ++ toString value
  | attached a => "attach " ++ renderAttachment a
  | detached a => "detach " ++ renderAttachment a
  | pruned name => "prune '" ++ name ++ "'"
  | removed name => "remove '" ++ name ++ "'"
  | renamed old new => "rename '" ++ old ++ "' -> '" ++ new ++ "'"
  | cleared first last count outcome =>
    "delete-range " ++ toString first ++ ".." ++ toString last ++ " removed=" ++ toString count
      ++ " " ++ outcome.label
  | moved source target length outcome =>
    "move-range " ++ toString source ++ " -> " ++ toString target ++ " length="
      ++ toString length ++ " " ++ outcome.label
  | scanned type visited bound outcome =>
    "apply-enum '" ++ type ++ "' visited=" ++ toString visited ++ " bound=" ++ toString bound
      ++ " " ++ outcome.label
  | scanFailed type => "apply-enum '" ++ type ++ "' " ++ Outcome.storageFailed.label
  | failed message => "storage failure: " ++ message

def render (l : TraceLine) : String :=
  "[equates] " ++ l.body ++ "\n"

end TraceLine

inductive Entry where
  | changed (c : Change)
  | traced (l : TraceLine)
  | failed (d : Diagnostic)
deriving DecidableEq, Repr

/-- Newest entry first. -/
abbrev Journal := List Entry

/-- Where trace lines are written. -/
inductive TraceTarget where
  | stream
  | errorStream
deriving DecidableEq, Repr

/-- Where a table shows its trace lines and failures. -/
structure Console where
  /-- No target: the table is not traced. -/
  trace : Option TraceTarget := none
  /-- Failures are collected by a handler; otherwise they are printed on the error
  stream. -/
  collects : Bool := true
deriving DecidableEq, Repr

namespace Entry

def change? : Entry → Option Change
  | changed c => some c
  | _ => none

def failure? : Entry → Option Diagnostic
  | failed d => some d
  | _ => none

/-- The line that the entry adds to the trace. -/
def traceText : Entry → String
  | changed _ => ""
  | traced l => l.render
  | failed d => (TraceLine.failed d.message).render

/-- What the entry adds to the error stream: its trace line if the trace goes
there, then the failure if no handler collects it. -/
def errorText (console : Console) (e : Entry) : String :=
  (if console.trace = some .errorStream then e.traceText else "")
    ++ (if console.collects then "" else (e.failure?.map Diagnostic.render).getD "")

end Entry

namespace Journal

/-- The changes, oldest first. -/
def changes (j : Journal) : List Change :=
  (j.filterMap Entry.change?).reverse

/-- The failures handed to the error handler, oldest first. -/
def failures (j : Journal) : List Diagnostic :=
  (j.filterMap Entry.failure?).reverse

/-- The failures that a collecting handler receives. -/
def collected (console : Console) (j : Journal) : List Diagnostic :=
  if console.collects then failures j else []

/-- The text on the trace stream. -/
def streamText (console : Console) (j : Journal) : String :=
  if console.trace = some .stream then String.join (j.reverse.map Entry.traceText) else ""

/-- The text on the error stream. -/
def errorText (console : Console) (j : Journal) : String :=
  String.join (j.reverse.map (Entry.errorText console))

end Journal

end Equates

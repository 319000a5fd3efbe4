/-
Diagnostics: what an operation says when it does not succeed.

A `Diagnostic` has a severity, a classification and a text.  Every failing
operation of the library returns one; `Diagnostic.render` is the one place that
lays a diagnostic out as a line.  `DiagnosticLog` collects diagnostics in the
order in which they arrive and counts them by severity and by classification.
-/
namespace Equates

/-- How serious a diagnostic is. -/
inductive Severity where
  | note
  | warning
  | error
deriving DecidableEq, Repr

/-- The word for a severity that starts a rendered diagnostic. -/
def Severity.label : Severity → String
  | .note => "note"
  | .warning => "warning"
  | .error => "error"

/-- What kind of failure a diagnostic describes. -/
inductive ErrorCode where
  /-- No failure class: an informational message. -/
  | unclassified
  /-- The name belongs to another equate. -/
  | duplicateName
  /-- The name is empty or blank. -/
  | invalidName
  /-- An unknown key, an address without a key, or a similar misuse. -/
  | invalidArgument
  /-- A storage call failed. -/
  | storageFailure
  /-- A bulk operation was stopped by its monitor. -/
  | cancelled
deriving DecidableEq, Repr

/-- The spelling of a classification. -/
def ErrorCode.label : ErrorCode → String
  | .unclassified => "none"
  | .duplicateName => "duplicate-name"
  | .invalidName => "invalid-name"
  | .invalidArgument => "invalid-argument"
  | .storageFailure => "storage-failure"
  | .cancelled => "cancelled"

structure Diagnostic where
  severity : Severity
  code : ErrorCode
  message : String
deriving DecidableEq, Repr

namespace Diagnostic

/-- An error of the given class. -/
def error (code : ErrorCode) (message : String) : Diagnostic :=
  ⟨.error, code, message⟩

/-- Whether the diagnostic reports a failing storage call. -/
def isStorageFailure (d : Diagnostic) : Bool :=
  d.code = .storageFailure

/-- One line, `severity[class]: message`; the bracket is left out where there
is no failure class. -/
def render (d : Diagnostic) : String :=
  d.severity.label ++ (if d.code = .unclassified then "" else "[" ++ d.code.label ++ "]")
    ++ ": " ++ d.message ++ "\n"

end Diagnostic

/-- Diagnostics in order of arrival. -/
structure DiagnosticLog where
  entries : Array Diagnostic := #[]

namespace DiagnosticLog

def report (log : DiagnosticLog) (d : Diagnostic) : DiagnosticLog :=
  ⟨log.entries.push d⟩

/-- The number of diagnostics of severity `s`. -/
def countSeverity (log : DiagnosticLog) (s : Severity) : Nat :=
  log.entries.countP fun d => d.severity = s

/-- The number of diagnostics of class `code`. -/
def countCode (log : DiagnosticLog) (code : ErrorCode) : Nat :=
  log.entries.countP fun d => d.code = code

/-- All lines, oldest first. -/
def render (log : DiagnosticLog) : String :=
  log.entries.foldl (fun text d => text ++ d.render) ""

def newest? (log : DiagnosticLog) : Option Diagnostic :=
  log.entries.back?

end DiagnosticLog

end Equates

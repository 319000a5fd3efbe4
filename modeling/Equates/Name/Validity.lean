/-
Names that an equate may have: those with at least one visible byte.

The test knows the six ASCII blanks.  A character outside ASCII is never blank.
-/
import Equates.Problem

namespace Equates.Name

/-- Space, tab, line feed, vertical tab, form feed and carriage return. -/
def isBlankChar (c : Char) : Bool :=
  c = ' ' || ('\x09' ≤ c && c ≤ '\x0d')

/-- A name of blanks only, among them the empty name. -/
def Blank (name : String) : Prop :=
  ∀ c ∈ name.toList, isBlankChar c

instance (name : String) : Decidable (Blank name) :=
  List.decidableBAll (fun c => isBlankChar c) name.toList

/-- Refuses blank names; an empty one has a message of its own. -/
def validate (name : String) : Except Problem Unit :=
  if name = "" then .error .emptyName
  else if Blank name then .error .blankName
  else .ok ()

end Equates.Name

/-
Equates: named integer constants and the code locations that refer to them.
-/
import Equates.Table.Faults
import Equates.Table.Request
import Equates.Proofs.Cache
import Equates.Proofs.Cache.Recency
import Equates.Proofs.Name.Validity
import Equates.Proofs.Name.Derived
import Equates.Proofs.Name.Grammar
import Equates.Proofs.Scalar
import Equates.Proofs.EnumType
import Equates.Proofs.Address.Key
import Equates.Proofs.Address.Window
import Equates.Proofs.Address.Set
import Equates.Proofs.Address.Contains
import Equates.Proofs.Address.Canonical
import Equates.Proofs.Address.Count
import Equates.Proofs.Address.Packing
import Equates.Proofs.Rows.Index
import Equates.Proofs.Rows.Equate
import Equates.Proofs.Rows.Reference
import Equates.Proofs.Rows.Names
import Equates.Proofs.Rows.Filing
import Equates.Proofs.Store.Effect
import Equates.Proofs.Store.Filling
import Equates.Proofs.Table.Basic
import Equates.Proofs.Table.Halts
import Equates.Proofs.Table.Prompt
import Equates.Proofs.Table.Requests
import Equates.Proofs.Exclusivity
import Equates.Proofs.Integrity
import Equates.Proofs.Pruning
import Equates.Proofs.Invisibility
import Equates.Proofs.Coherence
import Equates.Proofs.Catalogue
import Equates.Proofs.Reconstruction
import Equates.Proofs.Failures
import Equates.Proofs.Refusals
import Equates.Proofs.Walks
import Equates.Proofs.Draining
import Equates.Proofs.Visits
import Equates.Proofs.Submission
import Equates.Proofs.Calls
import Equates.Proofs.Bindings
import Equates.Proofs.Table.Annotate
import Equates.Proofs.Annotation
import Equates.Proofs.Dictionary
import Equates.Proofs.Relocation
import Equates.Proofs.Interruption
import Equates.Proofs.Clearance
import Equates.Proofs.Register
import Equates.Proofs.Replacement
import Equates.Proofs.Detachment
import Equates.Proofs.Removal
import Equates.Proofs.Orphans
import Equates.Proofs.Rescan
import Equates.Proofs.Labels

/-
Referential integrity: every stored reference belongs to a stored equate.

The one theorem here is `Session.stored_reference_has_equate`: it holds behind every
session, whichever storage calls fail and wherever a monitor asks to stop.  An equate
goes only where no reference to it is left, and a reference is stored only for an equate
that is there, so each single effect keeps the integrity
(`Effect.Fits.integral`); where an operation breaks off, it has performed some of its
effects and no other.
-/
import Equates.Proofs.Session

namespace Equates

namespace Store

/-- Every stored reference belongs to a stored equate. -/
def Integral (s : Store) : Prop :=
  ∀ r ∈ s.references, ∃ e, s.equates.get? r.equate = some e

theorem integral_empty {s : Store} (h : s.references = {}) : s.Integral := by
  intro r hr
  rw [h, ReferenceRows.mem_def, ReferenceRows.get?_empty] at hr
  cases hr

theorem Integral.exists_equate {s : Store} (h : s.Integral) (hs : s.Sound) {r : Reference}
    (hr : s.Refers r) : ∃ e ∈ s.equates, e.id = r.equate := by
  obtain ⟨row, hrow, hd⟩ := hr
  obtain ⟨e, he⟩ := h row hrow
  rw [← (ReferenceRow.decode_eq_ok_iff.mp hd).2.2.2.2] at he
  exact ⟨e, hs.equates.mem_of_get? he, hs.equates.id_eq he⟩

/-- An equate without references may go. -/
theorem Integral.withoutEquate {s : Store} (h : s.Integral) {e : Equate}
    (he : ∀ r ∈ s.references, r.equate ≠ e.id) : (s.withoutEquate e).Integral := by
  intro r hr
  obtain ⟨e', he'⟩ := h r hr
  refine ⟨e', ?_⟩
  rw [get?_withoutEquate, if_neg (he r hr)]
  exact he'

end Store

/-- Every effect in order keeps the integrity. -/
theorem Effect.Fits.integral {owed : List Key} {s : Store} {x : Effect} (hs : s.Sound)
    (hx : x.Fits owed s) (h : s.Integral) : (x.apply s).Integral := by
  cases x with
  | define name value =>
    obtain ⟨rows, hc, happ⟩ := apply_define hx
    rw [happ]
    intro r hr
    obtain ⟨e, he⟩ := h r hr
    refine ⟨e, (EquateRows.get?_create hc r.equate).trans ?_⟩
    -- The new equate does not take the key of an old one.
    rw [if_neg (ne_of_lt (hs.equates.lt_next he))]
    exact he
  | relabel e name =>
    obtain ⟨rows, hu, happ⟩ := apply_relabel hx
    rw [happ]
    intro r hr
    obtain ⟨e', he'⟩ := h r hr
    rw [EquateRows.get?_update hu]
    split
    · -- The renamed equate keeps its key.
      exact ⟨_, rfl⟩
    · exact ⟨e', he'⟩
  | discard e => exact h.withoutEquate hx.2
  | settle id =>
    obtain ⟨e, he, hk, happ⟩ | ⟨-, happ⟩ := s.apply_settle id
    · rw [happ]
      refine h.withoutEquate fun r hr => ?_
      rw [hs.equates.id_eq he]
      exact hs.references.keysTo_eq_nil_iff.mp hk r hr
    · rw [happ]
      exact h
  | attach e a operand hash =>
    obtain ⟨k, hk, happ⟩ := apply_attach hx
    rw [happ]
    intro r hr
    obtain rfl | hr := (Store.mem_references_withReference hs e a k operand hash).mp hr
    · exact ⟨e, hx.1⟩
    · exact h r hr
  | detach r =>
    intro r' hr'
    exact h r' ((Store.mem_references_withoutReference r).mp hr').1
  | rekey r key =>
    obtain ⟨rows, hu, happ⟩ := apply_rekey hx
    have hget := get?_apply_rekey hx
    rw [happ] at hget ⊢
    intro r' hr'
    rw [ReferenceRows.mem_def, hget] at hr'
    split at hr'
    · cases hr'
      exact h r hx.1
    · exact h r' hr'

namespace Session

theorem integral {t : Table} (ht : t.Sound) (h : t.store.Integral) (l : List Step) :
    (play t l).store.Integral := by
  induction l generalizing t with
  | nil => exact h
  | cons x l ih =>
    have hx := x.settles ht
    refine ih hx.sound (hx.preserves (x.sound_start ht) ?_ h)
    exact fun hs hfits _ hint => hfits.integral hs hint

/-- Behind every session, whichever storage calls fail openly, the equate key of every
stored reference is the key of a stored equate. -/
theorem stored_reference_has_equate {plan : FaultPlan} (hplan : plan.Loud)
    (equates references : Nat) (listing : Option Listing) (registry : Option TypeRegistry)
    (l : List Step) {id : Key} {r : ReferenceRow}
    (hr : (play (Table.opened equates references plan listing registry) l).references.get? id
      = some r) :
    ∃ e, (play (Table.opened equates references plan listing registry) l).equates.get? r.equate
      = some e ∧ e.id = r.equate := by
  have hopened := Table.sound_opened hplan equates references listing registry
  have hsound := sound hopened l
  have hmem := hsound.store.references.mem_of_get? hr
  obtain ⟨e, he⟩ := integral hopened (Store.integral_empty rfl) l r hmem
  exact ⟨e, he, hsound.store.equates.id_eq he⟩

/-- No equate row is ever removed. -/
def failingErasure : FaultPlan := fun _ call =>
  if call = .equates .erase then some { diagnostic := .error .storageFailure "no erasure" }
  else none

theorem loud_failingErasure : failingErasure.Loud :=
  FaultPlan.loud_ite _ _

/-- The second equate displaces the first, which is then removed. -/
def displacement : List Step :=
  [⟨{}, .define "one" 1⟩, ⟨{}, .define "two" 2⟩, ⟨{}, .attach 1 ⟨0, 16⟩ 0 0⟩,
    ⟨{}, .attach 2 ⟨0, 16⟩ 0 0⟩, ⟨{}, .remove "one"⟩]

theorem stored_reference_has_equate_displacement :
    failingErasure.Loud ∧
      (play (Table.opened 1 0 failingErasure none none) displacement).references.get? 2
        = some ⟨2, 16, 0, 0, 2⟩ ∧
      ∃ e, (play (Table.opened 1 0 failingErasure none none) displacement).equates.get? 2
        = some e ∧ e.id = 2 := by
  have hr : (play (Table.opened 1 0 failingErasure none none) displacement).references.get? 2
      = some ⟨2, 16, 0, 0, 2⟩ := by decide +kernel
  have he := stored_reference_has_equate loud_failingErasure 1 0 none none displacement hr
  exact ⟨loud_failingErasure, hr, he⟩

end Session

end Equates

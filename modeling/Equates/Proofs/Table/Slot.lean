/-
What the operations on slots and equates do to the store.

* `Table.fillSlot_enacts` — a slot is emptied, filled and what was displaced is settled;
* `Table.emptySlot_enacts` — a reference that passes the test goes, and its equate if
  it was the last one;
* `Table.eraseNamed_enacts` — an equate goes behind its references.
-/
import Equates.Table.Edit
import Equates.Proofs.Store.Ledger
import Equates.Proofs.Table.Writes

namespace Equates

open Attempt

namespace Table

theorem detachAll_enacts (s : Store) (refs : List Reference) :
    Attempt.Enacts (detachAll refs) s (refs.map .detach) (.ok ()) := by
  induction refs generalizing s with
  | nil => exact Enacts.pure s ()
  | cons r refs ih =>
    rw [detachAll]
    exact Enacts.bind (detach_enacts s r) (ih _)

theorem pruneAll_enacts (s : Store) (ids : List Key) :
    Attempt.Enacts (pruneAll ids) s (ids.map .settle) (.ok ()) := by
  induction ids generalizing s with
  | nil => exact Enacts.pure s ()
  | cons id ids ih =>
    rw [pruneAll]
    exact Enacts.bind (prune_enacts s id) (ih _)

/-! ### Filling a slot -/

/-- The reference that filling a slot stores. -/
def filled (s : Store) (e : Equate) (a : Address) (operand : Int) (hash : UInt64) : Reference :=
  ⟨s.references.next, a, operand, hash, e.id⟩

theorem fillSlot_enacts {s : Store} (hs : s.Sound) {e : Equate} (he : e ∈ s.equates) {a : Address}
    (ha : a.Mappable) {operand : Int} (hop : 0 ≤ operand ∧ operand ≤ maxOperand) (hash : UInt64) :
    Attempt.Enacts (fillSlot e.id a operand hash) s (s.filling e a operand hash)
      (.ok (filled s e a operand hash)) := by
  have hclears := s.clears_filling hs he ha hop hash
  have hattach := (Store.lawful_append.mp hclears.lawful).2.1
  rw [fillSlot, if_pos hop]
  refine Enacts.bind_read (fetchEquate_enacts s e.id) ?_
  rw [EquateRows.mem_def.mp he]
  dsimp only
  rw [if_pos ha]
  refine Enacts.bind_read (fetchAt_enacts s a) ?_
  refine Enacts.bind (detachAll_enacts s _) ?_
  -- Detaching hands out no keys, so the new reference gets the key that was next.
  rw [filled, ← s.next_after_detach (s.occupants a (.of operand hash))]
  refine storeReference_bind hattach (Enacts.bind_trace ?_)
  rw [← List.append_nil (List.map Effect.settle _)]
  exact Enacts.bind (pruneAll_enacts _ _) (Enacts.pure _ _)

/-- A slot that cannot be filled is left alone. -/
theorem fillSlot_refuses {s : Store} {id : Key} {a : Address} {operand : Int} {hash : UInt64}
    (h : ¬ ((0 ≤ operand ∧ operand ≤ maxOperand) ∧ (s.equates.get? id).isSome ∧ a.Mappable)) :
    ∃ p : Problem, p.code = .invalidArgument ∧
      Attempt.Enacts (fillSlot id a operand hash) s [] (.error p.diagnostic) := by
  rw [fillSlot]
  by_cases hop : 0 ≤ operand ∧ operand ≤ maxOperand
  · rw [if_pos hop]
    cases he : s.equates.get? id with
    | none =>
      refine ⟨.noSuchEquate id, rfl, ?_⟩
      refine Enacts.bind_read (fetchEquate_enacts s id) ?_
      rw [he]
      exact Enacts.refuse s _
    | some e =>
      have ha : ¬ a.Mappable := fun ha => h ⟨hop, by rw [he]; rfl, ha⟩
      refine ⟨.unmappable a, rfl, ?_⟩
      refine Enacts.bind_read (fetchEquate_enacts s id) ?_
      rw [he]
      dsimp only
      rw [if_neg ha]
      exact Enacts.bind_error (Enacts.refuse s _)
  · refine ⟨.operandOutOfRange operand, rfl, ?_⟩
    rw [if_neg hop]
    exact Enacts.bind_error (Enacts.refuse s _)

/-! ### Emptying a slot -/

theorem emptySlot_enacts (s : Store) (id : Key) (test : Reference → Bool) :
    Attempt.Enacts (emptySlot id test) s
      (match (s.referencesTo id).find? test with
        | some r => [.detach r, .settle id]
        | none => [])
      (.ok ((s.referencesTo id).find? test).isSome) := by
  rw [emptySlot]
  refine Enacts.bind_read (fetchTo_enacts s id) ?_
  cases (s.referencesTo id).find? test with
  | none => exact Enacts.pure s false
  | some r =>
    -- The first reference that passes goes; then its equate is looked after.
    have hprune : Attempt.Enacts (prune id >>= fun _ => pure true) (s.after [.detach r])
        [.settle id] (.ok true) := Enacts.bind (prune_enacts _ id) (Enacts.pure _ true)
    exact Enacts.bind (detach_enacts s r) hprune

/-! ### Removing an equate -/

theorem eraseNamed_missing {s : Store} {name : String}
    (h : (s.equates.idOf? name).bind s.equates.get? = none) :
    Attempt.Enacts (eraseNamed name) s [] (.ok false) := by
  rw [eraseNamed]
  refine Enacts.bind_read (fetchNamed_enacts s name) ?_
  rw [h]
  exact Enacts.pure s false

theorem eraseEquate_enacts {s : Store} {e : Equate} (he : e ∈ s.equates) :
    Attempt.Enacts (eraseEquate e.id) s [.discard e] (.ok ()) :=
  Enacts.of_ends fun _ ht => eraseEquate_ends ht he

theorem eraseNamed_enacts {s : Store} {name : String} {e : Equate} (he : e ∈ s.equates)
    (h : (s.equates.idOf? name).bind s.equates.get? = some e) :
    Attempt.Enacts (eraseNamed name) s (s.dissolving e) (.ok true) := by
  -- Detaching its references does not prune the equate.
  have he' : e ∈ (s.after ((s.referencesTo e.id).map .detach)).equates := by
    rw [Store.equates_after_detach]
    exact he
  rw [eraseNamed]
  refine Enacts.bind_read (fetchNamed_enacts s name) ?_
  rw [h]
  refine Enacts.bind_read (fetchTo_enacts s e.id) ?_
  refine Enacts.bind (detachAll_enacts s _) ?_
  exact Enacts.bind (eraseEquate_enacts he') (Enacts.bind_trace (Enacts.pure _ true))

end Table

end Equates

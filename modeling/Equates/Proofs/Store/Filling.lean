/-
What filling a slot does to the store.

The slot holds the new reference and nothing else, every other reference stays
(`Store.refers_filling`), and of the equates those go that were displaced from the slot and
have no reference left (`Store.mem_equates_filling`).
-/
import Equates.Proofs.Store.Ledger

namespace Equates.Store

/-- A stored reference belongs to the equate. -/
def Uses (s : Store) (id : Key) : Prop :=
  ∃ r, s.Refers r ∧ r.equate = id

theorem uses_congr {s s' : Store} (h : s'.references = s.references) (id : Key) :
    s'.Uses id ↔ s.Uses id := by
  rw [Uses, Uses]
  simp only [Refers, h]

theorem Sound.keysTo_eq_nil_iff {s : Store} (hs : s.Sound) {id : Key} :
    s.references.keysTo id = [] ↔ ¬ s.Uses id := by
  rw [hs.references.keysTo_eq_nil_iff]
  constructor
  · rintro h ⟨r, ⟨row, hrow, hd⟩, rfl⟩
    exact h row hrow (ReferenceRow.decode_eq_ok_iff.mp hd).2.2.2.2.symm
  · intro h row hrow hid
    obtain ⟨r, hd⟩ := hs.decode hrow
    exact h ⟨r, ⟨row, hrow, hd⟩, (ReferenceRow.decode_eq_ok_iff.mp hd).2.2.2.2.trans hid⟩

/-! ### Settling several equates -/

/-- Settling removes the equate if it has no reference. -/
theorem mem_equates_apply_settle {s : Store} (hs : s.Sound) {id : Key} {e : Equate} :
    e ∈ ((Effect.settle id).apply s).equates ↔
      e ∈ s.equates ∧ (s.Uses e.id ∨ e.id ≠ id) := by
  obtain ⟨e', he', hk, happ⟩ | ⟨hkeep, happ⟩ := s.apply_settle id
  · obtain rfl := hs.equates.id_eq he'
    have hunused := hs.keysTo_eq_nil_iff.mp hk
    rw [happ, show e ∈ (s.withoutEquate e').equates ↔ _ from EquateRows.mem_erase]
    refine and_congr_right fun _ => ⟨.inr, ?_⟩
    rintro (hu | hne)
    · exact fun hid => hunused (hid ▸ hu)
    · exact hne
  · rw [happ]
    refine (and_iff_left_of_imp fun he => ?_).symm
    by_cases hid : e.id = id
    · subst hid
      obtain hnone | hk := hkeep
      · rw [EquateRows.mem_def, hnone] at he
        cases he
      · exact .inl (not_not.mp (mt hs.keysTo_eq_nil_iff.mpr hk))
    · exact .inr hid

theorem next_apply_settle (s : Store) (id : Key) :
    ((Effect.settle id).apply s).equates.next = s.equates.next := by
  obtain ⟨e, -, -, happ⟩ | ⟨-, happ⟩ := s.apply_settle id
  · rw [happ]
    exact EquateRows.next_erase s.equates e.id
  · rw [happ]

theorem sound_apply_settle {s : Store} (hs : s.Sound) (id : Key) :
    ((Effect.settle id).apply s).Sound :=
  Effect.Fits.sound (List.mem_singleton_self id) hs

theorem references_after_settle (s : Store) (ids : List Key) :
    (s.after (ids.map .settle)).references = s.references := by
  induction ids generalizing s with
  | nil => rfl
  | cons id ids ih => exact (ih _).trans (references_apply_settle s id)

theorem next_after_settle (s : Store) (ids : List Key) :
    (s.after (ids.map .settle)).equates.next = s.equates.next := by
  induction ids generalizing s with
  | nil => rfl
  | cons id ids ih => exact (ih _).trans (next_apply_settle s id)

/-- Of the equates that are settled those go that have no reference. -/
theorem mem_equates_after_settle {s : Store} (hs : s.Sound) {ids : List Key} {e : Equate} :
    e ∈ (s.after (ids.map .settle)).equates ↔ e ∈ s.equates ∧ (s.Uses e.id ∨ e.id ∉ ids) := by
  induction ids generalizing s with
  | nil => simp
  | cons id ids ih =>
    rw [List.map_cons, after_cons, ih (sound_apply_settle hs id), mem_equates_apply_settle hs,
      uses_congr (references_apply_settle s id), List.mem_cons, not_or]
    tauto

/-! ### Filling a slot -/

section filling

variable {s : Store} (hs : s.Sound) {e : Equate} (he : e ∈ s.equates) {a : Address}
  (ha : a.Mappable) {operand : Int} (hop : 0 ≤ operand ∧ operand ≤ Table.maxOperand)
  (hash : UInt64)

/-- The store between the new reference and the look at the equates that were displaced. -/
def attached (s : Store) (e : Equate) (a : Address) (operand : Int) (hash : UInt64) : Store :=
  (Effect.attach e a operand hash).apply
    (s.after ((s.occupants a (.of operand hash)).map .detach))

theorem after_filling (s : Store) (e : Equate) (a : Address) (operand : Int) (hash : UInt64) :
    s.after (s.filling e a operand hash) = (s.attached e a operand hash).after
      ((((s.occupants a (.of operand hash)).map Reference.equate).filter (· ≠ e.id)).map
        .settle) := by
  rw [filling, after_append, after_cons, attached]

theorem equates_attached (s : Store) (e : Equate) (a : Address) (operand : Int) (hash : UInt64) :
    (s.attached e a operand hash).equates = s.equates := by
  rw [attached, Effect.apply]
  split
  · exact equates_after_detach s _
  · exact equates_after_detach s _

include hs he ha hop

theorem sound_attached : (s.attached e a operand hash).Sound := by
  obtain ⟨hdetach, hattach, -⟩ := lawful_append.mp (s.clears_filling hs he ha hop hash).lawful
  exact hattach.sound (hdetach.sound hs)

theorem refers_attached {r : Reference} :
    (s.attached e a operand hash).Refers r ↔
      r = ⟨s.references.next, a, operand, hash, e.id⟩ ∨
        s.Refers r ∧ ¬ (r.address = a ∧ r.slot = .of operand hash) := by
  obtain ⟨hdetach, hattach, -⟩ := lawful_append.mp (s.clears_filling hs he ha hop hash).lawful
  obtain ⟨k, hk, happ⟩ := Effect.apply_attach hattach
  rw [attached, refers_create (hdetach.sound hs) hk (congrArg Store.references happ),
    next_after_detach]
  refine or_congr_right ?_
  simp only [Refers, mem_references_after_detach]
  constructor
  · rintro ⟨row, ⟨hrow, hfree⟩, hd⟩
    refine ⟨⟨row, hrow, hd⟩, fun hin => ?_⟩
    exact hfree r ((mem_occupants hs).mpr ⟨⟨row, hrow, hd⟩, hin⟩)
      (ReferenceRow.decode_eq_ok_iff.mp hd).2.1.symm
  · rintro ⟨⟨row, hrow, hd⟩, hout⟩
    refine ⟨row, ⟨hrow, fun r' hr' hid => hout ?_⟩, hd⟩
    -- A row with the key of an occupant is that occupant.
    obtain ⟨hrefers, hin⟩ := (mem_occupants hs).mp hr'
    have hd' := (ReferenceRow.decode_eq_ok_iff.mp hd).2.1
    rw [hs.eq_of_id_eq ⟨row, hrow, hd⟩ hrefers (hd'.trans hid)]
    exact hin

/-- The slot is filled with the new reference alone, and all other references stay. -/
theorem refers_filling {r : Reference} :
    (s.after (s.filling e a operand hash)).Refers r ↔
      r = ⟨s.references.next, a, operand, hash, e.id⟩ ∨
        s.Refers r ∧ ¬ (r.address = a ∧ r.slot = .of operand hash) := by
  rw [← refers_attached hs he ha hop hash, after_filling]
  simp only [Refers, references_after_settle]

/-- An equate stays where it is referred to, or where no reference to it was in the slot. -/
theorem mem_equates_filling {e' : Equate} :
    e' ∈ (s.after (s.filling e a operand hash)).equates ↔ e' ∈ s.equates ∧
      ((s.after (s.filling e a operand hash)).Uses e'.id ∨
        ∀ r ∈ s.occupants a (.of operand hash), r.equate ≠ e'.id) := by
  have hsound := sound_attached hs he ha hop hash
  have huses : ∀ id, (s.after (s.filling e a operand hash)).Uses id ↔
      (s.attached e a operand hash).Uses id := by
    intro id
    rw [after_filling]
    exact uses_congr (references_after_settle _ _) id
  have hself : (s.attached e a operand hash).Uses e.id :=
    ⟨_, (refers_attached hs he ha hop hash).mpr (.inl rfl), rfl⟩
  rw [huses, after_filling, mem_equates_after_settle hsound, equates_attached]
  refine and_congr_right fun _ => or_congr_right' fun hu => ?_
  -- Whoever is not referred to is not the equate of the new reference.
  have hne : e'.id ≠ e.id := fun h => hu (h ▸ hself)
  simp [hne]

omit hs he ha hop in
theorem next_filling (s : Store) (e : Equate) (a : Address) (operand : Int) (hash : UInt64) :
    (s.after (s.filling e a operand hash)).equates.next = s.equates.next := by
  rw [after_filling, next_after_settle, equates_attached]

end filling

end Equates.Store

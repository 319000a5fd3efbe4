/-
Lists of effects that leave no debt.

Whatever is in order with few debts is in order with more (`Store.Lawful.mono`), so
lists of effects can be joined also behind one that broke off.  An operation that runs
to its end performs a list that leaves no debt (`Store.Clears`); the lists of the
single operations are

* `Store.clears_filling` — a slot is emptied and filled, and whoever was displaced is
  looked after;
* `Store.clears_detach_settle` — a reference goes, and its equate is looked after;
* `Store.clears_dissolve` — an equate goes behind all its references.
-/
import Equates.Proofs.Store.View
import Mathlib.Data.List.Perm.Subperm

namespace Equates

namespace Effect

/-- More debts stay more. -/
theorem owe_subperm (x : Effect) {owed owed' : List Key} (h : List.Subperm owed owed') :
    List.Subperm (x.owe owed) (x.owe owed') := by
  cases x with
  | detach r => exact (List.subperm_cons r.equate).mpr h
  | attach e a operand hash => exact h.filter _
  | settle id => exact h.erase id
  | define name value => exact h
  | relabel e name => exact h
  | discard e => exact h.filter _
  | rekey r key => exact h

theorem Fits.mono {x : Effect} {owed owed' : List Key} {s : Store} (hx : x.Fits owed s)
    (h : List.Subperm owed owed') : x.Fits owed' s := by
  cases x with
  | settle id => exact h.subset hx
  | define name value => exact hx
  | relabel e name => exact hx
  | discard e => exact hx
  | attach e a operand hash => exact hx
  | detach r => exact hx
  | rekey r key => exact hx

end Effect

namespace Store

variable {s : Store} {owed owed' : List Key} {l l' : List Effect}

theorem Lawful.mono (hl : Lawful owed s l) (h : List.Subperm owed owed') : Lawful owed' s l := by
  induction l generalizing owed owed' s with
  | nil => trivial
  | cons x l ih => exact ⟨hl.1.mono h, ih hl.2 (x.owe_subperm h)⟩

/-- The effects are in order from a clean ledger on, and leave it clean. -/
structure Clears (s : Store) (l : List Effect) : Prop where
  lawful : Lawful [] s l
  debts : Store.debts [] l = []

theorem clears_nil (s : Store) : s.Clears [] := ⟨trivial, rfl⟩

/-- Effects without debts of their own. -/
theorem clears_singleton {x : Effect} (h : x.Fits [] s) (howe : x.owe [] = []) :
    s.Clears [x] :=
  ⟨⟨h, trivial⟩, howe⟩

/-! ### Detaching several references -/

theorem equates_after_detach (s : Store) (refs : List Reference) :
    (s.after (refs.map .detach)).equates = s.equates := by
  induction refs generalizing s with
  | nil => rfl
  | cons r refs ih => exact ih (s.withoutReference r)

theorem next_after_detach (s : Store) (refs : List Reference) :
    (s.after (refs.map .detach)).references.next = s.references.next := by
  induction refs generalizing s with
  | nil => rfl
  | cons r refs ih =>
    refine (ih (s.withoutReference r)).trans ?_
    exact ReferenceRows.next_erase s.references r.id

theorem mem_references_after_detach (s : Store) (refs : List Reference) {row : ReferenceRow} :
    row ∈ (s.after (refs.map .detach)).references ↔
      row ∈ s.references ∧ ∀ r ∈ refs, row.id ≠ r.id := by
  induction refs generalizing s with
  | nil => simp
  | cons r refs ih =>
    rw [List.map_cons, after_cons, ih, List.forall_mem_cons, ← and_assoc]
    exact and_congr_left fun _ => mem_references_withoutReference r

/-- The references that are not detached stay. -/
theorem refers_after_detach (s : Store) (refs : List Reference) {r : Reference} :
    (s.after (refs.map .detach)).Refers r ↔ s.Refers r ∧ ∀ r' ∈ refs, r.id ≠ r'.id := by
  induction refs generalizing s with
  | nil => simp
  | cons r' refs ih =>
    rw [List.map_cons, after_cons, ih, List.forall_mem_cons, ← and_assoc]
    exact and_congr_left fun _ => refers_withoutReference

/-- References that are detached are made known in their order, under the names that their
equates have. -/
theorem changes_after_detach (s : Store) (refs : List Reference) :
    (s.after (refs.map .detach)).changes =
      (refs.map fun r => .referenceRemoved (r.attachment (s.equates.get? r.equate))).reverse ++
        s.changes := by
  induction refs generalizing s with
  | nil => rfl
  | cons r refs ih =>
    rw [List.map_cons, after_cons, List.map_cons, List.reverse_cons, List.append_assoc]
    exact ih (s.withoutReference r)

theorem debts_detach (owed : List Key) (refs : List Reference) :
    debts owed (refs.map .detach) = (refs.map Reference.equate).reverse ++ owed := by
  induction refs generalizing owed with
  | nil => rfl
  | cons r refs ih =>
    rw [List.map_cons, debts_cons, ih, List.map_cons, List.reverse_cons, List.append_assoc]
    rfl

/-- Stored references may be detached one after the other, each once. -/
theorem lawful_detach {refs : List Reference} (hrefs : ∀ r ∈ refs, s.Refers r)
    (hsorted : refs.Pairwise (·.id < ·.id)) : Lawful owed s (refs.map .detach) := by
  induction refs generalizing owed s with
  | nil => trivial
  | cons r refs ih =>
    obtain ⟨hr, hsorted⟩ := List.pairwise_cons.mp hsorted
    refine ⟨hrefs r List.mem_cons_self, ih (fun r' hr' => ?_) hsorted⟩
    obtain ⟨row, hrow, hd⟩ := hrefs r' (List.mem_cons_of_mem r hr')
    refine ⟨row, (mem_references_withoutReference r).mpr ⟨hrow, ?_⟩, hd⟩
    rw [← (ReferenceRow.decode_eq_ok_iff.mp hd).2.1]
    exact ne_of_gt (hr r' hr')

/-! ### Settling several debts -/

theorem clears_settle {ids : List Key} (h : List.Perm ids owed) :
    Lawful owed s (ids.map .settle) ∧ debts owed (ids.map .settle) = [] := by
  induction ids generalizing owed s with
  | nil => exact ⟨trivial, h.nil_eq.symm⟩
  | cons id ids ih =>
    obtain ⟨hid, hids⟩ := List.cons_perm_iff_perm_erase.mp h
    obtain ⟨hl, hd⟩ := ih (s := (Effect.settle id).apply s) hids
    exact ⟨⟨hid, hl⟩, hd⟩

/-! ### The lists of single operations -/

/-- The references in a slot. -/
def occupants (s : Store) (a : Address) (slot : Slot) : List Reference :=
  (s.referencesAt a).filter (·.slot = slot)

/-- Empties a slot, fills it and settles what that has left behind. -/
def filling (s : Store) (e : Equate) (a : Address) (operand : Int) (hash : UInt64) :
    List Effect :=
  (s.occupants a (.of operand hash)).map .detach ++
    .attach e a operand hash ::
      (((s.occupants a (.of operand hash)).map Reference.equate).filter (· ≠ e.id)).map .settle

/-- Detaches all references to the equate and discards it. -/
def dissolving (s : Store) (e : Equate) : List Effect :=
  (s.referencesTo e.id).map .detach ++ [.discard e]

theorem mem_occupants (hs : s.Sound) {a : Address} {slot : Slot} {r : Reference} :
    r ∈ s.occupants a slot ↔ s.Refers r ∧ r.address = a ∧ r.slot = slot := by
  rw [occupants, List.mem_filter, hs.mem_referencesAt, and_assoc, decide_eq_true_iff]

theorem clears_filling (hs : s.Sound) {e : Equate} (he : e ∈ s.equates) {a : Address}
    (ha : a.Mappable) {operand : Int} (hop : 0 ≤ operand ∧ operand ≤ Table.maxOperand)
    (hash : UInt64) : s.Clears (s.filling e a operand hash) := by
  have hdetach : Lawful [] s ((s.occupants a (.of operand hash)).map .detach) := by
    refine lawful_detach (fun r hr => ((mem_occupants hs).mp hr).1) ?_
    exact (hs.referencesAt_sorted a).filter _
  -- With the occupants gone the slot is free.
  have hattach : (Effect.attach e a operand hash).Fits
      (debts [] ((s.occupants a (.of operand hash)).map .detach))
      (s.after ((s.occupants a (.of operand hash)).map .detach)) := by
    refine ⟨?_, ha, hop, fun row hrow hk hslot => ?_⟩
    · rw [equates_after_detach]
      exact he
    · -- A row that is left in the slot would have been an occupant.
      obtain ⟨hrow, hne⟩ := (mem_references_after_detach _ _).mp hrow
      obtain ⟨r, hd⟩ := hs.decode hrow
      obtain ⟨hplace, hid, -⟩ := ReferenceRow.decode_eq_ok_iff.mp hd
      have hra : r.address = a := Address.key?_inj (Address.key?_of_ofKey? hplace) hk
      have hrs : r.slot = .of operand hash := (ReferenceRow.slot_of_decode hd).trans hslot
      exact hne r ((mem_occupants hs).mpr ⟨⟨row, hrow, hd⟩, hra, hrs⟩) hid.symm
  -- Detaching owes the equates of the occupants; attaching pays what is owed to `e`,
  -- and the settling that follows pays the others, in whatever order.
  have hperm : List.Perm
      (((s.occupants a (.of operand hash)).map Reference.equate).filter (· ≠ e.id))
      ((Effect.attach e a operand hash).owe
        (debts [] ((s.occupants a (.of operand hash)).map .detach))) := by
    rw [debts_detach, List.append_nil]
    exact (List.reverse_perm _).symm.filter _
  obtain ⟨hsettle, hdebts⟩ := clears_settle hperm
    (s := (Effect.attach e a operand hash).apply
      (s.after ((s.occupants a (.of operand hash)).map .detach)))
  refine ⟨lawful_append.mpr ⟨hdetach, hattach, hsettle⟩, ?_⟩
  rw [filling, debts_append, debts_cons, hdebts]

theorem clears_detach_settle {r : Reference} (hr : s.Refers r) :
    s.Clears [.detach r, .settle r.equate] where
  lawful := ⟨hr, List.mem_cons_self, trivial⟩
  debts := List.erase_cons_head r.equate []

theorem clears_dissolve (hs : s.Sound) {e : Equate} (he : e ∈ s.equates) :
    s.Clears (s.dissolving e) := by
  have hdetach : Lawful [] s ((s.referencesTo e.id).map .detach) :=
    lawful_detach (fun r hr => (hs.mem_referencesTo.mp hr).1) (hs.referencesTo_sorted e.id)
  refine ⟨lawful_append.mpr ⟨hdetach, ⟨?_, fun row hrow hre => ?_⟩, trivial⟩, ?_⟩
  · rw [equates_after_detach]
    exact he
  · -- A row that still stands for the equate would have been detached.
    obtain ⟨hrow, hne⟩ := (mem_references_after_detach _ _).mp hrow
    obtain ⟨r, hd⟩ := hs.decode hrow
    obtain ⟨-, hid, -, -, hre'⟩ := ReferenceRow.decode_eq_ok_iff.mp hd
    exact hne r (hs.mem_referencesTo.mpr ⟨⟨row, hrow, hd⟩, hre'.trans hre⟩) hid.symm
  · -- Every debt is to the equate that goes.
    rw [dissolving, debts_append, debts_detach, List.append_nil, debts_cons, debts_nil]
    refine List.filter_eq_nil_iff.mpr fun k hk => ?_
    obtain ⟨r, hr, rfl⟩ := List.mem_map.mp (List.mem_reverse.mp hk)
    simpa using (hs.mem_referencesTo.mp hr).2

end Store

end Equates

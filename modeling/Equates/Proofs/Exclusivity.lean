/-
Slots are exclusive: no two stored references share an address and a slot.

`Session.slots_exclusive` says so behind every session in which each move goes to a
destination that holds no reference, whichever storage calls fail and wherever a monitor
asks to stop.  An attachment is in order only where its slot is free, so every effect but
that of a move keeps slots exclusive (`Effect.Fits.exclusive`).

A move may stop at any row, and its source and destination may overlap.  What carries it
is that each row is where it was, or at its translated address (`Store.Shifted`): the
moved rows are in the destination, where no other row was, and among themselves they are
as far apart as before.
-/
import Equates.Proofs.Session

namespace Equates

namespace Store

/-- No two stored references share an address and a slot. -/
def Exclusive (s : Store) : Prop :=
  ∀ r ∈ s.references, ∀ r' ∈ s.references, r.addressKey = r'.addressKey → r.slot = r'.slot → r = r'

theorem Exclusive.of_subset {s s' : Store} (h : s.Exclusive)
    (hsub : ∀ r ∈ s'.references, r ∈ s.references) : s'.Exclusive :=
  fun r hr r' hr' => h r (hsub r hr) r' (hsub r' hr')

/-- No reference stands at one of the `length` addresses from `target` on. -/
def Vacant (s : Store) (target : Address) (length : UInt64) : Prop :=
  ∀ r ∈ s.references, ∀ a, Address.ofKey? r.addressKey = some a →
    ¬ (a.space = target.space ∧ target.offset.toNat ≤ a.offset.toNat ∧
      a.offset.toNat < target.offset.toNat + length.toNat)

instance (s : Store) (target : Address) (length : UInt64) : Decidable (s.Vacant target length) :=
  decidable_of_iff
    (∀ p ∈ s.references.rows.toList, p.1 = p.2.id → ∀ a ∈ Address.ofKey? p.2.addressKey,
      ¬ (a.space = target.space ∧ target.offset.toNat ≤ a.offset.toNat ∧
        a.offset.toNat < target.offset.toNat + length.toNat))
    (by
      constructor
      · intro h r hr a ha
        exact h (r.id, r) (Std.ExtTreeMap.mem_toList_iff_getElem?_eq_some.mpr hr) rfl a ha
      · rintro h ⟨k, r⟩ hp hk a ha
        obtain rfl : k = r.id := hk
        exact h r (Std.ExtTreeMap.mem_toList_iff_getElem?_eq_some.mp hp) a ha)

/-- Every row is one of `s₀`, or one of the source in `s₀` at its translated address. -/
def Shifted (s₀ : Store) (source target : Address) (length : UInt64) (s : Store) : Prop :=
  ∀ r ∈ s.references, r ∈ s₀.references ∨
    ∃ row k, (Effect.rekey row k).Shifts s₀ source target length ∧
      r = { row with addressKey := k }

end Store

/-- Every effect but that of a move keeps slots exclusive. -/
theorem Effect.Fits.exclusive {owed : List Key} {s : Store} {x : Effect} (hs : s.Sound)
    (hx : x.Fits owed s) (hmove : ∀ row k, x ≠ rekey row k) (h : s.Exclusive) :
    (x.apply s).Exclusive := by
  cases x with
  | define name value =>
    obtain ⟨rows, -, happ⟩ := apply_define hx
    rw [happ]
    exact h
  | relabel e name =>
    obtain ⟨rows, -, happ⟩ := apply_relabel hx
    rw [happ]
    exact h
  | discard e => exact h
  | settle id =>
    refine h.of_subset fun r hr => ?_
    rwa [Store.references_apply_settle] at hr
  | attach e a operand hash =>
    obtain ⟨k, hk, happ⟩ := apply_attach hx
    -- An attachment is in order only where no row stands in its slot.
    have hfree : ∀ r ∈ s.references, k = r.addressKey → r.slot ≠ .of operand hash :=
      fun r hr hrk => hx.2.2.2 r hr (hrk ▸ hk)
    have hmem {r : ReferenceRow} : r ∈ (s.withReference e a k operand hash).references ↔ _ :=
      Store.mem_references_withReference hs e a k operand hash
    rw [happ]
    intro r hr r' hr' hkey hslot
    obtain rfl | hr := hmem.mp hr
    · obtain rfl | hr' := hmem.mp hr'
      · rfl
      · exact absurd hslot.symm (hfree r' hr' hkey)
    · obtain rfl | hr' := hmem.mp hr'
      · exact absurd hslot (hfree r hr hkey.symm)
      · exact h r hr r' hr' hkey hslot
  | detach r =>
    exact h.of_subset fun r' hr' => ((Store.mem_references_withoutReference r).mp hr').1
  | rekey row k => exact absurd rfl (hmove row k)

section moves

variable {s₀ : Store} {source target : Address} {length : UInt64}

/-- A step of a move leaves every row where it was or at its translated address. -/
theorem Effect.Fits.shifted {owed : List Key} {s : Store} {x : Effect} (hx : x.Fits owed s)
    (hshift : x.Shifts s₀ source target length) (h : s₀.Shifted source target length s) :
    s₀.Shifted source target length (x.apply s) := by
  cases x with
  | rekey row k =>
    intro r hr
    rw [ReferenceRows.mem_def, get?_apply_rekey hx] at hr
    split at hr
    · exact .inr ⟨row, k, hshift, (Option.some.inj hr).symm⟩
    · exact h r hr
  | _ => exact hshift.elim

/-- A row at its translated address stands in the destination. -/
theorem Effect.Shifts.not_vacant {row : ReferenceRow} {k : Int}
    (hshift : (rekey row k).Shifts s₀ source target length) (hvacant : s₀.Vacant target length)
    {r : ReferenceRow} (hr : r ∈ s₀.references) : r.addressKey ≠ k := by
  obtain ⟨-, a, b, d, -, hb, hd, -, hspace, hoffset⟩ := hshift
  rintro rfl
  exact hvacant r hr b (Address.ofKey?_of_key? hb) ⟨hspace, by omega, by omega⟩

/-- Rows that come to one address were at one address. -/
theorem Effect.Shifts.addressKey_eq {row row' : ReferenceRow} {k : Int}
    (hshift : (rekey row k).Shifts s₀ source target length)
    (hshift' : (rekey row' k).Shifts s₀ source target length) :
    row.addressKey = row'.addressKey := by
  obtain ⟨-, a, b, d, ha, hb, -, ⟨has, hao⟩, -, hbo⟩ := hshift
  obtain ⟨-, a', b', d', ha', hb', -, ⟨has', hao'⟩, -, hbo'⟩ := hshift'
  obtain rfl := Address.key?_inj hb hb'
  have hoffset : a.offset = a'.offset := UInt64.toNat_inj.mp (by omega)
  -- Both stand as far behind the source as their translations behind the target.
  obtain rfl : a = a' := by
    cases a
    cases a'
    exact congrArg₂ Address.mk (has.trans has'.symm) hoffset
  have hk := Address.key?_of_ofKey? ha
  rw [Address.key?_of_ofKey? ha'] at hk
  exact (Option.some.inj hk).symm

/-- A move to a vacant destination keeps slots exclusive, wherever it stops. -/
theorem Store.Shifted.exclusive {s : Store} (h : s₀.Shifted source target length s)
    (hvacant : s₀.Vacant target length) (hex : s₀.Exclusive) : s.Exclusive := by
  intro r hr r' hr' hkey hslot
  obtain hr | ⟨row, k, hshift, rfl⟩ := h r hr
  · obtain hr' | ⟨row', k', hshift', rfl⟩ := h r' hr'
    · exact hex r hr r' hr' hkey hslot
    · -- One row has moved and one has not: their addresses cannot meet in the
      -- destination, since no row of `s₀` stands there.
      exact absurd hkey (hshift'.not_vacant hvacant hr)
  · obtain hr' | ⟨row', k', hshift', rfl⟩ := h r' hr'
    · exact absurd hkey.symm (hshift.not_vacant hvacant hr')
    · obtain rfl : k = k' := hkey
      -- Rows that have both moved were in one slot before, hence are one row.
      obtain rfl : row = row' :=
        hex row hshift.1 row' hshift'.1 (hshift.addressKey_eq hshift') hslot
      rfl

end moves

/-- The first address and the number of addresses that a move goes to. -/
def Request.destination? : Request → Option (Address × UInt64)
  | move _ target length => some (target, length)
  | _ => none

/-- The step keeps to what is expected of a move: its destination holds no reference. -/
def Step.Considerate (t : Table) (x : Step) : Prop :=
  ∀ p ∈ x.request.destination?, t.store.Vacant p.1 p.2

instance (t : Table) (x : Step) : Decidable (x.Considerate t) :=
  inferInstanceAs (Decidable (∀ p ∈ x.request.destination?, t.store.Vacant p.1 p.2))

/-- A step keeps slots exclusive. -/
theorem Step.exclusive {t : Table} (ht : t.Sound) {x : Step} (hx : x.Considerate t)
    (h : t.store.Exclusive) : (x.behind t).store.Exclusive := by
  have hsettles := x.settles ht
  have hplain {P : Effect → Prop} (hP : ∀ row k, ¬ P (.rekey row k))
      (hs : (x.start t).Settles P (x.behind t)) : (x.behind t).store.Exclusive := by
    refine hs.preserves (x.sound_start ht) (fun hsound hfits hkind hex => ?_) h
    refine hfits.exclusive hsound ?_ hex
    rintro row k rfl
    exact hP row k hkind
  rw [Step.Considerate] at hx
  cases hq : x.request with
  -- A move is judged as a whole, from the store at its start on: halfway through,
  -- exclusiveness alone would not tell that the next row goes to a free slot.
  | move source target length =>
    rw [hq] at hsettles hx
    have hshifted := hsettles.preserves (x.sound_start ht)
      (I := (x.start t).store.Shifted source target length)
      (fun _ hfits hkind hsh => hfits.shifted hkind hsh) fun r hr => .inl hr
    exact hshifted.exclusive (hx _ rfl) h
  | _ =>
    rw [hq] at hsettles
    exact hplain (fun _ _ => id) hsettles

namespace Session

/-- Every move of the session has a destination that holds no reference when it starts. -/
def Considerate : Table → List Step → Prop
  | _, [] => True
  | t, x :: rest => x.Considerate t ∧ Considerate (x.behind t) rest

instance decidableConsiderate : (t : Table) → (l : List Step) → Decidable (Considerate t l)
  | _, [] => isTrue trivial
  | t, x :: rest =>
    have := decidableConsiderate (x.behind t) rest
    inferInstanceAs (Decidable (x.Considerate t ∧ Considerate (x.behind t) rest))

theorem exclusive {t : Table} (ht : t.Sound) {l : List Step} (hl : Considerate t l)
    (h : t.store.Exclusive) : (play t l).store.Exclusive := by
  induction l generalizing t with
  | nil => exact h
  | cons x l ih => exact ih (x.settles ht).sound hl.2 (x.exclusive ht hl.1 h)

/-- Behind every session whose moves have free destinations, whichever storage calls
fail openly, two stored references at one address neither stand for the same operand as
a whole nor carry the same hash. -/
theorem slots_exclusive {plan : FaultPlan} (hplan : plan.Loud) (equates references : Nat)
    (listing : Option Listing) (registry : Option TypeRegistry) {l : List Step}
    (hl : Considerate (Table.opened equates references plan listing registry) l)
    {id id' : Key} {r r' : ReferenceRow} (hne : id ≠ id')
    (hr : (play (Table.opened equates references plan listing registry) l).references.get? id
      = some r)
    (hr' : (play (Table.opened equates references plan listing registry) l).references.get? id'
      = some r')
    {a : Address} (ha : Address.ofKey? r.addressKey = some a)
    (ha' : Address.ofKey? r'.addressKey = some a) :
    ¬ (r.hash = 0 ∧ r'.hash = 0 ∧ r.operand = r'.operand) ∧ ¬ (r.hash ≠ 0 ∧ r.hash = r'.hash) := by
  have hopened := Table.sound_opened hplan equates references listing registry
  have hsound := (sound hopened l).store.references
  -- Nothing is stored at the start of a session.
  have hempty : (Table.opened equates references plan listing registry).store.Exclusive := by
    intro r hr
    have hr : ReferenceRows.get? {} r.id = some r := hr
    rw [ReferenceRows.get?_empty] at hr
    cases hr
  have hkey : r.addressKey = r'.addressKey :=
    Option.some.inj ((Address.key?_of_ofKey? ha).symm.trans (Address.key?_of_ofKey? ha'))
  have hslot : r.slot ≠ r'.slot := by
    intro hslot
    have heq := exclusive hopened hl hempty r (hsound.mem_of_get? hr) r' (hsound.mem_of_get? hr')
      hkey hslot
    exact hne (by rw [← hsound.id_eq hr, ← hsound.id_eq hr', heq])
  rw [ReferenceRow.slot, ReferenceRow.slot, Slot.of, Slot.of] at hslot
  constructor
  · rintro ⟨h, h', hop⟩
    rw [if_pos h, if_pos h', hop] at hslot
    exact hslot rfl
  · rintro ⟨h, h'⟩
    rw [if_neg h, ← h', if_neg h] at hslot
    exact hslot rfl

/-- The third call that overwrites a reference fails. -/
def failingUpdate : FaultPlan := fun calls call =>
  if call = .references .update ∧
      calls.countP (fun c => c.call = .references .update) = 2 then
    some { diagnostic := .error .storageFailure "no update" }
  else none

theorem loud_failingUpdate : failingUpdate.Loud :=
  FaultPlan.loud_ite _ _

/-- Three references, and a move that breaks off between the second and the third. -/
def brokenMove : List Step :=
  [⟨{}, .define "one" 1⟩, ⟨{}, .attach 1 ⟨0, 16⟩ 0 0⟩, ⟨{}, .attach 1 ⟨0, 16⟩ 1 0⟩,
    ⟨{}, .attach 1 ⟨0, 17⟩ 0 0⟩, ⟨{}, .move ⟨0, 16⟩ ⟨0, 18⟩ 2⟩]

theorem slots_exclusive_brokenMove :
    failingUpdate.Loud ∧ Considerate (Table.opened 1 0 failingUpdate none none) brokenMove ∧
      (1 : Key) ≠ 2 ∧
      (play (Table.opened 1 0 failingUpdate none none) brokenMove).references.get? 1
        = some ⟨1, 18, 0, 0, 1⟩ ∧
      (play (Table.opened 1 0 failingUpdate none none) brokenMove).references.get? 2
        = some ⟨2, 18, 1, 0, 1⟩ ∧
      Address.ofKey? 18 = some ⟨0, 18⟩ ∧
      ¬ ((0 : UInt64) = 0 ∧ (0 : UInt64) = 0 ∧ (0 : Int) = 1) ∧
      ¬ ((0 : UInt64) ≠ 0 ∧ (0 : UInt64) = 0) := by
  have hl : Considerate (Table.opened 1 0 failingUpdate none none) brokenMove := by decide +kernel
  have hne : (1 : Key) ≠ 2 := by decide
  have hr : (play (Table.opened 1 0 failingUpdate none none) brokenMove).references.get? 1
      = some ⟨1, 18, 0, 0, 1⟩ := by decide +kernel
  have hr' : (play (Table.opened 1 0 failingUpdate none none) brokenMove).references.get? 2
      = some ⟨2, 18, 1, 0, 1⟩ := by decide +kernel
  have ha : Address.ofKey? 18 = some ⟨0, 18⟩ := by decide
  have h := slots_exclusive loud_failingUpdate 1 0 none none hl hne hr hr' ha ha
  exact ⟨loud_failingUpdate, hl, hne, hr, hr', ha, h⟩

end Session

end Equates

/-
The references of a store, as they are read.

A stored row stands for a reference: the row with its address key decoded.  In a
sound store every row can be decoded, and the lists of references at an address and
to an equate hold each stored reference once (`Store.Sound.mem_referencesAt`,
`Store.Sound.mem_referencesTo`, `Store.Sound.referencesAt_sorted`,
`Store.Sound.referencesTo_sorted`).
-/
import Equates.Proofs.Store.Effect

namespace Equates

theorem ReferenceRow.decode_eq_ok_iff {row : ReferenceRow} {r : Reference} :
    row.decode = .ok r ↔ Address.ofKey? row.addressKey = some r.address ∧ r.id = row.id ∧
      r.operand = row.operand ∧ r.hash = row.hash ∧ r.equate = row.equate := by
  rw [decode]
  cases Address.ofKey? row.addressKey with
  | none => simp
  | some a =>
    obtain ⟨id, address, operand, hash, equate⟩ := r
    simp [eq_comm, and_left_comm]

/-- A reference has one row only. -/
theorem ReferenceRow.eq_of_decode {row row' : ReferenceRow} {r : Reference}
    (h : row.decode = .ok r) (h' : row'.decode = .ok r) : row = row' := by
  obtain ⟨ha, hid, hoperand, hhash, hequate⟩ := decode_eq_ok_iff.mp h
  obtain ⟨ha', hid', hoperand', hhash', hequate'⟩ := decode_eq_ok_iff.mp h'
  have hkey : row.addressKey = row'.addressKey := Option.some.inj
    ((Address.key?_of_ofKey? ha).symm.trans (Address.key?_of_ofKey? ha'))
  cases row
  cases row'
  rw [mk.injEq]
  exact ⟨hid.symm.trans hid', hkey, hoperand.symm.trans hoperand', hhash.symm.trans hhash',
    hequate.symm.trans hequate'⟩

theorem ReferenceRow.slot_of_decode {row : ReferenceRow} {r : Reference} (h : row.decode = .ok r) :
    r.slot = row.slot := by
  obtain ⟨-, -, ho, hh, -⟩ := decode_eq_ok_iff.mp h
  rw [Reference.slot, ReferenceRow.slot, ho, hh]

namespace Store

/-- The reference is stored. -/
def Refers (s : Store) (r : Reference) : Prop :=
  ∃ row ∈ s.references, row.decode = .ok r

/-- The reference `id`. -/
def reference? (s : Store) (id : Key) : Option Reference :=
  (s.references.get? id).bind fun row => row.decode.toOption

/-- The keys of the references at an address. -/
def keysAt (s : Store) (a : Address) : List Key :=
  match a.key? with
  | some k => s.references.keysAt k
  | none => []

def referencesAt (s : Store) (a : Address) : List Reference :=
  (s.keysAt a).filterMap s.reference?

def referencesTo (s : Store) (id : Key) : List Reference :=
  (s.references.keysTo id).filterMap s.reference?

/-- The references behind a removal are those with other keys. -/
theorem refers_erase {s s' : Store} {id : Key} (h : s'.references = s.references.erase id)
    {r : Reference} : s'.Refers r ↔ s.Refers r ∧ r.id ≠ id := by
  rw [Refers, h]
  simp only [Refers, ReferenceRows.mem_erase]
  constructor
  · rintro ⟨row, ⟨hrow, hne⟩, hd⟩
    rw [(ReferenceRow.decode_eq_ok_iff.mp hd).2.1]
    exact ⟨⟨row, hrow, hd⟩, hne⟩
  · rintro ⟨⟨row, hrow, hd⟩, hne⟩
    rw [(ReferenceRow.decode_eq_ok_iff.mp hd).2.1] at hne
    exact ⟨row, ⟨hrow, hne⟩, hd⟩

theorem refers_withoutReference {s : Store} {r r' : Reference} :
    (s.withoutReference r).Refers r' ↔ s.Refers r' ∧ r'.id ≠ r.id :=
  refers_erase rfl

/-- The references behind a creation are those before and the new one. -/
theorem refers_create {s s' : Store} (hs : s.Sound) {a : Address} {k : Int} (hk : a.key? = some k)
    {operand : Int} {hash : UInt64} {equate : Key}
    (h : s'.references = (s.references.create k operand hash equate).2) {r : Reference} :
    s'.Refers r ↔ r = ⟨s.references.next, a, operand, hash, equate⟩ ∨ s.Refers r := by
  have hnew : ReferenceRow.decode ⟨s.references.next, k, operand, hash, equate⟩ =
      .ok ⟨s.references.next, a, operand, hash, equate⟩ :=
    ReferenceRow.decode_eq_ok_iff.mpr ⟨Address.ofKey?_of_key? hk, rfl, rfl, rfl, rfl⟩
  rw [Refers, h]
  simp only [Refers, ReferenceRows.mem_create _ _ _ _ hs.references, or_and_right, exists_or,
    exists_eq_left, hnew, Except.ok.injEq, eq_comm]

theorem mem_keysAt {s : Store} (h : s.Sound) {a : Address} {k : Key} :
    k ∈ s.keysAt a ↔ ∃ row, s.references.get? k = some row ∧ a.key? = some row.addressKey := by
  rw [keysAt]
  cases ha : a.key? with
  | none => simp
  | some v =>
    rw [h.references.mem_keysAt]
    simp [eq_comm]

theorem keysAt_sorted (s : Store) (a : Address) : (s.keysAt a).Pairwise (· < ·) := by
  rw [keysAt]
  cases a.key? with
  | none => exact List.Pairwise.nil
  | some k => exact s.references.byAddress.keys_sorted k

theorem decode_of_reference? {s : Store} {id : Key} {r : Reference}
    (h : s.reference? id = some r) :
    ∃ row, s.references.get? id = some row ∧ row.decode = .ok r := by
  obtain ⟨row, hrow, hr⟩ := Option.bind_eq_some_iff.mp h
  refine ⟨row, hrow, ?_⟩
  cases hd : row.decode with
  | ok r' =>
    rw [hd] at hr
    exact congrArg Except.ok (Option.some.inj hr)
  | error p =>
    rw [hd] at hr
    cases hr

namespace Sound

variable {s : Store}

/-- Every stored row can be decoded. -/
theorem decode (h : s.Sound) {row : ReferenceRow} (hrow : row ∈ s.references) :
    ∃ r, row.decode = .ok r := by
  obtain ⟨a, ha⟩ := h.placed row hrow
  exact ⟨⟨row.id, a, row.operand, row.hash, row.equate⟩,
    ReferenceRow.decode_eq_ok_iff.mpr ⟨ha, rfl, rfl, rfl, rfl⟩⟩

theorem reference?_eq_some (h : s.Sound) {id : Key} {r : Reference} :
    s.reference? id = some r ↔ s.Refers r ∧ r.id = id := by
  constructor
  · intro hr
    obtain ⟨row, hrow, hd⟩ := decode_of_reference? hr
    refine ⟨⟨row, h.references.mem_of_get? hrow, hd⟩, ?_⟩
    rw [(ReferenceRow.decode_eq_ok_iff.mp hd).2.1, h.references.id_eq hrow]
  · rintro ⟨⟨row, hrow, hd⟩, rfl⟩
    rw [reference?, (ReferenceRow.decode_eq_ok_iff.mp hd).2.1, ReferenceRows.mem_def.mp hrow]
    show row.decode.toOption = some r
    rw [hd]
    rfl

/-- Keys are unique. -/
theorem eq_of_id_eq (h : s.Sound) {r r' : Reference} (hr : s.Refers r) (hr' : s.Refers r')
    (hid : r.id = r'.id) : r = r' := by
  have h₁ := h.reference?_eq_some.mpr ⟨hr, hid⟩
  have h₂ := h.reference?_eq_some.mpr ⟨hr', rfl⟩
  exact Option.some.inj (h₁.symm.trans h₂)

theorem mem_referencesAt (h : s.Sound) {a : Address} {r : Reference} :
    r ∈ s.referencesAt a ↔ s.Refers r ∧ r.address = a := by
  rw [referencesAt, List.mem_filterMap]
  constructor
  · rintro ⟨k, hk, hr⟩
    obtain ⟨row, hrow, ha⟩ := (mem_keysAt h).mp hk
    -- The key from the index and the decoded reference come from one row.
    obtain ⟨row', hrow', hd⟩ := decode_of_reference? hr
    obtain rfl := Option.some.inj (hrow.symm.trans hrow')
    have hplace := (ReferenceRow.decode_eq_ok_iff.mp hd).1
    refine ⟨(h.reference?_eq_some.mp hr).1, ?_⟩
    exact Option.some.inj (hplace.symm.trans (Address.ofKey?_of_key? ha))
  · rintro ⟨hr, rfl⟩
    obtain ⟨row, hrow, hd⟩ := hr
    have hplace := (ReferenceRow.decode_eq_ok_iff.mp hd).1
    refine ⟨row.id, (mem_keysAt h).mpr ⟨row, hrow, Address.key?_of_ofKey? hplace⟩, ?_⟩
    rw [← (ReferenceRow.decode_eq_ok_iff.mp hd).2.1]
    exact h.reference?_eq_some.mpr ⟨⟨row, hrow, hd⟩, rfl⟩

theorem mem_referencesTo (h : s.Sound) {id : Key} {r : Reference} :
    r ∈ s.referencesTo id ↔ s.Refers r ∧ r.equate = id := by
  rw [referencesTo, List.mem_filterMap]
  constructor
  · rintro ⟨k, hk, hr⟩
    obtain ⟨row, hrow, he⟩ := h.references.mem_keysTo.mp hk
    obtain ⟨row', hrow', hd⟩ := decode_of_reference? hr
    obtain rfl := Option.some.inj (hrow.symm.trans hrow')
    refine ⟨(h.reference?_eq_some.mp hr).1, ?_⟩
    rw [(ReferenceRow.decode_eq_ok_iff.mp hd).2.2.2.2, he]
  · rintro ⟨hr, rfl⟩
    obtain ⟨row, hrow, hd⟩ := hr
    have hparts := ReferenceRow.decode_eq_ok_iff.mp hd
    refine ⟨row.id, h.references.mem_keysTo.mpr ⟨row, hrow, hparts.2.2.2.2.symm⟩, ?_⟩
    rw [← hparts.2.1]
    exact h.reference?_eq_some.mpr ⟨⟨row, hrow, hd⟩, rfl⟩

/-- References that are read for ascending keys stand in ascending order. -/
theorem sorted_filterMap (h : s.Sound) {keys : List Key} (hk : keys.Pairwise (· < ·)) :
    (keys.filterMap s.reference?).Pairwise (·.id < ·.id) := by
  refine hk.filterMap _ fun k k' hlt r hr r' hr' => ?_
  rw [(h.reference?_eq_some.mp hr).2, (h.reference?_eq_some.mp hr').2]
  exact hlt

theorem referencesAt_sorted (h : s.Sound) (a : Address) :
    (s.referencesAt a).Pairwise (·.id < ·.id) :=
  h.sorted_filterMap (s.keysAt_sorted a)

theorem referencesTo_sorted (h : s.Sound) (id : Key) :
    (s.referencesTo id).Pairwise (·.id < ·.id) :=
  h.sorted_filterMap (s.references.byEquate.keys_sorted id)

end Sound

end Store

end Equates

/-
The references of a range of addresses, in the order in which a bulk operation comes to them.

An operation on a range goes through the referenced addresses of a key window, and at each of
them through the references in the order of their keys.  Said of the stored references as a
list, these are the references of the range by address and by key (`Reference.inOrder`,
`Store.Sound.window_eq`), at as many addresses as they stand at
(`Store.Sound.length_addressesAlong`).
-/
import Equates.Proofs.Store.Inventory
import Equates.Proofs.Table.Operations
import Mathlib.Data.List.Dedup

namespace Equates

namespace Reference

/-- By address, then by key. -/
def Precedes (r r' : Reference) : Prop :=
  r.address < r'.address ∨ r.address = r'.address ∧ r.id ≤ r'.id

instance : DecidableRel Precedes :=
  fun _ _ => inferInstanceAs (Decidable (_ ∨ _))

instance : Std.Total Precedes where
  total r r' := by
    simp only [Precedes, Address.lt_iff, Address.eq_iff]
    grind

instance : IsTrans Reference Precedes where
  trans r r' r'' := by
    simp only [Precedes, Address.lt_iff, Address.eq_iff]
    grind

/-- Different references stand in one order only. -/
theorem Precedes.antisymm {r r' : Reference} (h : r.Precedes r') (h' : r'.Precedes r) :
    r.address = r'.address ∧ r.id = r'.id := by
  simp only [Precedes, Address.lt_iff, Address.eq_iff] at h h' ⊢
  grind

/-- The references by address and by key. -/
def inOrder (l : List Reference) : List Reference :=
  l.insertionSort Precedes

/-- The addresses at which the references stand, each once. -/
def places (l : List Reference) : List Address :=
  (l.map Reference.address).dedup

theorem perm_inOrder (l : List Reference) : (inOrder l).Perm l :=
  l.perm_insertionSort Precedes

theorem mem_inOrder {l : List Reference} {r : Reference} : r ∈ inOrder l ↔ r ∈ l :=
  (perm_inOrder l).mem_iff

theorem length_inOrder (l : List Reference) : (inOrder l).length = l.length :=
  (perm_inOrder l).length_eq

theorem inOrder_nodup {l : List Reference} (hl : l.Pairwise (·.id ≠ ·.id)) :
    (inOrder l).Pairwise (·.id ≠ ·.id) :=
  ((perm_inOrder l).pairwise_iff fun {_ _} hne => hne.symm).mpr hl

/-- A list that is in order and has just these references, of which no two have the same key,
is their list in order. -/
theorem eq_inOrder {l l' : List Reference} (hl : l.Pairwise (·.id ≠ ·.id))
    (hl' : l'.Pairwise fun r r' => r.Precedes r' ∧ r.id ≠ r'.id)
    (h : ∀ r, r ∈ l' ↔ r ∈ l) : l' = inOrder l := by
  have hanti : Std.Antisymm fun r r' : Reference => r.Precedes r' ∧ r.id ≠ r'.id :=
    ⟨fun r r' h h' => absurd (h.1.antisymm h'.1).2 h.2⟩
  have hirrefl : Std.Irrefl fun r r' : Reference => r.Precedes r' ∧ r.id ≠ r'.id :=
    ⟨fun r h => h.2 rfl⟩
  refine hl'.eq_of_mem_iff ?_ fun r => (h r).trans mem_inOrder.symm
  exact (l.pairwise_insertionSort Precedes).and (inOrder_nodup hl)

end Reference

/-! ### What lies in a window -/

namespace Store

section window

variable {s : Store} (hs : s.Sound) {l : List Reference} (hl : s.references.StandFor l)
  {range : AddressRange} {w : KeyWindow} (hw : KeyWindow.between? range.min range.max = some w)

/-- A reference stands at an address with a key. -/
theorem Refers.exists_key? {r : Reference} (hr : s.Refers r) :
    ∃ row ∈ s.references, r.address.key? = some row.addressKey := by
  obtain ⟨row, hrow, hd⟩ := hr
  exact ⟨row, hrow, Address.key?_of_ofKey? (ReferenceRow.decode_eq_ok_iff.mp hd).1⟩

include hs hw in
theorem mem_addresses_window {a : Address} :
    a ∈ s.addressesAlong [w] ↔ a ∈ range ∧ ∃ r, s.Refers r ∧ r.address = a := by
  rw [mem_addressesAlong hs]
  constructor
  · rintro ⟨k, hk, ⟨row, hrow, rfl⟩, w', hw', hkw⟩
    obtain rfl := List.mem_singleton.mp hw'
    obtain ⟨r, hd⟩ := hs.decode hrow
    refine ⟨(KeyWindow.mem_between? hw hk).mp hkw, r, ⟨row, hrow, hd⟩, ?_⟩
    exact Address.key?_inj (Address.key?_of_ofKey? (ReferenceRow.decode_eq_ok_iff.mp hd).1) hk
  · rintro ⟨hin, r, hr, rfl⟩
    obtain ⟨row, hrow, hk⟩ := hr.exists_key?
    exact ⟨_, hk, ⟨row, hrow, rfl⟩, w, List.mem_singleton_self w,
      (KeyWindow.mem_between? hw hk).mpr hin⟩

include hs hw in
theorem mem_window {r : Reference} :
    r ∈ (s.addressesAlong [w]).flatMap s.referencesAt ↔ s.Refers r ∧ r.address ∈ range := by
  simp only [List.mem_flatMap, mem_addresses_window hs hw, hs.mem_referencesAt]
  constructor
  · rintro ⟨a, ⟨hin, -⟩, hr, rfl⟩
    exact ⟨hr, hin⟩
  · rintro ⟨hr, hin⟩
    exact ⟨r.address, ⟨hin, r, hr, rfl⟩, hr, rfl⟩

include hs in
theorem window_sorted (w : KeyWindow) :
    ((s.addressesAlong [w]).flatMap s.referencesAt).Pairwise
      fun r r' => r.Precedes r' ∧ r.id ≠ r'.id := by
  refine List.Pairwise.and (List.pairwise_flatMap.mpr ⟨fun a _ => ?_, ?_⟩)
    (Table.nodup_references_window hs w)
  · refine (hs.referencesAt_sorted a).imp_of_mem fun {r r'} hr hr' hlt => .inr ⟨?_, le_of_lt hlt⟩
    rw [(hs.mem_referencesAt.mp hr).2, (hs.mem_referencesAt.mp hr').2]
  · refine (s.sorted_addressesAlong_window w).imp fun {a a'} hlt r hr r' hr' => .inl ?_
    rw [(hs.mem_referencesAt.mp hr).2, (hs.mem_referencesAt.mp hr').2]
    exact hlt

include hs hl

/-- The references of the window are those of the range, by address and by key. -/
theorem Sound.window_eq (hw : KeyWindow.between? range.min range.max = some w) :
    (s.addressesAlong [w]).flatMap s.referencesAt =
      Reference.inOrder (l.filter (·.address ∈ range)) := by
  refine Reference.eq_inOrder ?_ (window_sorted hs w) fun r => ?_
  · exact ((hs.sorted_of_standFor hl).filter _).imp fun h => ne_of_lt h
  · rw [mem_window hs hw, List.mem_filter, hs.mem_iff_refers hl, decide_eq_true_eq]

/-- The window has an address for each place at which a reference of the range stands. -/
theorem Sound.length_addressesAlong (hw : KeyWindow.between? range.min range.max = some w) :
    (s.addressesAlong [w]).length = (Reference.places (l.filter (·.address ∈ range))).length := by
  refine ((List.perm_ext_iff_of_nodup (s.nodup_addressesAlong w)
    (List.nodup_dedup _)).mpr fun a => ?_).length_eq
  simp only [List.mem_dedup, List.mem_map, List.mem_filter, mem_addresses_window hs hw,
    hs.mem_iff_refers hl, decide_eq_true_eq]
  constructor
  · rintro ⟨hin, r, hr, rfl⟩
    exact ⟨r, ⟨hr, hin⟩, rfl⟩
  · rintro ⟨r, ⟨hr, hin⟩, rfl⟩
    exact ⟨hin, r, hr, rfl⟩

/-- Where there is no window, no reference stands in the range. -/
theorem Sound.filter_eq_nil_of_between?
    (hw : KeyWindow.between? range.min range.max = none) : l.filter (·.address ∈ range) = [] := by
  refine List.filter_eq_nil_iff.mpr fun r hr hin => ?_
  obtain ⟨row, -, hk⟩ := ((hs.mem_iff_refers hl).mp hr).exists_key?
  exact KeyWindow.between?_ne_none hk (of_decide_eq_true hin) hw

end window

end Store

end Equates

/-
The stored references as one list.

The rows of a sound store stand for a list of references in the order of their keys
(`ReferenceRows.StandFor`), and for no other list.  What is read of the references is a part of
that list: those at an address and those to an equate, in its order
(`Store.Sound.referencesAt_eq`, `Store.Sound.referencesTo_eq`), and the one of a key
(`Store.Sound.reference?_eq`).
-/
import Equates.Proofs.Store.View
import Mathlib.Data.Set.List

namespace Equates

/-- The rows stand for these references, in the order of their keys. -/
def ReferenceRows.StandFor (t : ReferenceRows) (l : List Reference) : Prop :=
  t.toList.map ReferenceRow.decode = l.map .ok

theorem ReferenceRows.StandFor.unique {t : ReferenceRows} {l l' : List Reference}
    (h : t.StandFor l) (h' : t.StandFor l') : l = l' :=
  List.map_injective_iff.mpr (fun _ _ h => Except.ok.inj h) (h.symm.trans h')

namespace Store.Sound

variable {s : Store} (hs : s.Sound)
include hs

/-- Every row of a sound store stands for a reference. -/
theorem exists_standFor : ∃ l, s.references.StandFor l := by
  have hrange : s.references.toList.map ReferenceRow.decode ∈ Set.range (List.map Except.ok) := by
    rw [Set.range_list_map]
    refine List.forall_mem_map.mpr fun row hrow => ?_
    obtain ⟨r, hr⟩ := hs.decode (hs.references.mem_toList.mp hrow)
    exact ⟨r, hr.symm⟩
  obtain ⟨l, hl⟩ := hrange
  exact ⟨l, hl.symm⟩

section standFor

variable {l : List Reference} (hl : s.references.StandFor l)
include hl

theorem mem_iff_refers {r : Reference} : r ∈ l ↔ s.Refers r := by
  have hmem : Except.ok r ∈ l.map (Except.ok (ε := Problem)) ↔ r ∈ l :=
    List.mem_map_of_injective fun _ _ h => Except.ok.inj h
  rw [← hmem, ← show s.references.toList.map ReferenceRow.decode = l.map .ok from hl,
    List.mem_map]
  simp only [hs.references.mem_toList]
  exact Iff.rfl

theorem sorted_of_standFor : l.Pairwise (·.id < ·.id) := by
  have hrows : (s.references.toList.map ReferenceRow.decode).Pairwise fun x y =>
      ∀ r r', x = .ok r → y = .ok r' → r.id < r'.id := by
    rw [List.pairwise_map]
    refine hs.references.toList_sorted.imp fun {row row'} hlt r r' hr hr' => ?_
    -- A reference has the key of its row.
    rw [(ReferenceRow.decode_eq_ok_iff.mp hr).2.1, (ReferenceRow.decode_eq_ok_iff.mp hr').2.1]
    exact hlt
  rw [show s.references.toList.map ReferenceRow.decode = l.map .ok from hl,
    List.pairwise_map] at hrows
  exact hrows.imp fun h => h _ _ rfl rfl

theorem lt_next {r : Reference} (hr : r ∈ l) : r.id < s.references.next := by
  obtain ⟨row, hrow, hd⟩ := (hs.mem_iff_refers hl).mp hr
  rw [(ReferenceRow.decode_eq_ok_iff.mp hd).2.1]
  exact hs.references.lt_next hrow

end standFor

/-- The rows stand for the list that is sorted by keys and has just the stored references. -/
theorem standFor_iff {l : List Reference} :
    s.references.StandFor l ↔ l.Pairwise (·.id < ·.id) ∧ ∀ r, r ∈ l ↔ s.Refers r := by
  constructor
  · exact fun hl => ⟨hs.sorted_of_standFor hl, fun r => hs.mem_iff_refers hl⟩
  · rintro ⟨hsorted, hmem⟩
    obtain ⟨l', hl'⟩ := hs.exists_standFor
    have heq : l = l' := eq_of_sorted_of_mem_iff hsorted (hs.sorted_of_standFor hl')
      fun r => (hmem r).trans (hs.mem_iff_refers hl').symm
    rw [heq]
    exact hl'

section same

variable {s' : Store} (hs' : s'.Sound) {l : List Reference} (hl : s.references.StandFor l)
  (hl' : s'.references.StandFor l)
include hs' hl hl'

theorem get?_of_standFor {k : Key} {row : ReferenceRow} (hrow : s.references.get? k = some row) :
    s'.references.get? k = some row := by
  have hmem := hs.references.mem_of_get? hrow
  obtain ⟨r, hd⟩ := hs.decode hmem
  obtain ⟨row', hmem', hd'⟩ :=
    (hs'.mem_iff_refers hl').mp ((hs.mem_iff_refers hl).mpr ⟨row, hmem, hd⟩)
  obtain rfl := ReferenceRow.eq_of_decode hd hd'
  rw [← hs.references.id_eq hrow]
  exact hmem'

/-- Rows that stand for the same references, and will give out the same keys, are the same. -/
theorem references_eq (hnext : s'.references.next = s.references.next) :
    s'.references = s.references :=
  hs.references.ext hs'.references (fun _ => Option.ext fun _ =>
    ⟨hs'.get?_of_standFor hs hl' hl, hs.get?_of_standFor hs' hl hl'⟩) hnext

end same

section writes

variable {l : List Reference} (hl : s.references.StandFor l)
include hl

/-- A new reference comes last. -/
theorem standFor_create {a : Address} {k : Int} (hk : a.key? = some k) (operand : Int)
    (hash : UInt64) (equate : Key) :
    (s.references.create k operand hash equate).2.StandFor
      (l ++ [⟨s.references.next, a, operand, hash, equate⟩]) := by
  have hs' := hs.create_reference (Address.ofKey?_of_key? hk) operand hash equate s.changes
  refine hs'.standFor_iff.mpr ⟨?_, fun r => ?_⟩
  · refine List.pairwise_append.mpr ⟨hs.sorted_of_standFor hl, List.pairwise_singleton _ _, ?_⟩
    intro r hr r' hr'
    obtain rfl := List.mem_singleton.mp hr'
    exact hs.lt_next hl hr
  · rw [refers_create hs hk rfl, List.mem_append, List.mem_singleton, hs.mem_iff_refers hl, or_comm]

theorem standFor_erase (id : Key) :
    (s.references.erase id).StandFor (l.filter (·.id ≠ id)) := by
  have hs' := hs.erase_reference id s.changes
  refine hs'.standFor_iff.mpr ⟨(hs.sorted_of_standFor hl).filter _, fun r => ?_⟩
  rw [refers_erase rfl, List.mem_filter, hs.mem_iff_refers hl, decide_eq_true_eq]

end writes

/-! ### What is read of the references -/

section reads

variable {l : List Reference} (hl : s.references.StandFor l)
include hl

theorem referencesAt_eq (a : Address) : s.referencesAt a = l.filter (·.address = a) := by
  refine eq_of_sorted_of_mem_iff (hs.referencesAt_sorted a)
    ((hs.sorted_of_standFor hl).filter _) fun r => ?_
  rw [hs.mem_referencesAt, List.mem_filter, hs.mem_iff_refers hl, decide_eq_true_eq]

theorem referencesTo_eq (id : Key) : s.referencesTo id = l.filter (·.equate = id) := by
  refine eq_of_sorted_of_mem_iff (hs.referencesTo_sorted id)
    ((hs.sorted_of_standFor hl).filter _) fun r => ?_
  rw [hs.mem_referencesTo, List.mem_filter, hs.mem_iff_refers hl, decide_eq_true_eq]

theorem reference?_eq (id : Key) : s.reference? id = l.find? (·.id = id) := by
  cases hf : l.find? (·.id = id) with
  | none =>
    refine Option.eq_none_iff_forall_not_mem.mpr fun r hr => ?_
    obtain ⟨hrefers, hid⟩ := hs.reference?_eq_some.mp hr
    exact List.find?_eq_none.mp hf r ((hs.mem_iff_refers hl).mpr hrefers) (by simpa using hid)
  | some r =>
    have hid : r.id = id := by simpa using List.find?_some hf
    have hmem := (hs.mem_iff_refers hl).mp (List.mem_of_find?_eq_some hf)
    exact hs.reference?_eq_some.mpr ⟨hmem, hid⟩

omit hl in
/-- The keys of references that are read are those they are read by. -/
theorem map_id_filterMap {keys : List Key} (hkeys : ∀ k ∈ keys, ∃ r, s.reference? k = some r) :
    (keys.filterMap s.reference?).map Reference.id = keys := by
  rw [List.map_filterMap]
  refine (List.filterMap_congr fun k hk => ?_).trans List.filterMap_some
  obtain ⟨r, hr⟩ := hkeys k hk
  rw [hr, Option.map_some, (hs.reference?_eq_some.mp hr).2]

omit hl in
theorem exists_reference? {k : Key} {row : ReferenceRow} (hrow : s.references.get? k = some row) :
    ∃ r, s.reference? k = some r := by
  obtain ⟨r, hd⟩ := hs.decode (hs.references.mem_of_get? hrow)
  refine ⟨r, ?_⟩
  rw [reference?, hrow, Option.bind_some, hd]
  rfl

theorem keysAt_eq (a : Address) : s.keysAt a = (l.filter (·.address = a)).map Reference.id := by
  rw [← hs.referencesAt_eq hl, referencesAt, hs.map_id_filterMap]
  intro k hk
  obtain ⟨row, hrow, -⟩ := (mem_keysAt hs).mp hk
  exact hs.exists_reference? hrow

theorem keysTo_eq (id : Key) :
    s.references.keysTo id = (l.filter (·.equate = id)).map Reference.id := by
  rw [← hs.referencesTo_eq hl, referencesTo, hs.map_id_filterMap]
  intro k hk
  obtain ⟨row, hrow, -⟩ := hs.references.mem_keysTo.mp hk
  exact hs.exists_reference? hrow

end reads

end Store.Sound

end Equates

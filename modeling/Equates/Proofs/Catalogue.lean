/-
The catalogue of a table: its equates and the uses of them as they show from outside,
under names and without storage keys.

A `Catalogue` maps names to values and holds the uses of the names, each as often as it
occurs.  A `Change` amends it if what the change tells is possible there
(`Catalogue.amend?`): a name that is added is new, one that is removed has the value of
the change and no use any more, a renaming finds the old name and not the new one, and a
use that is removed is there.

`Store.catalogue` is the catalogue of what is stored.  It has each stored equate and each
stored reference once (`Store.size_catalogue`), so that two stores with one catalogue
differ at most in the keys of their rows.
-/
import Equates.Proofs.Integrity
import Mathlib.Data.Multiset.Filter
import Mathlib.Data.Multiset.MapFold

namespace Equates

/-- A use of a name at an operand of an address. -/
structure Use where
  name : String
  address : Address
  operand : Int
  hash : UInt64
deriving DecidableEq, Repr

/-- The use that listeners see in an attached reference. -/
def Attachment.use (a : Attachment) : Use :=
  ⟨a.name, a.address, a.operand, a.hash⟩

/-- The use after its name has been changed. -/
def Use.rename (old new : String) (u : Use) : Use :=
  if u.name = old then { u with name := new } else u

/-- Names with their values, and the uses of the names. -/
structure Catalogue where
  values : Std.ExtTreeMap String Int64 := ∅
  uses : Multiset Use := 0

namespace Catalogue

/-- What a change makes of a catalogue; `none` if it is not possible there. -/
def amend? (c : Catalogue) : Change → Option Catalogue
  | .equateAdded name value =>
    if name ∈ c.values then none
    else some { c with values := c.values.insert name value }
  | .equateRemoved name value =>
    if c.values[name]? = some value ∧ ∀ u ∈ c.uses, u.name ≠ name then
      some { c with values := c.values.erase name }
    else none
  | .equateRenamed old new => do
    let value ← c.values[old]?
    if new ∈ c.values then none
    else some ⟨(c.values.erase old).insert new value, c.uses.map (Use.rename old new)⟩
  | .referenceAdded a =>
    if c.values[a.name]? = some a.value then some { c with uses := a.use ::ₘ c.uses }
    else none
  | .referenceRemoved a =>
    if c.values[a.name]? = some a.value ∧ a.use ∈ c.uses then
      some { c with uses := c.uses.erase a.use }
    else none

/-- Follows the changes in order. -/
def replay? (c : Catalogue) (l : List Change) : Option Catalogue :=
  l.foldlM amend? c

theorem replay?_append (c : Catalogue) (l l' : List Change) :
    c.replay? (l ++ l') = (c.replay? l).bind (·.replay? l') :=
  List.foldlM_append

/-! ### The entries of a map -/

section entries

variable {α : Type}

/-- The entries of a map, in no order. -/
def entries (m : Std.ExtTreeMap Key α) : Multiset (Key × α) :=
  m.toList

theorem mem_entries {m : Std.ExtTreeMap Key α} {k : Key} {a : α} :
    (k, a) ∈ entries m ↔ m[k]? = some a :=
  Std.ExtTreeMap.mem_toList_iff_getElem?_eq_some

theorem nodup_entries (m : Std.ExtTreeMap Key α) : (entries m).Nodup :=
  Multiset.coe_nodup.mpr <| m.distinct_keys_toList.imp fun h heq => h <| by
    rw [heq]
    exact Std.ReflCmp.compare_self

theorem entries_insert {m : Std.ExtTreeMap Key α} {k : Key} (h : m[k]? = none) (a : α) :
    entries (m.insert k a) = (k, a) ::ₘ entries m := by
  have hk : (k, a) ∉ entries m := by
    rw [mem_entries, h]
    exact Option.some_ne_none a ∘ Eq.symm
  refine (Multiset.Nodup.ext (nodup_entries _) ((nodup_entries m).cons hk)).mpr ?_
  rintro ⟨k', a'⟩
  rw [Multiset.mem_cons, mem_entries, mem_entries, Std.ExtTreeMap.getElem?_insert, Prod.mk.injEq]
  by_cases hkk : k = k'
  · subst hkk
    simp [h, eq_comm]
  · simp [hkk, Ne.symm hkk]

theorem entries_erase {m : Std.ExtTreeMap Key α} {k : Key} {a : α} (h : m[k]? = some a) :
    entries m = (k, a) ::ₘ entries (m.erase k) := by
  have hnone : (m.erase k)[k]? = none := by simp
  have hsame : (m.erase k).insert k a = m := by
    refine Std.ExtTreeMap.ext_getElem? fun k' => ?_
    rw [Std.ExtTreeMap.getElem?_insert, Std.ExtTreeMap.getElem?_erase]
    by_cases hkk : k = k'
    · subst hkk
      simp [h]
    · simp [hkk]
  rw [← entries_insert hnone, hsame]

end entries

end Catalogue

/-! ### The catalogue of a store -/

namespace Store

open Catalogue

/-- The use that a stored row stands for, under the name of its equate. -/
def use? (s : Store) (row : ReferenceRow) : Option Use := do
  let a ← Address.ofKey? row.addressKey
  let e ← s.equates.get? row.equate
  return ⟨e.name, a, row.operand, row.hash⟩

/-- The stored names with their values. -/
def values (s : Store) : Std.ExtTreeMap String Int64 :=
  .ofList (s.equates.rows.toList.map fun p => (p.2.name, p.2.value))

/-- The uses that the stored references stand for. -/
def uses (s : Store) : Multiset Use :=
  (entries s.references.rows).filterMap fun p => s.use? p.2

/-- What is stored, under names. -/
def catalogue (s : Store) : Catalogue :=
  ⟨s.values, s.uses⟩

theorem use?_eq_some {s : Store} {row : ReferenceRow} {u : Use} :
    s.use? row = some u ↔ ∃ a e, Address.ofKey? row.addressKey = some a ∧
      s.equates.get? row.equate = some e ∧ u = ⟨e.name, a, row.operand, row.hash⟩ := by
  rw [use?]
  cases Address.ofKey? row.addressKey with
  | none => simp
  | some a =>
    cases s.equates.get? row.equate with
    | none => simp
    | some e => simp [eq_comm]

theorem mem_uses {s : Store} (hs : s.Sound) {u : Use} :
    u ∈ s.uses ↔ ∃ row ∈ s.references, s.use? row = some u := by
  rw [uses, Multiset.mem_filterMap]
  constructor
  · rintro ⟨⟨k, row⟩, hp, hu⟩
    exact ⟨row, hs.references.mem_of_get? (mem_entries.mp hp), hu⟩
  · rintro ⟨row, hrow, hu⟩
    exact ⟨(row.id, row), mem_entries.mpr hrow, hu⟩

section values

variable {s : Store}

/-- No two rows have one name. -/
theorem distinct_names (hs : s.Sound) :
    (s.equates.rows.toList.map fun p => (p.2.name, p.2.value)).Pairwise
      fun p q => ¬ compare p.1 q.1 = .eq := by
  rw [List.pairwise_map]
  refine s.equates.rows.distinct_keys_toList.imp_of_mem fun hp hq hne hname => hne ?_
  have hget := Std.ExtTreeMap.mem_toList_iff_getElem?_eq_some.mp hp
  have hget' := Std.ExtTreeMap.mem_toList_iff_getElem?_eq_some.mp hq
  have heq := hs.equates.eq_of_name_eq (hs.equates.mem_of_get? hget) (hs.equates.mem_of_get? hget')
    (Std.LawfulEqCmp.eq_of_compare hname)
  rw [← hs.equates.id_eq hget, ← hs.equates.id_eq hget', heq]
  exact Std.ReflCmp.compare_self

theorem getElem?_values (hs : s.Sound) {name : String} {value : Int64} :
    s.values[name]? = some value ↔ ∃ e ∈ s.equates, e.name = name ∧ e.value = value := by
  have hfound : ∀ e ∈ s.equates, s.values[e.name]? = some e.value := by
    intro e he
    have hmem := Std.ExtTreeMap.mem_toList_iff_getElem?_eq_some.mpr (EquateRows.mem_def.mp he)
    exact Std.ExtTreeMap.getElem?_ofList_of_mem Std.ReflCmp.compare_self (distinct_names hs)
      (List.mem_map.mpr ⟨_, hmem, rfl⟩)
  constructor
  · intro h
    have hmem : name ∈ s.values := Std.ExtTreeMap.mem_iff_isSome_getElem?.mpr (by rw [h]; rfl)
    obtain ⟨⟨k, e⟩, hp, rfl⟩ : ∃ p ∈ s.equates.rows.toList, p.2.name = name := by
      rw [values, Std.ExtTreeMap.mem_ofList] at hmem
      simpa using hmem
    have he := hs.equates.mem_of_get? (Std.ExtTreeMap.mem_toList_iff_getElem?_eq_some.mp hp)
    exact ⟨e, he, rfl, Option.some.inj ((hfound e he).symm.trans h)⟩
  · rintro ⟨e, he, rfl, rfl⟩
    exact hfound e he

theorem mem_values (hs : s.Sound) {name : String} :
    name ∈ s.values ↔ ∃ e ∈ s.equates, e.name = name := by
  rw [Std.ExtTreeMap.mem_iff_isSome_getElem?, Option.isSome_iff_exists]
  constructor
  · rintro ⟨value, h⟩
    obtain ⟨e, he, hn, -⟩ := (getElem?_values hs).mp h
    exact ⟨e, he, hn⟩
  · rintro ⟨e, he, hn⟩
    exact ⟨e.value, (getElem?_values hs).mpr ⟨e, he, hn, rfl⟩⟩

/-- A map that has the names of the stored equates with their values is the map of them. -/
theorem values_eq (hs : s.Sound) {m : Std.ExtTreeMap String Int64}
    (h : ∀ name value, m[name]? = some value ↔
      ∃ e ∈ s.equates, e.name = name ∧ e.value = value) : s.values = m :=
  Std.ExtTreeMap.ext_getElem? fun name => Option.ext fun value => by
    rw [getElem?_values hs, h]

end values

/-- The catalogue has each stored equate and each stored reference once. -/
theorem size_catalogue {s : Store} (hs : s.Sound) (hint : s.Integral) :
    s.catalogue.values.size = s.equates.size ∧ s.catalogue.uses.card = s.references.size := by
  constructor
  · refine (Std.ExtTreeMap.size_ofList (distinct_names hs)).trans ?_
    rw [List.length_map, Std.ExtTreeMap.length_toList]
    rfl
  · -- Every row has an address and an equate, so none is passed over.
    have huse : ∀ p ∈ entries s.references.rows, (s.use? p.2).isSome := by
      rintro ⟨k, row⟩ hp
      have hrow := hs.references.mem_of_get? (mem_entries.mp hp)
      obtain ⟨a, ha⟩ := hs.placed row hrow
      obtain ⟨e, he⟩ := hint row hrow
      rw [use?_eq_some.mpr ⟨a, e, ha, he, rfl⟩]
      rfl
    exact (List.filterMap_length_eq_length.mpr huse).trans Std.ExtTreeMap.length_toList

end Store

end Equates

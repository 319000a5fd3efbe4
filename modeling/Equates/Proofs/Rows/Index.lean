/-
What a secondary index says about the rows it was built from.

A column assigns to each row key the value that the row has there, if there is
such a row.  An index mirrors a column (`Index.Mirrors`) if it files every row
under its value, and nothing else:

* `Index.Mirrors.link`, `Index.Mirrors.unlink` — filing and withdrawing a row keep
  the index in step with the column;
* `Index.firstIn?_eq_some`, `Index.firstIn?_eq_none` — the first value in a key
  window is the head of the values there, and the window behind it holds the rest.
-/
import Equates.Rows.Index
import Mathlib.Algebra.Order.Ring.Int
import Mathlib.Data.List.Nodup
import Mathlib.Order.Compare
import Mathlib.Tactic.Common

namespace Equates.Index

/-- The value of each row, by its key. -/
abbrev Column := Key → Option Int

/-- The index holds each row under its value in the column, and no empty set. -/
structure Mirrors (ix : Index) (column : Column) : Prop where
  mem_keys : ∀ v k, k ∈ ix.keys v ↔ column k = some v
  inhabited : ∀ (v : Int) (set : Std.ExtTreeSet Key), ix.sets[v]? = some set → set ≠ ∅

theorem mem_keys_iff {ix : Index} {v : Int} {k : Key} :
    k ∈ ix.keys v ↔ ∃ set, ix.sets[v]? = some set ∧ k ∈ set := by
  rw [keys]
  cases h : ix.sets[v]? with
  | none => simp
  | some set => simp

/-- The rows under a value stand in ascending order. -/
theorem keys_sorted (ix : Index) (v : Int) : (ix.keys v).Pairwise (· < ·) := by
  rw [keys]
  split
  · next set _ => exact set.ordered_toList.imp fun h => compare_lt_iff_lt.mp h
  · exact List.Pairwise.nil

theorem nodup_keys (ix : Index) (v : Int) : (ix.keys v).Nodup :=
  (ix.keys_sorted v).imp fun h => ne_of_lt h

theorem sets_link (ix : Index) (v v' : Int) (k : Key) :
    (ix.link v k).sets[v']? =
      if v = v' then some ((ix.sets[v]?.getD ∅).insert k) else ix.sets[v']? := by
  rw [link, Std.ExtTreeMap.getElem?_alter]
  simp

theorem sets_unlink (ix : Index) (v v' : Int) (k : Key) :
    (ix.unlink v k).sets[v']? =
      if v = v' then (ix.sets[v]?.map (·.erase k)).filter (!·.isEmpty) else ix.sets[v']? := by
  rw [unlink, Std.ExtTreeMap.getElem?_alter]
  by_cases hv : v = v'
  · subst hv
    rw [if_pos (compare_eq_iff_eq.mpr rfl), if_pos rfl]
    cases ix.sets[v]? with
    | none => rfl
    | some set =>
      show (if (set.erase k).isEmpty then none else some (set.erase k)) =
        if !(set.erase k).isEmpty then some (set.erase k) else none
      cases (set.erase k).isEmpty <;> rfl
  · simp [hv]

theorem mem_keys_link {ix : Index} {v v' : Int} {k k' : Key} :
    k' ∈ (ix.link v k).keys v' ↔ (v' = v ∧ k' = k) ∨ k' ∈ ix.keys v' := by
  rw [mem_keys_iff, sets_link]
  by_cases hv : v = v'
  · subst hv
    rw [mem_keys_iff]
    cases h : ix.sets[v]? with
    | none => simp [eq_comm (a := k)]
    | some set => simp [eq_comm (a := k)]
  · rw [if_neg hv, ← mem_keys_iff]
    simp [Ne.symm hv]

theorem mem_keys_unlink {ix : Index} {v v' : Int} {k k' : Key} :
    k' ∈ (ix.unlink v k).keys v' ↔ k' ∈ ix.keys v' ∧ ¬ (v' = v ∧ k' = k) := by
  rw [mem_keys_iff, sets_unlink]
  by_cases hv : v = v'
  · subst hv
    rw [mem_keys_iff]
    cases h : ix.sets[v]? with
    | none => simp
    | some set =>
      -- A set is dropped only when its last key goes, so no other key is lost.
      have hne : k' ∈ set.erase k → (set.erase k).isEmpty = false := by
        intro hk
        rw [Std.ExtTreeSet.isEmpty_eq_false_iff]
        rintro he
        simp [he] at hk
      simp only [if_true, Option.map_some, Option.filter]
      constructor
      · rintro ⟨s, hs, hk⟩
        split at hs
        · cases hs
          have := Std.ExtTreeSet.mem_erase.mp hk
          exact ⟨⟨set, rfl, this.2⟩, fun hc => this.1 (compare_eq_iff_eq.mpr hc.2.symm)⟩
        · cases hs
      · rintro ⟨⟨s, hs, hk⟩, hc⟩
        cases hs
        have hk' : k' ∈ set.erase k := by
          rw [Std.ExtTreeSet.mem_erase]
          exact ⟨fun he => hc ⟨trivial, (compare_eq_iff_eq.mp he).symm⟩, hk⟩
        exact ⟨set.erase k, by simp [hne hk'], hk'⟩
  · rw [if_neg hv, ← mem_keys_iff]
    simp [Ne.symm hv]

theorem Mirrors.link {ix : Index} {column : Column} (h : ix.Mirrors column) (v : Int) {k : Key}
    (hk : column k = none) : (ix.link v k).Mirrors (Function.update column k (some v)) where
  mem_keys v' k' := by
    rw [mem_keys_link, h.mem_keys, Function.update_apply]
    by_cases hk' : k' = k
    · subst hk'
      simp [hk, eq_comm]
    · simp [hk']
  inhabited v' set hs := by
    rw [sets_link] at hs
    split at hs
    · cases hs
      intro he
      have : k ∈ (ix.sets[v]?.getD ∅).insert k := Std.ExtTreeSet.mem_insert_self
      rw [he] at this
      exact Std.ExtTreeSet.not_mem_empty this
    · exact h.inhabited v' set hs

theorem Mirrors.unlink {ix : Index} {column : Column} (h : ix.Mirrors column) {v : Int} {k : Key}
    (hk : column k = some v) : (ix.unlink v k).Mirrors (Function.update column k none) where
  mem_keys v' k' := by
    rw [mem_keys_unlink, h.mem_keys, Function.update_apply]
    by_cases hk' : k' = k
    · subst hk'
      simp [hk, eq_comm]
    · simp [hk']
  inhabited v' set hs := by
    rw [sets_unlink] at hs
    split at hs
    · obtain ⟨-, hne⟩ := Option.filter_eq_some_iff.mp hs
      exact Std.ExtTreeSet.isEmpty_eq_false_iff.mp (by simpa using hne)
    · exact h.inhabited v' set hs

/-! ### The first value in a window -/

/-- The values that some row has, ascending. -/
def values (ix : Index) : List Int :=
  ix.sets.keys

theorem values_sorted (ix : Index) : ix.values.Pairwise (· < ·) :=
  ix.sets.ordered_keys.imp fun h => compare_lt_iff_lt.mp h

/-- This is what the index drops its empty sets for. -/
theorem Mirrors.exists_mem {ix : Index} {column : Column} (h : ix.Mirrors column) {v : Int}
    {set : Std.ExtTreeSet Key} (hset : ix.sets[v]? = some set) : ∃ k, k ∈ set := by
  by_contra hc
  refine h.inhabited v set hset (Std.ExtTreeSet.ext_mem fun k => ?_)
  simpa using fun hk => hc ⟨k, hk⟩

theorem Mirrors.mem_values {ix : Index} {column : Column} (h : ix.Mirrors column) {v : Int} :
    v ∈ ix.values ↔ ∃ k, column k = some v := by
  rw [values, Std.ExtTreeMap.mem_keys, Std.ExtTreeMap.mem_iff_isSome_getElem?]
  constructor
  · intro hs
    obtain ⟨set, hset⟩ := Option.isSome_iff_exists.mp hs
    obtain ⟨k, hk⟩ := h.exists_mem hset
    exact ⟨k, (h.mem_keys v k).mp (mem_keys_iff.mpr ⟨set, hset, hk⟩)⟩
  · rintro ⟨k, hk⟩
    obtain ⟨set, hset, -⟩ := mem_keys_iff.mp ((h.mem_keys v k).mpr hk)
    rw [hset]
    rfl

section unique

variable {ix ix' : Index} {column : Column} (h : ix.Mirrors column) (h' : ix'.Mirrors column)
include h h'

theorem Mirrors.getElem?_of_getElem? {v : Int} {set : Std.ExtTreeSet Key}
    (hset : ix.sets[v]? = some set) : ix'.sets[v]? = some set := by
  have hmem : ∀ k, k ∈ set ↔ ∃ set', ix'.sets[v]? = some set' ∧ k ∈ set' := fun k => by
    rw [← mem_keys_iff, h'.mem_keys, ← h.mem_keys, mem_keys_iff, hset]
    simp only [Option.some_inj, exists_eq_left']
  obtain ⟨k, hk⟩ := h.exists_mem hset
  obtain ⟨set', hset', -⟩ := (hmem k).mp hk
  rw [hset']
  refine congrArg some (Std.ExtTreeSet.ext_mem fun k => ?_)
  rw [hmem k, hset']
  simp only [Option.some_inj, exists_eq_left']

/-- A column has one index only. -/
theorem Mirrors.unique : ix = ix' := by
  obtain ⟨sets⟩ := ix
  obtain ⟨sets'⟩ := ix'
  refine congrArg Index.mk (Std.ExtTreeMap.ext_getElem? fun v => Option.ext fun set => ?_)
  exact ⟨h.getElem?_of_getElem? h', h'.getElem?_of_getElem? h⟩

end unique

/-- The core library describes `getKeyGE?` only for the trees behind its maps. -/
theorem getKeyGE?_eq_find? (m : Std.ExtTreeMap Int (Std.ExtTreeSet Key)) (k : Int) :
    m.getKeyGE? k = m.keys.find? (k ≤ ·) := by
  obtain ⟨m⟩ := m
  induction m using Std.ExtDTreeMap.inductionOn with
  | mk m =>
    show m.inner.getKeyGE? k = m.inner.keys.find? (k ≤ ·)
    rw [Std.DTreeMap.Internal.Impl.getKeyGE?_eq_getEntryGE?,
      Std.DTreeMap.Internal.Impl.getEntryGE?_eq_find? m.wf.ordered,
      Std.DTreeMap.Internal.Impl.keys_eq_keys, Std.Internal.List.keys_eq_map, List.find?_map]
    congr 2
    funext e
    exact Bool.eq_iff_iff.mpr (by simp [Std.isGE_compare])

/-- The values in a window. -/
def valuesIn (ix : Index) (w : KeyWindow) : List Int :=
  ix.values.filter (· ∈ w)

theorem firstIn?_eq_none {ix : Index} {w : KeyWindow} (h : ix.firstIn? w = none) :
    ix.valuesIn w = [] := by
  rw [valuesIn, List.filter_eq_nil_iff]
  intro v hv hw
  have hw : v ∈ w := by simpa using hw
  rw [firstIn?, getKeyGE?_eq_find?] at h
  cases hf : ix.sets.keys.find? (w.first ≤ ·) with
  | none =>
    have := List.find?_eq_none.mp hf v hv
    exact this (by simpa using hw.1)
  | some u =>
    -- The least value from the start of the window on is not behind `v`.
    have hu : w.first ≤ u := by simpa using List.find?_some hf
    have huv : u ≤ v := by
      obtain ⟨-, l₁, l₂, hl, hlt⟩ := List.find?_eq_some_iff_append.mp hf
      have hsorted := ix.values_sorted
      rw [values, hl] at hsorted
      rw [values, hl] at hv
      rcases List.mem_append.mp hv with hv | hv
      · exact absurd hw.1 (by simpa using hlt v hv)
      · rcases List.mem_cons.mp hv with rfl | hv
        · exact le_refl _
        · exact le_of_lt ((List.pairwise_cons.mp (List.pairwise_append.mp hsorted).2.1).1 v hv)
    have huw : u ∈ w := ⟨hu, le_trans huv hw.2⟩
    simp [hf, huw] at h

theorem firstIn?_eq_some {ix : Index} {w : KeyWindow} {v : Int} {hw : v ∈ w}
    (h : ix.firstIn? w = some ⟨v, hw⟩) : ix.valuesIn w = v :: ix.valuesIn (w.after v) := by
  rw [firstIn?, getKeyGE?_eq_find?] at h
  have hf : ix.sets.keys.find? (w.first ≤ ·) = some v := by
    cases hf : ix.sets.keys.find? (w.first ≤ ·) with
    | none => simp [hf] at h
    | some u =>
      by_cases hu : u ∈ w
      · simp [hf, hu] at h
        rw [h]
      · simp [hf, hu] at h
  obtain ⟨-, l₁, l₂, hl, hlt⟩ := List.find?_eq_some_iff_append.mp hf
  have hsorted := ix.values_sorted
  rw [values, hl] at hsorted
  have htail := (List.pairwise_cons.mp (List.pairwise_append.mp hsorted).2.1).1
  have hbefore : ∀ u ∈ l₁, u < w.first := fun u hu => by simpa using hlt u hu
  -- The keys before `v` lie before the window, those behind it lie in the rest of
  -- the window or in neither, and `v` itself lies in the window only.
  have h₁ : l₁.filter (· ∈ w) = [] := by
    rw [List.filter_eq_nil_iff]
    intro u hu hm
    have : u ∈ w := by simpa using hm
    exact absurd this.1 (not_le.mpr (hbefore u hu))
  have h₂ : l₁.filter (· ∈ w.after v) = [] := by
    rw [List.filter_eq_nil_iff]
    intro u hu hm
    have : u ∈ w.after v := by simpa using hm
    have : v + 1 ≤ u := this.1
    have := hbefore u hu
    have := hw.1
    omega
  have h₃ : l₂.filter (· ∈ w) = l₂.filter (· ∈ w.after v) := by
    refine List.filter_congr fun u hu => ?_
    have hvu := htail u hu
    have hiff : u ∈ w ↔ u ∈ w.after v := by
      constructor
      · intro hm
        exact ⟨hvu, hm.2⟩
      · intro hm
        exact ⟨le_trans hw.1 (le_of_lt hvu), hm.2⟩
    simp [hiff]
  have hv : v ∉ w.after v := fun hm => absurd hm.1 (by simp [KeyWindow.after])
  rw [valuesIn, valuesIn, values, hl, List.filter_append, List.filter_append, h₁, h₂,
    List.filter_cons_of_pos (by simpa using hw), List.filter_cons_of_neg (by simpa using hv), h₃]
  rfl

end Equates.Index

/-
The stored references stay well formed.

In sound rows (`ReferenceRows.Sound`) each row stands under its own key, every key
is older than the counter, and both indices mirror the rows.  Creation, overwriting
and removal keep rows sound, and a lemma for each says what is stored afterwards
(`ReferenceRows.get?_create`, `ReferenceRows.get?_update`,
`ReferenceRows.get?_erase`).
-/
import Equates.Rows.Reference
import Equates.Proofs.Rows.Index
import Equates.Proofs.Rows.Values

namespace Equates.ReferenceRows

/-- The row is stored, under its key. -/
instance : Membership ReferenceRow ReferenceRows where
  mem t r := t.get? r.id = some r

theorem mem_def {t : ReferenceRows} {r : ReferenceRow} : r ∈ t ↔ t.get? r.id = some r := Iff.rfl

/-- The values that the rows have under `f`. -/
def column (t : ReferenceRows) (f : ReferenceRow → Int) : Index.Column :=
  fun k => (t.get? k).map f

structure Sound (t : ReferenceRows) : Prop where
  id_eq : ∀ {k : Key} {r : ReferenceRow}, t.get? k = some r → r.id = k
  lt_next : ∀ {k : Key} {r : ReferenceRow}, t.get? k = some r → k < t.next
  byAddress : t.byAddress.Mirrors (t.column ReferenceRow.addressKey)
  byEquate : t.byEquate.Mirrors (t.column ReferenceRow.equate)

theorem get?_empty (k : Key) : get? {} k = none :=
  Std.ExtTreeMap.getElem?_empty

theorem sound_empty : Sound {} where
  id_eq h := by simp [get?_empty] at h
  lt_next h := by simp [get?_empty] at h
  byAddress := by
    refine ⟨fun v k => ?_, fun v set h => ?_⟩
    · simp [column, get?_empty, Index.mem_keys_iff]
    · simp at h
  byEquate := by
    refine ⟨fun v k => ?_, fun v set h => ?_⟩
    · simp [column, get?_empty, Index.mem_keys_iff]
    · simp at h

namespace Sound

variable {t : ReferenceRows}

theorem mem_of_get? (h : t.Sound) {k : Key} {r : ReferenceRow} (hr : t.get? k = some r) :
    r ∈ t := by
  rw [mem_def, h.id_eq hr]
  exact hr

theorem mem_keysAt (h : t.Sound) {v : Int} {k : Key} :
    k ∈ t.keysAt v ↔ ∃ r, t.get? k = some r ∧ r.addressKey = v := by
  rw [keysAt, h.byAddress.mem_keys, column, Option.map_eq_some_iff]

theorem mem_keysTo (h : t.Sound) {v : Key} {k : Key} :
    k ∈ t.keysTo v ↔ ∃ r, t.get? k = some r ∧ r.equate = v := by
  rw [keysTo, h.byEquate.mem_keys, column, Option.map_eq_some_iff]

/-- An equate without references has no entry in the index. -/
theorem keysTo_eq_nil_iff (h : t.Sound) {v : Key} :
    t.keysTo v = [] ↔ ∀ r ∈ t, r.equate ≠ v := by
  rw [List.eq_nil_iff_forall_not_mem]
  constructor
  · intro hk r hr hv
    exact hk r.id (h.mem_keysTo.mpr ⟨r, hr, hv⟩)
  · intro hr k hk
    obtain ⟨r, hget, hv⟩ := h.mem_keysTo.mp hk
    exact hr r (h.mem_of_get? hget) hv

theorem get?_next (h : t.Sound) : t.get? t.next = none := by
  cases hn : t.get? t.next with
  | none => rfl
  | some r => exact absurd (h.lt_next hn) (lt_irrefl _)

/-- Rows and counter determine the indices. -/
theorem ext {t' : ReferenceRows} (h : t.Sound) (h' : t'.Sound)
    (hget : ∀ k, t'.get? k = t.get? k) (hnext : t'.next = t.next) : t' = t := by
  have hcolumn : t'.column = t.column := funext fun f => funext fun k => by
    rw [column, column, hget]
  have haddress := h'.byAddress
  have hequate := h'.byEquate
  rw [hcolumn] at haddress hequate
  have hrows : t'.rows = t.rows := Std.ExtTreeMap.ext_getElem? hget
  cases t
  cases t'
  rw [mk.injEq]
  exact ⟨hrows, haddress.unique h.byAddress, hequate.unique h.byEquate, hnext⟩

end Sound

/-! ### Creation -/

section create

variable (t : ReferenceRows) (addressKey operand : Int) (hash : UInt64) (equate : Key)

theorem next_create : (t.create addressKey operand hash equate).2.next = t.next + 1 := rfl

theorem get?_create (k : Key) :
    (t.create addressKey operand hash equate).2.get? k =
      if k = t.next then some ⟨t.next, addressKey, operand, hash, equate⟩ else t.get? k := by
  simp [create, enter, get?, Std.ExtTreeMap.getElem?_insert, eq_comm (a := k)]

/-- The rows behind a creation are those before and the new one. -/
theorem mem_create {t : ReferenceRows} (ht : t.Sound) {r : ReferenceRow} :
    r ∈ (t.create addressKey operand hash equate).2 ↔
      r = ⟨t.next, addressKey, operand, hash, equate⟩ ∨ r ∈ t := by
  rw [mem_def, get?_create, mem_def]
  split
  · next hr =>
    rw [hr, ht.get?_next, Option.some_inj]
    simp [eq_comm]
  · next hr =>
    constructor
    · exact Or.inr
    · rintro (rfl | hm)
      · exact absurd rfl hr
      · exact hm

theorem column_create (f : ReferenceRow → Int) :
    (t.create addressKey operand hash equate).2.column f = Function.update (t.column f) t.next
      (some (f ⟨t.next, addressKey, operand, hash, equate⟩)) := by
  funext k
  rw [column, get?_create, Function.update_apply]
  split
  · rfl
  · rfl

theorem Sound.column_next {t : ReferenceRows} (ht : t.Sound) (f : ReferenceRow → Int) :
    t.column f t.next = none := by
  rw [column, ht.get?_next]
  rfl

theorem Sound.create {t : ReferenceRows} (ht : t.Sound) :
    (t.create addressKey operand hash equate).2.Sound := by
  have hget := get?_create t addressKey operand hash equate
  refine ⟨?_, ?_, ?_, ?_⟩
  · intro k r hk
    rw [hget] at hk
    split at hk
    · next hkn =>
      cases hk
      exact hkn.symm
    · exact ht.id_eq hk
  · intro k r hk
    rw [hget] at hk
    rw [next_create]
    split at hk
    · next hkn =>
      rw [hkn]
      exact Int.lt_succ _
    · exact lt_trans (ht.lt_next hk) (Int.lt_succ _)
  · rw [column_create]
    exact ht.byAddress.link addressKey (ht.column_next _)
  · rw [column_create]
    exact ht.byEquate.link equate (ht.column_next _)

end create

/-! ### Overwriting -/

theorem update_eq (t : ReferenceRows) (r : ReferenceRow) :
    t.update r =
      match t.get? r.id with
      | none => (.error (.noReferenceRow r.id), t)
      | some old => (.ok (), (t.withdraw old).enter r) := by
  rw [update, Rows.run_get_bind]
  cases t.get? r.id with
  | none => rfl
  | some old => rfl

theorem update_ok {t : ReferenceRows} {old r : ReferenceRow} (h : t.get? r.id = some old) :
    t.update r = (.ok (), (t.withdraw old).enter r) := by
  rw [update_eq, h]

theorem update_eq_error {t : ReferenceRows} {r : ReferenceRow} {p : Problem} :
    (t.update r).1 = .error p ↔ t.get? r.id = none ∧ p = .noReferenceRow r.id := by
  rw [update_eq]
  cases t.get? r.id with
  | none => simp [eq_comm]
  | some old => simp

/-- An update that is refused leaves the rows alone: the old row is looked for before it is
withdrawn. -/
theorem update_of_error {t t' : ReferenceRows} {r : ReferenceRow} {p : Problem}
    (h : t.update r = (.error p, t')) : t' = t := by
  rw [update_eq] at h
  split at h
  · cases h
    rfl
  · cases h

theorem get?_of_update {t t' : ReferenceRows} {r : ReferenceRow} (h : t.update r = (.ok (), t')) :
    ∃ old, t.get? r.id = some old ∧ t' = (t.withdraw old).enter r := by
  rw [update_eq] at h
  split at h
  · cases h
  · next old hold =>
    cases h
    exact ⟨old, hold, rfl⟩

theorem get?_update {t t' : ReferenceRows} {r : ReferenceRow} (h : t.update r = (.ok (), t')) (k : Key) :
    t'.get? k = if k = r.id then some r else t.get? k := by
  obtain ⟨old, -, rfl⟩ := get?_of_update h
  simp [withdraw, enter, get?, Std.ExtTreeMap.getElem?_insert, eq_comm (a := k)]

theorem next_update {t t' : ReferenceRows} {r : ReferenceRow} (h : t.update r = (.ok (), t')) :
    t'.next = t.next := by
  obtain ⟨old, -, rfl⟩ := get?_of_update h
  rfl

theorem column_update {t t' : ReferenceRows} {r : ReferenceRow} (h : t.update r = (.ok (), t'))
    (f : ReferenceRow → Int) : t'.column f = Function.update (t.column f) r.id (some (f r)) := by
  funext k
  rw [column, get?_update h, Function.update_apply]
  split
  · rfl
  · rfl

theorem column_of_get? {t : ReferenceRows} {k : Key} {r : ReferenceRow} (h : t.get? k = some r)
    (f : ReferenceRow → Int) : t.column f k = some (f r) := by
  rw [column, h]
  rfl

theorem Sound.update {t t' : ReferenceRows} (ht : t.Sound) {r : ReferenceRow}
    (h : t.update r = (.ok (), t')) : t'.Sound := by
  have hget := get?_update h
  have hnext := next_update h
  obtain ⟨old, hold, heq⟩ := get?_of_update h
  have hoid := ht.id_eq hold
  -- Withdrawing the old row and filing the new one changes one entry of each column.
  have hrefile : ∀ {ix : Index} {f : ReferenceRow → Int}, ix.Mirrors (t.column f) →
      ((ix.unlink (f old) old.id).link (f r) r.id).Mirrors (t'.column f) := by
    intro ix f hix
    have hlink := (hix.unlink (column_of_get? hold f)).link (f r)
      (Function.update_self r.id none (t.column f))
    rw [column_update h, hoid]
    rwa [Function.update_idem] at hlink
  refine ⟨?_, ?_, ?_, ?_⟩
  · intro k r' hk
    rw [hget] at hk
    split at hk
    · next hkr =>
      cases hk
      exact hkr.symm
    · exact ht.id_eq hk
  · intro k r' hk
    rw [hget] at hk
    rw [hnext]
    split at hk
    · next hkr =>
      rw [hkr]
      exact ht.lt_next hold
    · exact ht.lt_next hk
  · have hix := hrefile ht.byAddress
    rw [heq] at hix ⊢
    exact hix
  · have hix := hrefile ht.byEquate
    rw [heq] at hix ⊢
    exact hix

/-! ### Removal -/

theorem get?_erase (t : ReferenceRows) (id k : Key) :
    (t.erase id).get? k = if k = id then none else t.get? k := by
  rw [erase]
  split
  · next hid =>
    split
    · next hk =>
      rw [hk]
      exact hid
    · rfl
  · simp [get?, Std.ExtTreeMap.getElem?_erase, eq_comm (a := k)]

theorem next_erase (t : ReferenceRows) (id : Key) : (t.erase id).next = t.next := by
  rw [erase]
  split <;> rfl

theorem mem_erase {t : ReferenceRows} {id : Key} {r : ReferenceRow} :
    r ∈ t.erase id ↔ r ∈ t ∧ r.id ≠ id := by
  rw [mem_def, get?_erase, mem_def]
  split
  · next h => simp [h]
  · next h => simp [h]

theorem column_erase (t : ReferenceRows) (id : Key) (f : ReferenceRow → Int) :
    (t.erase id).column f = Function.update (t.column f) id none := by
  funext k
  rw [column, get?_erase, Function.update_apply]
  split
  · rfl
  · rfl

theorem Sound.erase {t : ReferenceRows} (ht : t.Sound) (id : Key) : (t.erase id).Sound := by
  have hget := get?_erase t id
  cases hid : t.get? id with
  | none =>
    rw [ReferenceRows.erase, hid]
    exact ht
  | some old =>
    obtain rfl := ht.id_eq hid
    have heq : t.erase old.id = { t.withdraw old with rows := t.rows.erase old.id } := by
      rw [ReferenceRows.erase, hid]
    refine ⟨?_, ?_, ?_, ?_⟩
    · intro k r hk
      rw [hget] at hk
      split at hk
      · cases hk
      · exact ht.id_eq hk
    · intro k r hk
      rw [hget] at hk
      rw [next_erase]
      split at hk
      · cases hk
      · exact ht.lt_next hk
    · have hix := ht.byAddress.unlink (column_of_get? hid _)
      rw [← column_erase, heq] at hix
      rw [heq]
      exact hix
    · have hix := ht.byEquate.unlink (column_of_get? hid _)
      rw [← column_erase, heq] at hix
      rw [heq]
      exact hix

/-! ### The number of references to an equate -/

theorem nodup_keysTo (t : ReferenceRows) (v : Key) : (t.keysTo v).Nodup :=
  t.byEquate.nodup_keys v

/-- Rows whose references to an equate have the same keys have as many of them. -/
theorem length_keysTo_congr {t t' : ReferenceRows} {v : Key}
    (h : ∀ k, k ∈ t'.keysTo v ↔ k ∈ t.keysTo v) :
    (t'.keysTo v).length = (t.keysTo v).length :=
  ((List.perm_ext_iff_of_nodup (t'.nodup_keysTo v) (t.nodup_keysTo v)).mpr h).length_eq

/-- One more key makes one more reference. -/
theorem length_keysTo_succ {t t' : ReferenceRows} {v k : Key} (hk : k ∉ t.keysTo v)
    (h : ∀ j, j ∈ t'.keysTo v ↔ j = k ∨ j ∈ t.keysTo v) :
    (t'.keysTo v).length = (t.keysTo v).length + 1 := by
  have hperm : List.Perm (t'.keysTo v) (k :: t.keysTo v) := by
    refine (List.perm_ext_iff_of_nodup (t'.nodup_keysTo v) ?_).mpr fun j => ?_
    · exact List.nodup_cons.mpr ⟨hk, t.nodup_keysTo v⟩
    · rw [h, List.mem_cons]
  rw [hperm.length_eq, List.length_cons]

theorem length_keysTo_create {t : ReferenceRows} (ht : t.Sound) (addressKey operand : Int)
    (hash : UInt64) (equate v : Key) :
    ((t.create addressKey operand hash equate).2.keysTo v).length =
      (t.keysTo v).length + if v = equate then 1 else 0 := by
  have ht' := ht.create addressKey operand hash equate
  have hmem : ∀ k, k ∈ (t.create addressKey operand hash equate).2.keysTo v ↔
      (k = t.next ∧ v = equate) ∨ k ∈ t.keysTo v := by
    intro k
    rw [ht'.mem_keysTo, ht.mem_keysTo, get?_create]
    by_cases hk : k = t.next
    · simp [hk, ht.get?_next, eq_comm]
    · simp [hk]
  by_cases hv : v = equate
  · rw [if_pos hv]
    -- No row has the next key yet, so it is not counted already.
    refine length_keysTo_succ (k := t.next) ?_ fun k => ?_
    · rw [ht.mem_keysTo, ht.get?_next]
      rintro ⟨r, ⟨⟩, -⟩
    · rw [hmem, and_iff_left hv]
  · rw [if_neg hv]
    refine length_keysTo_congr fun k => ?_
    rw [hmem, or_iff_right fun h => hv h.2]

theorem length_keysTo_erase {t : ReferenceRows} (ht : t.Sound) {r : ReferenceRow} (hr : r ∈ t)
    (v : Key) :
    ((t.erase r.id).keysTo v).length + (if v = r.equate then 1 else 0) = (t.keysTo v).length := by
  have hmem : ∀ k, k ∈ (t.erase r.id).keysTo v ↔ k ≠ r.id ∧ k ∈ t.keysTo v := by
    intro k
    rw [(ht.erase r.id).mem_keysTo, ht.mem_keysTo, get?_erase]
    by_cases hk : k = r.id
    · simp [hk]
    · simp [hk]
  have hkey : r.id ∈ t.keysTo v ↔ v = r.equate := by
    rw [ht.mem_keysTo, mem_def.mp hr]
    simp [eq_comm]
  by_cases hv : v = r.equate
  · rw [if_pos hv]
    -- Put back, the row would be one more.
    refine (length_keysTo_succ (k := r.id) ?_ fun k => ?_).symm
    · rw [hmem]
      exact fun h => h.1 rfl
    · rw [hmem]
      by_cases hk : k = r.id
      · rw [hk]
        exact iff_of_true (hkey.mpr hv) (.inl rfl)
      · simp [hk]
  · rw [if_neg hv, Nat.add_zero]
    refine length_keysTo_congr fun k => ?_
    rw [hmem]
    exact ⟨And.right, fun hk => ⟨fun h => hv (hkey.mp (h ▸ hk)), hk⟩⟩

/-- Overwriting a row of the same equate keeps the numbers. -/
theorem length_keysTo_update {t t' : ReferenceRows} (ht : t.Sound) {old r : ReferenceRow}
    (hold : t.get? r.id = some old) (heq : old.equate = r.equate) (h : t.update r = (.ok (), t'))
    (v : Key) : (t'.keysTo v).length = (t.keysTo v).length := by
  refine length_keysTo_congr fun k => ?_
  rw [(ht.update h).mem_keysTo, ht.mem_keysTo, get?_update h]
  by_cases hk : k = r.id
  · simp [hk, hold, heq]
  · simp [hk]

/-! ### The list of all rows -/

namespace Sound

variable {t : ReferenceRows} (ht : t.Sound)
include ht

theorem ownKeys : OwnKeys t.rows ReferenceRow.id :=
  fun _ _ => ht.id_eq

theorem mem_toList {r : ReferenceRow} : r ∈ t.toList ↔ r ∈ t :=
  ht.ownKeys.mem_values

theorem toList_sorted : t.toList.Pairwise (·.id < ·.id) :=
  ht.ownKeys.values_sorted

end Sound

end Equates.ReferenceRows

/-
The indices of the stored references behind any calls.

The stored references are used by creations, updates and removals (`ReferenceRows.Call`).  An
update may give a row a new address and a new equate.  Whatever has been called, both indices have
the keys of just the rows with each value (`Index.Files`), so that the first address in a window
is the least one that some row has (`ReferenceRows.Sound.firstAddressIn?_eq_some`).

* `ReferenceRows.indices_exact` — both indices, the first address in a window, and the calls that
  are refused.
-/
import Equates.Proofs.Rows.Numbering
import Equates.Proofs.Rows.Reference
import Mathlib.Order.Bounds.Basic

namespace Equates

namespace Index

/-- Under every value that some row has under `f`, there is the set of the keys of the rows that
have it, and there is nothing under any other value. -/
def Files {ρ : Type} (ix : Index) (rows : Key → Option ρ) (f : ρ → Int) : Prop :=
  ∀ v : Int, (∀ set : Std.ExtTreeSet Key, ix.sets[v]? = some set ↔
      set ≠ ∅ ∧ ∀ k, k ∈ set ↔ ∃ r, rows k = some r ∧ f r = v) ∧
    (ix.sets[v]? = none ↔ ∀ k r, rows k = some r → f r ≠ v)

theorem Mirrors.files {ρ : Type} {ix : Index} {rows : Key → Option ρ} {f : ρ → Int}
    (h : ix.Mirrors fun k => (rows k).map f) : ix.Files rows f := by
  intro v
  have hmem {set : Std.ExtTreeSet Key} (hset : ix.sets[v]? = some set) (k : Key) :
      k ∈ set ↔ ∃ r, rows k = some r ∧ f r = v := by
    rw [← Option.map_eq_some_iff, ← h.mem_keys, mem_keys_iff, hset]
    simp only [Option.some_inj, exists_eq_left']
  have hnone : ix.sets[v]? = none ↔ ∀ k r, rows k = some r → f r ≠ v := by
    rw [← Option.not_isSome_iff_eq_none, ← Std.ExtTreeMap.mem_iff_isSome_getElem?,
      ← Std.ExtTreeMap.mem_keys, ← values, h.mem_values]
    simp only [Option.map_eq_some_iff, not_exists, not_and, ne_eq]
  refine ⟨fun set => ⟨fun hset => ⟨h.inhabited v set hset, hmem hset⟩, ?_⟩, hnone⟩
  rintro ⟨hne, hset⟩
  cases hv : ix.sets[v]? with
  | none =>
    refine absurd (Std.ExtTreeSet.ext_mem fun k => ?_) hne
    rw [hset, iff_false_right Std.ExtTreeSet.not_mem_empty]
    rintro ⟨r, hr, heq⟩
    exact hnone.mp hv k r hr heq
  | some set' =>
    refine congrArg some (Std.ExtTreeSet.ext_mem fun k => ?_)
    rw [hset, hmem hv]

end Index

namespace ReferenceRows

inductive Call where
  | create (addressKey operand : Int) (hash : UInt64) (equate : Key)
  | update (r : ReferenceRow)
  | erase (id : Key)
deriving DecidableEq, Repr

def carryOut : Rows.Handler Call ReferenceRow ReferenceRows
  | t, .create addressKey operand hash equate =>
    let (r, t') := t.create addressKey operand hash equate
    (.ok (some r), t')
  | t, .update r =>
    let (done, t') := t.update r
    ((fun _ => none) <$> done, t')
  | t, .erase id => (.ok none, t.erase id)

/-- A call adds a row, or it changes or removes one, or it is refused and changes nothing. -/
theorem carryOut_cases {t t' : ReferenceRows} {x : Call} {a : Except Problem (Option ReferenceRow)}
    (h : carryOut t x = (a, t')) :
    (∃ addressKey operand hash equate,
      a = .ok (some ⟨t.next, addressKey, operand, hash, equate⟩) ∧
        t' = (t.create addressKey operand hash equate).2) ∨
    a = .ok none ∧ ((∃ r, t.update r = (.ok (), t')) ∨ ∃ id, t' = t.erase id) ∨
    (∃ p, a = .error p) ∧ t' = t := by
  cases x with
  | create addressKey operand hash equate =>
    cases h
    exact .inl ⟨addressKey, operand, hash, equate, rfl, rfl⟩
  | update r =>
    rw [carryOut] at h
    rcases hu : t.update r with ⟨p | ⟨⟩, t''⟩
    · rw [hu] at h
      cases h
      exact .inr (.inr ⟨⟨p, rfl⟩, update_of_error hu⟩)
    · rw [hu] at h
      cases h
      exact .inr (.inl ⟨rfl, .inl ⟨r, hu⟩⟩)
  | erase id =>
    cases h
    exact .inr (.inl ⟨rfl, .inr ⟨id, rfl⟩⟩)

theorem numbered : Rows.Numbered carryOut ReferenceRow.id ReferenceRows.next where
  key_eq h := by
    rcases carryOut_cases h with ⟨_, _, _, _, ⟨⟩, -⟩ | ⟨⟨⟩, -⟩ | ⟨⟨_, ⟨⟩⟩, -⟩
    rfl
  next_of_some h := by
    rcases carryOut_cases h with ⟨_, _, _, _, -, rfl⟩ | ⟨⟨⟩, -⟩ | ⟨⟨_, ⟨⟩⟩, -⟩
    rfl
  next_of_none h := by
    rcases carryOut_cases h with ⟨_, _, _, _, ⟨⟩, -⟩ | ⟨-, ⟨r, h⟩ | ⟨id, rfl⟩⟩ | ⟨⟨_, ⟨⟩⟩, -⟩
    · exact next_update h
    · exact next_erase _ id
  next_of_error h := by
    rcases carryOut_cases h with ⟨_, _, _, _, ⟨⟩, -⟩ | ⟨⟨⟩, -⟩ | ⟨-, rfl⟩
    rfl

theorem sound_run (l : List Call) : (carryOut.run {} l).Sound := by
  refine Rows.Handler.run_induction sound_empty (fun ht h => ?_) l
  rcases carryOut_cases h with
    ⟨addressKey, operand, hash, equate, -, rfl⟩ | ⟨-, ⟨r, h⟩ | ⟨id, rfl⟩⟩ | ⟨-, rfl⟩
  · exact ht.create addressKey operand hash equate
  · exact ht.update h
  · exact ht.erase id
  · exact ht

/-- A call that is refused changes nothing. -/
theorem behind_of_error {t : ReferenceRows} {x : Call} {p : Problem}
    (h : (carryOut t x).1 = .error p) : carryOut.behind t x = t := by
  rcases carryOut_cases (rfl : carryOut t x = _) with
    ⟨_, _, _, _, ha, -⟩ | ⟨ha, -⟩ | ⟨-, ht⟩
  · cases h.symm.trans ha
  · cases h.symm.trans ha
  · exact ht

/-- Only an update is refused, if there is no such row. -/
theorem carryOut_eq_error {t : ReferenceRows} {x : Call} {p : Problem} :
    (carryOut t x).1 = .error p ↔
      ∃ r, x = .update r ∧ t.get? r.id = none ∧ p = .noReferenceRow r.id := by
  cases x with
  | create addressKey operand hash equate => simp [carryOut]
  | update r =>
    simp only [Call.update.injEq, exists_eq_left', ← update_eq_error, carryOut]
    rcases t.update r with ⟨_ | _, t'⟩ <;> simp
  | erase id => simp [carryOut]

namespace Sound

variable {t : ReferenceRows} (ht : t.Sound)
include ht

theorem mem_valuesIn {w : KeyWindow} {v : Int} :
    v ∈ t.byAddress.valuesIn w ↔ v ∈ w ∧ ∃ r ∈ t, r.addressKey = v := by
  have hcolumn : (∃ k, t.column ReferenceRow.addressKey k = some v) ↔
      ∃ r ∈ t, r.addressKey = v := by
    simp only [column, Option.map_eq_some_iff]
    constructor
    · rintro ⟨k, r, hr, hv⟩
      exact ⟨r, ht.mem_of_get? hr, hv⟩
    · rintro ⟨r, hr, hv⟩
      exact ⟨r.id, r, hr, hv⟩
  rw [Index.valuesIn, List.mem_filter, ht.byAddress.mem_values, hcolumn, decide_eq_true_iff,
    and_comm]

theorem isLeast_firstAddressIn? {w : KeyWindow} {v : { k : Int // k ∈ w }}
    (h : t.firstAddressIn? w = some v) : IsLeast {u | u ∈ w ∧ ∃ r ∈ t, r.addressKey = u} v.1 := by
  have hvalues := Index.firstIn?_eq_some h
  constructor
  · exact ht.mem_valuesIn.mp (hvalues ▸ List.mem_cons_self)
  · intro u hu
    have hmem := ht.mem_valuesIn.mpr hu
    rw [hvalues] at hmem
    rcases List.mem_cons.mp hmem with rfl | hmem
    · exact le_rfl
    · have hafter := (ht.mem_valuesIn.mp hmem).1.1
      exact (Int.lt_succ _).le.trans hafter

theorem firstAddressIn?_eq_none {w : KeyWindow} :
    t.firstAddressIn? w = none ↔ ∀ r ∈ t, r.addressKey ∉ w := by
  constructor
  · intro h r hr hw
    have hmem := ht.mem_valuesIn.mpr ⟨hw, r, hr, rfl⟩
    rw [Index.firstIn?_eq_none h] at hmem
    cases hmem
  · intro h
    cases hv : t.firstAddressIn? w with
    | none => rfl
    | some v =>
      obtain ⟨hw, r, hr, heq⟩ := (ht.isLeast_firstAddressIn? hv).1
      exact absurd (heq ▸ hw) (h r hr)

/-- The first address in a window is the least one that some row has. -/
theorem firstAddressIn?_eq_some {w : KeyWindow} {v : Int} :
    (t.firstAddressIn? w).map Subtype.val = some v ↔
      IsLeast {u | u ∈ w ∧ ∃ r ∈ t, r.addressKey = u} v := by
  constructor
  · intro h
    obtain ⟨u, hu, rfl⟩ := Option.map_eq_some_iff.mp h
    exact ht.isLeast_firstAddressIn? hu
  · intro h
    cases hu : t.firstAddressIn? w with
    | none =>
      obtain ⟨hw, r, hr, rfl⟩ := h.1
      exact absurd hw (ht.firstAddressIn?_eq_none.mp hu r hr)
    | some u => exact congrArg some ((ht.isLeast_firstAddressIn? hu).unique h)

end Sound

/-- Both indices are just what the rows say, whatever has been called. -/
theorem indices_exact (l : List Call) :
    let t := carryOut.run {} l
    t.byAddress.Files t.get? ReferenceRow.addressKey ∧
    t.byEquate.Files t.get? ReferenceRow.equate ∧
    ((carryOut.added {} l).map ReferenceRow.id).Pairwise (· < ·) ∧
    (∀ x p, (carryOut t x).1 = .error p ↔
      ∃ r, x = .update r ∧ t.get? r.id = none ∧ p = .noReferenceRow r.id) ∧
    (∀ x p, (carryOut t x).1 = .error p → carryOut.behind t x = t) ∧
    ∀ w,
      (∀ v, (t.firstAddressIn? w).map Subtype.val = some v ↔
        IsLeast {u | u ∈ w ∧ ∃ r ∈ t, r.addressKey = u} v) ∧
      (t.firstAddressIn? w = none ↔ ∀ r ∈ t, r.addressKey ∉ w) := by
  intro t
  have ht : t.Sound := sound_run l
  exact ⟨ht.byAddress.files, ht.byEquate.files,
    List.pairwise_map.mpr (numbered.ascending _ l), fun _ _ => carryOut_eq_error,
    fun _ _ => behind_of_error,
    fun _ => ⟨fun _ => ht.firstAddressIn?_eq_some, ht.firstAddressIn?_eq_none⟩⟩

/-- A row has gone from one address to another, and taken its old address out of the index. -/
theorem indices_exact_rekeyed :
    let t := carryOut.run {} [.create 5 0 0 1, .create 7 0 0 1, .update ⟨1, 9, 0, 0, 2⟩]
    t.byAddress.sets[(5 : Int)]? = none ∧
      (t.firstAddressIn? ⟨0, 20⟩).map Subtype.val = some 7 ∧
      carryOut.behind t (.update ⟨3, 5, 0, 0, 1⟩) = t := by
  intro t
  obtain ⟨haddress, -, -, hrefuses, hsame, hfirst⟩ :=
    indices_exact [.create 5 0 0 1, .create 7 0 0 1, .update ⟨1, 9, 0, 0, 2⟩]
  have hrows {k : Key} {r : ReferenceRow} (h : t.get? k = some r) :
      r.addressKey = 9 ∨ r.addressKey = 7 := by
    have ht := sound_run [.create 5 0 0 1, .create 7 0 0 1, .update ⟨1, 9, 0, 0, 2⟩]
    have hlist : t.toList = [⟨1, 9, 0, 0, 2⟩, ⟨2, 7, 0, 0, 1⟩] := by decide +kernel
    have hmem := ht.mem_toList.mpr (ht.mem_of_get? h)
    rw [hlist] at hmem
    simp only [List.mem_cons, List.not_mem_nil, or_false] at hmem
    rcases hmem with rfl | rfl
    · exact .inl rfl
    · exact .inr rfl
  refine ⟨(haddress 5).2.mpr fun k r h => ?_, ((hfirst _).1 7).mpr ⟨?_, ?_⟩, ?_⟩
  · have := hrows h
    omega
  · exact ⟨⟨by decide, by decide⟩, ⟨2, 7, 0, 0, 1⟩, by rw [mem_def]; decide +kernel, rfl⟩
  · rintro u ⟨-, r, hr, rfl⟩
    have := hrows hr
    omega
  · exact hsame _ _ ((hrefuses _ _).mpr ⟨_, rfl, by decide +kernel, rfl⟩)

end ReferenceRows

end Equates

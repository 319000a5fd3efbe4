/-
The index of names behind any calls.

The stored equates are used by creations, updates and removals (`EquateRows.Call`).  Whatever has
been called, the index of names has one entry for every row (`EquateRows.Sound.toList_byName`).  A
call is refused if two rows would have the same name behind it, or if it would overwrite a row that
there is not (`EquateRows.Refuses`), and nothing changes then.

* `EquateRows.nameIndex_exact` — the index of names, and the calls that are refused.
-/
import Equates.Proofs.Rows.Equate
import Equates.Proofs.Rows.Numbering

namespace Equates.EquateRows

inductive Call where
  | create (name : String) (value : Int64)
  | update (e : Equate)
  | erase (id : Key)
deriving DecidableEq, Repr

def carryOut : Rows.Handler Call Equate EquateRows
  | t, .create name value =>
    let (e, t') := t.create name value
    (some <$> e, t')
  | t, .update e =>
    let (done, t') := t.update e
    ((fun _ => none) <$> done, t')
  | t, .erase id => (.ok none, t.erase id)

/-- The problems that a call is refused with: a row that there is not, or a name that another row
has. -/
def Refuses (t : EquateRows) : Call → Problem → Prop
  | .create name _, p => (∃ e ∈ t, e.name = name) ∧ p = .nameIndexed name
  | .update e, p =>
    t.get? e.id = none ∧ p = .noEquateRow e.id ∨
      t.get? e.id ≠ none ∧ (∃ e' ∈ t, e'.name = e.name ∧ e'.id ≠ e.id) ∧ p = .nameIndexed e.name
  | .erase _, _ => False

/-- A call adds a row, or it changes or removes one, or it is refused and changes nothing. -/
theorem carryOut_cases {t t' : EquateRows} {x : Call} {r : Except Problem (Option Equate)}
    (h : carryOut t x = (r, t')) :
    (∃ name value e, r = .ok (some e) ∧ t.create name value = (.ok e, t')) ∨
    r = .ok none ∧ ((∃ e, t.update e = (.ok (), t')) ∨ ∃ id, t' = t.erase id) ∨
    (∃ p, r = .error p) ∧ t' = t := by
  cases x with
  | create name value =>
    rw [carryOut] at h
    rcases hc : t.create name value with ⟨p | e, t''⟩
    · rw [hc] at h
      cases h
      exact .inr (.inr ⟨⟨p, rfl⟩, create_of_error hc⟩)
    · rw [hc] at h
      cases h
      exact .inl ⟨name, value, e, rfl, hc⟩
  | update e =>
    rw [carryOut] at h
    rcases hu : t.update e with ⟨p | ⟨⟩, t''⟩
    · rw [hu] at h
      cases h
      exact .inr (.inr ⟨⟨p, rfl⟩, update_of_error hu⟩)
    · rw [hu] at h
      cases h
      exact .inr (.inl ⟨rfl, .inl ⟨e, hu⟩⟩)
  | erase id =>
    cases h
    exact .inr (.inl ⟨rfl, .inr ⟨id, rfl⟩⟩)

theorem numbered : Rows.Numbered carryOut Equate.id EquateRows.next where
  key_eq h := by
    rcases carryOut_cases h with ⟨name, value, e, ⟨⟩, h⟩ | ⟨⟨⟩, -⟩ | ⟨⟨_, ⟨⟩⟩, -⟩
    rw [create_equate h]
  next_of_some h := by
    rcases carryOut_cases h with ⟨name, value, e, -, h⟩ | ⟨⟨⟩, -⟩ | ⟨⟨_, ⟨⟩⟩, -⟩
    exact next_create h
  next_of_none h := by
    rcases carryOut_cases h with ⟨name, value, e, ⟨⟩, -⟩ | ⟨-, ⟨e, h⟩ | ⟨id, rfl⟩⟩ | ⟨⟨_, ⟨⟩⟩, -⟩
    · exact next_update h
    · exact next_erase _ id
  next_of_error h := by
    rcases carryOut_cases h with ⟨name, value, e, ⟨⟩, -⟩ | ⟨⟨⟩, -⟩ | ⟨-, rfl⟩
    rfl

theorem sound_run (l : List Call) : (carryOut.run {} l).Sound := by
  refine Rows.Handler.run_induction sound_empty (fun ht h => ?_) l
  rcases carryOut_cases h with ⟨name, value, e, -, h⟩ | ⟨-, ⟨e, h⟩ | ⟨id, rfl⟩⟩ | ⟨-, rfl⟩
  · exact ht.create h
  · exact ht.update h
  · exact ht.erase id
  · exact ht

/-- A call that is refused changes nothing. -/
theorem behind_of_error {t : EquateRows} {x : Call} {p : Problem}
    (h : (carryOut t x).1 = .error p) : carryOut.behind t x = t := by
  rcases carryOut_cases (rfl : carryOut t x = _) with
    ⟨name, value, e, hr, -⟩ | ⟨hr, -⟩ | ⟨-, ht⟩
  · cases h.symm.trans hr
  · cases h.symm.trans hr
  · exact ht

namespace Sound

variable {t : EquateRows} (ht : t.Sound)
include ht

theorem create_eq_error {name : String} {value : Int64} {p : Problem} :
    (t.create name value).1 = .error p ↔ t.Refuses (.create name value) p := by
  rw [Refuses, ← ht.hasName_iff, create_eq]
  split
  · next h => simp [h, eq_comm]
  · next h => simp [h]

/-- Whether another row has the name. -/
theorem any_idOf? {name : String} {id : Key} :
    (t.idOf? name).any (· ≠ id) ↔ ∃ e ∈ t, e.name = name ∧ e.id ≠ id := by
  rw [Option.any_eq_true]
  constructor
  · rintro ⟨k, hk, hne⟩
    obtain ⟨e, he, hname⟩ := ht.idOf?_iff.mp hk
    refine ⟨e, ht.mem_of_get? he, hname, ?_⟩
    rw [ht.id_eq he]
    exact of_decide_eq_true hne
  · rintro ⟨e, he, hname, hne⟩
    exact ⟨e.id, ht.idOf?_iff.mpr ⟨e, he, hname⟩, decide_eq_true hne⟩

theorem update_eq_error {e : Equate} {p : Problem} :
    (t.update e).1 = .error p ↔ t.Refuses (.update e) p := by
  rw [Refuses, ← ht.any_idOf?, update_eq]
  split
  · next hnone => simp [hnone, eq_comm (a := p)]
  · next old hold =>
    have hsome : t.get? e.id ≠ none := hold ▸ Option.some_ne_none old
    rw [or_iff_right fun h => hsome h.1, and_iff_right hsome]
    split
    · next hname =>
      -- The row keeps its name, which no other row has.
      have hself : t.idOf? e.name = some e.id := ht.idOf?_iff.mpr ⟨old, hold, hname⟩
      simp [hself]
    · split
      · next hheld => rw [and_iff_right hheld, Except.error.injEq, eq_comm]
      · next hheld => exact iff_of_false (fun h => by cases h) fun h => hheld h.1

theorem carryOut_eq_error {x : Call} {p : Problem} :
    (carryOut t x).1 = .error p ↔ t.Refuses x p := by
  cases x with
  | create name value =>
    rw [← ht.create_eq_error, carryOut]
    rcases t.create name value with ⟨_ | _, t'⟩ <;> simp
  | update e =>
    rw [← ht.update_eq_error, carryOut]
    rcases t.update e with ⟨_ | _, t'⟩ <;> simp
  | erase id => exact iff_of_false (fun h => by cases h) not_false

/-- There is one entry for every row, with its name and its key. -/
theorem toList_byName : t.byName.toList.Perm (t.toList.map fun e => (e.name, e.id)) := by
  refine (List.perm_ext_iff_of_nodup ?_ ?_).mpr fun ⟨name, k⟩ => ?_
  · refine Std.ExtTreeMap.distinct_keys_toList.imp fun hne heq => hne ?_
    rw [heq]
    exact Std.ReflCmp.compare_self
  · refine List.pairwise_map.mpr (ht.toList_sorted.imp fun hlt heq => ?_)
    exact ne_of_lt hlt (congrArg Prod.snd heq)
  · rw [Std.ExtTreeMap.mem_toList_iff_getElem?_eq_some, List.mem_map]
    constructor
    · intro hk
      obtain ⟨e, he, hname⟩ := ht.idOf?_iff.mp hk
      exact ⟨e, ht.mem_toList.mpr (ht.mem_of_get? he), Prod.ext hname (ht.id_eq he)⟩
    · rintro ⟨e, he, heq⟩
      cases heq
      exact ht.idOf?_iff.mpr ⟨e, ht.mem_toList.mp he, rfl⟩

theorem nodup_names : (t.toList.map Equate.name).Nodup := by
  refine List.pairwise_map.mpr (ht.toList_sorted.imp_of_mem fun he he' hlt hname => ?_)
  have heq := ht.eq_of_name_eq (ht.mem_toList.mp he) (ht.mem_toList.mp he') hname
  exact ne_of_lt hlt (congrArg Equate.id heq)

end Sound

/-- The index of names is just what the rows say, whatever has been called. -/
theorem nameIndex_exact (l : List Call) :
    let t := carryOut.run {} l
    t.byName.toList.Perm (t.toList.map fun e => (e.name, e.id)) ∧
    (t.toList.map Equate.name).Nodup ∧
    (∀ name k, t.idOf? name = some k ↔ ∃ e, t.get? k = some e ∧ e.name = name) ∧
    (∀ x p, (carryOut t x).1 = .error p ↔ t.Refuses x p) ∧
    (∀ x p, (carryOut t x).1 = .error p → carryOut.behind t x = t) ∧
    ((carryOut.added {} l).map Equate.id).Pairwise (· < ·) := by
  intro t
  have ht : t.Sound := sound_run l
  exact ⟨ht.toList_byName, ht.nodup_names, fun _ _ => ht.idOf?_iff,
    fun _ _ => ht.carryOut_eq_error, fun _ _ => behind_of_error,
    List.pairwise_map.mpr (numbered.ascending _ l)⟩

/-- Two rows have swapped their names by way of a third one. -/
theorem nameIndex_exact_swapped :
    let t := carryOut.run {} [.create "a" 1, .create "b" 2, .update ⟨1, "c", 1⟩,
      .update ⟨2, "a", 2⟩, .update ⟨1, "b", 1⟩]
    t.idOf? "a" = some 2 ∧ t.idOf? "b" = some 1 ∧
      carryOut.behind t (.update ⟨2, "b", 2⟩) = t := by
  intro t
  obtain ⟨-, -, hid, hrefuses, hsame, -⟩ := nameIndex_exact [.create "a" 1, .create "b" 2,
    .update ⟨1, "c", 1⟩, .update ⟨2, "a", 2⟩, .update ⟨1, "b", 1⟩]
  refine ⟨(hid _ _).mpr ⟨⟨2, "a", 2⟩, by decide +kernel, rfl⟩,
    (hid _ _).mpr ⟨⟨1, "b", 1⟩, by decide +kernel, rfl⟩, hsame _ (.nameIndexed "b") ?_⟩
  exact (hrefuses _ _).mpr (.inr ⟨by decide +kernel,
    ⟨⟨1, "b", 1⟩, by rw [mem_def]; decide +kernel, rfl, by decide⟩, rfl⟩)

end Equates.EquateRows

/-
The stored equates stay well formed.

In sound rows (`EquateRows.Sound`) each row stands under its own key, every key is
older than the counter, and the index of names knows exactly the names of the rows;
so names are unique (`EquateRows.Sound.eq_of_name_eq`).  Creation, renaming and
removal keep rows sound, and a lemma for each says what is stored afterwards
(`EquateRows.get?_create`, `EquateRows.get?_update`, `EquateRows.get?_erase`).

The list of all rows is sorted by keys; the last section says what it is behind each write and
what is found in it.
-/
import Equates.Rows.Equate
import Equates.Proofs.Rows.Values

namespace Equates.EquateRows

/-- The equate is stored, under its key. -/
instance : Membership Equate EquateRows where
  mem t e := t.get? e.id = some e

theorem mem_def {t : EquateRows} {e : Equate} : e ∈ t ↔ t.get? e.id = some e := Iff.rfl

structure Sound (t : EquateRows) : Prop where
  id_eq : ∀ {k : Key} {e : Equate}, t.get? k = some e → e.id = k
  lt_next : ∀ {k : Key} {e : Equate}, t.get? k = some e → k < t.next
  idOf?_iff : ∀ {name : String} {k : Key},
    t.idOf? name = some k ↔ ∃ e, t.get? k = some e ∧ e.name = name

theorem sound_empty : Sound {} where
  id_eq h := by simp [get?] at h
  lt_next h := by simp [get?] at h
  idOf?_iff := by simp [get?, idOf?]

theorem hasName_eq (t : EquateRows) (name : String) : t.hasName name = (t.idOf? name).isSome :=
  Std.ExtTreeMap.contains_eq_isSome_getElem?

namespace Sound

variable {t : EquateRows}

theorem mem_of_get? (h : t.Sound) {k : Key} {e : Equate} (he : t.get? k = some e) : e ∈ t := by
  rw [mem_def, h.id_eq he]
  exact he

theorem hasName_iff (h : t.Sound) {name : String} :
    t.hasName name = true ↔ ∃ e ∈ t, e.name = name := by
  rw [hasName_eq, Option.isSome_iff_exists]
  constructor
  · rintro ⟨k, hk⟩
    obtain ⟨e, he, hn⟩ := h.idOf?_iff.mp hk
    exact ⟨e, h.mem_of_get? he, hn⟩
  · rintro ⟨e, he, hn⟩
    exact ⟨e.id, h.idOf?_iff.mpr ⟨e, he, hn⟩⟩

/-- What is found under a name. -/
theorem named_iff (h : t.Sound) {name : String} {e : Equate} :
    (t.idOf? name).bind t.get? = some e ↔ e ∈ t ∧ e.name = name := by
  rw [Option.bind_eq_some_iff]
  constructor
  · rintro ⟨k, hk, he⟩
    obtain ⟨e', he', hn⟩ := h.idOf?_iff.mp hk
    obtain rfl := Option.some.inj (he.symm.trans he')
    exact ⟨h.mem_of_get? he, hn⟩
  · rintro ⟨he, hn⟩
    exact ⟨e.id, h.idOf?_iff.mpr ⟨e, he, hn⟩, he⟩

theorem hasName_eq_false (h : t.Sound) {name : String}
    (hnone : (t.idOf? name).bind t.get? = none) : t.hasName name = false := by
  rw [← Bool.not_eq_true, h.hasName_iff]
  rintro ⟨e, he, hn⟩
  rw [h.named_iff.mpr ⟨he, hn⟩] at hnone
  cases hnone

/-- Names are unique. -/
theorem eq_of_name_eq (h : t.Sound) {e e' : Equate} (he : e ∈ t) (he' : e' ∈ t)
    (hn : e.name = e'.name) : e = e' := by
  have h₁ : t.idOf? e.name = some e.id := h.idOf?_iff.mpr ⟨e, he, rfl⟩
  have h₂ : t.idOf? e.name = some e'.id := h.idOf?_iff.mpr ⟨e', he', hn.symm⟩
  have hid : e.id = e'.id := Option.some.inj (h₁.symm.trans h₂)
  rw [mem_def, hid] at he
  exact Option.some.inj (he.symm.trans he')

/-- The name of a row tells which row it is. -/
theorem name_eq_iff (h : t.Sound) {e e' : Equate} (he : e ∈ t) (he' : e' ∈ t) :
    e.name = e'.name ↔ e.id = e'.id := by
  constructor
  · exact fun hn => congrArg Equate.id (h.eq_of_name_eq he he' hn)
  · intro hid
    rw [mem_def, hid, mem_def.mp he'] at he
    rw [Option.some.inj he]

end Sound

/-! ### Creation -/

theorem create_eq (t : EquateRows) (name : String) (value : Int64) :
    t.create name value =
      if t.hasName name then (.error (.nameIndexed name), t)
      else (.ok ⟨t.next, name, value⟩, ⟨t.rows.insert t.next ⟨t.next, name, value⟩,
        t.byName.insert name t.next, t.next + 1⟩) := by
  rw [create, Rows.run_get_bind]
  split
  · rfl
  · rfl

theorem create_ok {t : EquateRows} {name : String} (value : Int64) (hn : t.hasName name = false) :
    t.create name value = (.ok ⟨t.next, name, value⟩, ⟨t.rows.insert t.next ⟨t.next, name, value⟩,
      t.byName.insert name t.next, t.next + 1⟩) := by
  rw [create_eq, hn]
  rfl

/-- A creation that is refused leaves the rows alone. -/
theorem create_of_error {t t' : EquateRows} {name : String} {value : Int64} {p : Problem}
    (h : t.create name value = (.error p, t')) : t' = t := by
  rw [create_eq] at h
  split at h
  · cases h
    rfl
  · cases h

theorem hasName_of_create {t t' : EquateRows} {name : String} {value : Int64} {e : Equate}
    (h : t.create name value = (.ok e, t')) : t.hasName name = false := by
  rw [create_eq] at h
  split at h
  · cases h
  · next hn => simpa using hn

theorem create_equate {t t' : EquateRows} {name : String} {value : Int64} {e : Equate}
    (h : t.create name value = (.ok e, t')) : e = ⟨t.next, name, value⟩ := by
  rw [create_ok value (hasName_of_create h)] at h
  cases h
  rfl

theorem next_create {t t' : EquateRows} {name : String} {value : Int64} {e : Equate}
    (h : t.create name value = (.ok e, t')) : t'.next = t.next + 1 := by
  rw [create_ok value (hasName_of_create h)] at h
  cases h
  rfl

theorem get?_create {t t' : EquateRows} {name : String} {value : Int64} {e : Equate}
    (h : t.create name value = (.ok e, t')) (k : Key) :
    t'.get? k = if k = t.next then some e else t.get? k := by
  rw [create_ok value (hasName_of_create h)] at h
  cases h
  simp [get?, Std.ExtTreeMap.getElem?_insert, eq_comm (a := k)]

theorem mem_create {t t' : EquateRows} (ht : t.Sound) {name : String} {value : Int64} {e : Equate}
    (h : t.create name value = (.ok e, t')) {e' : Equate} : e' ∈ t' ↔ e' = e ∨ e' ∈ t := by
  have hid : e.id = t.next := by rw [create_equate h]
  rw [mem_def, get?_create h, mem_def]
  split
  · next hk =>
    -- No old row has the key of the new one.
    have hold : t.get? e'.id ≠ some e' := fun h' => absurd hk (ne_of_lt (ht.lt_next h'))
    simp [hold, eq_comm]
  · next hk => exact ⟨.inr, fun h' => h'.resolve_left fun heq => hk (heq ▸ hid)⟩

theorem Sound.create {t t' : EquateRows} (ht : t.Sound) {name : String} {value : Int64}
    {e : Equate} (h : t.create name value = (.ok e, t')) : t'.Sound := by
  have hget := get?_create h
  have he := create_equate h
  -- Creation fails on a name that is taken.
  have hfresh : ¬ ∃ e ∈ t, e.name = name := by
    rw [← ht.hasName_iff, hasName_of_create h]
    exact Bool.false_ne_true
  have hid : ∀ n, t'.idOf? n = if n = name then some t.next else t.idOf? n := by
    rw [create_ok value (hasName_of_create h)] at h
    cases h
    intro n
    simp [idOf?, Std.ExtTreeMap.getElem?_insert, eq_comm (a := n)]
  refine ⟨?_, ?_, ?_⟩
  · intro k e' hk
    rw [hget] at hk
    split at hk
    · next hkn =>
      cases hk
      rw [he, hkn]
    · exact ht.id_eq hk
  · intro k e' hk
    rw [hget] at hk
    rw [next_create h]
    split at hk
    · next hkn =>
      rw [hkn]
      exact Int.lt_succ _
    · exact lt_trans (ht.lt_next hk) (Int.lt_succ _)
  · intro n k
    rw [hid, hget]
    by_cases hn : n = name
    · subst hn
      rw [if_pos rfl]
      constructor
      · rintro hk
        cases hk
        exact ⟨e, by rw [if_pos rfl], by rw [he]⟩
      · rintro ⟨e', hk, hen⟩
        split at hk
        · next hkn => rw [hkn]
        · exact absurd ⟨e', ht.mem_of_get? hk, hen⟩ hfresh
    · rw [if_neg hn, ht.idOf?_iff]
      constructor
      · rintro ⟨e', hk, hen⟩
        refine ⟨e', ?_, hen⟩
        rw [if_neg (ne_of_lt (ht.lt_next hk)), hk]
      · rintro ⟨e', hk, hen⟩
        split at hk
        · cases hk
          rw [he] at hen
          exact absurd hen.symm hn
        · exact ⟨e', hk, hen⟩

/-! ### Renaming -/

theorem update_eq (t : EquateRows) (e : Equate) :
    t.update e =
      match t.get? e.id with
      | none => (.error (.noEquateRow e.id), t)
      | some old =>
        if old.name = e.name then (.ok (), { t with rows := t.rows.insert e.id e })
        else if (t.idOf? e.name).any (· ≠ e.id) then (.error (.nameIndexed e.name), t)
        else (.ok (), { t with
          rows := t.rows.insert e.id e
          byName := (t.byName.erase old.name).insert e.name e.id }) := by
  rw [update, Rows.run_get_bind]
  cases t.get? e.id with
  | none => rfl
  | some old =>
    dsimp only
    by_cases hname : old.name = e.name
    · rw [if_neg (not_not_intro hname), if_pos hname]
      rfl
    · rw [if_pos hname, if_neg hname, Rows.run_get_bind]
      split
      · rfl
      · rfl

theorem update_ok {t : EquateRows} {e : Equate} {name : String} (he : e ∈ t) (hne : e.name ≠ name)
    (hn : t.hasName name = false) :
    t.update { e with name } = (.ok (), { t with
      rows := t.rows.insert e.id { e with name }
      byName := (t.byName.erase e.name).insert name e.id }) := by
  rw [hasName_eq, Option.isSome_eq_false_iff, Option.isNone_iff_eq_none] at hn
  rw [update_eq]
  rw [mem_def] at he
  simp [he, hne, hn]

/-- An update that is refused leaves the rows alone: both checks come before the first write. -/
theorem update_of_error {t t' : EquateRows} {e : Equate} {p : Problem}
    (h : t.update e = (.error p, t')) : t' = t := by
  rw [update_eq] at h
  split at h
  · cases h
    rfl
  · split at h
    · cases h
    · split at h
      · cases h
        rfl
      · cases h

theorem get?_update {t t' : EquateRows} {e : Equate} (h : t.update e = (.ok (), t')) (k : Key) :
    t'.get? k = if k = e.id then some e else t.get? k := by
  rw [update_eq] at h
  split at h
  · cases h
  · split at h
    · cases h
      simp [get?, Std.ExtTreeMap.getElem?_insert, eq_comm (a := k)]
    · split at h
      · cases h
      · cases h
        simp [get?, Std.ExtTreeMap.getElem?_insert, eq_comm (a := k)]

theorem mem_update {t t' : EquateRows} {e : Equate} (h : t.update e = (.ok (), t')) {e' : Equate} :
    e' ∈ t' ↔ e' = e ∨ e' ∈ t ∧ e'.id ≠ e.id := by
  rw [mem_def, get?_update h, mem_def]
  split
  · next hk => simp [hk, eq_comm]
  · next hk => exact ⟨fun h' => .inr ⟨h', hk⟩,
      fun h' => (h'.resolve_left fun heq => hk (congrArg Equate.id heq)).1⟩

theorem next_update {t t' : EquateRows} {e : Equate} (h : t.update e = (.ok (), t')) :
    t'.next = t.next := by
  rw [update_eq] at h
  split at h
  · cases h
  · split at h
    · cases h
      rfl
    · split at h
      · cases h
      · cases h
        rfl

theorem Sound.update {t t' : EquateRows} (ht : t.Sound) {e : Equate}
    (h : t.update e = (.ok (), t')) : t'.Sound := by
  have hget := get?_update h
  have hnext := next_update h
  -- What the index says afterwards, whether or not the name changes.
  have hid : ∃ old ∈ t, old.id = e.id ∧ ∀ n, t'.idOf? n =
      if n = e.name then some e.id else if n = old.name then none else t.idOf? n := by
    rw [update_eq] at h
    split at h
    · cases h
    · next old hold =>
      refine ⟨old, ht.mem_of_get? hold, ht.id_eq hold, fun n => ?_⟩
      split at h
      · next hname =>
        cases h
        show t.idOf? n = _
        by_cases hn : n = e.name
        · rw [if_pos hn, ht.idOf?_iff]
          exact ⟨old, hold, hname.trans hn.symm⟩
        · rw [if_neg hn, hname, if_neg hn]
      · split at h
        · cases h
        · cases h
          simp [idOf?, Std.ExtTreeMap.getElem?_insert, Std.ExtTreeMap.getElem?_erase,
            eq_comm (a := n)]
  -- The update would have failed if another row had the name.
  have hfree : ∀ e' ∈ t, e'.name = e.name → e'.id = e.id := by
    intro e' he' hn
    rw [update_eq] at h
    split at h
    · cases h
    · next old hold =>
      split at h
      · next hname =>
        rw [ht.eq_of_name_eq he' (ht.mem_of_get? hold) (hn.trans hname.symm), ht.id_eq hold]
      · split at h
        · cases h
        · next howner =>
          rw [← hn, ht.idOf?_iff.mpr ⟨e', he', rfl⟩] at howner
          simpa using howner
  obtain ⟨old, hold, hoid, hid⟩ := hid
  refine ⟨?_, ?_, ?_⟩
  · intro k e' hk
    rw [hget] at hk
    split at hk
    · next hke =>
      cases hk
      exact hke.symm
    · exact ht.id_eq hk
  · intro k e' hk
    rw [hget] at hk
    rw [hnext]
    split at hk
    · next hke =>
      rw [hke, ← hoid]
      exact ht.lt_next hold
    · exact ht.lt_next hk
  · intro n k
    rw [hid, hget]
    -- A name is the new one, the old one, or that of another row.
    by_cases hn : n = e.name
    · rw [if_pos hn]
      constructor
      · rintro hk
        cases hk
        exact ⟨e, by rw [if_pos rfl], hn.symm⟩
      · rintro ⟨e', hk, hen⟩
        split at hk
        · next hke => rw [hke]
        · have := hfree e' (ht.mem_of_get? hk) (hen.trans hn)
          rw [← this, ht.id_eq hk]
    · rw [if_neg hn]
      by_cases hno : n = old.name
      · rw [if_pos hno]
        constructor
        · rintro ⟨⟩
        · rintro ⟨e', hk, hen⟩
          split at hk
          · cases hk
            exact absurd hen.symm hn
          · next hke =>
            have : e' = old := ht.eq_of_name_eq (ht.mem_of_get? hk) hold (hen.trans hno)
            rw [← ht.id_eq hk, this, hoid] at hke
            exact absurd rfl hke
      · rw [if_neg hno, ht.idOf?_iff]
        constructor
        · rintro ⟨e', hk, hen⟩
          refine ⟨e', ?_, hen⟩
          split
          · next hke =>
            rw [hke, ← hoid, mem_def.mp hold] at hk
            cases hk
            exact absurd hen.symm hno
          · exact hk
        · rintro ⟨e', hk, hen⟩
          split at hk
          · cases hk
            exact absurd hen.symm hn
          · exact ⟨e', hk, hen⟩

/-! ### Removal -/

theorem get?_erase (t : EquateRows) (id k : Key) :
    (t.erase id).get? k = if k = id then none else t.get? k := by
  rw [erase]
  split
  · next hid =>
    split
    · next hk =>
      rw [hk]
      exact hid
    · rfl
  · simp [get?, Std.ExtTreeMap.getElem?_erase, eq_comm (a := k)]

theorem mem_erase {t : EquateRows} {id : Key} {e : Equate} :
    e ∈ t.erase id ↔ e ∈ t ∧ e.id ≠ id := by
  rw [mem_def, get?_erase, mem_def]
  split
  · next h => simp [h]
  · next h => simp [h]

/-- With a row goes its name. -/
theorem idOf?_erase {t : EquateRows} {id : Key} {e : Equate} (he : t.get? id = some e)
    (name : String) :
    (t.erase id).idOf? name = if name = e.name then none else t.idOf? name := by
  rw [erase, he]
  simp [idOf?, Std.ExtTreeMap.getElem?_erase, eq_comm (a := name)]

theorem next_erase (t : EquateRows) (id : Key) : (t.erase id).next = t.next := by
  rw [erase]
  split <;> rfl

theorem Sound.erase {t : EquateRows} (ht : t.Sound) (id : Key) : (t.erase id).Sound := by
  refine ⟨?_, ?_, ?_⟩
  · intro k e hk
    rw [get?_erase] at hk
    split at hk
    · cases hk
    · exact ht.id_eq hk
  · intro k e hk
    rw [get?_erase] at hk
    rw [next_erase]
    split at hk
    · cases hk
    · exact ht.lt_next hk
  · intro n k
    rw [get?_erase]
    cases hid : t.get? id with
    | none =>
      -- There is no such row, and nothing happens.
      have hkeep : t.erase id = t := by
        rw [EquateRows.erase, hid]
      rw [hkeep, ht.idOf?_iff]
      by_cases hk : k = id
      · simp [hk, hid]
      · rw [if_neg hk]
    | some old =>
      rw [idOf?_erase hid]
      by_cases hn : n = old.name
      · rw [if_pos hn]
        constructor
        · rintro ⟨⟩
        · rintro ⟨e, hk, hen⟩
          split at hk
          · cases hk
          · next hne =>
            -- The erased row was the only one of its name.
            have := ht.eq_of_name_eq (ht.mem_of_get? hk) (ht.mem_of_get? hid) (hen.trans hn)
            rw [← ht.id_eq hk, this, ht.id_eq hid] at hne
            exact absurd rfl hne
      · rw [if_neg hn, ht.idOf?_iff]
        by_cases hk : k = id
        · subst hk
          rw [if_pos rfl, hid]
          constructor
          · rintro ⟨e, he, hen⟩
            cases he
            exact absurd hen.symm hn
          · rintro ⟨e, he, -⟩
            cases he
        · rw [if_neg hk]

/-! ### The list of all rows -/

namespace Sound

variable {t : EquateRows} (ht : t.Sound)
include ht

theorem ownKeys : OwnKeys t.rows Equate.id :=
  fun _ _ => ht.id_eq

theorem mem_toList {e : Equate} : e ∈ t.toList ↔ e ∈ t :=
  ht.ownKeys.mem_values

theorem toList_sorted : t.toList.Pairwise (·.id < ·.id) :=
  ht.ownKeys.values_sorted

/-- A list that is sorted by keys and has just the stored rows is the list of all rows. -/
theorem toList_eq_of_mem {l : List Equate} (hl : l.Pairwise (·.id < ·.id))
    (h : ∀ e, e ∈ l ↔ e ∈ t) : t.toList = l :=
  eq_of_sorted_of_mem_iff ht.toList_sorted hl fun e => ht.mem_toList.trans (h e).symm

/-- The only row that passes the test is the one that is found. -/
theorem find?_toList {p : Equate → Bool} {o : Option Equate}
    (h : ∀ e, o = some e ↔ e ∈ t ∧ p e = true) : t.toList.find? p = o := by
  cases hf : t.toList.find? p with
  | none =>
    refine Option.eq_none_iff_forall_not_mem.mpr (fun e he => ?_) |>.symm
    obtain ⟨hmem, hp⟩ := (h e).mp he
    exact List.find?_eq_none.mp hf e (ht.mem_toList.mpr hmem) hp
  | some e =>
    exact ((h e).mpr ⟨ht.mem_toList.mp (List.mem_of_find?_eq_some hf), List.find?_some hf⟩).symm

theorem find?_id (k : Key) : t.toList.find? (·.id = k) = t.get? k := by
  refine ht.find?_toList fun e => ?_
  rw [decide_eq_true_eq]
  constructor
  · exact fun he => ⟨ht.mem_of_get? he, ht.id_eq he⟩
  · rintro ⟨he, rfl⟩
    exact he

/-- Looking up the key of every row finds every row. -/
theorem filterMap_toList : (t.toList.map Equate.id).filterMap t.get? = t.toList := by
  have hget : ∀ e ∈ t.toList, (t.get? ∘ Equate.id) e = some e :=
    fun e he => ht.mem_toList.mp he
  rw [List.filterMap_map, List.filterMap_congr hget, List.filterMap_some]

theorem find?_name (name : String) :
    t.toList.find? (·.name = name) = (t.idOf? name).bind t.get? := by
  refine ht.find?_toList fun e => ?_
  rw [decide_eq_true_eq, ht.named_iff]

/-- The new row comes last. -/
theorem toList_create {t' : EquateRows} {name : String} {value : Int64} {e : Equate}
    (h : t.create name value = (.ok e, t')) : t'.toList = t.toList ++ [e] := by
  refine (ht.create h).toList_eq_of_mem ?_ fun e' => ?_
  · refine List.pairwise_append.mpr ⟨ht.toList_sorted, List.pairwise_singleton _ _, ?_⟩
    intro e' he' e'' he''
    obtain rfl := List.mem_singleton.mp he''
    rw [create_equate h]
    exact ht.lt_next (ht.mem_toList.mp he')
  · rw [mem_create ht h, List.mem_append, List.mem_singleton, ht.mem_toList, or_comm]

theorem toList_update {t' : EquateRows} {e : Equate} (h : t.update e = (.ok (), t')) :
    t'.toList = t.toList.map fun e' => if e'.id = e.id then e else e' := by
  have hid : ∀ e' : Equate, (if e'.id = e.id then e else e').id = e'.id := by
    intro e'
    split
    · next h => exact h.symm
    · rfl
  -- There is a row to overwrite, since the update would have failed otherwise.
  obtain ⟨old, hold, hoid⟩ : ∃ old ∈ t, old.id = e.id := by
    rw [update_eq] at h
    split at h
    · cases h
    · next old hold => exact ⟨old, ht.mem_of_get? hold, ht.id_eq hold⟩
  refine (ht.update h).toList_eq_of_mem ?_ fun e' => ?_
  · rw [List.pairwise_map]
    simpa only [hid] using ht.toList_sorted
  · rw [mem_update h, List.mem_map]
    constructor
    · rintro ⟨e'', he'', rfl⟩
      split
      · exact .inl rfl
      · next hne => exact .inr ⟨ht.mem_toList.mp he'', hne⟩
    · rintro (rfl | ⟨he', hne⟩)
      · exact ⟨old, ht.mem_toList.mpr hold, if_pos hoid⟩
      · exact ⟨e', ht.mem_toList.mpr he', if_neg hne⟩

theorem toList_erase (id : Key) : (t.erase id).toList = t.toList.filter (·.id ≠ id) := by
  refine (ht.erase id).toList_eq_of_mem (ht.toList_sorted.filter _) fun e => ?_
  rw [mem_erase, List.mem_filter, ht.mem_toList, decide_eq_true_eq]

end Sound

end Equates.EquateRows

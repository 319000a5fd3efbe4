/-
The changes that a table makes known tell all that happens to its store.

Replaying them on a catalogue keeps it in step with the stored rows.  Every single effect
but the move of a reference makes at most one change known, and this change can be
applied to the catalogue of the store before the effect and leads to the one behind it
(`Effect.Fits.tells`).  So the changes of an operation can be replayed in order, wherever
the operation breaks off, and so can those of a session without moves, from an empty
catalogue on (`Session.changes_reconstruct`).
-/
import Equates.Proofs.Catalogue

namespace Equates

open Catalogue

namespace Store

variable {s s' : Store}

/-- The changes that were made known from `s` to `s'` lead from the one catalogue to the
other. -/
def Tells (s s' : Store) : Prop :=
  ∃ l : List Change, s'.changes = l.reverse ++ s.changes ∧
    s.catalogue.replay? l = some s'.catalogue

protected theorem Tells.refl (s : Store) : s.Tells s :=
  ⟨[], rfl, rfl⟩

protected theorem Tells.trans {s₁ s₂ : Store} (h : s.Tells s₁) (h' : s₁.Tells s₂) :
    s.Tells s₂ := by
  obtain ⟨l, hl, hc⟩ := h
  obtain ⟨l', hl', hc'⟩ := h'
  refine ⟨l ++ l', ?_, ?_⟩
  · rw [hl', hl, List.reverse_append, List.append_assoc]
  · rw [replay?_append, hc, Option.bind_some, hc']

/-- One change was made known. -/
theorem tells_of_change {c : Change} (h : s'.changes = c :: s.changes)
    (hc : s.catalogue.amend? c = some s'.catalogue) : s.Tells s' := by
  refine ⟨[c], h, ?_⟩
  rw [replay?, List.foldlM_cons, hc]
  rfl

/-! ### The uses behind a write -/

/-- Where the same references are stored, their uses differ as their names do. -/
theorem uses_map (hs : s.Sound) (hrefs : s'.references = s.references) {f : Use → Use}
    (h : ∀ row ∈ s.references, s'.use? row = (s.use? row).map f) : s'.uses = s.uses.map f := by
  rw [uses, uses, hrefs, Multiset.map_filterMap]
  refine congrArg Multiset.ofList (List.filterMap_congr fun p hp => ?_)
  exact h p.2 (hs.references.mem_of_get? (mem_entries.mp hp))

/-- What a row stands for depends on its equate only. -/
theorem use?_congr {row : ReferenceRow} {e : Equate}
    (he : s.equates.get? row.equate = some e) (he' : s'.equates.get? row.equate = some e) :
    s'.use? row = s.use? row := by
  rw [use?, use?, he, he']

/-- Equates that no reference belongs to may come and go. -/
theorem uses_eq (hs : s.Sound) (hint : s.Integral) (hrefs : s'.references = s.references)
    (h : ∀ row ∈ s.references, s'.equates.get? row.equate = s.equates.get? row.equate) :
    s'.uses = s.uses := by
  rw [← Multiset.map_id s.uses]
  refine uses_map hs hrefs fun row hrow => ?_
  obtain ⟨e, he⟩ := hint row hrow
  rw [Option.map_id, id, use?_congr he ((h row hrow).trans he)]

theorem uses_withReference (hs : s.Sound) {e : Equate} (he : e ∈ s.equates) {a : Address} {k : Int}
    (hk : a.key? = some k) (operand : Int) (hash : UInt64) :
    (s.withReference e a k operand hash).uses = ⟨e.name, a, operand, hash⟩ ::ₘ s.uses := by
  have hrow : s.use? ⟨s.references.next, k, operand, hash, e.id⟩ =
      some ⟨e.name, a, operand, hash⟩ :=
    use?_eq_some.mpr ⟨a, e, Address.ofKey?_of_key? hk, he, rfl⟩
  show (entries (s.references.rows.insert s.references.next _)).filterMap _ = _
  rw [entries_insert hs.references.get?_next]
  exact Multiset.filterMap_cons_some _ _ _ hrow

theorem uses_withoutReference {r : Reference} {row : ReferenceRow} (hrow : row ∈ s.references)
    (hd : row.decode = .ok r) {e : Equate} (he : s.equates.get? r.equate = some e) :
    s.uses = ⟨e.name, r.address, r.operand, r.hash⟩ ::ₘ (s.withoutReference r).uses := by
  obtain ⟨ha, hid, hop, hhash, heq⟩ := ReferenceRow.decode_eq_ok_iff.mp hd
  have huse : s.use? row = some ⟨e.name, r.address, r.operand, r.hash⟩ :=
    use?_eq_some.mpr ⟨r.address, e, ha, heq ▸ he, by rw [hop, hhash]⟩
  have hget : s.references.rows[r.id]? = some row := hid ▸ hrow
  have hrows : (s.withoutReference r).references.rows = s.references.rows.erase r.id := by
    show (s.references.erase r.id).rows = _
    rw [ReferenceRows.erase, ReferenceRows.get?, hget]
  rw [uses, entries_erase hget, ← hrows]
  exact Multiset.filterMap_cons_some _ _ _ huse

/-! ### The values behind a write -/

theorem not_mem_values (hs : s.Sound) {name : String} (hn : s.equates.hasName name = false) :
    name ∉ s.values := by
  rw [mem_values hs, ← hs.equates.hasName_iff, hn]
  exact Bool.false_ne_true

theorem values_create (hs : s.Sound) {name : String} {value : Int64} {e : Equate}
    {rows : EquateRows} (hc : s.equates.create name value = (.ok e, rows)) (l : List Change) :
    (Store.mk rows s.references l).values = s.values.insert name value := by
  have hnone : s.values[name]? = none :=
    Std.ExtTreeMap.getElem?_eq_none (not_mem_values hs (EquateRows.hasName_of_create hc))
  refine values_eq (hs.create_equate hc l) fun n v => ?_
  simp only [EquateRows.mem_create hs.equates hc, or_and_right, exists_or, exists_eq_left,
    ← getElem?_values hs, EquateRows.create_equate hc, Std.ExtTreeMap.getElem?_insert]
  by_cases hn : name = n
  · subst hn
    simp [hnone]
  · simp [hn]

/-- Without the name of an equate the other equates are left. -/
theorem getElem?_values_erase (hs : s.Sound) {e : Equate} (he : e ∈ s.equates) {n : String}
    {v : Int64} : (s.values.erase e.name)[n]? = some v ↔
      ∃ e', (e' ∈ s.equates ∧ e'.id ≠ e.id) ∧ e'.name = n ∧ e'.value = v := by
  have hid : ∀ e' ∈ s.equates, e'.id ≠ e.id ↔ e'.name ≠ e.name :=
    fun e' he' => not_congr (hs.equates.name_eq_iff he' he).symm
  rw [Std.ExtTreeMap.getElem?_erase]
  by_cases hn : e.name = n
  · subst hn
    simp only [Std.ReflCmp.compare_self, if_true, reduceCtorEq, false_iff]
    rintro ⟨e', ⟨he', hne⟩, hname, -⟩
    exact (hid e' he').mp hne hname
  · rw [if_neg (mt Std.LawfulEqCmp.eq_of_compare hn), getElem?_values hs]
    refine exists_congr fun e' => ?_
    constructor
    · rintro ⟨he', rfl, hv⟩
      exact ⟨⟨he', (hid e' he').mpr (Ne.symm hn)⟩, rfl, hv⟩
    · rintro ⟨⟨he', -⟩, hname, hv⟩
      exact ⟨he', hname, hv⟩

theorem values_update (hs : s.Sound) {e : Equate} (he : e ∈ s.equates) {name : String}
    (hn : s.equates.hasName name = false) {rows : EquateRows}
    (hu : s.equates.update { e with name } = (.ok (), rows)) (l : List Change) :
    (Store.mk rows s.references l).values = (s.values.erase e.name).insert name e.value := by
  have hnone : (s.values.erase e.name)[name]? = none :=
    Std.ExtTreeMap.getElem?_eq_none fun h =>
      not_mem_values hs hn (Std.ExtTreeMap.mem_erase.mp h).2
  refine values_eq (hs.update_equate hu l) fun n v => ?_
  simp only [EquateRows.mem_update hu, or_and_right, exists_or, exists_eq_left,
    ← getElem?_values_erase hs he, Std.ExtTreeMap.getElem?_insert]
  by_cases hn : name = n
  · subst hn
    simp [hnone]
  · simp [hn]

theorem values_withoutEquate (hs : s.Sound) {e : Equate} (he : e ∈ s.equates) :
    (s.withoutEquate e).values = s.values.erase e.name := by
  refine values_eq (hs.erase_equate e.id _) fun n v => ?_
  rw [getElem?_values_erase hs he]
  exact exists_congr fun e' => and_congr_left fun _ => EquateRows.mem_erase.symm

/-! ### The catalogue behind a write -/

theorem amend?_equateAdded (hs : s.Sound) (hint : s.Integral) {name : String} {value : Int64}
    {e : Equate} {rows : EquateRows} (hc : s.equates.create name value = (.ok e, rows))
    (l : List Change) :
    s.catalogue.amend? (.equateAdded name value) = some (mk rows s.references l).catalogue := by
  have huses : (mk rows s.references l).uses = s.uses := by
    refine uses_eq hs hint rfl fun row hrow => ?_
    obtain ⟨e', he'⟩ := hint row hrow
    exact (EquateRows.get?_create hc row.equate).trans
      (if_neg (ne_of_lt (hs.equates.lt_next he')))
  rw [amend?]
  refine (if_neg (not_mem_values hs (EquateRows.hasName_of_create hc))).trans ?_
  exact congrArg some (congrArg₂ Catalogue.mk (values_create hs hc l).symm huses.symm)

theorem amend?_equateRemoved (hs : s.Sound) (hint : s.Integral) {e : Equate} (he : e ∈ s.equates)
    (hfree : ∀ row ∈ s.references, row.equate ≠ e.id) :
    s.catalogue.amend? (.equateRemoved e.name e.value) = some (s.withoutEquate e).catalogue := by
  have hvalue : s.values[e.name]? = some e.value :=
    (getElem?_values hs).mpr ⟨e, he, rfl, rfl⟩
  have hunused : ∀ u ∈ s.uses, u.name ≠ e.name := by
    intro u hu hname
    obtain ⟨row, hrow, hu⟩ := (mem_uses hs).mp hu
    obtain ⟨a, e', -, he', rfl⟩ := use?_eq_some.mp hu
    have heq := hs.equates.eq_of_name_eq (hs.equates.mem_of_get? he') he hname
    exact hfree row hrow (by rw [← hs.equates.id_eq he', heq])
  have huses : (s.withoutEquate e).uses = s.uses :=
    uses_eq hs hint rfl fun row hrow => by rw [get?_withoutEquate, if_neg (hfree row hrow)]
  rw [amend?]
  refine (if_pos ⟨hvalue, hunused⟩).trans ?_
  exact congrArg some (congrArg₂ Catalogue.mk (values_withoutEquate hs he).symm huses.symm)

/-- A renaming shows in the uses of the equate and in no others. -/
theorem uses_update (hs : s.Sound) (hint : s.Integral) {e : Equate} (he : e ∈ s.equates)
    {name : String} {rows : EquateRows} (hu : s.equates.update { e with name } = (.ok (), rows))
    (l : List Change) : (mk rows s.references l).uses = s.uses.map (Use.rename e.name name) := by
  have hrefs : (mk rows s.references l).references = s.references := rfl
  refine uses_map hs hrefs fun row hrow => ?_
  obtain ⟨a, ha⟩ := hs.placed row hrow
  obtain ⟨e', he'⟩ := hint row hrow
  have hget := EquateRows.get?_update hu row.equate
  have hiff := hs.equates.name_eq_iff (hs.equates.mem_of_get? he') he
  rw [hs.equates.id_eq he'] at hiff
  rw [use?_eq_some.mpr ⟨a, e', ha, he', rfl⟩, Option.map_some, Use.rename]
  by_cases hid : row.equate = e.id
  · rw [if_pos (hiff.mpr hid)]
    exact use?_eq_some.mpr ⟨a, _, ha, hget.trans (if_pos hid), rfl⟩
  · rw [if_neg (mt hiff.mp hid)]
    exact use?_eq_some.mpr ⟨a, e', ha, (hget.trans (if_neg hid)).trans he', rfl⟩

theorem amend?_equateRenamed (hs : s.Sound) (hint : s.Integral) {e : Equate} (he : e ∈ s.equates)
    {name : String} (hn : s.equates.hasName name = false) {rows : EquateRows}
    (hu : s.equates.update { e with name } = (.ok (), rows)) (l : List Change) :
    s.catalogue.amend? (.equateRenamed e.name name) =
      some (mk rows s.references l).catalogue := by
  have hvalue : s.values[e.name]? = some e.value :=
    (getElem?_values hs).mpr ⟨e, he, rfl, rfl⟩
  rw [amend?, show s.catalogue.values[e.name]? = _ from hvalue, Option.bind_eq_bind,
    Option.bind_some]
  refine (if_neg (not_mem_values hs hn)).trans ?_
  exact congrArg some (congrArg₂ Catalogue.mk (values_update hs he hn hu l).symm
    (uses_update hs hint he hu l).symm)

theorem amend?_referenceAdded (hs : s.Sound) {e : Equate} (he : e ∈ s.equates) {a : Address}
    {k : Int} (hk : a.key? = some k) (operand : Int) (hash : UInt64) :
    s.catalogue.amend? (.referenceAdded ⟨e.name, e.value, a, operand, hash⟩) =
      some (s.withReference e a k operand hash).catalogue := by
  have hvalue : s.values[e.name]? = some e.value :=
    (getElem?_values hs).mpr ⟨e, he, rfl, rfl⟩
  rw [amend?]
  refine (if_pos hvalue).trans ?_
  exact congrArg some (congrArg (Catalogue.mk s.values)
    (uses_withReference hs he hk operand hash).symm)

theorem amend?_referenceRemoved (hs : s.Sound) {r : Reference} {row : ReferenceRow}
    (hrow : row ∈ s.references) (hd : row.decode = .ok r) {e : Equate}
    (he : s.equates.get? r.equate = some e) :
    s.catalogue.amend? (.referenceRemoved (r.attachment (some e))) =
      some (s.withoutReference r).catalogue := by
  have hvalue : s.values[e.name]? = some e.value :=
    (getElem?_values hs).mpr ⟨e, hs.equates.mem_of_get? he, rfl, rfl⟩
  have huses := uses_withoutReference hrow hd he
  have hmem : (r.attachment (some e)).use ∈ s.uses := by
    rw [huses]
    exact Multiset.mem_cons_self _ _
  have hrest : s.uses.erase (r.attachment (some e)).use = (s.withoutReference r).uses := by
    rw [huses]
    exact Multiset.erase_cons_head _ _
  rw [amend?]
  refine (if_pos ⟨hvalue, hmem⟩).trans ?_
  exact congrArg some (congrArg (Catalogue.mk s.values) hrest)

end Store

/-- Every effect in order, but the move of a reference, makes known what it does. -/
theorem Effect.Fits.tells {owed : List Key} {s : Store} {x : Effect} (hs : s.Sound)
    (hint : s.Integral) (hx : x.Fits owed s) (hmove : ∀ r k, x ≠ .rekey r k) :
    s.Tells (x.apply s) := by
  cases x with
  | define name value =>
    obtain ⟨rows, hc, happ⟩ := apply_define hx
    rw [happ]
    exact Store.tells_of_change rfl (Store.amend?_equateAdded hs hint hc _)
  | relabel e name =>
    obtain ⟨rows, hu, happ⟩ := apply_relabel hx
    rw [happ]
    exact Store.tells_of_change rfl (Store.amend?_equateRenamed hs hint hx.1 hx.2.2.1 hu _)
  | discard e => exact Store.tells_of_change rfl (Store.amend?_equateRemoved hs hint hx.1 hx.2)
  | settle id =>
    obtain ⟨e, he, hk, happ⟩ | ⟨-, happ⟩ := s.apply_settle id
    · rw [happ]
      refine Store.tells_of_change rfl
        (Store.amend?_equateRemoved hs hint (hs.equates.mem_of_get? he) fun row hrow => ?_)
      rw [hs.equates.id_eq he]
      exact hs.references.keysTo_eq_nil_iff.mp hk row hrow
    · rw [happ]
      exact .refl s
  | attach e a operand hash =>
    obtain ⟨k, hk, happ⟩ := apply_attach hx
    rw [happ]
    exact Store.tells_of_change rfl (Store.amend?_referenceAdded hs hx.1 hk operand hash)
  | detach r =>
    -- The change carries the name that the equate has just before the reference goes.
    obtain ⟨row, hrow, hd⟩ := hx
    obtain ⟨e, he⟩ := hint row hrow
    rw [← (ReferenceRow.decode_eq_ok_iff.mp hd).2.2.2.2] at he
    refine Store.tells_of_change (c := .referenceRemoved (r.attachment (some e))) ?_
      (Store.amend?_referenceRemoved hs hrow hd he)
    rw [← he]
    rfl
  | rekey r key => exact absurd rfl (hmove r key)

/-! ### Operations and sessions -/

/-- The request moves references, which makes no change known. -/
def Request.isMove : Request → Bool
  | move .. => true
  | _ => false

theorem Request.Allows.ne_rekey {s : Store} {q : Request} (hq : q.isMove = false) {x : Effect}
    (hx : q.Allows s x) (r : ReferenceRow) (k : Int) : x ≠ .rekey r k := by
  rintro rfl
  cases q with
  | move source target length => cases hq
  | _ => exact hx

/-- What an operation makes known leads from the catalogue before it to the one behind it,
also where it breaks off. -/
theorem Step.replay?_changes {t : Table} (ht : t.Sound) (hint : t.store.Integral) {x : Step}
    (hx : x.request.isMove = false) :
    t.store.catalogue.replay? (x.changes t) = some (x.behind t).store.catalogue := by
  obtain ⟨-, l, hl, hc⟩ : (x.behind t).store.Integral ∧
      (x.start t).store.Tells (x.behind t).store := by
    refine (x.settles ht).preserves (I := fun u => u.Integral ∧ (x.start t).store.Tells u)
      (x.sound_start ht) (fun hs hfits hallows hI => ?_) ⟨hint, .refl _⟩
    exact ⟨hfits.integral hs hI.1,
      hI.2.trans (hfits.tells hs hI.1 (hallows.ne_rekey hx))⟩
  have hchanges : x.changes t = l := by
    rw [changes, Journal.changes, show (x.behind t).journal.filterMap _ = _ from hl,
      List.reverse_append, List.reverse_reverse]
    rfl
  rw [hchanges]
  exact hc

namespace Session

/-- The changes that the steps make known, oldest first. -/
def changes (t : Table) : List Step → List Change
  | [] => []
  | x :: rest => x.changes t ++ changes (x.behind t) rest

theorem replay?_changes {t : Table} (ht : t.Sound) (hint : t.store.Integral) {l : List Step}
    (hl : ∀ x ∈ l, x.request.isMove = false) :
    t.store.catalogue.replay? (changes t l) = some (play t l).store.catalogue := by
  induction l generalizing t with
  | nil => rfl
  | cons x l ih =>
    rw [changes, replay?_append, x.replay?_changes ht hint (hl x List.mem_cons_self)]
    have hx := (x.settles ht).sound
    refine ih hx ?_ fun y hy => hl y (List.mem_cons_of_mem x hy)
    exact Session.integral ht hint [x]

/-- From empty tables on, whichever storage calls fail openly, the changes that a session
without moves makes known can be applied one after the other, and this reconstructs what is
stored: each equate and each reference once. -/
theorem changes_reconstruct {plan : FaultPlan} (hplan : plan.Loud) (equates references : Nat)
    (listing : Option Listing) (registry : Option TypeRegistry) {l : List Step}
    (hl : ∀ x ∈ l, x.request.isMove = false) :
    ∃ s, (play (Table.opened equates references plan listing registry) l).store = s ∧
      Catalogue.replay? {} (changes (Table.opened equates references plan listing registry) l)
        = some s.catalogue ∧
      s.catalogue.values.size = s.equates.size ∧ s.catalogue.uses.card = s.references.size := by
  have hopened := Table.sound_opened hplan equates references listing registry
  have hint : (Table.opened equates references plan listing registry).store.Integral :=
    Store.integral_empty rfl
  refine ⟨_, rfl, replay?_changes hopened hint hl, ?_⟩
  exact Store.size_catalogue (sound hopened l).store (Session.integral hopened hint l)

/-- The first equate is renamed and then displaced by the second, which is removed; neither
removal of an equate comes to its end. -/
def renamedAndDisplaced : List Step :=
  [⟨{}, .define "one" 1⟩, ⟨{}, .attach 1 ⟨0, 16⟩ 0 0⟩, ⟨{}, .rename 1 "two"⟩,
    ⟨{}, .define "one" 3⟩, ⟨{}, .attach 2 ⟨0, 16⟩ 0 0⟩, ⟨{}, .remove "one"⟩]

theorem changes_reconstruct_renamedAndDisplaced :
    failingErasure.Loud ∧ (∀ x ∈ renamedAndDisplaced, x.request.isMove = false) ∧
      ∃ s, (play (Table.opened 1 0 failingErasure none none) renamedAndDisplaced).store = s ∧
        Catalogue.replay? {} [.equateAdded "one" 1, .referenceAdded ⟨"one", 1, ⟨0, 16⟩, 0, 0⟩,
          .equateRenamed "one" "two", .equateAdded "one" 3,
          .referenceRemoved ⟨"two", 1, ⟨0, 16⟩, 0, 0⟩, .referenceAdded ⟨"one", 3, ⟨0, 16⟩, 0, 0⟩,
          .referenceRemoved ⟨"one", 3, ⟨0, 16⟩, 0, 0⟩] = some s.catalogue ∧
        s.catalogue.values.size = s.equates.size ∧ s.catalogue.uses.card = s.references.size := by
  have hl : ∀ x ∈ renamedAndDisplaced, x.request.isMove = false := by decide
  have hchanges : changes (Table.opened 1 0 failingErasure none none) renamedAndDisplaced =
      [.equateAdded "one" 1, .referenceAdded ⟨"one", 1, ⟨0, 16⟩, 0, 0⟩,
        .equateRenamed "one" "two", .equateAdded "one" 3,
        .referenceRemoved ⟨"two", 1, ⟨0, 16⟩, 0, 0⟩, .referenceAdded ⟨"one", 3, ⟨0, 16⟩, 0, 0⟩,
        .referenceRemoved ⟨"one", 3, ⟨0, 16⟩, 0, 0⟩] := by decide +kernel
  have h := changes_reconstruct loud_failingErasure 1 0 none none hl
  rw [hchanges] at h
  exact ⟨loud_failingErasure, hl, h⟩

end Session

end Equates

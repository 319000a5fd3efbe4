/-
Pruning is exact: an equate goes exactly when it has lost a reference and has none left.

`Session.pruning_exact` says so for every step of a session in which no storage call
fails, the removal of an equate apart.  The change records tell which references went;
they tell the truth, because the references to an equate that stays are those it had,
and those added, less those removed.

What an operation has done so far is described by `Store.Accounted`: an equate that has
gone had lost a reference and has none; one that is owed a look has lost a reference; and
one that is not owed a look is gone if it should be.  At the end nothing is owed.
-/
import Equates.Proofs.Integrity

namespace Equates

namespace Change

/-- The change is a new reference to an equate of the name. -/
def addsTo (name : String) : Change → Bool
  | .referenceAdded a => a.name = name
  | _ => false

/-- The change is the loss of a reference to an equate of the name. -/
def removesFrom (name : String) : Change → Bool
  | .referenceRemoved a => a.name = name
  | _ => false

end Change

namespace Store

/-- A reference to an equate of the name was removed. -/
def Lost (s : Store) (name : String) : Prop :=
  ∃ c ∈ s.changes, c.removesFrom name

/-- No stored reference belongs to the equate. -/
def Unused (s : Store) (id : Key) : Prop :=
  ∀ r ∈ s.references, r.equate ≠ id

/-- The number of references to the equate. -/
def usage (s : Store) (id : Key) : Nat :=
  (s.references.keysTo id).length

/-- The number of references that were removed from equates of the name. -/
def removals (s : Store) (name : String) : Nat :=
  s.changes.countP (Change.removesFrom name)

/-- The number of references that were added to equates of the name. -/
def additions (s : Store) (name : String) : Nat :=
  s.changes.countP (Change.addsTo name)

/-- The equate `e`, which started with `n` references, has gone: it had references, it has
lost all of them, and each one it started with is on record. -/
structure Pruned (s : Store) (e : Equate) (n : Nat) : Prop where
  absent : s.equates.get? e.id = none
  lost : s.Lost e.name
  unused : s.Unused e.id
  recorded : n ≤ s.removals e.name
  used : 0 < n + s.additions e.name

/-- What has become of the equate `e`, which started with `n` references. -/
structure Accounted (e : Equate) (n : Nat) (owed : List Key) (s : Store) : Prop where
  integral : s.Integral
  fresh : e.id < s.equates.next
  present_or_pruned : s.equates.get? e.id = some e ∨ s.Pruned e n
  lost_of_owed : e.id ∈ owed → s.Lost e.name
  settled : s.Lost e.name → s.Unused e.id → e.id ∉ owed → s.equates.get? e.id = none
  balance : s.equates.get? e.id = some e →
    s.usage e.id + s.removals e.name = n + s.additions e.name

/-! ### What a single effect adds to the record -/

section records

variable {s : Store} {name : String} {id : Key}

theorem lost_cons {s' : Store} {c : Change} (hc : s'.changes = c :: s.changes) :
    s'.Lost name ↔ c.removesFrom name ∨ s.Lost name := by
  rw [Lost, Lost, hc]
  simp only [List.mem_cons, exists_eq_or_imp]

/-- The effect is no loss. -/
theorem lost_cons_of_not {s' : Store} {c : Change} (hc : s'.changes = c :: s.changes)
    (hno : c.removesFrom name = false) : s'.Lost name ↔ s.Lost name := by
  rw [lost_cons hc, hno]
  exact or_iff_right Bool.false_ne_true

theorem removals_withoutEquate (s : Store) (e : Equate) (name : String) :
    (s.withoutEquate e).removals name = s.removals name :=
  List.countP_cons_of_neg Bool.false_ne_true

theorem additions_withoutEquate (s : Store) (e : Equate) (name : String) :
    (s.withoutEquate e).additions name = s.additions name :=
  List.countP_cons_of_neg Bool.false_ne_true

variable (e : Equate) (a : Address) (k operand : Int) (hash : UInt64)

theorem removals_withReference :
    (s.withReference e a k operand hash).removals name = s.removals name :=
  List.countP_cons_of_neg Bool.false_ne_true

theorem additions_withReference : (s.withReference e a k operand hash).additions name =
    s.additions name + if e.name = name then 1 else 0 := by
  show (_ :: s.changes).countP _ = s.changes.countP _ + _
  rw [List.countP_cons]
  simp [Change.addsTo]

theorem usage_withReference (hs : s.Sound) : (s.withReference e a k operand hash).usage id =
    s.usage id + if id = e.id then 1 else 0 :=
  ReferenceRows.length_keysTo_create hs.references k operand hash e.id id

theorem unused_withReference (hs : s.Sound) (id : Key) :
    (s.withReference e a k operand hash).Unused id ↔ e.id ≠ id ∧ s.Unused id := by
  have hmem {r : ReferenceRow} : r ∈ (s.withReference e a k operand hash).references ↔ _ :=
    mem_references_withReference hs e a k operand hash
  constructor
  · intro hu
    exact ⟨hu ⟨_, _, _, _, e.id⟩ (hmem.mpr (.inl rfl)), fun r hr => hu r (hmem.mpr (.inr hr))⟩
  · rintro ⟨hne, hu⟩ r hr
    obtain rfl | hr := hmem.mp hr
    · exact hne
    · exact hu r hr

variable {r : Reference} {e}

/-- The record of a removal names the equate that the reference belonged to. -/
theorem removesFrom_attachment (he : s.equates.get? r.equate = some e) :
    (Change.referenceRemoved (r.attachment (s.equates.get? r.equate))).removesFrom name =
      decide (e.name = name) := by
  rw [he]
  rfl

theorem removals_withoutReference (he : s.equates.get? r.equate = some e) (name : String) :
    (s.withoutReference r).removals name = s.removals name + if e.name = name then 1 else 0 := by
  show (_ :: s.changes).countP _ = s.changes.countP _ + _
  rw [List.countP_cons, removesFrom_attachment he]
  simp

theorem additions_withoutReference (s : Store) (r : Reference) (name : String) :
    (s.withoutReference r).additions name = s.additions name :=
  List.countP_cons_of_neg Bool.false_ne_true

theorem usage_withoutReference (hs : s.Sound) {row : ReferenceRow} (hrow : row ∈ s.references)
    (hd : row.decode = .ok r) (id : Key) :
    (s.withoutReference r).usage id + (if id = r.equate then 1 else 0) = s.usage id := by
  obtain ⟨-, hid, -, -, heq⟩ := ReferenceRow.decode_eq_ok_iff.mp hd
  rw [heq, usage, withoutReference, hid]
  exact ReferenceRows.length_keysTo_erase hs.references hrow id

/-- Whoever was unused without the reference was so with it, if it belongs to another. -/
theorem unused_of_withoutReference {row : ReferenceRow} (hrow : row ∈ s.references)
    (hd : row.decode = .ok r) (hne : id ≠ r.equate) (hu : (s.withoutReference r).Unused id) :
    s.Unused id := by
  obtain ⟨-, hid, -, -, heq⟩ := ReferenceRow.decode_eq_ok_iff.mp hd
  intro r' hr' he
  by_cases hr : r'.id = r.id
  · rw [ReferenceRows.mem_def, hr, hid, ReferenceRows.mem_def.mp hrow] at hr'
    rw [← Option.some.inj hr', ← heq] at he
    exact hne he.symm
  · exact hu r' ((mem_references_withoutReference r).mpr ⟨hr', hr⟩) he

end records

/-! ### The account of an equate -/

/-- What has gone stays gone. -/
theorem Pruned.keep {e : Equate} {n : Nat} {s s' : Store} (h : s.Pruned e n)
    (habsent : s'.equates.get? e.id = none) (hunused : s'.Unused e.id)
    (hchanges : List.Sublist s.changes s'.changes) : s'.Pruned e n where
  absent := habsent
  lost := h.lost.imp fun _ hc => ⟨hchanges.subset hc.1, hc.2⟩
  unused := hunused
  recorded := le_trans h.recorded hchanges.countP_le
  used := lt_of_lt_of_le h.used (Nat.add_le_add_left hchanges.countP_le n)

namespace Accounted

variable {e : Equate} {n : Nat} {owed : List Key} {s : Store}

theorem define (h : Accounted e n owed s) (hs : s.Sound) {name : String} {value : Int64}
    (hx : (Effect.define name value).Fits owed s) :
    Accounted e n owed ((Effect.define name value).apply s) := by
  have hint := hx.integral hs h.integral
  obtain ⟨rows, hc, happ⟩ := Effect.apply_define hx
  rw [happ] at hint ⊢
  have hget : rows.get? e.id = s.equates.get? e.id :=
    (EquateRows.get?_create hc e.id).trans (if_neg (ne_of_lt h.fresh))
  have hlost : Lost { s with equates := rows, changes := .equateAdded name value :: s.changes }
      e.name ↔ s.Lost e.name := lost_cons_of_not rfl rfl
  refine ⟨hint, ?_, ?_, fun ho => hlost.mpr (h.lost_of_owed ho), fun hl hu ho => ?_, fun hp => ?_⟩
  · show e.id < rows.next
    rw [EquateRows.next_create hc]
    exact lt_trans h.fresh (Int.lt_succ _)
  · refine h.present_or_pruned.imp (fun hp => ?_) fun hp => ?_
    · exact hget.trans hp
    · exact hp.keep (hget.trans hp.absent) hp.unused (List.sublist_cons_self _ _)
  · show rows.get? e.id = none
    rw [hget]
    exact h.settled (hlost.mp hl) hu ho
  · have hp : rows.get? e.id = some e := hp
    exact h.balance (hget ▸ hp)

/-- Where the equate has just gone. -/
theorem of_pruned (hint : s.Integral) (hfresh : e.id < s.equates.next) (h : s.Pruned e n) :
    Accounted e n owed s where
  integral := hint
  fresh := hfresh
  present_or_pruned := .inr h
  lost_of_owed _ := h.lost
  settled _ _ _ := h.absent
  balance hp := by
    rw [h.absent] at hp
    cases hp

/-- An equate that is owed a look and has no reference left goes. -/
theorem pruned (h : Accounted e n owed s) (hp : s.equates.get? e.id = some e)
    (ho : e.id ∈ owed) (hk : s.references.keysTo e.id = []) (hunused : s.Unused e.id) :
    (s.withoutEquate e).Pruned e n := by
  have hlost := h.lost_of_owed ho
  -- The last of its references has gone, so the balance tells how many went.
  have hbalance := h.balance hp
  rw [usage, hk, List.length_nil, Nat.zero_add] at hbalance
  have hremoved : 0 < s.removals e.name := by
    obtain ⟨c, hc, hr⟩ := hlost
    exact List.countP_pos_iff.mpr ⟨c, hc, hr⟩
  refine ⟨?_, (lost_cons_of_not rfl rfl).mpr hlost, hunused, ?_, ?_⟩
  · rw [get?_withoutEquate, if_pos rfl]
  · rw [removals_withoutEquate]
    omega
  · rw [additions_withoutEquate]
    omega

theorem settle (h : Accounted e n owed s) (hs : s.Sound) {id : Key}
    (hx : (Effect.settle id).Fits owed s) :
    Accounted e n ((Effect.settle id).owe owed) ((Effect.settle id).apply s) := by
  have hint := hx.integral hs h.integral
  have howe : e.id ≠ id → (e.id ∈ owed.erase id ↔ e.id ∈ owed) := List.mem_erase_of_ne
  obtain ⟨e', he', hk, happ⟩ | ⟨hkeep, happ⟩ := s.apply_settle id
  · rw [happ] at hint ⊢
    have hid := hs.equates.id_eq he'
    have hunused : s.Unused id := hs.references.keysTo_eq_nil_iff.mp hk
    have hnext : (s.withoutEquate e').equates.next = s.equates.next :=
      EquateRows.next_erase s.equates e'.id
    have hfresh : e.id < (s.withoutEquate e').equates.next := hnext.symm ▸ h.fresh
    have hget := get?_withoutEquate s e' e.id
    by_cases heq : e.id = id
    · subst heq
      -- This very equate goes: it was there, so it has not gone before.
      have hpresent := h.present_or_pruned.resolve_right fun hp => by
        rw [hp.absent] at he'
        cases he'
      obtain rfl := Option.some.inj (he'.symm.trans hpresent)
      exact of_pruned hint hfresh (h.pruned hpresent hx hk hunused)
    · -- Another equate goes, and takes no reference with it.
      have hlost : (s.withoutEquate e').Lost e.name ↔ s.Lost e.name := lost_cons_of_not rfl rfl
      rw [if_neg (hid.symm ▸ heq)] at hget
      refine ⟨hint, hfresh, ?_, fun ho => hlost.mpr (h.lost_of_owed ((howe heq).mp ho)),
        fun hl hu ho => ?_, fun hp => h.balance (hget ▸ hp)⟩
      · refine h.present_or_pruned.imp (fun hp => hget.trans hp) fun hp => ?_
        exact hp.keep (hget.trans hp.absent) hp.unused (List.sublist_cons_self _ _)
      · rw [hget]
        exact h.settled (hlost.mp hl) hu fun ho' => ho ((howe heq).mpr ho')
  · rw [happ]
    refine ⟨h.integral, h.fresh, h.present_or_pruned,
      fun ho => h.lost_of_owed (List.mem_of_mem_erase ho), fun hl hu ho => ?_, h.balance⟩
    by_cases heq : e.id = id
    · -- What settling has left alone is gone, or it is used.
      subst heq
      exact hkeep.resolve_right fun hk => hk (hs.references.keysTo_eq_nil_iff.mpr hu)
    · exact h.settled hl hu fun ho' => ho ((howe heq).mpr ho')

theorem attach (h : Accounted e n owed s) (hs : s.Sound) {e' : Equate} {a : Address}
    {operand : Int} {hash : UInt64} (hx : (Effect.attach e' a operand hash).Fits owed s) :
    Accounted e n ((Effect.attach e' a operand hash).owe owed)
      ((Effect.attach e' a operand hash).apply s) := by
  have hint := hx.integral hs h.integral
  obtain ⟨k, hk, happ⟩ := Effect.apply_attach hx
  rw [happ] at hint ⊢
  have hlost : (s.withReference e' a k operand hash).Lost e.name ↔ s.Lost e.name :=
    lost_cons_of_not rfl rfl
  have hunused := unused_withReference e' a k operand hash hs e.id
  refine ⟨hint, h.fresh, h.present_or_pruned.imp_right fun hp => ?_,
    fun ho => hlost.mpr (h.lost_of_owed (List.mem_of_mem_filter ho)), fun hl hu ho => ?_,
    fun hp => ?_⟩
  · -- An equate that has gone cannot be the one that is attached.
    refine hp.keep hp.absent (hunused.mpr ⟨fun heq => ?_, hp.unused⟩) (List.sublist_cons_self _ _)
    have he' := EquateRows.mem_def.mp hx.1
    rw [heq, hp.absent] at he'
    cases he'
  · obtain ⟨hne, hu⟩ := hunused.mp hu
    refine h.settled (hlost.mp hl) hu fun ho' => ho (List.mem_filter.mpr ⟨ho', ?_⟩)
    exact decide_eq_true (Ne.symm hne)
  · have hp : s.equates.get? e.id = some e := hp
    have hbalance := h.balance hp
    rw [usage_withReference _ _ _ _ _ hs, removals_withReference, additions_withReference]
    -- The record counts by names and the index by keys, which for stored equates is
    -- the same.
    simp only [hs.equates.name_eq_iff hx.1 hp, eq_comm (a := e'.id)]
    omega

theorem detach (h : Accounted e n owed s) (hs : s.Sound) {r : Reference}
    (hx : (Effect.detach r).Fits owed s) :
    Accounted e n ((Effect.detach r).owe owed) ((Effect.detach r).apply s) := by
  have hint := hx.integral hs h.integral
  obtain ⟨row, hrow, hd⟩ := hx
  obtain ⟨-, -, -, -, heq⟩ := ReferenceRow.decode_eq_ok_iff.mp hd
  -- As every stored reference belongs to a stored equate, the record names it.
  obtain ⟨e', he'⟩ := h.integral row hrow
  rw [← heq] at he'
  have hmem' := hs.equates.mem_of_get? he'
  have hid' := hs.equates.id_eq he'
  have hname : s.equates.get? e.id = some e → (e'.name = e.name ↔ e.id = r.equate) := by
    intro hp
    rw [hs.equates.name_eq_iff hmem' hp, hid', eq_comm]
  have hlost : (s.withoutReference r).Lost e.name ↔ e'.name = e.name ∨ s.Lost e.name := by
    rw [lost_cons rfl, removesFrom_attachment he', decide_eq_true_iff]
  refine ⟨hint, h.fresh, h.present_or_pruned.imp_right fun hp => ?_, fun ho => ?_,
    fun hl hu ho => ?_, fun hp => ?_⟩
  · -- Removing references does not give the equate new ones.
    refine hp.keep hp.absent (fun r' hr' => ?_) (List.sublist_cons_self _ _)
    exact hp.unused r' ((mem_references_withoutReference r).mp hr').1
  · obtain hide | ho := List.mem_cons.mp ho
    · obtain hp | hp := h.present_or_pruned
      · exact hlost.mpr (.inl ((hname hp).mpr hide))
      · exact absurd (heq.symm.trans hide.symm) (hp.unused row hrow)
    · exact hlost.mpr (.inr (h.lost_of_owed ho))
  · obtain ⟨hne, ho⟩ := not_or.mp (List.mem_cons.not.mp ho)
    obtain hp | hp := h.present_or_pruned
    · -- The reference of another equate changes nothing for this one.
      have hl := (hlost.mp hl).resolve_left fun hn => hne ((hname hp).mp hn)
      exact h.settled hl (unused_of_withoutReference hrow hd hne hu) ho
    · exact hp.absent
  · have hp : s.equates.get? e.id = some e := hp
    have hbalance := h.balance hp
    have husage := usage_withoutReference hs hrow hd e.id
    have hremovals := removals_withoutReference he' e.name
    simp only [hname hp] at hremovals
    show (s.withoutReference r).usage e.id + (s.withoutReference r).removals e.name =
      n + (s.withoutReference r).additions e.name
    rw [additions_withoutReference]
    omega

theorem rekey (h : Accounted e n owed s) (hs : s.Sound) {row : ReferenceRow} {k : Int}
    (hx : (Effect.rekey row k).Fits owed s) :
    Accounted e n owed ((Effect.rekey row k).apply s) := by
  have hint := hx.integral hs h.integral
  have hget := Effect.get?_apply_rekey hx
  obtain ⟨rows, hu, happ⟩ := Effect.apply_rekey hx
  rw [happ] at hint hget ⊢
  -- A move keeps every reference with its equate.
  have husage : (rows.keysTo e.id).length = (s.references.keysTo e.id).length :=
    ReferenceRows.length_keysTo_update (r := { row with addressKey := k }) hs.references hx.1 rfl
      hu e.id
  have hunused : Unused { s with references := rows } e.id ↔ s.Unused e.id := by
    rw [Unused, Unused, ← hs.references.keysTo_eq_nil_iff,
      ← (hs.references.update hu).keysTo_eq_nil_iff, ← List.length_eq_zero_iff,
      ← List.length_eq_zero_iff, husage]
  refine ⟨hint, h.fresh, ?_, h.lost_of_owed, fun hl hu' ho => ?_, fun hp => ?_⟩
  · exact h.present_or_pruned.imp_right fun hp =>
      hp.keep hp.absent (hunused.mpr hp.unused) (List.Sublist.refl _)
  · exact h.settled hl (hunused.mp hu') ho
  · show (rows.keysTo e.id).length + _ = _
    rw [husage]
    exact h.balance hp

/-- Every effect but a renaming and a removal keeps the account. -/
theorem step (h : Accounted e n owed s) (hs : s.Sound) {x : Effect} (hx : x.Fits owed s)
    (hrelabel : ∀ e name, x ≠ .relabel e name) (hdiscard : ∀ e, x ≠ .discard e) :
    Accounted e n (x.owe owed) (x.apply s) := by
  cases x with
  | define name value => exact h.define hs hx
  | relabel e name => exact absurd rfl (hrelabel e name)
  | discard e => exact absurd rfl (hdiscard e)
  | settle id => exact h.settle hs hx
  | attach e a operand hash => exact h.attach hs hx
  | detach r => exact h.detach hs hx
  | rekey row k => exact h.rekey hs hx

end Accounted

end Store

namespace Session

/-- The table behind a session in which no storage call fails. -/
def Undisturbed (t : Table) : Prop :=
  ∃ equates references listing registry l,
    t = play (Table.opened equates references .none listing registry) l

theorem Undisturbed.sound {t : Table} (h : Undisturbed t) : t.Sound := by
  obtain ⟨equates, references, listing, registry, l, rfl⟩ := h
  exact Session.sound (Table.sound_opened FaultPlan.loud_none _ _ _ _) l

theorem Undisturbed.plan {t : Table} (h : Undisturbed t) : t.plan = .none := by
  obtain ⟨equates, references, listing, registry, l, rfl⟩ := h
  exact Session.plan (Table.sound_opened FaultPlan.loud_none _ _ _ _) l

theorem Undisturbed.integral {t : Table} (h : Undisturbed t) : t.store.Integral := by
  obtain ⟨equates, references, listing, registry, l, rfl⟩ := h
  have hopened := Table.sound_opened FaultPlan.loud_none equates references listing registry
  exact Session.integral hopened (Store.integral_empty rfl) l

end Session

section steps

variable {t : Table}

/-- Before a step the account of a stored equate is clean. -/
theorem Store.accounted_start (ht : t.Sound) (hint : t.store.Integral) (x : Step) {e : Equate}
    (he : e ∈ t.equates) : Accounted e (t.store.usage e.id) [] (x.start t).store where
  integral := hint
  fresh := ht.store.equates.lt_next he
  present_or_pruned := .inl he
  lost_of_owed ho := absurd ho List.not_mem_nil
  settled hl := by
    obtain ⟨c, hc, -⟩ := hl
    exact absurd hc List.not_mem_nil
  balance _ := rfl

/-- What a renaming may have done to a store that started with the rows of `t`. -/
structure Table.Relabelled (t : Table) (s : Store) : Prop where
  references : s.references = t.references
  isSome : ∀ k, (s.equates.get? k).isSome = (t.equates.get? k).isSome
  changes : ∀ c ∈ s.changes, ∃ old new, c = .equateRenamed old new

theorem Table.Relabelled.step {owed : List Key} {s : Store} {x : Effect} (hx : x.Fits owed s)
    (hkind : x.Renames) (h : t.Relabelled s) : t.Relabelled (x.apply s) := by
  cases x with
  | relabel e name =>
    obtain ⟨rows, hu, happ⟩ := Effect.apply_relabel hx
    rw [happ]
    refine ⟨h.references, fun k => ?_, fun c hc => ?_⟩
    · rw [← h.isSome, EquateRows.get?_update hu]
      split
      · next hk =>
        rw [hk, EquateRows.mem_def.mp hx.1]
        rfl
      · rfl
    · obtain rfl | hc := List.mem_cons.mp hc
      · exact ⟨_, _, rfl⟩
      · exact h.changes c hc
  | _ => exact hkind.elim

theorem Table.Relabelled.get?_ne_none {s : Store} (h : t.Relabelled s) {k : Key} {e : Equate}
    (he : t.equates.get? k = some e) : s.equates.get? k ≠ none := by
  rw [← Option.isSome_iff_ne_none, h.isSome, he]
  rfl

theorem Table.Relabelled.countP_eq_zero {s : Store} (h : t.Relabelled s) {p : Change → Bool}
    (hp : ∀ old new, p (.equateRenamed old new) = false) : s.changes.countP p = 0 := by
  refine List.countP_eq_zero.mpr fun c hc => ?_
  obtain ⟨old, new, rfl⟩ := h.changes c hc
  exact Bool.eq_false_iff.mp (hp old new)

theorem Step.relabelled (ht : t.Sound) {x : Step} {id : Key} {name : String}
    (hq : x.request = .rename id name) : t.Relabelled (x.behind t).store := by
  have hsettles := x.settles ht
  rw [hq] at hsettles
  exact hsettles.preserves (x.sound_start ht) (I := t.Relabelled)
    (fun _ hfits hkind h => h.step hfits hkind)
    ⟨rfl, fun _ => rfl, fun c hc => absurd hc List.not_mem_nil⟩

end steps

/-- The records of a step count as those of its store. -/
theorem Step.countP_changes (x : Step) (t : Table) (p : Change → Bool) :
    (x.changes t).countP p = (x.behind t).store.changes.countP p :=
  List.countP_reverse

theorem Step.mem_changes {x : Step} {t : Table} {c : Change} :
    c ∈ x.changes t ↔ c ∈ (x.behind t).store.changes :=
  List.mem_reverse

theorem Store.lost_iff_exists {s : Store} {name : String} :
    s.Lost name ↔ ∃ a, .referenceRemoved a ∈ s.changes ∧ a.name = name := by
  constructor
  · rintro ⟨c, hc, hname⟩
    cases c with
    | referenceRemoved a => exact ⟨a, hc, of_decide_eq_true hname⟩
    | _ => cases hname
  · rintro ⟨a, ha, hname⟩
    exact ⟨_, ha, decide_eq_true hname⟩

/-- A step other than a removal and a renaming settles the account of each equate. -/
theorem Step.accounted {t : Table} (ht : t.Sound) (hp : t.plan = .none)
    (hint : t.store.Integral) {x : Step} (hremove : ∀ name, x.request ≠ .remove name)
    (hrename : ∀ id name, x.request ≠ .rename id name) {e : Equate} (he : e ∈ t.equates) :
    Store.Accounted e (t.store.usage e.id) [] (x.behind t).store := by
  have hsettles := x.settles ht
  have hkeep {P : Effect → Prop} (hrel : ∀ e name, ¬ P (.relabel e name))
      (hdis : ∀ e, ¬ P (.discard e)) (hs : (x.start t).Settles P (x.behind t)) :
      Store.Accounted e (t.store.usage e.id) [] (x.behind t).store := by
    refine hs.accounts (x.sound_start ht) hp (I := Store.Accounted e (t.store.usage e.id))
      (fun hsound hfits hkind h => h.step hsound hfits ?_ ?_)
      (Store.accounted_start ht hint x he)
    · rintro e name rfl
      exact hrel e name hkind
    · rintro e rfl
      exact hdis e hkind
  cases hq : x.request with
  | remove name => exact absurd hq (hremove name)
  | rename id name => exact absurd hq (hrename id name)
  | _ =>
    rw [hq] at hsettles
    exact hkeep (fun _ _ => id) (fun _ => id) hsettles

namespace Session

/-- In a session in which no storage call fails, a step other than a removal removes a
stored equate exactly if a reference to it was removed during the step and no reference
to it is left.

The records that tell so can be relied on.  For an equate that stays they account for all
its references; an equate that goes had a reference before the step or got one, and every
one that it had is on record. -/
theorem pruning_exact {t : Table} (ht : Undisturbed t) {x : Step}
    (hx : ∀ name, x.request ≠ .remove name) {k : Key} {e : Equate}
    (he : t.equates.get? k = some e) :
    ((x.behind t).equates.get? k = none ↔
      (∃ a, .referenceRemoved a ∈ x.changes t ∧ a.name = e.name) ∧
        ∀ id r, (x.behind t).references.get? id = some r → r.equate ≠ k) ∧
    ((x.behind t).equates.get? k ≠ none →
      (x.behind t).store.usage k + (x.changes t).countP (Change.removesFrom e.name) =
        t.store.usage k + (x.changes t).countP (Change.addsTo e.name)) ∧
    ((x.behind t).equates.get? k = none →
      t.store.usage k ≤ (x.changes t).countP (Change.removesFrom e.name) ∧
        0 < t.store.usage k + (x.changes t).countP (Change.addsTo e.name)) := by
  have hsound := ht.sound
  obtain rfl := hsound.store.equates.id_eq he
  have hbehind := (x.settles hsound).sound
  have hunused : (∀ id r, (x.behind t).references.get? id = some r → r.equate ≠ e.id) ↔
      (x.behind t).store.Unused e.id := by
    constructor
    · exact fun h r hr => h r.id r hr
    · exact fun h id r hr => h r (hbehind.store.references.mem_of_get? hr)
  have hlost : (∃ a, .referenceRemoved a ∈ x.changes t ∧ a.name = e.name) ↔
      (x.behind t).store.Lost e.name := by
    rw [Store.lost_iff_exists]
    exact exists_congr fun a => and_congr_left fun _ => Step.mem_changes
  rw [hunused, hlost, x.countP_changes, x.countP_changes]
  -- A renaming is apart because it changes the name that the account goes by; it
  -- removes nothing at all.
  by_cases hrename : ∃ id name, x.request = .rename id name
  · obtain ⟨id, name, hq⟩ := hrename
    have h := Step.relabelled hsound hq
    have hsome := h.get?_ne_none he
    refine ⟨⟨fun hnone => absurd hnone hsome, ?_⟩, fun _ => ?_, fun hnone => absurd hnone hsome⟩
    · rintro ⟨⟨c, hc, hname⟩, -⟩
      obtain ⟨old, new, rfl⟩ := h.changes c hc
      cases hname
    · rw [h.countP_eq_zero fun _ _ => rfl, h.countP_eq_zero fun _ _ => rfl, Store.usage,
        Store.usage, h.references]
      rfl
  · have h := x.accounted hsound ht.plan ht.integral hx
      (fun id name hq => hrename ⟨id, name, hq⟩) he
    -- Whatever else is asked for is read off the account, in which nothing is owed.
    have hpruned (hnone : (x.behind t).equates.get? e.id = none) :
        (x.behind t).store.Pruned e (t.store.usage e.id) := by
      refine h.present_or_pruned.resolve_left fun hp => ?_
      rw [show (x.behind t).store.equates.get? e.id = none from hnone] at hp
      cases hp
    refine ⟨⟨fun hnone => ?_, fun hgone => h.settled hgone.1 hgone.2 List.not_mem_nil⟩,
      fun hsome => ?_, fun hnone => ?_⟩
    · exact ⟨(hpruned hnone).lost, (hpruned hnone).unused⟩
    · exact h.balance (h.present_or_pruned.resolve_right fun hp => hsome hp.absent)
    · exact ⟨(hpruned hnone).recorded, (hpruned hnone).used⟩

/-- Two equates, the first of which is used. -/
def oneUsed : Table :=
  play (Table.opened 1 0 .none none none)
    [⟨{}, .define "one" 1⟩, ⟨{}, .define "two" 2⟩, ⟨{}, .attach 1 ⟨0, 16⟩ 0 0⟩]

/-- The second equate displaces the first. -/
def displacing : Step := ⟨{}, .attach 2 ⟨0, 16⟩ 0 0⟩

theorem pruning_exact_displacing :
    Undisturbed oneUsed ∧ (∀ name, displacing.request ≠ .remove name) ∧
      oneUsed.equates.get? 1 = some ⟨1, "one", 1⟩ ∧
      (displacing.behind oneUsed).equates.get? 1 = none ∧
      (∃ a, .referenceRemoved a ∈ displacing.changes oneUsed ∧ a.name = "one") ∧
      (∀ id r, (displacing.behind oneUsed).references.get? id = some r → r.equate ≠ 1) ∧
      oneUsed.store.usage 1 ≤
        (displacing.changes oneUsed).countP (Change.removesFrom "one") := by
  have ht : Undisturbed oneUsed := ⟨1, 0, none, none, _, rfl⟩
  have hx : ∀ name, displacing.request ≠ .remove name := fun name h => by cases h
  have he : oneUsed.equates.get? 1 = some ⟨1, "one", 1⟩ := by decide +kernel
  have hnone : (displacing.behind oneUsed).equates.get? 1 = none := by decide +kernel
  obtain ⟨hiff, -, hgone⟩ := pruning_exact ht hx he
  exact ⟨ht, hx, he, hnone, (hiff.mp hnone).1, (hiff.mp hnone).2, (hgone hnone).1⟩

end Session

end Equates

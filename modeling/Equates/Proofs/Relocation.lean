/-
A move translates exactly its source window.

The window of a move are the `length` addresses from the source on, or what is left of the
space there (`Reference.InWindow`).  A reference that stands in it stands as far behind the
target afterwards (`Reference.relocated`), and every other one where it stood before
(`Session.move_translates_window`).  Where the target overlaps the source, a reference that has
come to an address of the window is not moved again.
-/
import Equates.Proofs.Failures
import Equates.Proofs.Table.Ranges

namespace Equates

open Table

namespace Reference

/-- The reference stands at one of the `length` addresses from `source` on, as far as the space
goes. -/
def InWindow (source : Address) (length : UInt64) (r : Reference) : Prop :=
  r.address.space = source.space ∧ source.offset.toNat ≤ r.address.offset.toNat ∧
    r.address.offset.toNat ≤ min (source.offset.toNat + length.toNat - 1) (2 ^ 64 - 1)

instance (source : Address) (length : UInt64) (r : Reference) :
    Decidable (r.InWindow source length) :=
  inferInstanceAs (Decidable (_ ∧ _))

/-- The reference as far behind `target` as it was behind `source`. -/
def relocated (source target : Address) (r : Reference) : Reference :=
  { r with address := ⟨target.space,
      .ofNat (target.offset.toNat + (r.address.offset.toNat - source.offset.toNat))⟩ }

theorem translated_eq {source target : Address} {length : UInt64} {r : Reference}
    (h : r.InWindow source length) : r.translated source target = r.relocated source target := by
  have hle : source.offset ≤ r.address.offset := UInt64.le_iff_toNat_le.mpr h.2.1
  rw [translated, relocated, Table.translate, ← UInt64.toNat_sub_of_le _ _ hle, UInt64.ofNat_add,
    UInt64.ofNat_toNat, UInt64.ofNat_toNat]

theorem moving_eq {source : Address} {length : UInt64} (hlength : length ≠ 0)
    (l : List Reference) : moving source length l = l.filter (·.InWindow source length) := by
  refine List.filter_congr fun r _ => ?_
  rw [decide_eq_decide]
  exact between_lastOf_iff hlength

end Reference

section window

variable {source target : Address} {length : UInt64} (hlength : length ≠ 0)
include hlength

/-- A window that lies in one space has a mappable address only if it starts with one. -/
theorem Table.between?_lastOf_eq_none_iff :
    KeyWindow.between? source (lastOf source length) = none ↔ ¬ source.Mappable := by
  rw [KeyWindow.between?_eq_none_iff, not_iff_not]
  constructor
  · rintro ⟨a, ha, hin⟩
    obtain ⟨hspace, hoffset, -⟩ := (between_lastOf_iff hlength).mp hin
    exact ⟨hspace ▸ ha.1, Nat.lt_of_le_of_lt hoffset ha.2⟩
  · intro hm
    have hoffset := source.offset.toNat_lt
    have hpos : 0 < length.toNat := Nat.pos_of_ne_zero fun h => hlength (UInt64.toNat_inj.mp h)
    exact ⟨source, hm, (between_lastOf_iff hlength).mpr ⟨rfl, Nat.le_refl _, by omega⟩⟩

/-- A destination of `length` addresses that does not wrap. -/
theorem Table.fits_iff : ¬ lastOffset - target.offset < length - 1 ↔
    target.offset.toNat + (length.toNat - 1) < 2 ^ 64 := by
  have hpos : 0 < length.toNat := Nat.pos_of_ne_zero fun h => hlength (UInt64.toNat_inj.mp h)
  have hmax : lastOffset.toNat = 2 ^ 64 - 1 := rfl
  have htarget := target.offset.toNat_lt
  have hlen := length.toNat_lt
  rw [UInt64.lt_iff_toNat_lt, UInt64.toNat_sub, UInt64.toNat_sub, hmax, UInt64.toNat_one]
  omega

theorem Table.lastOf_eq (hfit : target.offset.toNat + (length.toNat - 1) < 2 ^ 64) :
    lastOf target length = ⟨target.space, target.offset + (length - 1)⟩ := by
  rw [lastOf, if_neg ((Table.fits_iff hlength).mpr hfit)]

/-- What stands in the window is moved to a mappable address, computed without wrapping. -/
theorem Reference.relocated_address (hfit : target.offset.toNat + (length.toNat - 1) < 2 ^ 64)
    (hlast : (lastOf target length).Mappable) {r : Reference} (hin : r.InWindow source length) :
    (r.relocated source target).address.Mappable ∧
      (r.relocated source target).address.offset.toNat =
        target.offset.toNat + (r.address.offset.toNat - source.offset.toNat) := by
  have hwraps := (Table.fits_iff hlength).mpr hfit
  have hbetween := (between_lastOf_iff hlength).mpr hin
  obtain ⟨d, -, -, hd, -, hoffset⟩ :=
    translate_distance hlength hwraps hbetween.1 hbetween.2
  rw [← Reference.translated_eq hin]
  refine ⟨mappable_translate hlength hwraps hlast hbetween, hoffset.trans ?_⟩
  rw [hd, Nat.add_sub_cancel_left]

end window

namespace Step

section listings

variable {t : Table} (ht : t.Sound) (hp : t.plan = .none) {l : List Reference}
  (hl : t.references.StandFor l) (monitor : Monitor)
include ht hp hl

/-- The references at an address are listed. -/
theorem answer_referencesAt (a : Address) :
    (Step.mk monitor (.referencesAt a)).answer t = .references (l.filter (·.address = a)) := by
  have hs := ((Step.mk monitor (.referencesAt a)).sound_start ht)
  rw [← hs.store.referencesAt_eq hl a]
  exact congrArg Answer.references ((fetchAt_enacts _ a).on_orElseReport hs.has hp []).1

/-- The references to an equate are listed. -/
theorem answer_referencesTo (id : Key) :
    (Step.mk monitor (.referencesTo id)).answer t = .references (l.filter (·.equate = id)) := by
  have hs := ((Step.mk monitor (.referencesTo id)).sound_start ht)
  rw [← hs.store.referencesTo_eq hl id]
  exact congrArg Answer.references ((fetchTo_enacts _ id).on_orElseReport hs.has hp []).1

end listings

end Step

/-! ### What is moved -/

namespace Table

section first

variable {t t' : Table} {source target : Address} {length : UInt64} {l : List Reference} {k : Nat}
  (h : t.MovesFirst source target length l k t')
include h

theorem MovesFirst.keeps : ∃ s', t.Keeps s' t' ∧ s'.equates = t.equates ∧
    s'.references.next = t.references.next ∧ s'.changes = t.store.changes := by
  obtain ⟨s', hshift, hk⟩ := h
  exact ⟨s', hk, hshift.equates, hshift.next, hshift.changes⟩

/-- The references that the move has come to are moved. -/
theorem MovesFirst.standFor (hlength : length ≠ 0) (ht : t.Sound) (hl : t.references.StandFor l) :
    t'.references.StandFor (l.map fun r =>
      if r ∈ (Reference.inOrder (l.filter (·.InWindow source length))).take k
        then r.relocated source target else r) := by
  obtain ⟨s', hshift, hk⟩ := h
  rw [Reference.moving_eq hlength] at hshift
  have hmem : ∀ r ∈ (Reference.inOrder (l.filter (·.InWindow source length))).take k,
      r ∈ l ∧ r.InWindow source length := by
    intro r hr
    simpa using List.mem_filter.mp (Reference.mem_inOrder.mp (List.mem_of_mem_take hr))
  have hstand := hshift.standFor ht.store hl fun r hr => (hmem r hr).1
  rw [hk.references]
  -- What is moved stands in the window, where both notions of the new address agree.
  refine (List.map_congr_left fun r _ => ?_) ▸ hstand
  split
  · next hin => exact Reference.translated_eq (hmem r hin).2
  · rfl

end first

namespace Relocates

variable {t : Table} {source target : Address} {length : UInt64} {l : List Reference}
  {p : Except Diagnostic Outcome × Table} (h : t.Relocates source target length l p)
  (hlength : length ≠ 0) (ht : t.Sound) (hl : t.references.StandFor l)
include h

theorem keeps : ∃ s', t.Keeps s' p.2 ∧ s'.equates = t.equates ∧
    s'.references.next = t.references.next ∧ s'.changes = t.store.changes :=
  MovesFirst.keeps h.shifts

include hlength

theorem outcome_eq : p.1 = .ok (.ofWhole (¬ source.Mappable ∨
    t.monitor.Finishes (Reference.places (l.filter (·.InWindow source length))).length
      (l.filter (·.InWindow source length)).length)) := by
  rw [h.outcome, Reference.moving_eq hlength]
  exact congrArg Except.ok
    (Outcome.ofWhole_congr (or_congr_left (between?_lastOf_eq_none_iff hlength)))

include ht hl

theorem standFor : p.2.references.StandFor (l.map fun r =>
    if r ∈ (Reference.inOrder (l.filter (·.InWindow source length))).take
        (t.monitor.reach (Reference.places (l.filter (·.InWindow source length))).length
          (l.filter (·.InWindow source length)).length)
      then r.relocated source target else r) := by
  rw [← Reference.moving_eq hlength]
  have hstand := MovesFirst.standFor h.shifts hlength ht hl
  rwa [← Reference.moving_eq hlength] at hstand

/-- A move that nothing stops moves its whole window. -/
theorem standFor_of_finishes (hm : ∀ n k, t.monitor.Finishes n k) :
    p.2.references.StandFor
      (l.map fun r => if r.InWindow source length then r.relocated source target else r) := by
  have hstand := h.standFor hlength ht hl
  rw [Monitor.reach_of_finishes (hm _ _), ← Reference.length_inOrder, List.take_length] at hstand
  refine (List.map_congr_left fun r hr => ?_) ▸ hstand
  simp [Reference.mem_inOrder, hr]

end Relocates

end Table

namespace Session

/-- Behind every session, a move to a mappable destination that is not asked to stop gives every
reference of its source window the address as far behind the target, and leaves every other
reference and all equates alone; both listings follow, and no change is made known. -/
theorem move_translates_window {t : Table} (ht : Reached t) {source target : Address}
    {length : UInt64} (hlength : 1 ≤ length)
    (hfit : target.offset.toNat + (length.toNat - 1) < 2 ^ 64) (htarget : target.Mappable)
    (hlast : Address.Mappable ⟨target.space, target.offset + (length - 1)⟩) {monitor : Monitor}
    (hm : ∀ n, monitor.asks n = false) :
    let before := { t with plan := .none }
    let x : Step := ⟨monitor, .move source target length⟩
    ∃ l l', before.references.StandFor l ∧ l.Pairwise (·.id < ·.id) ∧
      l' = l.map (fun r => if r.InWindow source length then r.relocated source target else r) ∧
      (∀ r ∈ l, r.InWindow source length →
        (r.relocated source target).address.Mappable ∧
        (r.relocated source target).address.offset.toNat =
          target.offset.toNat + (r.address.offset.toNat - source.offset.toNat)) ∧
      x.answer before = .outcome .completed ∧
      (x.behind before).references.StandFor l' ∧
      (x.behind before).equates = before.equates ∧
      x.changes before = [] ∧
      (∀ m a, (Step.mk m (.referencesAt a)).answer (x.behind before) =
        .references (l'.filter (·.address = a))) ∧
      ∀ m id, (Step.mk m (.referencesTo id)).answer (x.behind before) =
        .references (l'.filter (·.equate = id)) := by
  intro before x
  have hbefore : before.Sound := ht.sound.equip FaultPlan.loud_none _ _
  have hne : length ≠ 0 := by
    rintro rfl
    exact absurd (UInt64.le_iff_toNat_le.mp hlength) (by decide)
  have hwraps := (fits_iff hne).mpr hfit
  have hlast' : (lastOf target length).Mappable := lastOf_eq hne hfit ▸ hlast
  obtain ⟨l, hl⟩ := hbefore.store.exists_standFor
  have hstart := x.sound_start hbefore
  have hmoves : (x.start before).Relocates source target length l
      (Attempt.on (move source target length) (x.start before)) :=
    move_run hne hwraps ⟨htarget, hlast'⟩ hstart rfl hl
  have hfinish : ∀ n k, (x.start before).monitor.Finishes n k :=
    fun n k => Monitor.grants_eq_self hm _
  have hrun : Action.on x.request.run (x.start before) = _ :=
    Attempt.on_answer (move source target length) .outcome (x.start before)
  have hbehind : x.behind before =
      (Attempt.on (move source target length) (x.start before)).2 := congrArg Prod.snd hrun
  have hstand := hmoves.standFor_of_finishes hne hstart hl hfinish
  obtain ⟨s', hk, hequates, -, hchanges⟩ := hmoves.keeps
  rw [← hbehind] at hstand hk
  refine ⟨l, _, hl, hbefore.store.sorted_of_standFor hl, rfl,
    fun r _ hin => Reference.relocated_address hne hfit hlast' hin, ?_, hstand, ?_, ?_,
    fun m a => Step.answer_referencesAt hk.sound hk.plan hstand m a,
    fun m id => Step.answer_referencesTo hk.sound hk.plan hstand m id⟩
  · rw [Step.answer, hrun, hmoves.outcome, Outcome.ofWhole, if_pos (.inr (hfinish _ _))]
    rfl
  · exact hk.equates.trans hequates
  · rw [Step.changes, Journal.changes, hk.changes, hchanges]
    rfl

/-- Three operands in a row. -/
def threeInRow : Table :=
  play (Table.opened 1 0 .none none none)
    [⟨{}, .define "one" 1⟩, ⟨{}, .attach 1 ⟨0, 16⟩ 0 0⟩, ⟨{}, .attach 1 ⟨0, 17⟩ 0 0⟩,
      ⟨{}, .attach 1 ⟨0, 18⟩ 0 0⟩]

/-- The first two are moved on by one address. -/
def pushing : Step := ⟨{}, .move ⟨0, 16⟩ ⟨0, 17⟩ 2⟩

theorem move_translates_window_pushing :
    Reached threeInRow ∧ (∀ n, pushing.monitor.asks n = false) ∧
      pushing.answer { threeInRow with plan := .none } = .outcome .completed ∧
      (Step.mk {} (.referencesAt ⟨0, 18⟩)).answer
          (pushing.behind { threeInRow with plan := .none }) =
        .references [⟨2, ⟨0, 18⟩, 0, 0, 1⟩, ⟨3, ⟨0, 18⟩, 0, 0, 1⟩] := by
  have ht : Reached threeInRow := ⟨.none, FaultPlan.loud_none, 1, 0, none, none, _, rfl⟩
  have hm : ∀ n, pushing.monitor.asks n = false := fun n => Monitor.asks_eq _ n
  have hstored : threeInRow.references.StandFor
      [⟨1, ⟨0, 16⟩, 0, 0, 1⟩, ⟨2, ⟨0, 17⟩, 0, 0, 1⟩, ⟨3, ⟨0, 18⟩, 0, 0, 1⟩] := by
    rw [ReferenceRows.StandFor]
    decide +kernel
  obtain ⟨l, l', hl, -, rfl, -, hanswer, -, -, -, hat, -⟩ :=
    @move_translates_window threeInRow ht ⟨0, 16⟩ ⟨0, 17⟩ 2 (by decide) (by decide) (by decide)
      (by decide) {} hm
  obtain rfl := hl.unique hstored
  exact ⟨ht, hm, hanswer, hat {} ⟨0, 18⟩⟩

end Session

end Equates

/-
An attachment replaces what is in its slot.

Where no storage call fails, an attachment is refused for its arguments alone; otherwise its slot
holds the new reference and nothing else behind it, also if several references had come there by
moves (`Session.attach_replaces_slot`).  The new reference has a key that no reference had
before, since keys are given out in ascending order (`Session.next_le`).  Of the equates those go
that were displaced from the slot and have no other reference.
-/
import Equates.Proofs.Failures
import Equates.Proofs.Store.Filling
import Equates.Proofs.Store.Inventory

namespace Equates

/-! ### Keys are given out once -/

theorem Effect.next_le_apply (x : Effect) (s : Store) :
    s.references.next ≤ (x.apply s).references.next := by
  cases x with
  | define name value =>
    rw [apply]
    split
    · exact le_refl _
    · exact le_refl _
  | relabel e name =>
    rw [apply]
    split
    · exact le_refl _
    · exact le_refl _
  | discard e => exact le_refl _
  | settle id => rw [s.references_apply_settle]
  | attach e a operand hash =>
    rw [apply]
    split
    · exact le_of_lt (Int.lt_succ _)
    · exact le_refl _
  | detach r => exact le_of_eq (ReferenceRows.next_erase s.references r.id).symm
  | rekey row key =>
    rw [apply]
    split
    · next hu => exact le_of_eq (ReferenceRows.next_update hu).symm
    · exact le_refl _

namespace Session

theorem next_le {t : Table} (ht : t.Sound) (l : List Step) :
    t.references.next ≤ (play t l).references.next := by
  induction l generalizing t with
  | nil => exact le_refl _
  | cons x l ih =>
    have hx := x.settles ht
    have hstep : t.references.next ≤ (x.behind t).references.next :=
      hx.preserves (x.sound_start ht) (I := fun s => t.references.next ≤ s.references.next)
        (fun {_ s x} _ _ _ h => h.trans (x.next_le_apply s)) (le_refl _)
    exact hstep.trans (ih hx.sound)

end Session

/-! ### Slots -/

/-- The reference stands in the slot of the address that is meant by the operand index and the
hash: the operand as a whole if the hash is zero, otherwise what has the hash. -/
def Reference.Occupies (a : Address) (operand : Int) (hash : UInt64) (r : Reference) : Prop :=
  r.address = a ∧ r.hash = hash ∧ (hash = 0 → r.operand = operand)

instance (a : Address) (operand : Int) (hash : UInt64) (r : Reference) :
    Decidable (r.Occupies a operand hash) :=
  inferInstanceAs (Decidable (_ ∧ _))

theorem Reference.occupies_iff {a : Address} {operand : Int} {hash : UInt64} {r : Reference} :
    r.Occupies a operand hash ↔ r.address = a ∧ r.slot = .of operand hash := by
  rw [Occupies, slot, Slot.of, Slot.of]
  refine and_congr_right fun _ => ?_
  by_cases h : r.hash = 0
  · by_cases h' : hash = 0
    · simp [h, h']
    · simp [h, h', Ne.symm h']
  · by_cases h' : hash = 0
    · simp [h, h']
    · simp [h, h']

namespace Store

section filling

variable {s : Store} (hs : s.Sound) {e : Equate} (he : e ∈ s.equates) {a : Address}
  (ha : a.Mappable) {operand : Int} (hop : 0 ≤ operand ∧ operand ≤ Table.maxOperand)
  (hash : UInt64) {l : List Reference} (hl : s.references.StandFor l)
include hs he ha hop hl

/-- The new reference comes behind those that are not in its slot. -/
theorem standFor_filling : (s.after (s.filling e a operand hash)).references.StandFor
    (l.filter (¬ ·.Occupies a operand hash) ++ [⟨s.references.next, a, operand, hash, e.id⟩]) := by
  refine ((s.clears_filling hs he ha hop hash).lawful.sound hs).standFor_iff.mpr
    ⟨?_, fun r => ?_⟩
  · refine List.pairwise_append.mpr
      ⟨(hs.sorted_of_standFor hl).filter _, List.pairwise_singleton _ _, fun r hr r' hr' => ?_⟩
    obtain rfl := List.mem_singleton.mp hr'
    exact hs.lt_next hl (List.mem_filter.mp hr).1
  · rw [refers_filling hs he ha hop hash, List.mem_append, List.mem_filter, List.mem_singleton,
      hs.mem_iff_refers hl, decide_eq_true_eq, Reference.occupies_iff, or_comm]

/-- Of the equates those go that had a reference in the slot and have none left. -/
theorem equates_filling {l' : List Reference}
    (hl' : (s.after (s.filling e a operand hash)).references.StandFor l') :
    (s.after (s.filling e a operand hash)).equates.toList =
      s.equates.toList.filter fun e' : Equate =>
        ¬ ((∃ r ∈ l, r.Occupies a operand hash ∧ r.equate = e'.id) ∧
          ∀ r ∈ l', r.equate ≠ e'.id) := by
  have hafter := (s.clears_filling hs he ha hop hash).lawful.sound hs
  refine hafter.equates.toList_eq_of_mem (hs.equates.toList_sorted.filter _) fun e' => ?_
  have huses : (s.after (s.filling e a operand hash)).Uses e'.id ↔ ∃ r ∈ l', r.equate = e'.id := by
    simp only [Uses, ← hafter.mem_iff_refers hl']
  have hslot : (∀ r ∈ s.occupants a (.of operand hash), r.equate ≠ e'.id) ↔
      ¬ ∃ r ∈ l, r.Occupies a operand hash ∧ r.equate = e'.id := by
    simp only [mem_occupants hs, ← Reference.occupies_iff, hs.mem_iff_refers hl]
    grind
  rw [List.mem_filter, hs.equates.mem_toList, decide_eq_true_eq,
    mem_equates_filling hs he ha hop hash, huses, hslot]
  refine and_congr_right fun _ => ?_
  rw [not_and_or, or_comm]
  simp only [not_forall, not_not, exists_prop]

end filling

end Store

namespace Step

section attach

variable {t : Table} (monitor : Monitor) {id : Key} {a : Address} {operand : Int} (hash : UInt64)

theorem attach_eq (h : ∀ d, (Attempt.on (Table.fillSlot id a operand hash)
      ((Step.mk monitor (.attach id a operand hash)).start t)).1 = .error d →
        d.isStorageFailure = false) :
    let x : Step := ⟨monitor, .attach id a operand hash⟩
    let p := Attempt.on (Table.fillSlot id a operand hash) (x.start t)
    x.answer t = Attempt.reply .reference p.1 ∧ x.behind t = p.2 := by
  intro x p
  have hon : Action.on x.request.run (x.start t) = _ :=
    Attempt.on_answer (Table.attach id a operand hash) .reference (x.start t)
  rw [Table.attach, Attempt.on_reportingFailure h] at hon
  exact ⟨congrArg Prod.fst hon, congrArg Prod.snd hon⟩

variable (ht : t.Sound) (hp : t.plan = .none)
include ht hp

theorem answer_attach_of_refused (h : ¬ ((0 ≤ operand ∧ operand ≤ Table.maxOperand) ∧
    (t.equates.get? id).isSome ∧ a.Mappable)) :
    ∃ d : Diagnostic, (Step.mk monitor (.attach id a operand hash)).answer t = .failed d ∧
      d.code = .invalidArgument := by
  let x : Step := ⟨monitor, .attach id a operand hash⟩
  have hstart := x.sound_start ht
  obtain ⟨p, hcode, hm⟩ : ∃ p : Problem, p.code = .invalidArgument ∧ Attempt.Enacts
      (Table.fillSlot id a operand hash) (x.start t).store [] (.error p.diagnostic) :=
    Table.fillSlot_refuses h
  obtain ⟨hr, -⟩ := (hm _ hstart.has).run hp
  have hrefusal : p.diagnostic.isStorageFailure = false := by
    rw [Diagnostic.isStorageFailure, show p.diagnostic.code = .invalidArgument from hcode]
    rfl
  obtain ⟨hanswer, -⟩ := attach_eq monitor hash fun d hd =>
    Except.error.inj (hr.symm.trans hd) ▸ hrefusal
  rw [hr] at hanswer
  exact ⟨p.diagnostic, hanswer, hcode⟩

theorem attach_run {e : Equate} (he : e ∈ t.equates) (ha : a.Mappable)
    (hop : 0 ≤ operand ∧ operand ≤ Table.maxOperand) :
    let x : Step := ⟨monitor, .attach e.id a operand hash⟩
    x.answer t = .reference ⟨t.references.next, a, operand, hash, e.id⟩ ∧
      (x.start t).Becomes ((x.start t).store.after ((x.start t).store.filling e a operand hash))
        (x.behind t) := by
  intro x
  have hstart := x.sound_start ht
  obtain ⟨hr, hb⟩ :=
    (Table.fillSlot_enacts hstart.store he ha hop hash _ hstart.has).run hp
  obtain ⟨hanswer, hbehind⟩ := attach_eq monitor hash fun d hd => by
    rw [hr] at hd
    cases hd
  rw [hr] at hanswer
  exact ⟨hanswer, hbehind ▸ hb⟩

end attach

end Step

namespace Session

/-- Behind every session, an attachment is refused just for an operand index that is out of
range, an equate that is not there or an address that is not mappable.  Otherwise it answers with
a reference under a new key, which alone stands in its slot from then on; every other reference
stays, and of the equates those go that had a reference in the slot and have none left. -/
theorem attach_replaces_slot {t : Table} (ht : Reached t) (monitor : Monitor) (id : Key)
    (a : Address) (operand : Int) (hash : UInt64) :
    let before := { t with plan := .none }
    let x : Step := ⟨monitor, .attach id a operand hash⟩
    let Refused := ¬ (0 ≤ operand ∧ operand ≤ 32767) ∨ before.equates.get? id = none ∨
      ¬ a.Mappable
    ((∃ d, x.answer before = .failed d ∧ d.code = .invalidArgument) ↔ Refused) ∧
      (¬ Refused → ∃ l r l', before.references.StandFor l ∧ x.answer before = .reference r ∧
        r = ⟨r.id, a, operand, hash, id⟩ ∧
        (∀ u steps, Reached u → play u steps = t →
          ∀ k row, u.references.get? k = some row → k < r.id) ∧
        l' = l.filter (¬ ·.Occupies a operand hash) ++ [r] ∧
        l'.filter (·.Occupies a operand hash) = [r] ∧
        (x.behind before).references.StandFor l' ∧
        (x.behind before).equates.toList = before.equates.toList.filter fun e : Equate =>
          ¬ ((∃ r' ∈ l, r'.Occupies a operand hash ∧ r'.equate = e.id) ∧
            ∀ r' ∈ l', r'.equate ≠ e.id)) := by
  intro before x Refused
  have hbefore : before.Sound := ht.sound.equip FaultPlan.loud_none _ _
  have hrefused : Refused ↔ ¬ ((0 ≤ operand ∧ operand ≤ Table.maxOperand) ∧
      (before.equates.get? id).isSome ∧ a.Mappable) := by
    simp only [Refused, Table.maxOperand, Option.isSome_iff_ne_none]
    tauto
  by_cases h : Refused
  · have hfailed := Step.answer_attach_of_refused monitor hash hbefore rfl (hrefused.mp h)
    exact ⟨iff_of_true hfailed h, absurd h⟩
  obtain ⟨hop, he, ha⟩ := not_not.mp (mt hrefused.mpr h)
  obtain ⟨e, he⟩ := Option.isSome_iff_exists.mp he
  obtain rfl := hbefore.store.equates.id_eq he
  obtain ⟨hanswer, hb⟩ := Step.attach_run monitor hash hbefore rfl he ha hop
  obtain ⟨l, hl⟩ := hbefore.store.exists_standFor
  have hs : (x.start before).store.Sound := (x.sound_start hbefore).store
  have hstand := Store.standFor_filling hs he ha hop hash hl
  have hequates := Store.equates_filling hs he ha hop hash hl hstand
  have hoccupies : Reference.Occupies a operand hash
      ⟨before.references.next, a, operand, hash, e.id⟩ := ⟨rfl, rfl, fun _ => rfl⟩
  refine ⟨iff_of_false ?_ h, fun _ => ⟨l, _, _, hl, hanswer, rfl, ?_, rfl, ?_, ?_, ?_⟩⟩
  · rintro ⟨d, hd, -⟩
    rw [hanswer] at hd
    cases hd
  · rintro u steps hu rfl k row hrow
    exact lt_of_lt_of_le (hu.sound.store.references.lt_next hrow) (next_le hu.sound steps)
  · simp [hoccupies]
  · rw [hb.references]
    exact hstand
  · rw [hb.equates]
    exact hequates

/-- Two references in one slot, of which one was moved there; the equate of the other one is used
elsewhere, too. -/
def crowded : Table :=
  play (Table.opened 1 0 .none none none)
    [⟨{}, .define "one" 1⟩, ⟨{}, .define "two" 2⟩, ⟨{}, .define "three" 3⟩,
      ⟨{}, .attach 1 ⟨0, 16⟩ 0 0⟩, ⟨{}, .attach 2 ⟨0, 17⟩ 0 0⟩, ⟨{}, .attach 2 ⟨0, 17⟩ 0 5⟩,
      ⟨{}, .move ⟨0, 16⟩ ⟨0, 17⟩ 1⟩]

def taking : Step := ⟨{}, .attach 3 ⟨0, 17⟩ 0 0⟩

theorem attach_replaces_slot_taking :
    let before := { crowded with plan := .none }
    Reached crowded ∧ before.references.StandFor
        [⟨1, ⟨0, 17⟩, 0, 0, 1⟩, ⟨2, ⟨0, 17⟩, 0, 0, 2⟩, ⟨3, ⟨0, 17⟩, 0, 5, 2⟩] ∧
      taking.answer before = .reference ⟨4, ⟨0, 17⟩, 0, 0, 3⟩ ∧
      (taking.behind before).references.StandFor
        [⟨3, ⟨0, 17⟩, 0, 5, 2⟩, ⟨4, ⟨0, 17⟩, 0, 0, 3⟩] ∧
      (taking.behind before).equates.toList = [⟨2, "two", 2⟩, ⟨3, "three", 3⟩] := by
  intro before
  have ht : Reached crowded := ⟨.none, FaultPlan.loud_none, 1, 0, none, none, _, rfl⟩
  have hstored : before.references.StandFor
      [⟨1, ⟨0, 17⟩, 0, 0, 1⟩, ⟨2, ⟨0, 17⟩, 0, 0, 2⟩, ⟨3, ⟨0, 17⟩, 0, 5, 2⟩] := by
    rw [ReferenceRows.StandFor]
    decide +kernel
  have hrefused : ¬ (¬ ((0 : Int) ≤ 0 ∧ (0 : Int) ≤ 32767) ∨ before.equates.get? 3 = none ∨
      ¬ Address.Mappable ⟨0, 17⟩) := by
    decide +kernel
  have hkey : taking.answer before = .reference ⟨4, ⟨0, 17⟩, 0, 0, 3⟩ := by
    decide +kernel
  obtain ⟨l, r, l', hl, hr, -, -, rfl, -, hleft, hequates⟩ :=
    (attach_replaces_slot ht {} 3 ⟨0, 17⟩ 0 0).2 hrefused
  obtain rfl := hl.unique hstored
  obtain rfl := Answer.reference.inj (hr.symm.trans hkey)
  refine ⟨ht, hstored, hkey, hleft, hequates.trans ?_⟩
  decide +kernel

end Session

end Equates

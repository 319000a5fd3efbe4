/-
A move that is cut short can be made up for.

A move that is asked to stop, or meets a failing storage call, has moved the first references of
its window, by address and by key, and has touched no other (`Session.move_cut_short`).  Where
the windows of source and destination share no address, a reference that has been moved is
outside the window that the move goes through when it is made again.  So that one moves just
the references that are missing.
-/
import Equates.Proofs.Relocation

namespace Equates

open Table

namespace Reference

theorem relocated_self {source : Address} {length : UInt64} {r : Reference}
    (h : r.InWindow source length) : r.relocated source source = r := by
  rw [relocated, Nat.add_sub_cancel' h.2.1, UInt64.ofNat_toNat, ← h.1]

section window

variable {source target : Address} {length : UInt64} (hto : Receives target length) {r : Reference}
  (hin : r.InWindow source length)
include hto hin

theorem InWindow.arrives : (r.relocated source target).address.Mappable ∧
    (r.relocated source target).address.offset.toNat =
      target.offset.toNat + (r.address.offset.toNat - source.offset.toNat) :=
  relocated_address hto.length_ne ((fits_iff hto.length_ne).mp hto.fits) hto.mappable.2 hin

theorem InWindow.relocated : (r.relocated source target).InWindow target length := by
  obtain ⟨-, hoffset⟩ := hin.arrives hto
  have hlt := (r.relocated source target).address.offset.toNat_lt
  have hpos : 0 < length.toNat := Nat.pos_of_ne_zero fun h => hto.length_ne (UInt64.toNat_inj.mp h)
  obtain ⟨-, hfirst, hlast⟩ := hin
  refine ⟨rfl, ?_, ?_⟩
  · omega
  · omega

/-- A move to another place gives a reference another address. -/
theorem InWindow.relocated_address_ne (hne : source ≠ target) :
    (r.relocated source target).address ≠ r.address := by
  obtain ⟨-, hoffset⟩ := hin.arrives hto
  intro heq
  rw [heq] at hoffset
  obtain ⟨hspace, hfirst, -⟩ := hin
  refine hne (Address.eq_iff.mpr ⟨?_, by omega⟩)
  rw [← hspace, ← heq]
  rfl

end window

/-- A move that leaves its window behind moves what another one has left. -/
theorem map_relocated_again {source target : Address} {length : UInt64} {l moved : List Reference}
    (hmoved : ∀ r ∈ moved, r.InWindow source length ∧
      ¬ (r.relocated source target).InWindow source length) :
    (l.map fun r => if r ∈ moved then r.relocated source target else r).map
        (fun r => if r.InWindow source length then r.relocated source target else r) =
      l.map fun r => if r.InWindow source length then r.relocated source target else r := by
  rw [List.map_map]
  refine List.map_congr_left fun r _ => ?_
  rw [Function.comp]
  by_cases hr : r ∈ moved
  · obtain ⟨hin, hout⟩ := hmoved r hr
    rw [if_pos hr, if_neg hout, if_pos hin]
  · rw [if_neg hr]

end Reference

/-- The references that a move has come to, if it gives references another address at all. -/
theorem Table.MovesFirst.exists_moved {t t' : Table} {source target : Address} {length : UInt64}
    {l : List Reference} {k : Nat} (h : t.MovesFirst source target length l k t')
    (hto : k = 0 ∨ Receives target length) (ht : t.Sound) (hl : t.references.StandFor l) :
    ∃ moved, moved <+: Reference.inOrder (l.filter (·.InWindow source length)) ∧
      (∀ r ∈ moved, r.InWindow source length ∧ Receives target length ∧
        (r.relocated source target).address ≠ r.address) ∧
      t'.references.StandFor
        (l.map fun r => if r ∈ moved then r.relocated source target else r) := by
  have hmem : ∀ r ∈ (Reference.inOrder (l.filter (·.InWindow source length))).take k,
      r.InWindow source length := fun r hr => by
    simpa using (List.mem_filter.mp (Reference.mem_inOrder.mp (List.mem_of_mem_take hr))).2
  obtain rfl | hto := hto
  · obtain ⟨s', hshift, hk⟩ := h
    refine ⟨[], List.nil_prefix, List.forall_mem_nil _, ?_⟩
    rw [hk.references]
    exact hshift.standFor ht.store hl (List.forall_mem_nil _)
  have hstand := h.standFor hto.length_ne ht hl
  by_cases hne : source = target
  · refine ⟨[], List.nil_prefix, List.forall_mem_nil _, ?_⟩
    subst hne
    refine (List.map_congr_left fun r _ => ?_) ▸ hstand
    rw [if_neg List.not_mem_nil]
    split
    · next hr => exact Reference.relocated_self (hmem r hr)
    · rfl
  · exact ⟨_, List.take_prefix _ _,
      fun r hr => ⟨hmem r hr, hto, (hmem r hr).relocated_address_ne hto hne⟩, hstand⟩

namespace Step

section move

variable {t : Table} (ht : t.Sound) (monitor : Monitor) (source target : Address) (length : UInt64)

theorem behind_move : (Step.mk monitor (.move source target length)).behind t =
    (Attempt.on (move source target length)
      ((Step.mk monitor (.move source target length)).start t)).2 :=
  congrArg Prod.snd (Attempt.on_answer (move source target length) .outcome _)

include ht

/-- A move whose destination is not there leaves the references alone. -/
theorem references_of_refused
    (h : ∀ t, (Attempt.on (relocate source target length) t).2 = t) :
    ((Step.mk monitor (.move source target length)).behind t).references = t.references := by
  have hstart := (Step.mk monitor (.move source target length)).sound_start ht
  obtain ⟨t₁, hdrop, hkeeps⟩ := move_keeps hstart source target length
  have hk := hkeeps (Step.start _ t).store (by rw [h]; exact hdrop.toHas.becomes.keeps)
  rw [behind_move, hk.references]
  rfl

variable {l : List Reference} (hl : t.references.StandFor l)
include hl

/-- A move moves the first references of its window; it touches no equate and gives out no key. -/
theorem exists_moved :
    let x : Step := ⟨monitor, .move source target length⟩
    (x.behind t).Sound ∧ (x.behind t).equates = t.equates ∧
      (x.behind t).references.next = t.references.next ∧
      ∃ moved, moved <+: Reference.inOrder (l.filter (·.InWindow source length)) ∧
        (∀ r ∈ moved, r.InWindow source length ∧ Receives target length ∧
          (r.relocated source target).address ≠ r.address) ∧
        (x.behind t).references.StandFor
          (l.map fun r => if r ∈ moved then r.relocated source target else r) := by
  intro x
  have hstart := x.sound_start ht
  obtain ⟨k, hfirst, hto⟩ := move_first hstart source target length hl
  rw [← behind_move] at hfirst
  obtain ⟨s', hk, hequates, hnext, -⟩ := hfirst.keeps
  exact ⟨hk.sound, hk.equates.trans hequates, (congrArg _ hk.references).trans hnext,
    hfirst.exists_moved hto hstart hl⟩

/-- A move that nothing stops moves its window. -/
theorem standFor_of_move (hp : t.plan = .none) (hto : Receives target length)
    (hm : ∀ n, monitor.asks n = false) :
    ((Step.mk monitor (.move source target length)).behind t).references.StandFor
      (l.map fun r => if r.InWindow source length then r.relocated source target else r) := by
  have hstart := (Step.mk monitor (.move source target length)).sound_start ht
  rw [behind_move]
  exact (move_run hto.length_ne hto.fits hto.mappable hstart hp hl).standFor_of_finishes
    hto.length_ne hstart hl fun _ _ => Monitor.grants_eq_self hm _

end move

end Step

namespace Session

/-- Behind every session, a move that is stopped by its monitor or by a failing storage call has
given the references at the beginning of its window, by address and by key, the address as far
behind the target, and has left every other reference and all equates alone.  Both listings
follow.  If the windows of source and target have no address in common, making the move again
leaves the references as one move would have left them. -/
theorem move_cut_short {t : Table} (ht : Reached t) {plan : FaultPlan} (hplan : plan.Loud)
    (monitor : Monitor) (source target : Address) (length : UInt64) :
    let before := { t with plan }
    let x : Step := ⟨monitor, .move source target length⟩
    let behind := { x.behind before with plan := .none }
    ∃ l moved l', before.references.StandFor l ∧ l.Pairwise (·.id < ·.id) ∧
      moved <+: Reference.inOrder (l.filter (·.InWindow source length)) ∧
      (∀ r ∈ moved, (r.relocated source target).address ≠ r.address ∧
        (r.relocated source target).address.Mappable ∧
        (r.relocated source target).address.offset.toNat =
          target.offset.toNat + (r.address.offset.toNat - source.offset.toNat)) ∧
      l' = l.map (fun r => if r ∈ moved then r.relocated source target else r) ∧
      behind.references.StandFor l' ∧
      behind.equates = before.equates ∧
      (∀ m a, (Step.mk m (.referencesAt a)).answer behind =
        .references (l'.filter (·.address = a))) ∧
      (∀ m id, (Step.mk m (.referencesTo id)).answer behind =
        .references (l'.filter (·.equate = id))) ∧
      ((∀ r : Reference, r.InWindow source length → ¬ r.InWindow target length) →
        ∀ again once : Monitor, (∀ n, again.asks n = false) → (∀ n, once.asks n = false) →
          ((Step.mk again x.request).behind behind).references =
            ((Step.mk once x.request).behind { t with plan := .none }).references) := by
  intro before x behind
  have hbefore : before.Sound := ht.sound.equip hplan _ _
  obtain ⟨l, hl⟩ := hbefore.store.exists_standFor
  obtain ⟨hsound, hequates, hnext, moved, hprefix, hmoved, hstand⟩ :=
    Step.exists_moved hbefore monitor source target length hl
  have hbehind : behind.Sound := hsound.equip FaultPlan.loud_none _ _
  refine ⟨l, moved, _, hl, hbefore.store.sorted_of_standFor hl, hprefix, fun r hr => ?_, rfl,
    hstand, hequates, fun m a => Step.answer_referencesAt hbehind rfl hstand m a,
    fun m id => Step.answer_referencesTo hbehind rfl hstand m id,
    fun hapart again once hagain honce => ?_⟩
  · obtain ⟨hin, hto, hne⟩ := hmoved r hr
    exact ⟨hne, hin.arrives hto⟩
  · have hunharmed : Table.Sound { t with plan := .none } :=
      ht.sound.equip FaultPlan.loud_none _ _
    obtain ⟨hagain', -, hnextAgain, -⟩ :=
      Step.exists_moved hbehind again source target length hstand
    obtain ⟨honce', -, hnextOnce, -⟩ := Step.exists_moved hunharmed once source target length hl
    obtain hto | hrefused := relocate_cases source target length
    · refine honce'.store.references_eq hagain'.store
        (Step.standFor_of_move hunharmed once source target length hl rfl hto honce) ?_
        (hnextAgain.trans (hnext.trans hnextOnce.symm))
      -- Where the windows are apart, a moved reference does not move again.
      rw [← Reference.map_relocated_again fun r hr =>
        ⟨(hmoved r hr).1, fun hin => hapart _ hin ((hmoved r hr).1.relocated hto)⟩]
      exact Step.standFor_of_move hbehind again source target length hstand rfl hto hagain
    · have hmove := Step.references_of_refused hbefore monitor source target length hrefused
      exact (Step.references_of_refused hbehind again source target length hrefused).trans
        (hmove.trans (Step.references_of_refused hunharmed once source target length hrefused).symm)

/-- The second row that is to be overwritten is not. -/
def failingSecondUpdate : FaultPlan := fun calls call =>
  if call = .references .update ∧ calls.any (·.call = .references .update) then
    some { diagnostic := .error .storageFailure "no update" }
  else none

/-- Three references are moved to another place. -/
def carrying : Step := ⟨{}, .move ⟨0, 16⟩ ⟨0, 32⟩ 3⟩

theorem move_cut_short_carrying :
    let behind := { carrying.behind { threeInRow with plan := failingSecondUpdate } with
      plan := .none }
    Reached threeInRow ∧ failingSecondUpdate.Loud ∧
      (∀ r : Reference, r.InWindow ⟨0, 16⟩ 3 → ¬ r.InWindow ⟨0, 32⟩ 3) ∧
      (∀ n, carrying.monitor.asks n = false) ∧
      carrying.answer { threeInRow with plan := failingSecondUpdate } =
        .outcome .storageFailed ∧
      (Step.mk {} (.referencesTo 1)).answer behind = .references
        [⟨1, ⟨0, 32⟩, 0, 0, 1⟩, ⟨2, ⟨0, 17⟩, 0, 0, 1⟩, ⟨3, ⟨0, 18⟩, 0, 0, 1⟩] ∧
      (carrying.behind behind).references =
        (carrying.behind { threeInRow with plan := .none }).references := by
  intro behind
  have ht : Reached threeInRow := ⟨.none, FaultPlan.loud_none, 1, 0, none, none, _, rfl⟩
  have hplan : failingSecondUpdate.Loud := FaultPlan.loud_ite _ _
  have hapart : ∀ r : Reference, r.InWindow ⟨0, 16⟩ 3 → ¬ r.InWindow ⟨0, 32⟩ 3 := by
    rintro r ⟨-, -, hlast⟩ ⟨-, hfirst, -⟩
    exact absurd (hfirst.trans hlast) (by decide)
  have hm : ∀ n, carrying.monitor.asks n = false := fun n => Monitor.asks_eq _ n
  have hanswer : carrying.answer { threeInRow with plan := failingSecondUpdate } =
      .outcome .storageFailed := by
    decide +kernel
  have hstored : behind.references.StandFor
      [⟨1, ⟨0, 32⟩, 0, 0, 1⟩, ⟨2, ⟨0, 17⟩, 0, 0, 1⟩, ⟨3, ⟨0, 18⟩, 0, 0, 1⟩] := by
    rw [ReferenceRows.StandFor]
    decide +kernel
  obtain ⟨l, moved, l', -, -, -, -, -, hl', -, -, hto, hagain⟩ :=
    move_cut_short ht hplan {} ⟨0, 16⟩ ⟨0, 32⟩ 3
  obtain rfl := hl'.unique hstored
  exact ⟨ht, hplan, hapart, hm, hanswer, hto {} 1, hagain hapart {} {} hm hm⟩

end Session

end Equates

/-
A removal takes an equate with all its references.

An equate is removed by its name.  The references to it are detached in the order of their keys,
and each loss is made known under that name; then the equate goes, and the last change tells of
it.  Nothing else is touched: not the other rows, and not the other names
(`Session.remove_exact`).
-/
import Equates.Proofs.Detachment

namespace Equates

namespace Store

/-! ### An equate goes behind its references -/

theorem equates_dissolving (s : Store) (e : Equate) :
    (s.after (s.dissolving e)).equates = s.equates.erase e.id := by
  rw [dissolving, after_append]
  show (s.after ((s.referencesTo e.id).map .detach)).equates.erase e.id = _
  rw [equates_after_detach]

section dissolving

variable {s : Store} (hs : s.Sound) {e : Equate} (he : e ∈ s.equates) {l : List Reference}
  (hl : s.references.StandFor l)
include hs he hl

theorem standFor_dissolving :
    (s.after (s.dissolving e)).references.StandFor (l.filter (·.equate ≠ e.id)) := by
  refine ((s.clears_dissolve hs he).lawful.sound hs).standFor_iff.mpr
    ⟨(hs.sorted_of_standFor hl).filter _, fun r => ?_⟩
  have hrefers : (s.after (s.dissolving e)).Refers r ↔
      s.Refers r ∧ ∀ r' ∈ s.referencesTo e.id, r.id ≠ r'.id := by
    rw [dissolving, after_append]
    exact refers_after_detach _ _
  rw [List.mem_filter, hrefers, hs.mem_iff_refers hl, decide_eq_true_eq]
  refine and_congr_right fun hr => ⟨fun hne r' hr' hid => hne ?_, fun hout hid => ?_⟩
  · -- A reference with the key of one to the equate is that one.
    obtain ⟨hrefers', hid'⟩ := hs.mem_referencesTo.mp hr'
    rwa [hs.eq_of_id_eq hr hrefers' hid]
  · exact hout r (hs.mem_referencesTo.mpr ⟨hr, hid⟩) rfl

theorem changes_dissolving :
    (s.after (s.dissolving e)).changes = .equateRemoved e.name e.value ::
      ((l.filter (·.equate = e.id)).map fun r =>
        .referenceRemoved ⟨e.name, e.value, r.address, r.operand, r.hash⟩).reverse ++
          s.changes := by
  have hlost : (l.filter (·.equate = e.id)).map (fun r =>
        Change.referenceRemoved (r.attachment (s.equates.get? r.equate))) =
      (l.filter (·.equate = e.id)).map fun r =>
        .referenceRemoved ⟨e.name, e.value, r.address, r.operand, r.hash⟩ := by
    refine List.map_congr_left fun r hr => ?_
    rw [of_decide_eq_true (List.mem_filter.mp hr).2, EquateRows.mem_def.mp he]
    rfl
  rw [dissolving, after_append]
  show .equateRemoved e.name e.value ::
    (s.after ((s.referencesTo e.id).map .detach)).changes = _
  rw [changes_after_detach, hs.referencesTo_eq hl, hlost]
  rfl

end dissolving

end Store

namespace Step

/-- The step answers that it has removed the equate `e`.  Just `e` and those of the stored
references `l` that refer to it are gone; the loss of each reference is made known in the order
of the keys, and behind them the loss of the equate. -/
structure Dissolves (x : Step) (t : Table) (l : List Reference) (e : Equate) : Prop where
  answer : x.answer t = .flag true
  references : (x.behind t).references.StandFor (l.filter (·.equate ≠ e.id))
  equates : (x.behind t).equates.toList = t.equates.toList.filter (·.id ≠ e.id)
  named : ∀ name, (x.behind t).equates.idOf? name =
    if name = e.name then none else t.equates.idOf? name
  changes : x.changes t = (l.filter (·.equate = e.id)).map (fun r =>
      .referenceRemoved ⟨e.name, e.value, r.address, r.operand, r.hash⟩) ++
    [.equateRemoved e.name e.value]

section remove

variable {t : Table} (ht : t.Sound) (hplan : t.plan = .none) (monitor : Monitor) {name : String}
include ht hplan

theorem remove_declines (hnone : (t.equates.idOf? name).bind t.equates.get? = none) :
    (Step.mk monitor (.remove name)).Declines t := by
  let x : Step := ⟨monitor, .remove name⟩
  have hm : Attempt.Enacts (Table.eraseNamed name) (x.start t).store [] (.ok false) :=
    Table.eraseNamed_missing hnone
  obtain ⟨hr, hb⟩ := hm.on_orElseReport (x.sound_start ht).has hplan false
  have hon : Action.on x.request.run (x.start t) = _ := Action.on_map _ _ _
  rw [show x.request.run = .flag <$> Table.remove name from rfl, Table.remove, hr] at hon
  rw [← show x.behind t = _ from congrArg Prod.snd hon] at hb
  exact ⟨congrArg Prod.fst hon, hb.references, hb.equates, congrArg List.reverse hb.changes⟩

theorem remove_dissolves {l : List Reference} (hl : t.references.StandFor l) {e : Equate}
    (he : e ∈ t.equates) (hname : e.name = name) :
    (Step.mk monitor (.remove name)).Dissolves t l e := by
  let x : Step := ⟨monitor, .remove name⟩
  have hs : (x.start t).store.Sound := (x.sound_start ht).store
  have hm := Table.eraseNamed_enacts (s := (x.start t).store) he
    (hs.equates.named_iff.mpr ⟨he, hname⟩)
  obtain ⟨hr, hb⟩ := hm.on_orElseReport (x.sound_start ht).has hplan false
  have hon : Action.on x.request.run (x.start t) = _ := Action.on_map _ _ _
  rw [show x.request.run = .flag <$> Table.remove name from rfl, Table.remove, hr] at hon
  rw [← show x.behind t = _ from congrArg Prod.snd hon] at hb
  have hequates : (x.behind t).equates = t.equates.erase e.id :=
    hb.equates.trans (Store.equates_dissolving _ e)
  refine ⟨congrArg Prod.fst hon, ?_, ?_, fun other => ?_, ?_⟩
  · rw [hb.references]
    exact Store.standFor_dissolving hs he hl
  · rw [hequates]
    exact ht.store.equates.toList_erase e.id
  · rw [hequates]
    exact EquateRows.idOf?_erase he other
  · refine (congrArg List.reverse (hb.changes.trans (Store.changes_dissolving hs he hl))).trans ?_
    simp [start, Table.store]

end remove

end Step

namespace Session

/-- Behind every session, a removal answers that it has removed an equate just where one of this
name is stored.  Then that equate goes and all references to it do, which are made known in the
order of their keys, each under the name, and the equate behind them; all else stays.  Where no
equate has the name, nothing changes and nothing is made known. -/
theorem remove_exact {t : Table} (ht : Reached t) (monitor : Monitor) (name : String) :
    let before := { t with plan := .none }
    let x : Step := ⟨monitor, .remove name⟩
    ∃ l, before.references.StandFor l ∧
      (x.answer before = .flag true ↔ ∃ e ∈ before.equates.toList, e.name = name) ∧
      (∀ e ∈ before.equates.toList, e.name = name → x.Dissolves before l e) ∧
      ((¬ ∃ e ∈ before.equates.toList, e.name = name) → x.Declines before) := by
  intro before x
  have hbefore : before.Sound := ht.sound.equip FaultPlan.loud_none _ _
  obtain ⟨l, hl⟩ := hbefore.store.exists_standFor
  have hmem : ∀ e, e ∈ before.equates.toList ↔ e ∈ before.equates :=
    fun e => hbefore.store.equates.mem_toList
  have htakes : ∀ e ∈ before.equates.toList, e.name = name → x.Dissolves before l e :=
    fun e he hname => Step.remove_dissolves hbefore rfl monitor hl ((hmem e).mp he) hname
  have hdeclines : (¬ ∃ e ∈ before.equates.toList, e.name = name) → x.Declines before := by
    refine fun hnone => Step.remove_declines hbefore rfl monitor ?_
    refine Option.eq_none_iff_forall_ne_some.mpr fun e hnamed => hnone ?_
    obtain ⟨he, hname⟩ := hbefore.store.equates.named_iff.mp hnamed
    exact ⟨e, (hmem e).mpr he, hname⟩
  refine ⟨l, hl, ⟨fun htrue => ?_, fun ⟨e, he, hname⟩ => (htakes e he hname).answer⟩, htakes,
    hdeclines⟩
  by_contra hnone
  rw [(hdeclines hnone).answer] at htrue
  cases htrue

/-- An equate that was renamed, with references on both sides of one to another equate. -/
def renamed : Table :=
  play (Table.opened 1 0 .none none none)
    [⟨{}, .define "old" 1⟩, ⟨{}, .define "two" 2⟩, ⟨{}, .attach 1 ⟨0, 16⟩ 0 0⟩,
      ⟨{}, .attach 2 ⟨0, 16⟩ 1 0⟩, ⟨{}, .attach 1 ⟨0, 8⟩ 0 5⟩, ⟨{}, .rename 1 "new"⟩]

theorem remove_exact_renamed :
    let before := { renamed with plan := .none }
    let x : Step := ⟨{}, .remove "new"⟩
    Reached renamed ∧ ⟨1, "new", 1⟩ ∈ before.equates.toList ∧ x.answer before = .flag true ∧
      (x.behind before).references.StandFor [⟨2, ⟨0, 16⟩, 1, 0, 2⟩] ∧
      (x.behind before).equates.toList = [⟨2, "two", 2⟩] ∧
      x.changes before =
        [.referenceRemoved ⟨"new", 1, ⟨0, 16⟩, 0, 0⟩, .referenceRemoved ⟨"new", 1, ⟨0, 8⟩, 0, 5⟩,
          .equateRemoved "new" 1] := by
  intro before x
  have ht : Reached renamed := ⟨.none, FaultPlan.loud_none, 1, 0, none, none, _, rfl⟩
  have hstored : before.references.StandFor
      [⟨1, ⟨0, 16⟩, 0, 0, 1⟩, ⟨2, ⟨0, 16⟩, 1, 0, 2⟩, ⟨3, ⟨0, 8⟩, 0, 5, 1⟩] := by
    rw [ReferenceRows.StandFor]
    decide +kernel
  have he : ⟨1, "new", 1⟩ ∈ before.equates.toList := by decide +kernel
  obtain ⟨l, hl, -, htakes, -⟩ := remove_exact ht {} "new"
  obtain rfl := hl.unique hstored
  have h := htakes ⟨1, "new", 1⟩ he rfl
  refine ⟨ht, he, h.answer, h.references, h.equates.trans ?_, h.changes⟩
  decide +kernel

end Session

end Equates

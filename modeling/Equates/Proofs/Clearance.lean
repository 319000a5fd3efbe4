/-
A clearing removes exactly its range, or as much of it as its monitor lets it.

A clearing that nothing stops removes the references between its two addresses, and the equates
that had no others (`Session.clear_removes_range`).  One whose monitor lets `p` polls pass has
used up one for each place in the range at which a reference stands, and one more, before it
removes the first reference; so it removes the first `p - (n + 1)` of them
(`Session.clear_stops_cleanly`).  What a second clearing then finds is just what is left of the
range, so both together do what a single one would have done.
-/
import Equates.Proofs.Failures
import Equates.Proofs.Table.Ranges

namespace Equates

open Effect

/-- Every stored reference belongs to a stored equate. -/
theorem Session.Reached.integral {t : Table} (ht : Session.Reached t) : t.store.Integral := by
  obtain ⟨plan, hplan, equates, references, listing, registry, l, rfl⟩ := ht
  exact Session.integral (Table.sound_opened hplan equates references listing registry)
    (Store.integral_empty rfl) l

namespace Reference

section range

variable {l : List Reference} (hl : l.Pairwise (·.id < ·.id)) (range : AddressRange)
include hl

theorem nodup_range : (inOrder (l.filter (·.address ∈ range))).Pairwise (·.id ≠ ·.id) :=
  inOrder_nodup ((hl.filter _).imp fun h => ne_of_lt h)

/-- What is left of the references behind the first `k` in order is what comes behind them. -/
theorem inOrder_rest (k : Nat) :
    inOrder ((l.filter (· ∉ (inOrder (l.filter (·.address ∈ range))).take k)).filter
      (·.address ∈ range)) = (inOrder (l.filter (·.address ∈ range))).drop k := by
  have hids : ∀ l' : List Reference, l'.Sublist l → l'.Pairwise (·.id ≠ ·.id) :=
    fun l' hsub => (hl.sublist hsub).imp fun h => ne_of_lt h
  have hnodup := nodup_range hl range
  have hsorted := ((l.filter (·.address ∈ range)).pairwise_insertionSort Precedes).and hnodup
  refine (eq_inOrder (hids _ (List.filter_sublist.trans List.filter_sublist))
    (hsorted.sublist (List.drop_sublist k _)) fun r => ?_).symm
  -- Each reference of the range is either among the first `k` or behind them.
  have hsplit := List.take_append_drop k (inOrder (l.filter (·.address ∈ range)))
  have hmem : r ∈ inOrder (l.filter (·.address ∈ range)) ↔ r ∈ l ∧ r.address ∈ range := by
    rw [mem_inOrder, List.mem_filter, decide_eq_true_eq]
  rw [← hsplit, List.pairwise_append] at hnodup
  rw [← hsplit, List.mem_append] at hmem
  rw [List.mem_filter, List.mem_filter, decide_eq_true_eq, decide_eq_true_eq]
  have hapart : r ∈ (inOrder (l.filter (·.address ∈ range))).take k →
      r ∉ (inOrder (l.filter (·.address ∈ range))).drop k :=
    fun hfirst hrest => hnodup.2.2 r hfirst r hrest rfl
  tauto

end range

end Reference

namespace Step

/-- A clearing of the range, under the monitor. -/
def clear (monitor : Monitor) (range : AddressRange) : Step :=
  ⟨monitor, .clear range.min range.max⟩

variable {t : Table} (ht : t.Sound) (hp : t.plan = .none) {l : List Reference}
  (hl : t.references.StandFor l) (range : AddressRange)
include ht hp hl

/-- A clearing removes the references that it comes to. -/
theorem clear_run (monitor : Monitor) :
    let doomed := l.filter (·.address ∈ range)
    let n := (Reference.places doomed).length
    (clear monitor range).answer t = .outcome (.ofWhole
        (KeyWindow.between? range.min range.max = none ∨ monitor.Finishes n doomed.length)) ∧
      t.Keeps (((clear monitor range).start t).store.after (sweep
          ((Reference.inOrder doomed).take (monitor.reach n doomed.length))))
        ((clear monitor range).behind t) := by
  intro doomed n
  obtain ⟨hr, hk⟩ := Table.clear_run ((clear monitor range).sound_start ht) hp hl range
  exact ⟨congrArg Answer.outcome hr, ⟨hk.toHas, hk.plan⟩⟩

/-- A clearing that nothing stops removes all references of its range. -/
theorem clear_run_of_never {monitor : Monitor} (hm : ∀ n, monitor.asks n = false) :
    (clear monitor range).answer t = .outcome .completed ∧
      t.Keeps (((clear monitor range).start t).store.after
          (sweep (Reference.inOrder (l.filter (·.address ∈ range)))))
        ((clear monitor range).behind t) := by
  have hfinish : ∀ n k, monitor.Finishes n k := fun n k => Monitor.grants_eq_self hm _
  obtain ⟨hr, hk⟩ := clear_run ht hp hl range monitor
  rw [Monitor.reach_of_finishes (hfinish _ _), ← Reference.length_inOrder, List.take_length] at hk
  rw [Outcome.ofWhole, if_pos (.inr (hfinish _ _))] at hr
  exact ⟨hr, hk⟩

end Step

namespace Session

/-- Behind every session, a clearing that is not asked to stop removes exactly the references
between its two addresses and the equates that had no others; it tells of each of them once, and
of an equate behind all its references. -/
theorem clear_removes_range {t : Table} (ht : Reached t) (range : AddressRange)
    {monitor : Monitor} (hm : ∀ n, monitor.asks n = false) :
    let before := { t with plan := .none }
    let x := Step.clear monitor range
    ∃ l, before.references.StandFor l ∧
      let Stays (e : Equate) := (∀ r ∈ l, r.equate ≠ e.id) ∨
        ∃ r ∈ l, r.equate = e.id ∧ r.address ∉ range
      x.answer before = .outcome .completed ∧
      (x.behind before).references.StandFor (l.filter (·.address ∉ range)) ∧
      (x.behind before).equates.toList = before.equates.toList.filter (Stays ·) ∧
      before.equates.Told (Reference.inOrder (l.filter (·.address ∈ range)))
        (before.equates.toList.filter (¬ Stays ·)) (x.changes before) := by
  intro before x
  have hbefore : before.Sound := ht.sound.equip FaultPlan.loud_none _ _
  obtain ⟨l, hl⟩ := hbefore.store.exists_standFor
  have hs : (x.start before).store.Sound := (x.sound_start hbefore).store
  have hnodup := Reference.nodup_range (hs.sorted_of_standFor hl) range
  obtain ⟨hr, hk⟩ := Step.clear_run_of_never hbefore rfl hl range hm
  have hmem : ∀ r, r ∈ Reference.inOrder (l.filter (·.address ∈ range)) ↔
      r ∈ l ∧ r.address ∈ range := fun r => by
    rw [Reference.mem_inOrder, List.mem_filter, decide_eq_true_eq]
  refine ⟨l, hl, ?_⟩
  intro Stays
  generalize Reference.inOrder (l.filter (·.address ∈ range)) = refs at hnodup hk hmem ⊢
  have hrefs : ∀ r ∈ refs, r ∈ l := fun r hr => ((hmem r).mp hr).1
  have hequates : (x.behind before).equates.toList = before.equates.toList.filter (Stays ·) := by
    rw [hk.equates]
    refine (Store.equates_after_sweep hs hl hrefs hnodup).trans (List.filter_congr fun e _ => ?_)
    -- An equate with no reference in the range has none at all, or one outside.
    rw [decide_eq_decide]
    simp only [hmem, Stays]
    grind
  refine ⟨hr, ?_, hequates, ?_⟩
  · rw [hk.references]
    refine (List.filter_congr fun r hr => ?_) ▸ Store.standFor_after_sweep hs hl hrefs
    simp only [hmem, hr, true_and]
  · obtain ⟨changes, hchanges, htold⟩ := Store.told_after_sweep hs
      (ht.integral : (x.start before).store.Integral)
      (fun r hr => (hs.mem_iff_refers hl).mp (hrefs r hr)) hnodup
    have hout : x.changes before = changes := by
      rw [Step.changes, Journal.changes, hk.changes]
      exact (congrArg List.reverse (hchanges.trans (List.append_nil _))).trans
        (List.reverse_reverse changes)
    rw [hout]
    refine (List.filter_congr fun e he => ?_) ▸ htold
    rw [decide_eq_decide, ← hk.equates, hequates, List.mem_filter, decide_eq_true_eq]
    exact not_congr (and_iff_right he)

/-- Two equates at one place, of which the first is used elsewhere, too. -/
def sharedPlace : Table :=
  play (Table.opened 1 0 .none none none)
    [⟨{}, .define "one" 1⟩, ⟨{}, .define "two" 2⟩, ⟨{}, .attach 1 ⟨0, 16⟩ 0 0⟩,
      ⟨{}, .attach 2 ⟨0, 16⟩ 1 0⟩, ⟨{}, .attach 1 ⟨1, 8⟩ 0 0⟩]

theorem reached_sharedPlace : Reached sharedPlace :=
  ⟨.none, FaultPlan.loud_none, 1, 0, none, none, _, rfl⟩

theorem standFor_sharedPlace : sharedPlace.references.StandFor
    [⟨1, ⟨0, 16⟩, 0, 0, 1⟩, ⟨2, ⟨0, 16⟩, 1, 0, 2⟩, ⟨3, ⟨1, 8⟩, 0, 0, 1⟩] := by
  rw [ReferenceRows.StandFor]
  decide +kernel

/-- The place, and all that follows in its space. -/
def restOfSpace : AddressRange := ⟨⟨0, 16⟩, ⟨0, 0xFFFFFFFFFFFFFFFF⟩⟩

theorem clear_removes_range_sharedPlace :
    let before := { sharedPlace with plan := .none }
    let x := Step.clear {} restOfSpace
    Reached sharedPlace ∧ (∀ n, x.monitor.asks n = false) ∧ x.answer before = .outcome .completed ∧
      (x.behind before).references.StandFor [⟨3, ⟨1, 8⟩, 0, 0, 1⟩] ∧
      (x.behind before).equates.toList = [⟨1, "one", 1⟩] := by
  intro before x
  have hm : ∀ n, x.monitor.asks n = false := fun n => Monitor.asks_eq _ n
  obtain ⟨l, hl, hr, hleft, hequates, -⟩ :=
    clear_removes_range reached_sharedPlace restOfSpace hm
  obtain rfl := hl.unique standFor_sharedPlace
  refine ⟨reached_sharedPlace, hm, hr, hleft, hequates.trans ?_⟩
  decide +kernel

/-- Behind every session, a clearing of a range with a mappable address, whose monitor lets `p`
polls pass, spends one on each of the `n` places of its range and one on their end; of the
references there it removes as many of the first ones as polls are left, with the equates that
lose their last reference.  A second clearing that is not asked to stop then leaves just what a
single one would have left. -/
theorem clear_stops_cleanly {t : Table} (ht : Reached t) {range : AddressRange} {a : Address}
    (ha : a.Mappable) (hin : a ∈ range) {monitor : Monitor} {p : Nat}
    (hm : ∀ i, monitor.asks i = decide (p ≤ i)) :
    let before := { t with plan := .none }
    let x := Step.clear monitor range
    ∃ l, before.references.StandFor l ∧
      let doomed := l.filter (·.address ∈ range)
      let n := (Reference.places doomed).length
      let m := doomed.length
      let removed := (Reference.inOrder doomed).take (min m (p - (n + 1)))
      x.answer before = .outcome (if n + 1 + m ≤ p then .completed else .cancelled) ∧
      (x.behind before).references.StandFor (l.filter (· ∉ removed)) ∧
      (x.behind before).equates.toList = before.equates.toList.filter (fun e : Equate =>
        (∀ r ∈ removed, r.equate ≠ e.id) ∨ ∃ r ∈ l, r ∉ removed ∧ r.equate = e.id) ∧
      ∀ rest whole : Monitor, (∀ i, rest.asks i = false) → (∀ i, whole.asks i = false) →
        let resumed := (Step.clear rest range).behind (x.behind before)
        let single := (Step.clear whole range).behind before
        resumed.references = single.references ∧ resumed.equates = single.equates := by
  intro before x
  have hbefore : before.Sound := ht.sound.equip FaultPlan.loud_none _ _
  obtain ⟨l, hl⟩ := hbefore.store.exists_standFor
  have hs : (x.start before).store.Sound := (x.sound_start hbefore).store
  have hids := hs.sorted_of_standFor hl
  refine ⟨l, hl, ?_⟩
  intro doomed n m removed
  obtain ⟨hr, hk⟩ := Step.clear_run hbefore rfl hl range monitor
  obtain ⟨hreach, hfinish⟩ := Monitor.reach_eq_min hm n m
  rw [hreach] at hk
  have hremoved : ∀ r ∈ removed, r ∈ l := fun r hr =>
    (List.mem_filter.mp (Reference.mem_inOrder.mp (List.mem_of_mem_take hr))).1
  have hnodup : removed.Pairwise (·.id ≠ ·.id) :=
    (Reference.nodup_range hids range).sublist (List.take_sublist _ _)
  have hleft : (x.behind before).references.StandFor (l.filter (· ∉ removed)) := by
    rw [hk.references]
    exact Store.standFor_after_sweep hs hl hremoved
  obtain ⟨key, hkey⟩ := Option.isSome_iff_exists.mp (Address.key?_isSome_iff.mpr ha)
  have hwindow := KeyWindow.between?_ne_none hkey hin
  refine ⟨hr.trans (congrArg _ (Outcome.ofWhole_congr ?_)), hleft, ?_,
    fun rest whole hrest hwhole => ?_⟩
  · rw [or_iff_right hwindow]
    exact hfinish
  · rw [hk.equates]
    exact Store.equates_after_sweep hs hl hremoved hnodup
  · obtain ⟨-, hsingle⟩ := Step.clear_run_of_never hbefore rfl hl range hwhole
    obtain ⟨-, hresumed⟩ := Step.clear_run_of_never hk.sound (hk.plan.trans rfl) hleft range hrest
    -- What is left of the range comes behind what has been removed of it.
    rw [Reference.inOrder_rest hids] at hresumed
    have hsame : (((Step.clear rest range).start (x.behind before)).store).SameRows
        ((x.start before).store.after (sweep removed)) := ⟨hk.equates, hk.references⟩
    have hrows := hsame.after (sweep ((Reference.inOrder doomed).drop (min m (p - (n + 1)))))
    rw [← Store.after_sweep_append, List.take_append_drop] at hrows
    exact ⟨hresumed.references.trans (hrows.2.trans hsingle.references.symm),
      hresumed.equates.trans (hrows.1.trans hsingle.equates.symm)⟩

/-- One place to find, one end of the range, one reference to remove. -/
def threePolls : Monitor := { allowance := some 3 }

theorem clear_stops_cleanly_sharedPlace :
    let before := { sharedPlace with plan := .none }
    let x := Step.clear threePolls restOfSpace
    let resumed := (Step.clear {} restOfSpace).behind (x.behind before)
    Reached sharedPlace ∧ Address.Mappable ⟨0, 16⟩ ∧ ⟨0, 16⟩ ∈ restOfSpace ∧
      (∀ i, threePolls.asks i = decide (3 ≤ i)) ∧ x.answer before = .outcome .cancelled ∧
      (x.behind before).references.StandFor
        [⟨2, ⟨0, 16⟩, 1, 0, 2⟩, ⟨3, ⟨1, 8⟩, 0, 0, 1⟩] ∧
      (x.behind before).equates.toList = [⟨1, "one", 1⟩, ⟨2, "two", 2⟩] ∧
      resumed.equates = ((Step.clear {} restOfSpace).behind before).equates := by
  intro before x resumed
  have hm : ∀ i, threePolls.asks i = decide (3 ≤ i) := fun i => by
    rw [Monitor.asks_eq]
    exact congrArg (fun n => decide (3 ≤ n)) (Nat.zero_add i)
  have hnever : ∀ i, Monitor.asks {} i = false := fun i => Monitor.asks_eq _ i
  have hmappable : Address.Mappable ⟨0, 16⟩ := by decide
  have hin : (⟨0, 16⟩ : Address) ∈ restOfSpace := by decide
  obtain ⟨l, hl, hr, hleft, hequates, hresume⟩ :=
    clear_stops_cleanly reached_sharedPlace hmappable hin hm
  obtain rfl := hl.unique standFor_sharedPlace
  refine ⟨reached_sharedPlace, hmappable, hin, hm, hr, hleft, hequates.trans ?_,
    (hresume {} {} hnever hnever).2⟩
  decide +kernel

end Session

end Equates

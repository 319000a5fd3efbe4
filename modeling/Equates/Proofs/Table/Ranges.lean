/-
How far a clearing and a move come.

Each goes through the referenced addresses of its window, and then through the references it
has found there, with one poll of the monitor before each step and one more at the end of
the window.  So a window with `n` addresses and `m` references takes `n + 1 + m` polls, and if
`g` of them pass and no storage call fails, the first `g - (n + 1)` references are dealt with
(`Table.clear_run`, `Table.relocate_run`).  Where a call fails, a move has still dealt with the
first references of its window and with no other (`Table.move_first`).
-/
import Equates.Proofs.Shift
import Equates.Proofs.Sweep
import Equates.Proofs.Table.Requests
import Equates.Proofs.Table.Window

namespace Equates

open Attempt

/-- How an operation ends that takes all its steps or not. -/
def Outcome.ofWhole (whole : Prop) [Decidable whole] : Outcome :=
  if whole then .completed else .cancelled

theorem Outcome.ofWhole_congr {p q : Prop} [Decidable p] [Decidable q] (h : p ↔ q) :
    ofWhole p = ofWhole q := by
  simp only [ofWhole, h]

namespace Table

section gather

variable {α : Type} {visit : Address → Attempt (List α)} {found : Address → List α} {s : Store}
  (hvisit : ∀ a, Attempt.Enacts (visit a) s [] (.ok (found a))) {t : Table} (ht : t.Has s)
include hvisit ht

/-- The first phase of an operation on a range, which then has `k` references to go through. -/
theorem gather_ends (message : String) (w : KeyWindow) (k : Nat) :
    let n := (s.addressesAlong [w]).length
    ∃ r t',
      Attempt.on (Cursor.gather visit [w]) (Action.on (tellMonitor message) t).2 = (r, t') ∧
      t.Keeps s t' ∧
      (r = .ok none ∧ t.monitor.reach n k = 0 ∧ ¬ t.monitor.Finishes n k ∨
        r = .ok (some ((s.addressesAlong [w]).flatMap found)) ∧
          t.monitor.reach n k = t'.monitor.grants k ∧
          (t.monitor.Finishes n k ↔ t'.monitor.grants k = k) ∨
        ∃ d, r = .error d ∧ t'.Broke d) := by
  intro n
  have htell : t.Keeps s (Action.on (tellMonitor message) t).2 :=
    ⟨Has.of_store ht.store_sound ht.store ht.equateCache ht.referenceCache ht.sound.loud, rfl⟩
  rw [← t.monitor.reach_tell message, ← t.monitor.finishes_tell message,
    show t.monitor.tell message = (Action.on (tellMonitor message) t).2.monitor from rfl]
  generalize (Action.on (tellMonitor message) t).2 = t₁ at htell
  obtain ⟨hk, hr⟩ := Cursor.gather_on hvisit htell.toHas [w]
  rcases hrun : Attempt.on (Cursor.gather visit [w]) t₁ with ⟨r, t₂⟩
  rw [hrun] at hk hr
  refine ⟨r, t₂, rfl, htell.trans hk, ?_⟩
  obtain ⟨hr, hstop⟩ | ⟨hr, hpass⟩ | hbroke := hr
  · exact .inl ⟨hr, Monitor.reach_of_stop hstop k⟩
  · exact .inr (.inl ⟨hr, Monitor.reach_of_passes hpass k⟩)
  · exact .inr (.inr hbroke)

theorem gather_run (hp : t.plan = .none) (message : String) (w : KeyWindow) (k : Nat) :
    let n := (s.addressesAlong [w]).length
    ∃ r t',
      Attempt.on (Cursor.gather visit [w]) (Action.on (tellMonitor message) t).2 = (.ok r, t') ∧
      t.Keeps s t' ∧
      (r = none ∧ t.monitor.reach n k = 0 ∧ ¬ t.monitor.Finishes n k ∨
        r = some ((s.addressesAlong [w]).flatMap found) ∧
          t.monitor.reach n k = t'.monitor.grants k ∧
          (t.monitor.Finishes n k ↔ t'.monitor.grants k = k)) := by
  obtain ⟨r, t', hrun, hk, ⟨rfl, hr⟩ | ⟨rfl, hr⟩ | ⟨d, -, hbroke⟩⟩ :=
    gather_ends hvisit ht message w k
  · exact ⟨none, t', hrun, hk, .inl ⟨rfl, hr⟩⟩
  · exact ⟨_, t', hrun, hk, .inr ⟨rfl, hr⟩⟩
  · exact absurd hbroke (not_broke_of_none (hk.plan.trans hp) d)

end gather

/-- Before each step of the second phase the monitor is polled, and told how far things are. -/
theorem poll_cases {t : Table} {s : Store} (ht : t.Has s) (done total : Nat) :
    (Action.on poll t).1 = true ∧ t.Keeps s (Action.on poll t).2 ∧
        (∀ n, t.monitor.grants (n + 1) = 0) ∨
      (Action.on poll t).1 = false ∧
        ∃ t₁, (Action.on (advanceMonitor done total) (Action.on poll t).2).2 = t₁ ∧ t.Keeps s t₁ ∧
          ∀ n, t.monitor.grants (n + 1) = t₁.monitor.grants n + 1 := by
  have hpoll := ht.polled
  cases hstop : t.monitor.poll.1 with
  | true =>
    refine .inl ⟨hstop, hpoll, fun n => ?_⟩
    rw [Monitor.grants, if_pos hstop]
  | false =>
    refine .inr ⟨hstop, _, rfl, hpoll.trans (hpoll.toHas.advanced done total), fun n => ?_⟩
    have htold : ∀ n, (Action.on (advanceMonitor done total)
        (Action.on poll t).2).2.monitor.grants n = t.monitor.poll.2.grants n :=
      Monitor.grants_congr rfl rfl
    rw [Monitor.grants, hstop, if_neg Bool.false_ne_true, htold]

/-! ### Clearing -/

/-- One reference is removed, and the equate with it if it was the last one. -/
theorem removal_run {t : Table} {s : Store} (ht : t.Has s) (hp : t.plan = .none) (r : Reference) :
    ∃ t₁ t₂, Action.on (detach r).run t = (.ok (), t₁) ∧
      Action.on (prune r.equate).run t₁ = (.ok (), t₂) ∧
      t.Becomes (s.after (Effect.sweep [r])) t₂ := by
  obtain ⟨hr, hb⟩ := (detach_enacts s r t ht).run hp
  rcases hd : Attempt.on (detach r) t with ⟨res, t₁⟩
  rw [hd] at hr hb
  obtain rfl : res = .ok () := hr
  obtain ⟨hr', hb'⟩ := (prune_enacts _ r.equate t₁ hb.toHas).run (hb.frame.plan.trans hp)
  rcases hp : Attempt.on (prune r.equate) t₁ with ⟨res, t₂⟩
  rw [hp] at hr' hb'
  obtain rfl : res = .ok () := hr'
  exact ⟨t₁, t₂, hd, hp, hb.frame.becomes hb'⟩

/-- As many references are removed as polls pass. -/
theorem removeEach_run {t : Table} {s : Store} (ht : t.Has s) (hp : t.plan = .none)
    (total done : Nat) (refs : List Reference) :
    (Action.on (removeEach total done refs) t).1 = (done + t.monitor.grants refs.length,
        .ok (.ofWhole (t.monitor.grants refs.length = refs.length))) ∧
      t.Keeps (s.after (Effect.sweep (refs.take (t.monitor.grants refs.length))))
        (Action.on (removeEach total done refs) t).2 := by
  induction refs generalizing t s done with
  | nil => exact ⟨rfl, ht.advanced total total⟩
  | cons r refs ih =>
    rw [removeEach, Action.on_bind, List.length_cons]
    obtain ⟨hstop, hpoll, hgrants⟩ | ⟨hpass, t₁, heq, hkeeps, hgrants⟩ := poll_cases ht done total
    · rw [hstop, hgrants]
      exact ⟨rfl, hpoll⟩
    · rw [hpass, if_neg Bool.false_ne_true, Action.on_bind, heq, hgrants]
      obtain ⟨t₂, t₃, hd, hpr, hb⟩ := removal_run hkeeps.toHas (hkeeps.plan.trans hp) r
      obtain ⟨hr, hk⟩ := ih hb.toHas (hb.frame.plan.trans (hkeeps.plan.trans hp)) (done + 1)
      rw [hb.frame.monitor] at hr hk
      rw [Action.on_bind, hd, Action.on_bind, hpr]
      refine ⟨hr.trans ?_, (hkeeps.trans hb.keeps).trans hk⟩
      simp only [Nat.add_right_cancel_iff, Nat.add_assoc, Nat.add_comm 1]

theorem clearWindow_run {t : Table} {s : Store} (ht : t.Has s) (hp : t.plan = .none)
    (w : KeyWindow) :
    let refs := (s.addressesAlong [w]).flatMap s.referencesAt
    let n := (s.addressesAlong [w]).length
    (Action.on (clearWindow w) t).1.2 = .ok (.ofWhole (t.monitor.Finishes n refs.length)) ∧
      t.Keeps (s.after (Effect.sweep (refs.take (t.monitor.reach n refs.length))))
        (Action.on (clearWindow w) t).2 := by
  intro refs n
  obtain ⟨r, t₁, hrun, hk, hr⟩ := gather_run (fetchAt_enacts s) ht hp
    "Deleting equate references" w refs.length
  rw [clearWindow, Action.on_bind, Action.on_bind,
    show Action.on (Cursor.gather fetchAt [w]).run _ = (.ok r, t₁) from hrun]
  obtain ⟨rfl, hzero, hnot⟩ | ⟨rfl, hreach, hfinish⟩ := hr
  · rw [hzero, Outcome.ofWhole, if_neg hnot]
    exact ⟨rfl, hk⟩
  · obtain ⟨hr, hk'⟩ := removeEach_run hk.toHas (hk.plan.trans hp) refs.length 0 refs
    rw [hreach]
    refine ⟨(congrArg Prod.snd hr).trans ?_, hk.trans hk'⟩
    exact congrArg _ (Outcome.ofWhole_congr hfinish.symm)

/-- A clearing removes as many of the references of its range as it comes to, by address and by
key. -/
theorem clear_run {t : Table} (ht : t.Sound) (hp : t.plan = .none) {l : List Reference}
    (hl : t.references.StandFor l) (range : AddressRange) :
    let doomed := l.filter (·.address ∈ range)
    let n := (Reference.places doomed).length
    (Action.on (clear range.min range.max) t).1 = .ofWhole
        (KeyWindow.between? range.min range.max = none ∨ t.monitor.Finishes n doomed.length) ∧
      t.Keeps (t.store.after (Effect.sweep
          ((Reference.inOrder doomed).take (t.monitor.reach n doomed.length))))
        (Action.on (clear range.min range.max) t).2 := by
  intro doomed n
  have hs := ht.store
  rw [clear]
  cases hw : KeyWindow.between? range.min range.max with
  | none =>
    have hnil : doomed = [] := hs.filter_eq_nil_of_between? hl hw
    rw [hnil, show Reference.inOrder [] = [] from rfl, List.take_nil, Outcome.ofWhole,
      if_pos (.inl rfl)]
    exact ⟨rfl, ht.has.becomes.keeps⟩
  | some w =>
    have hrefs := hs.window_eq hl hw
    have hlength : (Reference.inOrder doomed).length = doomed.length := Reference.length_inOrder _
    obtain ⟨hr, hk⟩ := clearWindow_run ht.has hp w
    rw [hrefs, hs.length_addressesAlong hl hw, hlength] at hr hk
    rw [Action.on_bind]
    rcases hrun : Action.on (clearWindow w) t with ⟨⟨removed, r⟩, t₁⟩
    rw [hrun] at hr hk
    obtain rfl : r = _ := hr
    refine ⟨Outcome.ofWhole_congr ?_, hk.trans (hk.toHas.traced _).keeps⟩
    exact (or_iff_right (by rintro ⟨⟩)).symm

/-! ### Moving -/

section moving

variable {source target : Address}

/-- As many rows are moved as polls pass; fewer, and still the first ones, if a call fails. -/
theorem moveEach_ends {t : Table} {s : Store} (ht : t.Has s) (total done : Nat)
    {rows : List ReferenceRow}
    (hrows : ∀ row ∈ rows, row ∈ s.references ∧ row.Movable source target)
    (hnodup : rows.Pairwise (·.id ≠ ·.id)) :
    let p := Attempt.on (moveEach source target total done rows) t
    ∃ k, t.Keeps (s.after (Effect.shift source target (rows.take k))) p.2 ∧
      (p.1 = .ok (.ofWhole (t.monitor.grants rows.length = rows.length)) ∧
          k = t.monitor.grants rows.length ∨
        ∃ d, p.1 = .error d ∧ p.2.Broke d) := by
  induction rows generalizing t s done with
  | nil => exact ⟨0, ht.advanced total total, .inl ⟨rfl, rfl⟩⟩
  | cons row rows ih =>
    obtain ⟨⟨hrow, hmove⟩, hrest⟩ := List.forall_mem_cons.mp hrows
    obtain ⟨hne, hnodup⟩ := List.pairwise_cons.mp hnodup
    rw [moveEach, on_lift_bind, List.length_cons]
    obtain ⟨hstop, hpoll, hgrants⟩ | ⟨hpass, t₁, heq, hkeeps, hgrants⟩ := poll_cases ht done total
    · rw [hstop, hgrants]
      exact ⟨0, hpoll, .inl ⟨rfl, rfl⟩⟩
    · rw [hpass, if_neg Bool.false_ne_true, on_lift_bind, heq, hgrants, on_bind]
      obtain ⟨a, ha, hk⟩ := hmove.shiftedKey
      have hends := moveRow_enacts hrow ha hk t₁ hkeeps.toHas
      rcases hrun : Attempt.on (moveRow source target row) t₁ with ⟨r, t₂⟩
      rw [Attempt.Ends, hrun] at hends
      obtain ⟨hr, hb⟩ | ⟨d, u, hr, ⟨l', hl', rfl⟩, hb, hbroke⟩ := hends
      · obtain rfl : r = .ok () := hr
        obtain ⟨k, hk, hr⟩ := ih hb.toHas (done + 1) (fun row' hrow' =>
          ⟨hmove.mem_apply_rekey hrow (hrest row' hrow').1 (hne row' hrow'),
            (hrest row' hrow').2⟩) hnodup
        rw [hb.frame.monitor] at hr
        refine ⟨k + 1, (hkeeps.trans hb.keeps).trans hk,
          hr.imp_left (And.imp (fun hr => hr.trans ?_) (congrArg (· + 1)))⟩
        simp only [Nat.add_right_cancel_iff]
      · obtain rfl : r = .error d := hr
        -- The call for the row is made before it fails, or it is not.
        obtain rfl | rfl : l' = [] ∨ l' = Effect.shift source target [row] := by
          obtain _ | ⟨x, l'⟩ := l'
          · exact .inl rfl
          · obtain ⟨rfl, hnil⟩ := List.cons_prefix_cons.mp hl'
            rw [List.prefix_nil.mp hnil]
            exact .inr rfl
        · exact ⟨0, hkeeps.trans hb.keeps, .inr ⟨d, rfl, hbroke⟩⟩
        · exact ⟨1, hkeeps.trans hb.keeps, .inr ⟨d, rfl, hbroke⟩⟩

/-- The rows at an address have the keys of the references there. -/
theorem map_id_rowsAt {s : Store} (hs : s.Sound) (a : Address) :
    (rowsAt s a).map ReferenceRow.id = (s.referencesAt a).map Reference.id := by
  rw [rowsAt, Store.referencesAt, List.map_filterMap, List.map_filterMap]
  refine List.filterMap_congr fun k _ => ?_
  rw [Store.reference?]
  cases hget : s.references.get? k with
  | none => rfl
  | some row =>
    obtain ⟨r, hr⟩ := hs.decode (hs.references.mem_of_get? hget)
    rw [Option.bind_some, hr]
    exact congrArg some (ReferenceRow.decode_eq_ok_iff.mp hr).2.1.symm

theorem moveWindow_ends {t : Table} {s : Store} (ht : t.Has s) {w : KeyWindow}
    (hmove : ∀ row ∈ (s.addressesAlong [w]).flatMap (rowsAt s),
      row ∈ s.references ∧ row.Movable source target) :
    let refs := (s.addressesAlong [w]).flatMap s.referencesAt
    let n := (s.addressesAlong [w]).length
    let p := Attempt.on (moveWindow source target w) t
    ∃ k s', s.Translated source target ((refs.take k).map Reference.id) s' ∧ t.Keeps s' p.2 ∧
      (p.1 = .ok (.ofWhole (t.monitor.Finishes n refs.length)) ∧
          k = t.monitor.reach n refs.length ∨
        ∃ d, p.1 = .error d ∧ p.2.Broke d) := by
  intro refs n
  have hs := ht.store_sound
  obtain ⟨r, t₁, hrun, hk, hr⟩ := gather_ends (visitRows_enacts s) ht
    "Moving equate references" w refs.length
  rw [moveWindow, on_lift_bind, on_bind, hrun]
  obtain ⟨rfl, hzero, hnot⟩ | ⟨rfl, hreach, hfinish⟩ | ⟨d, rfl, hbroke⟩ := hr
  · refine ⟨0, s, Store.translated_nil hs, hk, .inl ⟨?_, hzero.symm⟩⟩
    rw [Outcome.ofWhole, if_neg hnot]
    rfl
  · have hids : ((s.addressesAlong [w]).flatMap (rowsAt s)).map ReferenceRow.id =
        refs.map Reference.id := by
      rw [List.map_flatMap, List.map_flatMap]
      exact congrArg (List.flatMap · _) (funext (map_id_rowsAt hs))
    have hlength : ((s.addressesAlong [w]).flatMap (rowsAt s)).length = refs.length := by
      rw [← List.length_map ReferenceRow.id, hids, List.length_map]
    have hnodup := nodup_rows_window hs w
    generalize (s.addressesAlong [w]).flatMap (rowsAt s) = rows at hmove hids hlength hnodup ⊢
    obtain ⟨k, hk', hr⟩ := moveEach_ends hk.toHas rows.length 0 hmove hnodup
    dsimp only
    rw [hlength] at hr hk' ⊢
    refine ⟨k, _, ?_, hk.trans hk', hr.imp_left (And.imp (fun hr => hr.trans ?_)
      (·.trans hreach.symm))⟩
    · rw [List.map_take, ← hids, ← List.map_take]
      exact Store.translated_after_shift hs
        (fun row hrow => hmove row (List.mem_of_mem_take hrow))
        (hnodup.sublist (List.take_sublist _ _))
    · exact congrArg _ (Outcome.ofWhole_congr hfinish.symm)
  · exact ⟨0, s, Store.translated_nil hs, hk, .inr ⟨d, rfl, hbroke⟩⟩

theorem relocate_zero (t : Table) :
    Attempt.on (relocate source target 0) t = (.ok .completed, t) := by
  rw [relocate, if_pos rfl]
  rfl

variable {length : UInt64} (hlength : length ≠ 0)
include hlength

theorem relocate_wraps (hwraps : lastOffset - target.offset < length - 1) (t : Table) :
    Attempt.on (relocate source target length) t =
      (.error Problem.destinationWraps.diagnostic, t) := by
  rw [relocate, if_neg hlength, checkDestination, if_pos hwraps]
  rfl

theorem relocate_unmappable (hfit : ¬ lastOffset - target.offset < length - 1)
    (hm : ¬ (target.Mappable ∧ (lastOf target length).Mappable)) (t : Table) :
    Attempt.on (relocate source target length) t =
      (.error (Problem.destinationUnmappable target).diagnostic, t) := by
  rw [relocate, if_neg hlength, checkDestination, if_neg hfit, if_neg hm]
  rfl

omit hlength

/-- The references of the source window of a move. -/
def moving (source : Address) (length : UInt64) (l : List Reference) : List Reference :=
  l.filter (·.address ∈ (⟨source, lastOf source length⟩ : AddressRange))

/-- A move that started on `t`, where the references `l` were stored, has given the first `k` of
those in its source window, by address and by key, a new address. -/
def MovesFirst (t : Table) (source target : Address) (length : UInt64) (l : List Reference)
    (k : Nat) (t' : Table) : Prop :=
  ∃ s', t.store.Translated source target
    (((Reference.inOrder (moving source length l)).take k).map Reference.id) s' ∧ t.Keeps s' t'

/-- A move that started on `t`, where the references `l` were stored, has given as many of those in
its source window a new address as it has come to, by address and by key. -/
structure Relocates (t : Table) (source target : Address) (length : UInt64) (l : List Reference)
    (p : Except Diagnostic Outcome × Table) : Prop where
  outcome : p.1 = .ok (.ofWhole (KeyWindow.between? source (lastOf source length) = none ∨
    t.monitor.Finishes (Reference.places (moving source length l)).length
      (moving source length l).length))
  shifts : ∃ s', t.store.Translated source target
      (((Reference.inOrder (moving source length l)).take
        (t.monitor.reach (Reference.places (moving source length l)).length
          (moving source length l).length)).map Reference.id) s' ∧
    t.Keeps s' p.2

variable (hfit : ¬ lastOffset - target.offset < length - 1)
  (hm : target.Mappable ∧ (lastOf target length).Mappable) {t : Table} (ht : t.Sound)
  (hp : t.plan = .none) {l : List Reference} (hl : t.references.StandFor l)
include hlength hfit hm ht hp hl

omit hp in
/-- A move comes to as many references as polls pass, or to fewer if a call fails. -/
theorem relocate_ends :
    let n := (Reference.places (moving source length l)).length
    let m := (moving source length l).length
    let p := Attempt.on (relocate source target length) t
    ∃ k, t.MovesFirst source target length l k p.2 ∧
      (p.1 = .ok (.ofWhole (KeyWindow.between? source (lastOf source length) = none ∨
          t.monitor.Finishes n m)) ∧ k = t.monitor.reach n m ∨
        ∃ d, p.1 = .error d ∧ p.2.Broke d) := by
  intro n m
  have hs := ht.store
  have hcheck : Attempt.on (checkDestination target length) t = (.ok (), t) := by
    rw [checkDestination, if_neg hfit, if_pos hm]
    rfl
  rw [relocate, if_neg hlength, on_bind_ok hcheck, on_lift_bind]
  have hdrop : t.Keeps t.store (Action.on dropReferenceCache t).2 :=
    ht.keeps_of_same rfl ht.equateCache (t.referenceCache.agrees_clear _) rfl
  have hmonitor : (Action.on dropReferenceCache t).2.monitor = t.monitor := rfl
  generalize (Action.on dropReferenceCache t).2 = t₁ at hdrop hmonitor
  cases hw : KeyWindow.between? source (lastOf source length) with
  | none =>
    have hnil : moving source length l = [] := hs.filter_eq_nil_of_between? hl hw
    refine ⟨t.monitor.reach n m, ⟨t.store, ?_, hdrop⟩, .inl ⟨?_, rfl⟩⟩
    · rw [hnil, show Reference.inOrder [] = [] from rfl, List.take_nil]
      exact Store.translated_nil hs
    · rw [Outcome.ofWhole, if_pos (.inl rfl)]
      rfl
  | some w =>
    have hmovable : ∀ row ∈ (t.store.addressesAlong [w]).flatMap (rowsAt t.store),
        row ∈ t.store.references ∧ row.Movable source target := fun row hrow => by
      obtain ⟨hmem, a, ha, hin⟩ := between_of_mem_rows hs hw hrow
      obtain ⟨k, hk⟩ := exists_key?_translate hlength hfit hm.2 hin
      exact ⟨hmem, a, k, ha, hk⟩
    have hmoves := moveWindow_ends hdrop.toHas hmovable
    have hwindow : (t.store.addressesAlong [w]).flatMap t.store.referencesAt =
        Reference.inOrder (moving source length l) := hs.window_eq hl hw
    have hplaces : (t.store.addressesAlong [w]).length = n := hs.length_addressesAlong hl hw
    rw [hmonitor, hwindow, hplaces] at hmoves
    dsimp only at hmoves
    rw [Reference.length_inOrder] at hmoves
    obtain ⟨k, s', hshift, hk, hr⟩ := hmoves
    refine ⟨k, ⟨s', hshift, hdrop.trans hk⟩, hr.imp_left (And.imp_left fun hr => hr.trans ?_)⟩
    exact congrArg _ (Outcome.ofWhole_congr (or_iff_right (by rintro ⟨⟩)).symm)

theorem relocate_run : t.Relocates source target length l
    (Attempt.on (relocate source target length) t) := by
  obtain ⟨k, hfirst, ⟨hr, rfl⟩ | ⟨d, -, hbroke⟩⟩ := relocate_ends hlength hfit hm ht hl
  · exact ⟨hr, hfirst⟩
  · obtain ⟨s', -, hk⟩ := hfirst
    exact absurd hbroke (not_broke_of_none (hk.plan.trans hp) d)

/-- A move makes itself known in no other way than by its trace. -/
theorem move_run : t.Relocates source target length l
    (Attempt.on (move source target length) t) := by
  rw [move, on_lift_bind]
  have hdrop : t.Keeps t.store (Action.on dropEquateCache t).2 :=
    ht.keeps_of_same rfl (t.equateCache.agrees_clear _) ht.referenceCache rfl
  have hmonitor : (Action.on dropEquateCache t).2.monitor = t.monitor := rfl
  generalize (Action.on dropEquateCache t).2 = t₁ at hdrop hmonitor
  obtain ⟨hr, s', hshift, hk⟩ := relocate_run hlength hfit hm hdrop.sound (hdrop.plan.trans hp)
    (hdrop.references ▸ hl : t₁.references.StandFor l)
  rw [hmonitor] at hr hshift
  rw [hdrop.store] at hshift
  rcases hrun : Attempt.on (relocate source target length) t₁ with ⟨r, t₂⟩
  rw [hrun] at hr hk
  obtain rfl : r = .ok _ := hr
  rw [on_bind_ok (on_tryCatch_ok hrun _), on_lift_bind]
  exact ⟨rfl, s', hshift, hdrop.trans (hk.trans (hk.toHas.traced _).keeps)⟩

end moving

/-! ### Moves that are cut short -/

/-- A destination of `length` addresses that is there as a whole. -/
structure Receives (target : Address) (length : UInt64) : Prop where
  length_ne : length ≠ 0
  fits : ¬ lastOffset - target.offset < length - 1
  mappable : target.Mappable ∧ (lastOf target length).Mappable

/-- Nothing is moved to a destination that is not there as a whole. -/
theorem relocate_cases (source target : Address) (length : UInt64) :
    Receives target length ∨ ∀ t, (Attempt.on (relocate source target length) t).2 = t := by
  by_cases hlength : length = 0
  · exact .inr fun t => hlength ▸ congrArg Prod.snd (relocate_zero t)
  by_cases hfit : lastOffset - target.offset < length - 1
  · exact .inr fun t => congrArg Prod.snd (relocate_wraps hlength hfit t)
  by_cases hm : target.Mappable ∧ (lastOf target length).Mappable
  · exact .inl ⟨hlength, hfit, hm⟩
  · exact .inr fun t => congrArg Prod.snd (relocate_unmappable hlength hfit hm t)

/-- However it ends, a move leaves what its references are left as. -/
theorem move_keeps {t : Table} (ht : t.Sound) (source target : Address) (length : UInt64) :
    ∃ t₁, t.Keeps t.store t₁ ∧ ∀ s',
      t₁.Keeps s' (Attempt.on (relocate source target length) t₁).2 →
        t.Keeps s' (Attempt.on (move source target length) t).2 := by
  have hdrop : t.Keeps t.store (Action.on dropEquateCache t).2 :=
    ht.keeps_of_same rfl (t.equateCache.agrees_clear _) ht.referenceCache rfl
  refine ⟨_, hdrop, fun s' hk => ?_⟩
  have hk := hdrop.trans hk
  rw [move, on_lift_bind, on_bind, on_tryCatch]
  rcases hrun : Attempt.on (relocate source target length) (Action.on dropEquateCache t).2 with
    ⟨d | outcome, t₂⟩
  all_goals rw [hrun] at hk
  · dsimp only
    -- A diagnostic that is no storage failure ends the move; any other one is reported.
    cases hd : d.isStorageFailure with
    | false => exact hk
    | true =>
      have hreport := (hk.toHas.reported d).keeps
      exact (hk.trans hreport).trans (hreport.toHas.traced _).keeps
  · exact hk.trans (hk.toHas.traced _).keeps

/-- Whatever stops it, a move has moved the first references of its window. -/
theorem move_first {t : Table} (ht : t.Sound) (source target : Address) (length : UInt64)
    {l : List Reference} (hl : t.references.StandFor l) :
    ∃ k, t.MovesFirst source target length l k (Attempt.on (move source target length) t).2 ∧
      (k = 0 ∨ Receives target length) := by
  obtain ⟨t₁, hdrop, hkeeps⟩ := move_keeps ht source target length
  obtain hto | hrefused := relocate_cases source target length
  · obtain ⟨k, ⟨s', hshift, hk⟩, -⟩ := relocate_ends hto.length_ne hto.fits hto.mappable hdrop.sound
      (hdrop.references ▸ hl : t₁.references.StandFor l)
    rw [hdrop.store] at hshift
    exact ⟨k, ⟨s', hshift, hkeeps s' hk⟩, .inr hto⟩
  · refine ⟨0, ⟨t.store, Store.translated_nil ht.store, hkeeps _ ?_⟩, .inl rfl⟩
    rw [hrefused]
    exact hdrop.toHas.becomes.keeps

end Table

end Equates

/-
What a cursor comes to.

The addresses along a cursor (`Store.addressesAlong`) are those of the stored
references in its windows, in order.  While the store stays the same, a cursor comes to
just these (`Cursor.next_on`), and gathering joins what a visitor finds there
(`Cursor.gather_on`), unless a storage call fails or the monitor asks to stop.
-/
import Equates.Table.Walk
import Equates.Proofs.Address.Window
import Equates.Proofs.Monitor
import Equates.Proofs.Table.Enacts

namespace Equates

open Attempt

/-- `t'` is a sound table with the store `s` and the same storage behind it; its monitor
may have been polled. -/
structure Table.Keeps (t : Table) (s : Store) (t' : Table) : Prop extends Table.Has t' s where
  plan : t'.plan = t.plan

theorem Table.Becomes.keeps {t t' : Table} {s : Store} (h : t.Becomes s t') : t.Keeps s t' :=
  ⟨h.toHas, h.frame.plan⟩

theorem Table.Keeps.trans {t t₁ t₂ : Table} {s s' : Store} (h : t.Keeps s t₁)
    (h' : t₁.Keeps s' t₂) : t.Keeps s' t₂ :=
  ⟨h'.toHas, h'.plan.trans h.plan⟩

theorem Table.Has.polled {t : Table} {s : Store} (h : t.Has s) :
    t.Keeps s (Action.on poll t).2 :=
  ⟨Table.Has.of_store h.store_sound h.store h.equateCache h.referenceCache h.sound.loud, rfl⟩

theorem Table.Has.advanced {t : Table} {s : Store} (h : t.Has s) (done total : Nat) :
    t.Keeps s (Action.on (advanceMonitor done total) t).2 :=
  ⟨Table.Has.of_store h.store_sound h.store h.equateCache h.referenceCache h.sound.loud, rfl⟩

/-- Every window ends before the next one begins. -/
def Cursor.Ascending (c : Cursor) : Prop :=
  c.Pairwise (·.last < ·.first)

namespace Store

/-- The keys of the referenced addresses in the windows of the cursor. -/
def keysAlong (s : Store) (c : Cursor) : List Int :=
  c.flatMap s.references.byAddress.valuesIn

/-- The referenced addresses in the windows of the cursor. -/
def addressesAlong (s : Store) (c : Cursor) : List Address :=
  (s.keysAlong c).filterMap Address.ofKey?

theorem mem_keysAlong {s : Store} (hs : s.Sound) {c : Cursor} {k : Int} :
    k ∈ s.keysAlong c ↔ (∃ row ∈ s.references, row.addressKey = k) ∧ ∃ w ∈ c, k ∈ w := by
  have hvalues : k ∈ s.references.byAddress.values ↔ ∃ row ∈ s.references, row.addressKey = k := by
    rw [hs.references.byAddress.mem_values]
    constructor
    · rintro ⟨id, hid⟩
      obtain ⟨row, hrow, hk⟩ := Option.map_eq_some_iff.mp hid
      exact ⟨row, hs.references.mem_of_get? hrow, hk⟩
    · rintro ⟨row, hrow, hk⟩
      exact ⟨row.id, Option.map_eq_some_iff.mpr ⟨row, hrow, hk⟩⟩
  rw [keysAlong, List.mem_flatMap, ← hvalues]
  constructor
  · rintro ⟨w, hw, hk⟩
    obtain ⟨hv, hkw⟩ := List.mem_filter.mp hk
    exact ⟨hv, w, hw, by simpa using hkw⟩
  · rintro ⟨hv, w, hw, hkw⟩
    exact ⟨w, hw, List.mem_filter.mpr ⟨hv, by simpa using hkw⟩⟩

/-- Every key along a cursor is the key of an address. -/
theorem ofKey?_of_mem_keysAlong {s : Store} (hs : s.Sound) {c : Cursor} {k : Int}
    (hk : k ∈ s.keysAlong c) : ∃ a, Address.ofKey? k = some a := by
  obtain ⟨⟨row, hrow, rfl⟩, -⟩ := (mem_keysAlong hs).mp hk
  exact hs.placed row hrow

theorem mem_addressesAlong {s : Store} (hs : s.Sound) {c : Cursor} {a : Address} :
    a ∈ s.addressesAlong c ↔
      ∃ k, a.key? = some k ∧ (∃ row ∈ s.references, row.addressKey = k) ∧ ∃ w ∈ c, k ∈ w := by
  rw [addressesAlong, List.mem_filterMap]
  constructor
  · rintro ⟨k, hk, ha⟩
    exact ⟨k, Address.key?_of_ofKey? ha, (mem_keysAlong hs).mp hk⟩
  · rintro ⟨k, ha, hk⟩
    exact ⟨k, (mem_keysAlong hs).mpr hk, Address.ofKey?_of_key? ha⟩

/-- Windows that stand in order come to their addresses in order. -/
theorem sorted_addressesAlong (s : Store) {c : Cursor} (hc : c.Ascending) :
    (s.addressesAlong c).Pairwise (· < ·) := by
  have hkeys : (s.keysAlong c).Pairwise (· < ·) := by
    refine List.pairwise_flatMap.mpr
      ⟨fun w _ => s.references.byAddress.values_sorted.filter _, hc.imp fun hlt k hk k' hk' => ?_⟩
    have hlast : k ∈ _ := of_decide_eq_true (List.mem_filter.mp hk).2
    have hfirst : k' ∈ _ := of_decide_eq_true (List.mem_filter.mp hk').2
    exact lt_of_le_of_lt hlast.2 (lt_of_lt_of_le hlt hfirst.1)
  refine hkeys.filterMap _ fun k k' hlt a ha a' ha' => ?_
  rw [← Address.not_le, ← Address.key?_le_iff (Address.key?_of_ofKey? ha')
    (Address.key?_of_ofKey? ha)]
  exact not_le.mpr hlt

theorem sorted_addressesAlong_window (s : Store) (w : KeyWindow) :
    (s.addressesAlong [w]).Pairwise (· < ·) :=
  s.sorted_addressesAlong (List.pairwise_singleton _ w)

/-- A single window comes to no address twice. -/
theorem nodup_addressesAlong (s : Store) (w : KeyWindow) :
    (s.addressesAlong [w]).Pairwise (· ≠ ·) :=
  (s.sorted_addressesAlong_window w).imp Address.ne_of_lt

end Store

namespace Cursor

theorem seek_enacts (s : Store) (w : KeyWindow) :
    Attempt.Enacts (seek w) s [] (.ok (s.references.firstAddressIn? w)) :=
  Table.queryReferences_enacts s .firstAddress none _

/-- What a step of a cursor comes to where no storage call fails. -/
inductive Steps (s : Store) (c : Cursor) : Except Diagnostic (Option Address) × Cursor → Prop where
  | found (a : Address) (c' : Cursor) (h : s.addressesAlong c = a :: s.addressesAlong c') :
      Steps s c (.ok (some a), c')
  | finished (h : s.addressesAlong c = []) : Steps s c (.ok none, [])

/-- A window without referenced addresses is passed over. -/
theorem Steps.skip {s : Store} {w : KeyWindow} {rest : Cursor}
    {r : Except Diagnostic (Option Address) × Cursor} (h : Steps s rest r)
    (hw : s.references.byAddress.valuesIn w = []) : Steps s (w :: rest) r := by
  have hsame : s.addressesAlong (w :: rest) = s.addressesAlong rest := by
    rw [Store.addressesAlong, Store.keysAlong, List.flatMap_cons, hw, List.nil_append]
    rfl
  cases h with
  | found a c' h => exact .found a c' (hsame.trans h)
  | finished h => exact .finished (hsame.trans h)

theorem next_on {s : Store} {t : Table} (ht : t.Has s) (c : Cursor) :
    t.Becomes s (Action.on (next c) t).2 ∧
      (Steps s c (Action.on (next c) t).1 ∨
        ∃ d c', (Action.on (next c) t).1 = (.error d, c') ∧ (Action.on (next c) t).2.Broke d) := by
  induction c generalizing t with
  | nil => exact ⟨ht.becomes, .inl (.finished rfl)⟩
  | cons w rest ih =>
    rw [next]
    by_cases hw : w.last < w.first
    · rw [if_pos hw]
      -- The window has been used up; nothing lies in it.
      have hempty : s.references.byAddress.valuesIn w = [] := by
        refine List.filter_eq_nil_iff.mpr fun v _ hv => ?_
        obtain ⟨h₁, h₂⟩ : v ∈ w := by simpa using hv
        exact absurd (le_trans h₁ h₂) (not_le.mpr hw)
      obtain ⟨hb, hs⟩ := ih ht
      exact ⟨hb, hs.imp_left fun h => h.skip hempty⟩
    · rw [if_neg hw, Action.on_bind, show Action.on (seek w).run t = Attempt.on (seek w) t from rfl]
      have hseek : Attempt.Ends (seek w) t (· = s) _ s := (seek_enacts s w).ends ht rfl
      obtain ⟨hr, hb⟩ | ⟨d, u, hr, rfl, hb, hbroke⟩ := hseek
      · rw [hr]
        cases hf : s.references.firstAddressIn? w with
        | none =>
          obtain ⟨hb', hs⟩ := ih hb.toHas
          exact ⟨hb.frame.becomes hb', hs.imp_left fun h => h.skip (Index.firstIn?_eq_none hf)⟩
        | some k =>
          obtain ⟨k, hk⟩ := k
          -- The key that was found comes first, and the narrowed window holds the rest.
          have hkeys : s.keysAlong (w :: rest) = k :: s.keysAlong (w.after k :: rest) := by
            rw [Store.keysAlong, Store.keysAlong, List.flatMap_cons, List.flatMap_cons,
              Index.firstIn?_eq_some hf, List.cons_append]
          obtain ⟨a, ha⟩ := Store.ofKey?_of_mem_keysAlong ht.store_sound
            (hkeys ▸ List.mem_cons_self : k ∈ s.keysAlong (w :: rest))
          dsimp only
          rw [ha]
          refine ⟨hb, .inl (.found a _ ?_)⟩
          rw [Store.addressesAlong, hkeys, List.filterMap_cons_some ha]
          rfl
      · rw [hr]
        exact ⟨hb, .inr ⟨d, w :: rest, rfl, hbroke⟩⟩

/-- Gathering, step by step. -/
theorem gather_eq {α : Type} (visit : Address → Attempt (List α)) (c : Cursor) :
    gather visit c = do
      if ← poll then
        return none
      match ← next c with
      | (.error d, _) => throw d
      | (.ok none, _) => return some []
      | (.ok (some a), c') => do
        let found ← visit a
        return (← gather visit c').map (found ++ ·) := by
  -- The definition matches on the results of runs, which its termination needs;
  -- here each match is turned back into a bind.
  conv_lhs => rw [gather]
  funext t
  show _ = Attempt.on _ t
  rw [on_lift_bind, show Action.on poll t = poll.run t from rfl]
  dsimp only [ExceptT.mk]
  rcases poll.run t with ⟨_ | _, t₁⟩
  · rw [if_neg Bool.false_ne_true]
    dsimp only
    rw [if_neg Bool.false_ne_true, on_lift_bind,
      show Action.on (next c) t₁ = (next c).run t₁ from rfl]
    split
    · next h =>
      rw [h]
      rfl
    · next h =>
      rw [h]
      rfl
    · next a c' t₂ h =>
      rw [h]
      dsimp only
      rw [on_bind]
      split
      · next h' => rw [show Attempt.on (visit a) t₂ = _ from h']
      · next h' =>
        rw [show Attempt.on (visit a) t₂ = _ from h']
        rfl
  · rfl

/-- Gathering collects what is found at the addresses along the cursor, unless the
monitor asks to stop or a storage call fails.  It polls the monitor once for each of these
addresses and once more at the end of the cursor. -/
theorem gather_on {α : Type} {visit : Address → Attempt (List α)} {found : Address → List α}
    {s : Store} (hvisit : ∀ a, Attempt.Enacts (visit a) s [] (.ok (found a))) {t : Table}
    (ht : t.Has s) (c : Cursor) :
    t.Keeps s (Attempt.on (gather visit c) t).2 ∧
      ((Attempt.on (gather visit c) t).1 = .ok none ∧
          t.monitor.grants ((s.addressesAlong c).length + 1) ≤ (s.addressesAlong c).length ∨
        (Attempt.on (gather visit c) t).1 = .ok (some ((s.addressesAlong c).flatMap found)) ∧
          t.monitor.Passes ((s.addressesAlong c).length + 1)
            (Attempt.on (gather visit c) t).2.monitor ∨
        ∃ d, (Attempt.on (gather visit c) t).1 = .error d ∧
          (Attempt.on (gather visit c) t).2.Broke d) := by
  -- A step narrows a window or drops it, so the induction is on the work left.
  -- Reading leaves the store alone, so what lies along the cursor stays fixed.
  induction hn : c.size using Nat.strong_induction_on generalizing c t with
  | _ n ih =>
    subst hn
    rw [gather_eq, on_lift_bind]
    have hkpoll := ht.polled
    cases hpoll : (Action.on poll t).1 with
    | true =>
      refine ⟨hkpoll, .inl ⟨rfl, ?_⟩⟩
      rw [Monitor.grants, show t.monitor.poll.1 = true from hpoll]
      exact Nat.zero_le _
    | false =>
      rw [if_neg Bool.false_ne_true, on_lift_bind]
      have hpass : t.monitor.Passes 1 (Action.on poll t).2.monitor := Monitor.passes_poll hpoll
      obtain ⟨hb, hsteps⟩ := next_on hkpoll.toHas c
      have hkeeps := hkpoll.trans hb.keeps
      have hmonitor := hb.frame.monitor
      rcases hrun : Action.on (next c) (Action.on poll t).2 with ⟨r, t₂⟩
      rw [hrun] at hb hsteps hkeeps hmonitor
      rw [← hmonitor] at hpass
      obtain hsteps | ⟨d, c', hr, hbroke⟩ := hsteps
      · cases hsteps with
        | finished h =>
          rw [h]
          exact ⟨hkeeps, .inr (.inl ⟨rfl, hpass⟩)⟩
        -- The visit and the rest of the cursor may each be cut short.
        | found a c' h =>
          have hlt : c'.size < c.size := size_next_lt hrun
          dsimp only
          rw [on_bind, h, List.flatMap_cons, List.length_cons]
          have hends : Attempt.Ends (visit a) t₂ (· = s) _ s := (hvisit a).ends hb.toHas rfl
          obtain ⟨hr, hb'⟩ | ⟨d, u, hr, rfl, hb', hbroke⟩ := hends
          · rcases hvrun : Attempt.on (visit a) t₂ with ⟨r', t₃⟩
            rw [hvrun] at hr hb'
            obtain rfl : r' = .ok (found a) := hr
            dsimp only
            rw [on_bind]
            obtain ⟨hk, hrest⟩ := ih _ hlt hb'.toHas c' rfl
            have hkeeps' := (hkeeps.trans hb'.keeps).trans hk
            rw [← hb'.frame.monitor] at hpass
            rcases hgrun : Attempt.on (gather visit c') t₃ with ⟨r'', t₄⟩
            rw [hgrun] at hrest hkeeps'
            obtain ⟨hr, hgrants⟩ | ⟨hr, hpasses⟩ | ⟨d, hr, hbroke⟩ := hrest
            · obtain rfl : r'' = _ := hr
              refine ⟨hkeeps', .inl ⟨rfl, ?_⟩⟩
              rw [Nat.add_comm _ 1, hpass, Nat.add_comm 1]
              exact Nat.succ_le_succ hgrants
            · obtain rfl : r'' = _ := hr
              refine ⟨hkeeps', .inr (.inl ⟨rfl, ?_⟩)⟩
              rw [Nat.add_comm _ 1]
              exact hpass.trans hpasses
            · obtain rfl : r'' = _ := hr
              exact ⟨hkeeps', .inr (.inr ⟨d, rfl, hbroke⟩)⟩
          · rcases hvrun : Attempt.on (visit a) t₂ with ⟨r', t₃⟩
            rw [hvrun] at hr hb' hbroke
            obtain rfl : r' = .error d := hr
            exact ⟨hkeeps.trans hb'.keeps, .inr (.inr ⟨d, rfl, hbroke⟩)⟩
      · obtain rfl : r = (.error d, c') := hr
        exact ⟨hkeeps, .inr (.inr ⟨d, rfl, hbroke⟩)⟩

end Cursor

namespace Walk

/-- A step of a walk leaves the stored part alone. -/
theorem next_keeps {s : Store} {t : Table} (ht : t.Has s) (w : Walk) :
    t.Keeps s (Action.on w.next t).2 := by
  rw [next]
  split
  · exact ht.becomes.keeps
  · rw [Action.on_bind]
    obtain ⟨hb, -⟩ := Cursor.next_on ht w.cursor
    rcases hrun : Action.on w.cursor.next t with ⟨⟨d | _ | a, c⟩, t₁⟩
    all_goals rw [hrun] at hb
    · exact hb.keeps.trans (hb.toHas.reported d).keeps
    · exact hb.keeps
    · exact hb.keeps

/-- Draining, step by step. -/
theorem drain_eq (w : Walk) :
    w.drain = do
      match ← w.next with
      | (none, w') => return ([], w')
      | (some a, w') => do
        let (l, w'') ← w'.drain
        return (a :: l, w'') := by
  funext t
  show w.drain t = Action.on _ t
  rw [drain, Action.on_bind, show Action.on w.next t = w.next.run t from rfl]
  split
  · next h =>
    rw [h]
    rfl
  · next h =>
    rw [h]
    rfl

theorem drain_keeps {s : Store} {t : Table} (ht : t.Has s) (w : Walk) :
    t.Keeps s (Action.on w.drain t).2 := by
  induction hn : w.cursor.size using Nat.strong_induction_on generalizing w t with
  | _ n ih =>
    subst hn
    rw [drain_eq, Action.on_bind]
    have hk := next_keeps ht w
    rcases hrun : Action.on w.next t with ⟨⟨_ | a, w'⟩, t₁⟩
    · rw [hrun] at hk
      exact hk
    · rw [hrun] at hk
      exact hk.trans (ih _ (size_next_lt hrun) hk.toHas w' rfl)

end Walk

end Equates

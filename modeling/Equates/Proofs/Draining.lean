/-
Draining a walk lists just the referenced addresses it was asked for.

A walk that is taken to its end without a break comes to the addresses along its cursor, each step
taking the first of those that are left (`Walk.drain_on`).  The windows of a cursor stand in order,
so these addresses ascend; and which of them are asked for is told by the key windows, whatever the
address that the walk starts at or the ranges of the set that it stays in.

* `Walk.Enumerates` — what a drained walk is to list;
* `Walk.drain_enumerates` — behind every session, each of the three kinds of walks does.
-/
import Equates.Proofs.Address.Contains
import Equates.Proofs.Walks

namespace Equates.Walk

open Attempt

section run

variable {s : Store} {t : Table} (ht : t.Has s) (hp : t.plan = .none) (c : Cursor)
include ht hp

/-- Where no storage call fails, a step comes to the first address along the cursor, or finds that
there is none. -/
theorem next_on :
    (∃ a c' t₁, Action.on (next ⟨c, false⟩) t = ((some a, ⟨c', false⟩), t₁) ∧ t.Becomes s t₁ ∧
        s.addressesAlong c = a :: s.addressesAlong c') ∨
      ∃ t₁, Action.on (next ⟨c, false⟩) t = ((none, ⟨[], true⟩), t₁) ∧ s.addressesAlong c = [] := by
  rw [next, if_neg Bool.false_ne_true, Action.on_bind]
  obtain ⟨hb, hsteps⟩ := Cursor.next_on ht c
  rcases hrun : Action.on c.next t with ⟨p, t₁⟩
  rw [hrun] at hb hsteps
  obtain hsteps | ⟨d, c', -, hbroke⟩ := hsteps
  · cases hsteps with
    | found a c' h => exact .inl ⟨a, c', t₁, rfl, hb, h⟩
    | finished h => exact .inr ⟨t₁, rfl, h⟩
  · exact absurd hbroke (Table.not_broke_of_none (hb.frame.plan.trans hp) d)

/-- A drained walk has come to all addresses along its cursor, and is at its end. -/
theorem drain_on :
    (Action.on (drain ⟨c, false⟩) t).1 = (s.addressesAlong c, ⟨[], true⟩) := by
  -- Each step leaves fewer keys, and the same store.
  induction hn : c.size using Nat.strong_induction_on generalizing c t with
  | _ n ih =>
    subst hn
    rw [drain_eq, Action.on_bind]
    obtain ⟨a, c', t₁, hrun, hb, h⟩ | ⟨t₁, hrun, h⟩ := next_on ht hp c
    · rw [hrun, h]
      dsimp only
      rw [Action.on_bind]
      have hrest := ih _ (size_next_lt hrun) hb.toHas (hb.frame.plan.trans hp) c' rfl
      rcases hdrain : Action.on (drain ⟨c', false⟩) t₁ with ⟨r, t₂⟩
      rw [hdrain] at hrest
      obtain rfl : r = _ := hrest
      rfl
    · rw [hrun, h]
      rfl

end run

/-- Drained on the table, the walk lists the addresses with `P` at which some reference stands, each
once and in ascending order, and comes to its end. -/
structure Enumerates (w : Walk) (t : Table) (P : Address → Prop) : Prop where
  ascending : (Action.on w.drain t).1.1.Pairwise (· < ·)
  mem_iff : ∀ a, a ∈ (Action.on w.drain t).1.1 ↔ t.Refers a ∧ P a
  ended : (Action.on w.drain t).1.2.ended = true
  unchanged : (Action.on w.drain t).2.store = t.store

/-- What a walk is asked for is told by the keys that its cursor covers. -/
theorem enumerates_of_covers {t : Table} (ht : t.Sound) (hp : t.plan = .none) {c : Cursor}
    (hc : c.Ascending) {P : Address → Prop}
    (hcovers : ∀ {a : Address} {k : Int}, a.key? = some k → (c.Covers k ↔ P a)) :
    Enumerates ⟨c, false⟩ t P := by
  have hdrain := drain_on ht.has hp c
  refine ⟨?_, fun a => ?_, ?_, (drain_keeps ht.has ⟨c, false⟩).store⟩
  · rw [hdrain]
    exact t.store.sorted_addressesAlong hc
  · rw [hdrain, Store.mem_addressesAlong ht.store]
    constructor
    · rintro ⟨k, hk, hrow, hcov⟩
      exact ⟨(refers_iff_of_key? ht.has hk).mpr hrow, (hcovers hk).mp hcov⟩
    · rintro ⟨hat, ha⟩
      -- An address that is referenced has a key.
      obtain ⟨id, row, -, hplace⟩ := id hat
      have hk := Address.key?_of_ofKey? hplace
      exact ⟨_, hk, (refers_iff_of_key? ht.has hk).mp hat, (hcovers hk).mpr ha⟩
  · rw [hdrain]

/-- Behind every session, with no storage call failing from then on and nothing done in between: a
drained walk over everything lists every address at which some reference stands, one that starts at
an address those from there on, and one in a set those in the set, with or without keys, whatever
was added to it. -/
theorem drain_enumerates {t : Table} (ht : Session.Reached t) :
    let now : Table := { t with plan := .none }
    Enumerates .all now (fun _ => True) ∧
      (∀ start : Address, Enumerates (.startingAt start) now (start ≤ ·)) ∧
      ∀ l : List AddressSet.Addition,
        Enumerates (.within (.built l)) now fun a => (AddressSet.built l).contains a = true := by
  intro now
  have hnow : now.Sound := ht.sound.equip FaultPlan.loud_none t.listing t.registry
  refine ⟨?_, fun start => ?_, fun l => ?_⟩
  · refine enumerates_of_covers hnow rfl Cursor.ascending_whole fun ha => ?_
    exact iff_of_true (Cursor.covers_whole ha) trivial
  · exact enumerates_of_covers hnow rfl (Cursor.ascending_startingAt start)
      (Cursor.covers_startingAt start)
  · have hnormal := AddressSet.normal_built l
    refine enumerates_of_covers hnow rfl (Cursor.ascending_keyWindows hnormal) fun ha => ?_
    exact (Cursor.covers_keyWindows _ ha).trans hnormal.contains_iff.symm

/-- References at the last place of one space and at the first place of the next, and one before
them. -/
def scattered : Table :=
  Session.play (Table.opened 1 0 .none none none)
    [⟨{}, .define "one" 1⟩, ⟨{}, .attach 1 ⟨1, 0⟩ 0 0⟩, ⟨{}, .attach 1 ⟨0, 16⟩ 0 0⟩,
      ⟨{}, .attach 1 ⟨0, 0xFFFFFFFFFFFF⟩ 0 0⟩]

/-- The second start lies behind the places of its space, and the set reaches over them. -/
theorem drain_enumerates_scattered :
    Session.Reached scattered ∧
      (Action.on (drain .all) { scattered with plan := .none }).1.1 =
        [⟨0, 16⟩, ⟨0, 0xFFFFFFFFFFFF⟩, ⟨1, 0⟩] ∧
      (Action.on (drain (.startingAt ⟨0, 0x1000000000000⟩))
        { scattered with plan := .none }).1.1 = [⟨1, 0⟩] ∧
      (∀ a, scattered.Refers a → ⟨0, 0x1000000000000⟩ ≤ a → a = ⟨1, 0⟩) ∧
      ∀ a ∈ (Action.on (drain (.within (.built [.range ⟨⟨0, 32⟩, ⟨0, Address.maxOffset⟩⟩])))
        { scattered with plan := .none }).1.1,
        (AddressSet.built [.range ⟨⟨0, 32⟩, ⟨0, Address.maxOffset⟩⟩]).contains a = true := by
  have ht : Session.Reached scattered := ⟨.none, FaultPlan.loud_none, 1, 0, none, none, _, rfl⟩
  obtain ⟨-, honward, hinside⟩ := drain_enumerates ht
  have hall : (Action.on (drain .all) { scattered with plan := .none }).1.1 =
      [⟨0, 16⟩, ⟨0, 0xFFFFFFFFFFFF⟩, ⟨1, 0⟩] := by
    decide +kernel
  have hlate : (Action.on (drain (.startingAt ⟨0, 0x1000000000000⟩))
      { scattered with plan := .none }).1.1 = [⟨1, 0⟩] := by
    decide +kernel
  refine ⟨ht, hall, hlate, fun a hat ha => ?_, fun a ha => ((hinside _).mem_iff a |>.mp ha).2⟩
  have hmem := ((honward _).mem_iff a).mpr ⟨hat, ha⟩
  rw [hlate] at hmem
  exact List.mem_singleton.mp hmem

end Equates.Walk

/-
Walks stay sound while the table changes under them.

A walk remembers the part of the key space that is left to it, and nothing about the table.
What is left is a list of windows, one behind the other (`Cursor.Ascending`).  A step that comes
to an address cuts off everything up to its key (`Cursor.covers_narrowed`), and the address is the
first referenced one in what was left (`Walk.next_cases`), whatever became of the table since the
step before.

* `Walk.Region` — what the three kinds of walks are asked to visit, apart from keys and windows;
* `Walk.tour` — the steps of a walk with any operations in between;
* `Walk.tour_sound` — the addresses ascend, each lies in the region and is referenced when the
  walk comes to it, none that stays referenced is left out, and the end is final.
-/
import Equates.Proofs.Address.Set
import Equates.Proofs.Failures

namespace Equates

open Attempt

namespace Cursor

/-- The key lies in what is left to visit. -/
def Covers (c : Cursor) (k : Int) : Prop :=
  ∃ w ∈ c, k ∈ w

@[simp] theorem covers_nil (k : Int) : ¬ Covers [] k := by
  simp [Covers]

@[simp] theorem covers_cons {w : KeyWindow} {rest : Cursor} {k : Int} :
    Covers (w :: rest) k ↔ k ∈ w ∨ Covers rest k := by
  simp [Covers]

theorem Ascending.lt_of_covers {w : KeyWindow} {rest : Cursor} (h : Ascending (w :: rest))
    {k : Int} (hk : Covers rest k) : w.last < k := by
  obtain ⟨v, hv, hkv⟩ := hk
  exact lt_of_lt_of_le ((List.pairwise_cons.mp h).1 v hv) hkv.1

/-- What is left behind the key `k`: the windows before it are passed over. -/
inductive Narrows (k : Int) : Cursor → Cursor → Prop where
  | here (w : KeyWindow) (rest : Cursor) (h : k ∈ w) : Narrows k (w :: rest) (w.after k :: rest)
  | skip (w : KeyWindow) {rest c' : Cursor} (h : Narrows k rest c') : Narrows k (w :: rest) c'

namespace Narrows

variable {k : Int} {c c' : Cursor} (h : Narrows k c c')
include h

theorem covers : c.Covers k := by
  induction h with
  | here w rest h => exact covers_cons.mpr (.inl h)
  | skip w h ih => exact covers_cons.mpr (.inr ih)

theorem ascending (hc : c.Ascending) : c'.Ascending := by
  induction h with
  | here w rest h =>
    obtain ⟨hlast, hrest⟩ := List.pairwise_cons.mp hc
    exact List.pairwise_cons.mpr ⟨hlast, hrest⟩
  | skip w h ih => exact ih (List.pairwise_cons.mp hc).2

/-- Just the keys behind `k` are left. -/
theorem covers_iff (hc : c.Ascending) {j : Int} : c'.Covers j ↔ c.Covers j ∧ k < j := by
  induction h with
  | here w rest h =>
    have hafter : j ∈ w.after k ↔ j ∈ w ∧ k < j := by
      show k + 1 ≤ j ∧ j ≤ w.last ↔ (w.first ≤ j ∧ j ≤ w.last) ∧ k < j
      have hfirst := h.1
      omega
    have hrest : Covers rest j → k < j := fun hj => lt_of_le_of_lt h.2 (hc.lt_of_covers hj)
    rw [covers_cons, covers_cons, hafter]
    tauto
  | skip w h ih =>
    rw [ih (List.pairwise_cons.mp hc).2, covers_cons]
    -- The window that was passed over ends before the key.
    have hw : j ∈ w → ¬ k < j := fun hj => by
      have hlast := hc.lt_of_covers h.covers
      have hle := hj.2
      omega
    tauto

end Narrows

/-- A step to an address goes to a key in what was left. -/
theorem narrows_of_next {c c' : Cursor} {t : Table} {a : Address}
    (h : (Action.on (next c) t).1 = (.ok (some a), c')) :
    ∃ k, Address.ofKey? k = some a ∧ Narrows k c c' := by
  induction c generalizing t with
  | nil => cases h
  | cons w rest ih =>
    have hskip : ∀ t₁ : Table, (Action.on (next rest) t₁).1 = (.ok (some a), c') →
        ∃ k, Address.ofKey? k = some a ∧ Narrows k (w :: rest) c' := by
      intro t₁ h₁
      obtain ⟨k, hk, hn⟩ := ih h₁
      exact ⟨k, hk, .skip w hn⟩
    rw [next] at h
    split at h
    · exact hskip t h
    · rw [Action.on_bind] at h
      rcases hseek : Action.on (seek w).run t with ⟨d | _ | k, t₁⟩
      all_goals rw [hseek] at h
      · cases h
      · exact hskip t₁ h
      · dsimp only at h
        split at h
        · next b hb =>
          cases h
          exact ⟨k, hb, .here w rest k.property⟩
        · cases h

/-! ### Where the walks begin -/

theorem ascending_whole : Ascending whole :=
  List.pairwise_singleton _ _

theorem covers_whole {a : Address} {k : Int} (ha : a.key? = some k) : Covers whole k := by
  refine covers_cons.mpr (.inl ?_)
  obtain ⟨hs, ho⟩ := Address.mappable_of_key? ha
  rw [Address.key?_of_mappable (Address.mappable_of_key? ha)] at ha
  obtain rfl := Option.some.inj ha
  show (0 : Int) ≤ _ ∧ _ ≤ (0x7FFFFFFFFFFFFFFF : Int)
  unfold Address.maxSpace at hs
  unfold Address.offsetLimit at ho ⊢
  omega

theorem ascending_startingAt (a : Address) : Ascending (startingAt a) := by
  rw [startingAt]
  split
  · exact List.pairwise_singleton _ _
  · exact List.Pairwise.nil

theorem covers_startingAt (a : Address) {b : Address} {k : Int} (hb : b.key? = some k) :
    Covers (startingAt a) k ↔ a ≤ b := by
  have hend : b ≤ ⟨0xFFFF, 0xFFFFFFFFFFFFFFFF⟩ := by
    have hs := b.space.toNat_lt
    have ho := b.offset.toNat_lt
    rw [Address.le_iff, show (0xFFFF : UInt16).toNat = 2 ^ 16 - 1 from rfl,
      show (0xFFFFFFFFFFFFFFFF : UInt64).toNat = 2 ^ 64 - 1 from rfl]
    omega
  rw [startingAt]
  split
  · next w hw =>
    -- The upper bound is above every key, so only the lower one counts.
    have hlast : k ≤ KeyWindow.everything.last := by
      obtain ⟨w, hw, hk⟩ := covers_whole hb
      obtain rfl := List.mem_singleton.mp hw
      exact hk.2
    rw [← KeyWindow.first_le_iff hw hb]
    simp only [covers_cons, covers_nil, or_false]
    exact and_iff_left hlast
  · next hw =>
    simp only [covers_nil, false_iff]
    exact fun h => KeyWindow.between?_ne_none hb ⟨h, hend⟩ hw

theorem ascending_keyWindows {s : AddressSet} (h : s.Normal) : Ascending s.keyWindows := by
  have hranges : s.ranges.Pairwise fun r r' =>
      r.Precedes r' ∧ r.WithinSpace ∧ r'.WithinSpace :=
    h.sorted.imp_of_mem fun hr hr' hp => ⟨hp, h.withinSpace _ hr, h.withinSpace _ hr'⟩
  refine hranges.filterMap _ fun r r' ⟨hp, hr, hr'⟩ w hw w' hw' => ?_
  -- The one window ends with the key of an address of its range, and the other begins with one.
  obtain ⟨-, hlast, hle⟩ := KeyWindow.between?_bounds hw
  obtain ⟨⟨f, -, hfirst⟩, -, hle'⟩ := KeyWindow.between?_bounds hw'
  have hmem := (KeyWindow.mem_between? hw hlast).mp ⟨hle, le_refl _⟩
  have hmem' := (KeyWindow.mem_between? hw' hfirst).mp ⟨le_refl _, hle'⟩
  have hlt := hp.lt hr hr' hmem hmem'
  rwa [← Address.not_le, ← Address.key?_le_iff hfirst hlast, not_le] at hlt

theorem covers_keyWindows (s : AddressSet) {a : Address} {k : Int} (ha : a.key? = some k) :
    Covers s.keyWindows k ↔ a ∈ s := by
  constructor
  · rintro ⟨w, hw, hk⟩
    obtain ⟨r, hr, hw⟩ := List.mem_filterMap.mp hw
    exact ⟨r, hr, (KeyWindow.mem_between? hw ha).mp hk⟩
  · rintro ⟨r, hr, har⟩
    cases hw : KeyWindow.between? r.min r.max with
    | none => exact absurd hw (KeyWindow.between?_ne_none ha har)
    | some w =>
      exact ⟨w, List.mem_filterMap.mpr ⟨r, hr, hw⟩, (KeyWindow.mem_between? hw ha).mpr har⟩

end Cursor

/-- A reference stands at the address. -/
def Table.Refers (t : Table) (a : Address) : Prop :=
  ∃ id row, t.references.get? id = some row ∧ Address.ofKey? row.addressKey = some a

namespace Walk

/-! ### Regions -/

/-- What a walk is asked to visit: all addresses, those from an address on, or those in some
ranges. -/
inductive Region where
  | everywhere
  | onward (a : Address)
  | inside (ranges : List AddressRange)

namespace Region

/-- The addresses of the region.  A range that spans two spaces adds none. -/
def Contains : Region → Address → Prop
  | everywhere, _ => True
  | onward a, b => a ≤ b
  | inside ranges, b => ∃ r ∈ ranges, r.WithinSpace ∧ b ∈ r

/-- The walk over the region. -/
def walk : Region → Walk
  | everywhere => .all
  | onward a => .startingAt a
  | inside ranges => .within (.ofRanges ranges)

theorem ascending_walk (p : Region) : p.walk.cursor.Ascending := by
  cases p with
  | everywhere => exact Cursor.ascending_whole
  | onward a => exact Cursor.ascending_startingAt a
  | inside ranges => exact Cursor.ascending_keyWindows (AddressSet.normal_ofRanges ranges)

theorem covers_walk (p : Region) {a : Address} {k : Int} (ha : a.key? = some k) :
    p.walk.cursor.Covers k ↔ p.Contains a := by
  cases p with
  | everywhere => exact iff_of_true (Cursor.covers_whole ha) trivial
  | onward b => exact Cursor.covers_startingAt b ha
  | inside ranges =>
    exact (Cursor.covers_keyWindows _ ha).trans AddressSet.mem_ofRanges

theorem ended_walk (p : Region) : p.walk.ended = false := by
  cases p with
  | everywhere => rfl
  | onward a => rfl
  | inside ranges => rfl

end Region

/-! ### A step of a walk -/

theorem refers_iff_of_key? {t : Table} {s : Store} (ht : t.Has s) {a : Address} {k : Int}
    (ha : a.key? = some k) : t.Refers a ↔ ∃ row ∈ s.references, row.addressKey = k := by
  rw [Table.Refers, ht.references]
  constructor
  · rintro ⟨id, row, hrow, hplace⟩
    refine ⟨row, ht.store_sound.references.mem_of_get? hrow, ?_⟩
    exact Option.some.inj ((Address.key?_of_ofKey? hplace).symm.trans ha)
  · rintro ⟨row, hrow, rfl⟩
    exact ⟨row.id, row, hrow, Address.ofKey?_of_key? ha⟩

/-- A step comes to the first referenced address in what was left, or it finds that there is
none. -/
inductive Steps (t : Table) (c : Cursor) : Option Address × Walk → Prop where
  | found (a : Address) (k : Int) (c' : Cursor) (ha : a.key? = some k) (hn : c.Narrows k c')
      (hat : t.Refers a) (hfirst : ∀ b j, b.key? = some j → t.Refers b → c.Covers j → k ≤ j) :
      Steps t c (some a, ⟨c', false⟩)
  | finished (w : Walk) (hw : w.ended = true)
      (hnone : ∀ b j, b.key? = some j → t.Refers b → ¬ c.Covers j) : Steps t c (none, w)

theorem next_steps {t : Table} (ht : t.Sound) (hp : t.plan = .none) {c : Cursor}
    (hc : c.Ascending) :
    Steps t c (Action.on (next ⟨c, false⟩) t).1 := by
  rw [next, if_neg Bool.false_ne_true, Action.on_bind]
  have hplaced : ∀ {b j}, b.key? = some j → t.Refers b → c.Covers j →
      b ∈ t.store.addressesAlong c := fun hj hb hcov =>
    (Store.mem_addressesAlong ht.store).mpr ⟨_, hj, (refers_iff_of_key? ht.has hj).mp hb, hcov⟩
  obtain ⟨hb, hsteps⟩ := Cursor.next_on ht.has c
  rcases hrun : Action.on c.next t with ⟨p, t₁⟩
  rw [hrun] at hb hsteps
  obtain hsteps | ⟨d, c', -, hbroke⟩ := hsteps
  · cases hsteps with
    | finished h =>
      refine .finished _ rfl fun b j hj hb hcov => ?_
      have hmem := hplaced hj hb hcov
      rw [h] at hmem
      cases hmem
    | found a c' h =>
      obtain ⟨k, hk, hn⟩ := Cursor.narrows_of_next (congrArg Prod.fst hrun)
      have ha := Address.key?_of_ofKey? hk
      have hhead : a ∈ t.store.addressesAlong c := h ▸ List.mem_cons_self
      obtain ⟨k', hk', hrow, -⟩ := (Store.mem_addressesAlong ht.store).mp hhead
      obtain rfl := Option.some.inj (ha.symm.trans hk')
      refine .found a k c' ha hn ((refers_iff_of_key? ht.has ha).mpr hrow) fun b j hj hb hcov => ?_
      -- Whatever else is referenced in what was left is still left behind the step.
      have hmem := hplaced hj hb hcov
      rw [h] at hmem
      obtain rfl | hmem := List.mem_cons.mp hmem
      · exact le_of_eq (Option.some.inj (ha.symm.trans hj))
      · obtain ⟨j', hj', -, hcov'⟩ := (Store.mem_addressesAlong ht.store).mp hmem
        obtain rfl := Option.some.inj (hj.symm.trans hj')
        exact le_of_lt ((hn.covers_iff hc).mp hcov').2
  · exact absurd hbroke (Table.not_broke_of_none (hb.frame.plan.trans hp) d)

/-! ### Walks and sessions taking turns -/

/-- A step of a walk: the table that it is taken on, and what it comes to. -/
structure Stop where
  table : Table
  found : Option Address

/-- A walk and a session take turns, and before each step of the walk some steps of the session
are carried out.  Listed are the steps of the walk. -/
def tour (w : Walk) (t : Table) : List (List Step) → List Stop
  | [] => []
  | l :: rest =>
    let r := Action.on w.next (Session.play t l)
    ⟨Session.play t l, r.1.1⟩ :: tour r.1.2 r.2 rest

/-- What may be said of the steps of a walk that has the cursor `c` left. -/
structure Orderly (c : Cursor) (l : List Stop) : Prop where
  sorted : (l.filterMap Stop.found).Pairwise (· < ·)
  found : ∀ s ∈ l, ∀ a, s.found = some a →
    s.table.Refers a ∧ ∃ k, a.key? = some k ∧ c.Covers k
  complete : ∀ before s after, l = before ++ s :: after → s.found = none → ∀ a k,
    a.key? = some k → c.Covers k → (∀ s' ∈ before, s'.table.Refers a) → s.table.Refers a →
    ∃ s' ∈ before, s'.found = some a
  final : ∀ before s after, l = before ++ s :: after → s.found = none →
    ∀ s' ∈ after, s'.found = none

theorem tour_of_ended {w : Walk} (hw : w.ended = true) (t : Table) (l : List (List Step)) :
    ∀ s ∈ tour w t l, s.found = none := by
  induction l generalizing t with
  | nil => exact List.forall_mem_nil _
  | cons x l ih =>
    rw [tour, next_of_ended hw]
    exact List.forall_mem_cons.mpr ⟨rfl, ih _⟩

/-- Behind its end a walk comes to nothing. -/
theorem Orderly.of_none {c : Cursor} {s : Stop} {l : List Stop} (hs : s.found = none)
    (hnone : ∀ b j, b.key? = some j → s.table.Refers b → ¬ c.Covers j)
    (hl : ∀ s ∈ l, s.found = none) : Orderly c (s :: l) := by
  have hall : ∀ s' ∈ s :: l, s'.found = none := List.forall_mem_cons.mpr ⟨hs, hl⟩
  refine ⟨?_, fun s' hs' a ha => ?_, fun before s' after h hs' a k hk hcov hbefore hat => ?_,
    fun before s' after h _ s'' hs'' => ?_⟩
  · rw [List.filterMap_eq_nil_iff.mpr hall]
    exact List.Pairwise.nil
  · rw [hall s' hs'] at ha
    cases ha
  · cases before with
    | nil =>
      obtain ⟨rfl, -⟩ := List.cons.inj h
      exact absurd hcov (hnone a k hk hat)
    | cons s₀ before =>
      obtain ⟨rfl, -⟩ := List.cons.inj h
      exact absurd hcov (hnone a k hk (hbefore _ List.mem_cons_self))
  · refine hall s'' (h ▸ ?_)
    simp [hs'']

/-- A step to the first referenced address in front of the rest of the walk. -/
theorem Orderly.cons {c c' : Cursor} (hc : c.Ascending) {t : Table} {a : Address} {k : Int}
    {l : List Stop} (hl : Orderly c' l) (ha : a.key? = some k) (hn : c.Narrows k c')
    (hat : t.Refers a) (hfirst : ∀ b j, b.key? = some j → t.Refers b → c.Covers j → k ≤ j) :
    Orderly c (⟨t, some a⟩ :: l) := by
  refine ⟨?_, List.forall_mem_cons.mpr ⟨fun b hb => ?_, fun s hs b hb => ?_⟩, ?_, ?_⟩
  · rw [List.filterMap_cons_some (show Stop.found ⟨t, some a⟩ = some a from rfl)]
    refine List.pairwise_cons.mpr ⟨fun b hb => ?_, hl.sorted⟩
    obtain ⟨s, hs, hb⟩ := List.mem_filterMap.mp hb
    obtain ⟨-, j, hj, hcov⟩ := hl.found s hs b hb
    rw [← Address.not_le, ← Address.key?_le_iff hj ha, not_le]
    exact ((hn.covers_iff hc).mp hcov).2
  · obtain rfl := Option.some.inj hb
    exact ⟨hat, k, ha, hn.covers⟩
  · obtain ⟨hb, j, hj, hcov⟩ := hl.found s hs b hb
    exact ⟨hb, j, hj, ((hn.covers_iff hc).mp hcov).1⟩
  · intro before s after h hs b j hj hcov hbefore hb
    cases before with
    | nil =>
      obtain ⟨rfl, -⟩ := List.cons.inj h
      cases hs
    | cons s₀ before =>
      obtain ⟨rfl, hrest⟩ := List.cons.inj h
      obtain ⟨hb₀, hbefore⟩ := List.forall_mem_cons.mp hbefore
      -- The address was in what was left at this step, so the step went no further than to it.
      obtain heq | hlt := eq_or_lt_of_le (hfirst b j hj hb₀ hcov)
      · subst heq
        exact ⟨_, List.mem_cons_self, congrArg some (Address.key?_inj ha hj)⟩
      · obtain ⟨s', hs', hfound⟩ := hl.complete before s after hrest hs b j hj
          ((hn.covers_iff hc).mpr ⟨hcov, hlt⟩) hbefore hb
        exact ⟨s', List.mem_cons_of_mem _ hs', hfound⟩
  · intro before s after h hs
    cases before with
    | nil =>
      obtain ⟨rfl, -⟩ := List.cons.inj h
      cases hs
    | cons s₀ before =>
      obtain ⟨-, hrest⟩ := List.cons.inj h
      exact hl.final before s after hrest hs

/-- The step lemma, carried along the tour: the induction is on the turns, for every cursor that
may be left and every table that may be there. -/
theorem orderly_tour {c : Cursor} (hc : c.Ascending) {t : Table} (ht : t.Sound)
    (hp : t.plan = .none) (l : List (List Step)) : Orderly c (tour ⟨c, false⟩ t l) := by
  induction l generalizing c t with
  | nil =>
    refine ⟨List.Pairwise.nil, List.forall_mem_nil _, fun before s after h => ?_,
      fun before s after h => ?_⟩
    · exact absurd h (by simp [tour])
    · exact absurd h (by simp [tour])
  | cons x l ih =>
    have hu := Session.sound ht x
    have hpu := (Session.plan ht x).trans hp
    have hk := next_keeps hu.has ⟨c, false⟩
    have hsteps := next_steps hu hpu hc
    rw [tour]
    generalize Session.play t x = u at hu hpu hk hsteps
    rcases hrun : Action.on (next ⟨c, false⟩) u with ⟨r, u'⟩
    rw [hrun] at hk hsteps
    cases hsteps with
    | found a k c' ha hn hat hfirst =>
      exact (ih (hn.ascending hc) hk.sound (hk.plan.trans hpu)).cons hc ha hn hat hfirst
    | finished w hw hnone => exact .of_none rfl hnone (tour_of_ended hw u' l)

/-- Behind every session, with any steps carried out between the steps of a walk and no storage
call failing: the addresses that the walk comes to ascend, so that none comes twice; each lies in
the region of the walk and is referenced at that moment; and when the walk first comes to its end,
it has come to every address of the region that was referenced all the while.  The walk stays at
its end. -/
theorem tour_sound {t : Table} (ht : Session.Reached t) (p : Region) (l : List (List Step)) :
    let stops := tour p.walk { t with plan := .none } l
    (stops.filterMap Stop.found).Pairwise (· < ·) ∧
      (∀ s ∈ stops, ∀ a, s.found = some a → p.Contains a ∧ s.table.Refers a) ∧
      ∀ before s after, stops = before ++ s :: after → s.found = none →
        (∀ a, p.Contains a → (∀ s' ∈ before, s'.table.Refers a) → s.table.Refers a →
          ∃ s' ∈ before, s'.found = some a) ∧
        ∀ s' ∈ after, s'.found = none := by
  intro stops
  have hs := ht.sound
  have hnone : Table.Sound { t with plan := .none } :=
    hs.equip FaultPlan.loud_none t.listing t.registry
  have horderly : Orderly p.walk.cursor stops := by
    have hwalk : p.walk = ⟨p.walk.cursor, false⟩ := by rw [← p.ended_walk]
    show Orderly p.walk.cursor (tour p.walk _ l)
    rw [hwalk]
    exact orderly_tour p.ascending_walk hnone rfl l
  refine ⟨horderly.sorted, fun s hs a ha => ?_, fun before s after h hend => ⟨?_, ?_⟩⟩
  · obtain ⟨hat, k, hk, hcov⟩ := horderly.found s hs a ha
    exact ⟨(p.covers_walk hk).mp hcov, hat⟩
  · intro a ha hbefore hat
    obtain ⟨id, row, -, hplace⟩ := id hat
    have hk := Address.key?_of_ofKey? hplace
    exact horderly.complete before s after h hend a _ hk ((p.covers_walk hk).mpr ha) hbefore hat
  · exact horderly.final before s after h hend

/-- Three references to an equate. -/
def threeUses : Table :=
  Session.play (Table.opened 1 0 .none none none)
    [⟨{}, .define "one" 1⟩, ⟨{}, .attach 1 ⟨0, 16⟩ 0 0⟩, ⟨{}, .attach 1 ⟨0, 17⟩ 0 0⟩,
      ⟨{}, .attach 1 ⟨0, 18⟩ 0 0⟩]

/-- Behind the first step of the walk, the reference ahead of it goes and one comes behind it. -/
def rewriting : List (List Step) :=
  [[], [⟨{}, .detachOperand 1 ⟨0, 17⟩ 0⟩, ⟨{}, .attach 1 ⟨0, 8⟩ 0 0⟩], [], []]

theorem tour_sound_rewriting :
    Session.Reached threeUses ∧
      (tour Region.everywhere.walk { threeUses with plan := .none } rewriting).map Stop.found =
        [some ⟨0, 16⟩, some ⟨0, 18⟩, none, none] ∧
      ∀ s ∈ tour Region.everywhere.walk { threeUses with plan := .none } rewriting,
        ∀ a, s.found = some a → s.table.Refers a := by
  have ht : Session.Reached threeUses := ⟨.none, FaultPlan.loud_none, 1, 0, none, none, _, rfl⟩
  have hfound : (tour Region.everywhere.walk { threeUses with plan := .none } rewriting).map
      Stop.found = [some ⟨0, 16⟩, some ⟨0, 18⟩, none, none] := by
    decide +kernel
  obtain ⟨-, hat, -⟩ := tour_sound ht .everywhere rewriting
  exact ⟨ht, hfound, fun s hs a ha => (hat s hs a ha).2⟩

end Walk

end Equates

/-
A removal takes one reference.

A removal goes through the references to its equate in the order of their keys and takes the
first one that it is meant for, and the equate with its last reference (`Step.detach_run`).  As
long as no move goes where references are, an equate has at most one reference with a hash at an
address, and the removal by hash is exact (`Session.detachHash_exact`).  The removal by operand
index does not look at hashes.  It keeps to the slot of the operand just where the reference
there is older than every other one to the equate at that address that has the index too, beside
a hash (`Session.detachOperand_keepsToSlot_iff`).
-/
import Equates.Proofs.Exclusivity
import Equates.Proofs.Replacement
import Equates.Proofs.Sweep

namespace Equates

/-- The reference is one to the equate at the address with the operand index, whatever its hash. -/
def Reference.Carries (id : Key) (a : Address) (operand : Int) (r : Reference) : Prop :=
  r.equate = id ∧ r.address = a ∧ r.operand = operand

instance (id : Key) (a : Address) (operand : Int) (r : Reference) :
    Decidable (r.Carries id a operand) :=
  inferInstanceAs (Decidable (_ ∧ _))

theorem Reference.carries_of_find? {l : List Reference} {id : Key} {a : Address} {operand : Int}
    {r : Reference} (hfirst : l.find? (·.Carries id a operand) = some r) :
    r.Carries id a operand := by
  simpa using List.find?_some hfirst

theorem Reference.exists_find? {l : List Reference} {id : Key} {a : Address} {operand : Int}
    {r : Reference} (hr : r ∈ l) (hcarries : r.Carries id a operand) :
    ∃ r', l.find? (·.Carries id a operand) = some r' := by
  refine Option.isSome_iff_exists.mp (List.find?_isSome.mpr ⟨r, hr, ?_⟩)
  exact decide_eq_true hcarries

theorem Reference.carries_and_hash_iff {id : Key} {a : Address} {operand : Int} {r : Reference} :
    r.Carries id a operand ∧ r.hash = 0 ↔ r.equate = id ∧ r.Occupies a operand 0 := by
  rw [Carries, Occupies]
  tauto

section first

variable {l : List Reference} (hl : l.Pairwise (·.id < ·.id))
include hl

/-- The first reference that passes is the oldest one that does. -/
theorem Reference.eq_or_id_lt_of_find? {p : Reference → Bool} {r r' : Reference}
    (hfirst : l.find? p = some r) (hr' : r' ∈ l) (hp : p r' = true) : r = r' ∨ r.id < r'.id := by
  obtain ⟨-, before, behind, rfl, hbefore⟩ := List.find?_eq_some_iff_append.mp hfirst
  obtain hin | hin := List.mem_append.mp hr'
  · have hnot := hbefore r' hin
    rw [hp] at hnot
    cases hnot
  · refine (List.mem_cons.mp hin).imp Eq.symm fun hin => ?_
    exact (List.pairwise_cons.mp (List.pairwise_append.mp hl).2.1).1 r' hin

/-- The first reference with the operand index stands for the operand as a whole if it is older
than those that do not. -/
theorem Reference.first_hash_eq_zero_iff {id : Key} {a : Address} {operand : Int} :
    (∀ r, l.find? (·.Carries id a operand) = some r → r.hash = 0) ↔
      ∀ r ∈ l, r.Carries id a operand → r.hash ≠ 0 →
        ∃ r' ∈ l, r'.Carries id a operand ∧ r'.hash = 0 ∧ r'.id < r.id := by
  constructor
  · intro hzero r hr hcarries hhash
    obtain ⟨r₁, hfirst⟩ := exists_find? hr hcarries
    refine ⟨r₁, List.mem_of_find?_eq_some hfirst, carries_of_find? hfirst, hzero r₁ hfirst, ?_⟩
    obtain rfl | hlt := eq_or_id_lt_of_find? hl hfirst hr (decide_eq_true hcarries)
    · exact absurd (hzero r₁ hfirst) hhash
    · exact hlt
  · intro holder r hfirst
    by_contra hhash
    obtain ⟨r', hr', hcarries, -, hlt⟩ :=
      holder r (List.mem_of_find?_eq_some hfirst) (carries_of_find? hfirst) hhash
    obtain rfl | hlt' := eq_or_id_lt_of_find? hl hfirst hr' (decide_eq_true hcarries)
    · exact lt_irrefl _ hlt
    · exact lt_asymm hlt hlt'

end first

/-- Of the references in a slot there is only one. -/
theorem Store.Exclusive.eq_of_occupies {s : Store} (h : s.Exclusive) (hs : s.Sound)
    {l : List Reference} (hl : s.references.StandFor l) {a : Address} {operand : Int}
    {hash : UInt64} {r r' : Reference} (hr : r ∈ l) (hr' : r' ∈ l)
    (hin : r.Occupies a operand hash) (hin' : r'.Occupies a operand hash) : r = r' := by
  obtain ⟨row, hrow, hd⟩ := (hs.mem_iff_refers hl).mp hr
  obtain ⟨row', hrow', hd'⟩ := (hs.mem_iff_refers hl).mp hr'
  obtain ⟨haddress, hslot⟩ := Reference.occupies_iff.mp hin
  obtain ⟨haddress', hslot'⟩ := Reference.occupies_iff.mp hin'
  have hkey := Address.key?_of_ofKey? (ReferenceRow.decode_eq_ok_iff.mp hd).1
  have hkey' := Address.key?_of_ofKey? (ReferenceRow.decode_eq_ok_iff.mp hd').1
  rw [haddress] at hkey
  rw [haddress', hkey] at hkey'
  obtain rfl : row = row' := by
    refine h row hrow row' hrow' (Option.some.inj hkey') ?_
    rw [← ReferenceRow.slot_of_decode hd, ← ReferenceRow.slot_of_decode hd', hslot, hslot']
  exact Except.ok.inj (hd.symm.trans hd')

namespace Step

/-- The step answers that it has removed a reference; just `r` of the stored references `l` is
gone, and its equate if that was the last one to it. -/
structure Takes (x : Step) (t : Table) (l : List Reference) (r : Reference) : Prop where
  answer : x.answer t = .flag true
  references : (x.behind t).references.StandFor (l.filter (· ≠ r))
  equates : (x.behind t).equates.toList = t.equates.toList.filter fun e : Equate =>
    e.id ≠ r.equate ∨ ∃ r' ∈ l, r' ≠ r ∧ r'.equate = e.id

/-- The step answers that it has removed nothing, and nothing has changed. -/
structure Declines (x : Step) (t : Table) : Prop where
  answer : x.answer t = .flag false
  references : (x.behind t).references = t.references
  equates : (x.behind t).equates = t.equates
  changes : x.changes t = []

/-- A step takes only one reference. -/
theorem Takes.unique {x : Step} {t : Table} {l : List Reference} {r r' : Reference}
    (h : x.Takes t l r) (h' : x.Takes t l r') (hr : r ∈ l) : r = r' := by
  by_contra hne
  have hin : r ∈ l.filter (· ≠ r') := List.mem_filter.mpr ⟨hr, decide_eq_true hne⟩
  rw [h'.references.unique h.references] at hin
  exact absurd rfl (of_decide_eq_true (List.mem_filter.mp hin).2)

/-- Where no storage call fails, a removal takes the first reference that it is meant for. -/
theorem detach_run {x : Step} {id : Key} {test : Reference → Bool}
    (hx : x.request.run = .flag <$> (Table.emptySlot id test).orElseReport false)
    {p : Reference → Bool} (hmeant : ∀ r, p r = true ↔ r.equate = id ∧ test r = true) {t : Table}
    (ht : t.Sound) (hplan : t.plan = .none) {l : List Reference} (hl : t.references.StandFor l) :
    (∀ r, l.find? p = some r → x.Takes t l r) ∧ (l.find? p = none → x.Declines t) := by
  have hstart := x.sound_start ht
  have hs : (x.start t).store.Sound := hstart.store
  have hm := Table.emptySlot_enacts (x.start t).store id test
  have hfind : ((x.start t).store.referencesTo id).find? test = l.find? p := by
    rw [hs.referencesTo_eq hl, List.find?_filter]
    refine congrArg (List.find? · l) (funext fun r => Bool.eq_iff_iff.mpr ?_)
    rw [hmeant, decide_eq_true_eq, decide_eq_true_eq]
  rw [hfind] at hm
  obtain ⟨hr, hb⟩ := hm.on_orElseReport hstart.has hplan false
  have hon : Action.on x.request.run (x.start t) = _ :=
    (congrArg (Action.on · (x.start t)) hx).trans (Action.on_map _ _ _)
  rw [hr] at hon
  have hanswer : x.answer t = .flag (l.find? p).isSome := congrArg Prod.fst hon
  rw [← show x.behind t = _ from congrArg Prod.snd hon] at hb
  constructor
  · intro r hfirst
    rw [hfirst] at hanswer hb
    have hin := List.mem_of_find?_eq_some hfirst
    obtain ⟨rfl, -⟩ := (hmeant r).mp (List.find?_some hfirst)
    -- Only one reference is swept away.
    have hrefs : ∀ r' ∈ [r], r' ∈ l := List.forall_mem_singleton.mpr hin
    have hb : (x.start t).Becomes ((x.start t).store.after (Effect.sweep [r])) (x.behind t) := hb
    refine ⟨hanswer, ?_, ?_⟩
    · rw [hb.references]
      refine (List.filter_congr fun r' _ => ?_) ▸ Store.standFor_after_sweep hs hl hrefs
      simp only [List.mem_singleton]
    · rw [hb.equates]
      refine (Store.equates_after_sweep hs hl hrefs (List.pairwise_singleton _ _)).trans
        (List.filter_congr fun e _ => ?_)
      rw [decide_eq_decide, List.forall_mem_singleton, ne_comm]
      simp only [List.mem_singleton]
  · intro hnone
    rw [hnone] at hanswer hb
    exact ⟨hanswer, hb.references, hb.equates, congrArg List.reverse hb.changes⟩

/-- What the removal of an operand of an equate is meant to do: it takes the reference in the slot
of the operand, and without one it declines. -/
structure KeepsToSlot (x : Step) (t : Table) (l : List Reference) (id : Key) (a : Address)
    (operand : Int) : Prop where
  takes : ∀ r ∈ l, r.equate = id → r.Occupies a operand 0 → x.Takes t l r
  declines : (∀ r ∈ l, r.equate = id → ¬ r.Occupies a operand 0) → x.Declines t

/-- A removal that takes the first reference with the operand index keeps to the slot of the
operand if that reference stands there. -/
theorem keepsToSlot_iff {x : Step} {t : Table} {l : List Reference} {id : Key} {a : Address}
    {operand : Int} (htakes : ∀ r, l.find? (·.Carries id a operand) = some r → x.Takes t l r)
    (hdeclines : l.find? (·.Carries id a operand) = none → x.Declines t)
    (honly : ∀ r ∈ l, ∀ r' ∈ l, r.Occupies a operand 0 → r'.Occupies a operand 0 → r = r') :
    x.KeepsToSlot t l id a operand ↔
      ∀ r, l.find? (·.Carries id a operand) = some r → r.hash = 0 := by
  constructor
  · intro hkeeps r hfirst
    by_contra hhash
    -- It takes the first one, though it should take another one or none at all.
    have hr := List.mem_of_find?_eq_some hfirst
    by_cases hfree : ∀ r' ∈ l, r'.equate = id → ¬ r'.Occupies a operand 0
    · have hflag := (hkeeps.declines hfree).answer.symm.trans (htakes r hfirst).answer
      cases hflag
    · push Not at hfree
      obtain ⟨r', hr', hid, hin⟩ := hfree
      obtain rfl := (htakes r hfirst).unique (hkeeps.takes r' hr' hid hin) hr
      exact hhash hin.2.1
  · intro hzero
    have hfound : ∀ r, l.find? (·.Carries id a operand) = some r →
        r ∈ l ∧ r.equate = id ∧ r.Occupies a operand 0 := fun r hfirst =>
      ⟨List.mem_of_find?_eq_some hfirst, Reference.carries_and_hash_iff.mp
        ⟨Reference.carries_of_find? hfirst, hzero r hfirst⟩⟩
    refine ⟨fun r hr hid hin => ?_, fun hfree => hdeclines ?_⟩
    · have hcarries := (Reference.carries_and_hash_iff.mpr ⟨hid, hin⟩).1
      obtain ⟨r₁, hfirst⟩ := Reference.exists_find? hr hcarries
      obtain ⟨hr₁, -, hin₁⟩ := hfound r₁ hfirst
      obtain rfl := honly r₁ hr₁ r hr hin₁ hin
      exact htakes r₁ hfirst
    · refine Option.eq_none_iff_forall_ne_some.mpr fun r hfirst => ?_
      obtain ⟨hr, hid, hin⟩ := hfound r hfirst
      exact hfree r hr hid hin

end Step

namespace Session

/-- The table behind a session in which each move goes where no reference is, whichever storage
calls failed openly. -/
def Orderly (t : Table) : Prop :=
  ∃ plan : FaultPlan, plan.Loud ∧ ∃ equates references listing registry l,
    Considerate (Table.opened equates references plan listing registry) l ∧
      t = play (Table.opened equates references plan listing registry) l

theorem Orderly.reached {t : Table} (h : Orderly t) : Reached t := by
  obtain ⟨plan, hplan, equates, references, listing, registry, l, -, rfl⟩ := h
  exact ⟨plan, hplan, equates, references, listing, registry, l, rfl⟩

theorem Orderly.exclusive {t : Table} (h : Orderly t) : t.store.Exclusive := by
  obtain ⟨plan, hplan, equates, references, listing, registry, l, hl, rfl⟩ := h
  refine Session.exclusive (Table.sound_opened hplan _ _ _ _) hl fun r hr => ?_
  have hr : ReferenceRows.get? {} r.id = some r := hr
  rw [ReferenceRows.get?_empty] at hr
  cases hr

/-! ### Removal by hash -/

/-- Behind every orderly session, the removal by hash takes the reference to the equate at the
address with the hash; if there is none it declines. -/
theorem detachHash_exact {t : Table} (ht : Orderly t) (monitor : Monitor) (id : Key) (a : Address)
    {hash : UInt64} (hhash : hash ≠ 0) :
    let before := { t with plan := .none }
    let x : Step := ⟨monitor, .detachHash id a hash⟩
    ∃ l, before.references.StandFor l ∧
      (x.answer before = .flag true ↔ ∃ r ∈ l, r.equate = id ∧ r.address = a ∧ r.hash = hash) ∧
      (∀ r ∈ l, r.equate = id → r.address = a → r.hash = hash → x.Takes before l r) ∧
      ((¬ ∃ r ∈ l, r.equate = id ∧ r.address = a ∧ r.hash = hash) → x.Declines before) := by
  intro before x
  have hbefore : before.Sound := ht.reached.sound.equip FaultPlan.loud_none _ _
  obtain ⟨l, hl⟩ := hbefore.store.exists_standFor
  let meant : Reference → Bool := fun r => r.equate = id ∧ r.address = a ∧ r.hash = hash
  have hmeant : ∀ r, meant r = true ↔ r.equate = id ∧ r.address = a ∧ r.hash = hash :=
    fun r => decide_eq_true_iff
  obtain ⟨htakes, hdeclines⟩ : (∀ r, l.find? meant = some r → x.Takes before l r) ∧
      (l.find? meant = none → x.Declines before) :=
    Step.detach_run rfl (fun r => by simp [hmeant]) hbefore rfl hl
  have hexact : ∀ r ∈ l, r.equate = id → r.address = a → r.hash = hash → x.Takes before l r := by
    intro r hr hid haddress hhash'
    obtain ⟨r₁, hfirst⟩ := Option.isSome_iff_exists.mp
      (List.find?_isSome.mpr ⟨r, hr, (hmeant r).mpr ⟨hid, haddress, hhash'⟩⟩)
    -- In the slot of the hash there is no other reference.
    obtain ⟨-, haddress₁, hhash₁⟩ := (hmeant r₁).mp (List.find?_some hfirst)
    have hin : r.Occupies a 0 hash := ⟨haddress, hhash', fun h => absurd h hhash⟩
    have hin₁ : r₁.Occupies a 0 hash := ⟨haddress₁, hhash₁, fun h => absurd h hhash⟩
    obtain rfl : r₁ = r := ht.exclusive.eq_of_occupies hbefore.store hl
      (List.mem_of_find?_eq_some hfirst) hr hin₁ hin
    exact htakes r₁ hfirst
  have hnone : (¬ ∃ r ∈ l, r.equate = id ∧ r.address = a ∧ r.hash = hash) → x.Declines before :=
    fun h => hdeclines (List.find?_eq_none.mpr fun r hr hp => h ⟨r, hr, (hmeant r).mp hp⟩)
  refine ⟨l, hl, ⟨fun htrue => ?_, ?_⟩, hexact, hnone⟩
  · by_contra h
    rw [(hnone h).answer] at htrue
    cases htrue
  · rintro ⟨r, hr, hid, haddress, hhash'⟩
    exact (hexact r hr hid haddress hhash').answer

/-- An operand and two parts of operands at one address, all of one equate. -/
def oneThreefold : Table :=
  play (Table.opened 1 0 .none none none)
    [⟨{}, .define "one" 1⟩, ⟨{}, .attach 1 ⟨0, 16⟩ 0 0⟩, ⟨{}, .attach 1 ⟨0, 16⟩ 0 5⟩,
      ⟨{}, .attach 1 ⟨0, 16⟩ 0 7⟩]

theorem orderly_oneThreefold : Orderly oneThreefold :=
  ⟨.none, FaultPlan.loud_none, 1, 0, none, none, _, by decide +kernel, rfl⟩

theorem standFor_oneThreefold : oneThreefold.references.StandFor
    [⟨1, ⟨0, 16⟩, 0, 0, 1⟩, ⟨2, ⟨0, 16⟩, 0, 5, 1⟩, ⟨3, ⟨0, 16⟩, 0, 7, 1⟩] := by
  rw [ReferenceRows.StandFor]
  decide +kernel

theorem detachHash_exact_oneThreefold :
    let before := { oneThreefold with plan := .none }
    let x : Step := ⟨{}, .detachHash 1 ⟨0, 16⟩ 7⟩
    Orderly oneThreefold ∧ (7 : UInt64) ≠ 0 ∧ x.answer before = .flag true ∧
      (x.behind before).references.StandFor
        [⟨1, ⟨0, 16⟩, 0, 0, 1⟩, ⟨2, ⟨0, 16⟩, 0, 5, 1⟩] ∧
      (x.behind before).equates.toList = [⟨1, "one", 1⟩] := by
  intro before x
  have hhash : (7 : UInt64) ≠ 0 := by decide
  obtain ⟨l, hl, -, htakes, -⟩ := detachHash_exact orderly_oneThreefold {} 1 ⟨0, 16⟩ hhash
  dsimp only at hl
  obtain rfl := hl.unique standFor_oneThreefold
  have h := htakes ⟨3, ⟨0, 16⟩, 0, 7, 1⟩ (by decide) rfl rfl rfl
  refine ⟨orderly_oneThreefold, hhash, h.answer, h.references, h.equates.trans ?_⟩
  decide +kernel

/-! ### Removal by operand index -/

/-- Behind every orderly session, the removal by operand index takes the first reference to the
equate at the address that has the index.  So it keeps to the slot of the operand if and only if
each such reference with a hash is younger than one in that slot. -/
theorem detachOperand_keepsToSlot_iff {t : Table} (ht : Orderly t) (monitor : Monitor) (id : Key)
    (a : Address) (operand : Int) :
    let before := { t with plan := .none }
    let x : Step := ⟨monitor, .detachOperand id a operand⟩
    ∃ l, before.references.StandFor l ∧
      (∀ r, l.find? (·.Carries id a operand) = some r → x.Takes before l r) ∧
      (l.find? (·.Carries id a operand) = none → x.Declines before) ∧
      (x.KeepsToSlot before l id a operand ↔
        ∀ r ∈ l, r.Carries id a operand → r.hash ≠ 0 →
          ∃ r' ∈ l, r'.Carries id a operand ∧ r'.hash = 0 ∧ r'.id < r.id) := by
  intro before x
  have hbefore : before.Sound := ht.reached.sound.equip FaultPlan.loud_none _ _
  obtain ⟨l, hl⟩ := hbefore.store.exists_standFor
  obtain ⟨htakes, hdeclines⟩ :
      (∀ r, l.find? (·.Carries id a operand) = some r → x.Takes before l r) ∧
        (l.find? (·.Carries id a operand) = none → x.Declines before) := by
    refine Step.detach_run rfl (fun r => ?_) hbefore rfl hl
    rw [decide_eq_true_iff, Reference.Carries, Bool.and_eq_true, decide_eq_true_iff,
      decide_eq_true_iff]
  refine ⟨l, hl, htakes, hdeclines, ?_⟩
  rw [← Reference.first_hash_eq_zero_iff (hbefore.store.sorted_of_standFor hl)]
  exact Step.keepsToSlot_iff htakes hdeclines fun r hr r' hr' hin hin' =>
    ht.exclusive.eq_of_occupies hbefore.store hl hr hr' hin hin'

/-- The slot of the operand was filled first. -/
theorem detachOperand_keepsToSlot_oneThreefold :
    let before := { oneThreefold with plan := .none }
    let x : Step := ⟨{}, .detachOperand 1 ⟨0, 16⟩ 0⟩
    Orderly oneThreefold ∧ x.answer before = .flag true ∧
      (x.behind before).references.StandFor
        [⟨2, ⟨0, 16⟩, 0, 5, 1⟩, ⟨3, ⟨0, 16⟩, 0, 7, 1⟩] := by
  intro before x
  obtain ⟨l, hl, -, -, hkeeps⟩ :=
    detachOperand_keepsToSlot_iff orderly_oneThreefold {} 1 ⟨0, 16⟩ 0
  dsimp only at hl
  obtain rfl := hl.unique standFor_oneThreefold
  have h := (hkeeps.mpr (by decide)).takes ⟨1, ⟨0, 16⟩, 0, 0, 1⟩ (by decide) rfl (by decide)
  exact ⟨orderly_oneThreefold, h.answer, h.references⟩

/-- A part of an operand, and nothing in the slot of the operand. -/
def onlyPart : Table :=
  play (Table.opened 1 0 .none none none)
    [⟨{}, .define "one" 1⟩, ⟨{}, .attach 1 ⟨0, 16⟩ 0 5⟩]

/-- The part goes with the removal of the operand. -/
theorem detachOperand_takes_part :
    let before := { onlyPart with plan := .none }
    let x : Step := ⟨{}, .detachOperand 1 ⟨0, 16⟩ 0⟩
    Orderly onlyPart ∧ before.references.StandFor [⟨1, ⟨0, 16⟩, 0, 5, 1⟩] ∧
      x.answer before = .flag true ∧ (x.behind before).references.StandFor [] ∧
      (x.behind before).equates.toList = [] ∧
      ¬ x.KeepsToSlot before [⟨1, ⟨0, 16⟩, 0, 5, 1⟩] 1 ⟨0, 16⟩ 0 := by
  intro before x
  have horderly : Orderly onlyPart :=
    ⟨.none, FaultPlan.loud_none, 1, 0, none, none, _, by decide +kernel, rfl⟩
  have hanswer : x.answer before = .flag true := by decide +kernel
  refine ⟨horderly, ?_, hanswer, ?_, by decide +kernel, fun hkeeps => ?_⟩
  · rw [ReferenceRows.StandFor]
    decide +kernel
  · rw [ReferenceRows.StandFor]
    decide +kernel
  · have hflag := (hkeeps.declines (by decide)).answer.symm.trans hanswer
    cases hflag

end Session

end Equates

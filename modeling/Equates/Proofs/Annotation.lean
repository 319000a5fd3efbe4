/-
An annotation binds exactly the operands that match.

`Session.annotation_binds_matching`: behind every session, and with no storage call failing, an
annotation goes through the instructions up to the first poll that asks it to stop.  Each of their
operands with a scalar that matches then holds one reference, to an equate with the name derived
from its last such scalar; every other slot of the table holds what it held, and no equate goes but
one that was in use there (`Store.Annotated`).

The instructions come in ascending order, so that each stands alone at its address, and the
registry stores a type under the identity that the type has.

Without these assumptions, and wherever the instructions stand, an annotation ends as its bindings
do: it goes through, or is refused at the first one that does not fit (`Step.annotate_carried`).
-/
import Equates.Proofs.Failures
import Equates.Proofs.Table.Annotate

namespace Equates

open Attempt

/-- `s'` is what the annotation of the instructions makes of `s`. -/
structure Store.Annotated (type : EnumType) (parts : Bool) (l : List Instruction) (s s' : Store) :
    Prop where
  /-- An operand with a scalar that matches refers to the equate of the last one, and to no
  other. -/
  bound : ∀ insn ∈ l, ∀ i o v, insn.operands[i]? = some o → o.lastMatch? type parts = some v →
    ∃ r, (∀ r', s'.Refers r' ∧ r'.StandsAt insn.address i ↔ r' = r) ∧
      ∃ e ∈ s'.equates, e.id = r.equate ∧ e.name = (DerivedName.mk type.id v.value).text
  /-- References in all other slots are left alone. -/
  untouched : ∀ r : Reference, (∀ insn ∈ l, ∀ i o v, insn.operands[i]? = some o →
    o.lastMatch? type parts = some v → ¬ r.StandsAt insn.address i) → (s'.Refers r ↔ s.Refers r)
  /-- An equate goes if it had a reference in one of the slots, or was bound in one, and is not in
  use in the end. -/
  stayed : ∀ e ∈ s.equates, (e ∈ s'.equates ↔
    s'.Uses e.id ∨ ¬ s.Touches (Scan.bindings type parts l) e)
  /-- A new equate is in use, under the name and the value of a scalar that matches. -/
  added : ∀ e ∈ s'.equates, e ∈ s.equates ∨ s'.Uses e.id ∧
    ∃ insn ∈ l, ∃ o ∈ insn.operands, ∃ v ∈ o.scalars parts, type.Matches v ∧
      e.name = (DerivedName.mk type.id v.value).text ∧ e.value = v.value

theorem Store.Bound.annotated {type : EnumType} {parts : Bool} {l : List Instruction}
    (hl : l.Pairwise (·.address < ·.address)) {s s' : Store}
    (h : s.Bound (Scan.bindings type parts l) s') : s.Annotated type parts l s' where
  bound insn hinsn i o v ho hv := by
    have hlast : Binding.last? (Scan.bindings type parts l) insn.address i =
        (o.lastMatch? type parts).map (Scan.binding type insn.address i) :=
      Scan.last?_bindings hl hinsn ho
    rw [hv] at hlast
    exact h.filled hlast
  untouched r hr := by
    refine h.untouched fun b hb hin => ?_
    obtain ⟨insn, hinsn, o, i, ho, v, hv, hmatch, rfl⟩ := Scan.mem_bindings.mp hb
    -- An operand with a scalar that matches has a last one.
    have hne : o.lastMatch? type parts ≠ none := by
      rw [Operand.lastMatch?, ne_eq, List.getLast?_eq_none_iff]
      exact List.ne_nil_of_mem (List.mem_filter.mpr ⟨hv, decide_eq_true hmatch⟩)
    obtain ⟨last, hlast⟩ := Option.ne_none_iff_exists'.mp hne
    exact hr insn hinsn i o last ho hlast hin
  stayed _ he := h.stayed he
  added e he := by
    refine (h.added he).imp_right fun ⟨_, huses, b, hb, hname, hvalue⟩ => ⟨huses, ?_⟩
    obtain ⟨insn, hinsn, o, i, ho, v, hv, hmatch, rfl⟩ := Scan.mem_bindings.mp hb
    exact ⟨insn, hinsn, o, List.mem_of_getElem? ho, v, hv, hmatch, hname, hvalue⟩

/-- The instruction can be annotated: it has a place, and not more operands than there are
indices. -/
structure Instruction.Fits (insn : Instruction) : Prop where
  address : insn.address.Mappable
  operands : insn.operands.length ≤ 32768

theorem Scan.fits_of_mem_bindings {type : EnumType} {parts : Bool} {l : List Instruction}
    (hl : ∀ insn ∈ l, insn.Fits) {b : Binding} (hb : b ∈ bindings type parts l) : b.Fits := by
  obtain ⟨insn, hinsn, o, i, ho, v, -, -, rfl⟩ := mem_bindings.mp hb
  obtain ⟨ha, hlen⟩ := hl insn hinsn
  obtain ⟨hi, -⟩ := List.getElem?_eq_some_iff.mp ho
  refine ⟨ha, ?_, DerivedName.validate_text _⟩
  show (i : Int) ≤ 32767
  omega

namespace Table

theorem annotate_run {t : Table} (ht : t.Sound) (hp : t.plan = .none) {listing : Listing}
    {registry : TypeRegistry} (hlisting : t.listing = some listing)
    (hregistry : t.registry = some registry) (hfaithful : registry.Faithful) {set : AddressSet}
    (hfits : ∀ insn ∈ listing.within set, insn.Fits) {type : EnumType}
    (hlength : 1 ≤ type.length ∧ type.length ≤ 8) (parts : Bool) :
    ∃ done outcome, Scan.Visits t.monitor (listing.within set) done outcome ∧
      (Attempt.on (annotate set type parts) t).1 = .ok outcome ∧
      t.store.Bound (Scan.bindings type parts done)
        (Attempt.on (annotate set type parts) t).2.store := by
  obtain ⟨done, outcome, hv, hrun⟩ := annotate_submits hlisting hregistry set hlength parts
  rw [hfaithful.named_eq] at hrun
  have hl : ∀ b ∈ Scan.bindings type parts done, b.Fits := fun b hb =>
    Scan.fits_of_mem_bindings (fun insn hinsn => hfits insn (hv.sublist.subset hinsn)) hb
  obtain ⟨c, hcarry, -, -, hbound⟩ := carry_bound ht hp hl
  obtain ⟨hr, hstore, -⟩ := hrun fun d hd => by
    rw [hcarry] at hd
    cases hd
  rw [hcarry] at hr hstore
  refine ⟨done, outcome, hv, hr, ?_⟩
  rw [hstore]
  exact hbound

end Table

namespace Step

/-- The step is refused for its arguments. -/
def Refused (x : Step) (t : Table) : Prop :=
  ∃ d, x.answer t = .failed d ∧ d.code = .invalidArgument

/-- An annotation answers as its attempt ends. -/
theorem annotate_eq (monitor : Monitor) (set : AddressSet) (type : EnumType) (parts : Bool)
    (t : Table) :
    let x : Step := ⟨monitor, .annotate set type parts⟩
    let p := Attempt.on (Table.annotate set type parts) (x.start t)
    x.answer t = Attempt.reply .outcome p.1 ∧ x.behind t = p.2 := by
  intro x p
  have hon : Action.on x.request.run (x.start t) = _ :=
    Attempt.on_answer (Table.annotate set type parts) .outcome (x.start t)
  exact ⟨congrArg Prod.fst hon, congrArg Prod.snd hon⟩

/-- The step starts with an empty journal, which bindings do not look at. -/
theorem bound_of_start {x : Step} {t : Table} {l : List Binding} {s : Store}
    (h : (x.start t).store.Bound l s) : t.store.Bound l s :=
  ⟨h.filled, h.untouched, h.stayed, h.added, h.next⟩

section annotate

variable {t : Table} {listing : Listing} {registry : TypeRegistry}
  (hlisting : t.listing = some listing) (hregistry : t.registry = some registry)
  (set : AddressSet) {type : EnumType} (parts : Bool) (monitor : Monitor)
include hlisting hregistry

/-- A type of another length is not looked for. -/
theorem annotate_unsupported (hlength : ¬ (1 ≤ type.length ∧ type.length ≤ 8)) :
    let x : Step := ⟨monitor, .annotate set type parts⟩
    x.Refused t ∧ x.behind t = x.start t := by
  intro x
  have hon : Attempt.on (Table.annotate set type parts) (x.start t) =
      (.error (Problem.unsupportedLength type.name type.length).diagnostic, x.start t) := by
    rw [Table.annotate, on_get_bind, show (x.start t).listing = _ from hlisting,
      show (x.start t).registry = _ from hregistry]
    dsimp only
    rw [if_neg hlength]
    rfl
  obtain ⟨hanswer, hbehind⟩ := annotate_eq monitor set type parts t
  rw [hon] at hanswer hbehind
  exact ⟨⟨_, hanswer, rfl⟩, hbehind⟩

variable (ht : t.Sound) (hp : t.plan = .none) (hlength : 1 ≤ type.length ∧ type.length ≤ 8)
include ht hp hlength

/-- An annotation goes through if all its bindings fit; otherwise the first one that does not is
refused, and of that one no more than the look for its equate has been carried out. -/
theorem annotate_carried :
    let x : Step := ⟨monitor, .annotate set type parts⟩
    ∃ done outcome, Scan.Visits monitor (listing.within set) done outcome ∧
      let l := Scan.bindings { type with id := (registry.resolve type).1.id } parts done
      ((∀ b ∈ l, b.Fits) → x.answer t = .outcome outcome ∧
        t.store.Bound l (x.behind t).store ∧
        (x.behind t).store = (Scan.carry Table.submission l (x.start t)).2.store ∧
        (x.behind t).listing = some listing ∧
        (x.behind t).registry =
          some (if l = [] then registry else (registry.resolve type).2)) ∧
      ∀ fit b rest, l = fit ++ b :: rest → (∀ b' ∈ fit, b'.Fits) → ¬ b.Fits →
        x.Refused t ∧ ∃ e mid, mid.Sound ∧ t.store.Bound fit mid ∧
          mid.Obtains b.name b.value e (x.behind t).store := by
  intro x
  have hstart : (x.start t).Sound := x.sound_start ht
  obtain ⟨done, outcome, hv, hrun⟩ := Table.annotate_submits (t := x.start t) hlisting hregistry set
    hlength parts
  obtain ⟨hanswer, hbehind⟩ := annotate_eq monitor set type parts t
  change x.behind t = _ at hbehind
  refine ⟨done, outcome, hv, ?_⟩
  intro l
  rw [hbehind]
  constructor
  · intro hl
    obtain ⟨c, hcarry, -, hframe, hbound⟩ := Table.carry_bound hstart hp hl
    obtain ⟨hr, hstore, hlisting', hregistry'⟩ := hrun fun d hd => by
      rw [hcarry] at hd
      cases hd
    rw [hcarry] at hr hlisting'
    rw [hr] at hanswer
    have hbehind' : _ = c.store := hstore.trans (congrArg (·.2.store) hcarry)
    refine ⟨hanswer, ?_, hstore, (hlisting'.trans hframe.listing).trans hlisting, hregistry'⟩
    rw [hbehind']
    exact bound_of_start hbound
  · rintro fit b rest hsplit hfit hb
    have hname : Name.validate b.name = .ok () :=
      Scan.validate_of_mem_bindings (hsplit ▸ List.mem_append_right fit List.mem_cons_self)
    obtain ⟨p, e, mid, c, hcode, hcarry, hmid, hbound, hobtains⟩ :=
      Table.carry_refused hstart hp hfit hname hb rest
    rw [← hsplit] at hcarry
    obtain ⟨hr, hstore, -⟩ := hrun fun d hd => by
      rw [hcarry] at hd
      obtain rfl := Except.error.inj hd
      exact Problem.isStorageFailure_diagnostic hcode
    rw [hcarry] at hr hstore
    rw [hr] at hanswer
    exact ⟨⟨_, hanswer, hcode⟩, e, mid, hmid, bound_of_start hbound, hstore ▸ hobtains⟩

end annotate

end Step

namespace Session

/-- Behind every session, and with no storage call failing: an annotation goes through the
instructions of the set up to the first poll that asks it to stop, and binds exactly their operands
with a scalar that matches the type. -/
theorem annotation_binds_matching {t : Table} (ht : Reached t) {listing : Listing}
    {registry : TypeRegistry} (hfaithful : registry.Faithful) {set : AddressSet}
    (hsorted : (listing.within set).Pairwise (·.address < ·.address))
    (hfits : ∀ insn ∈ listing.within set, insn.Fits) {type : EnumType}
    (hlength : 1 ≤ type.length ∧ type.length ≤ 8) (parts : Bool) (monitor : Monitor) :
    let before : Table := { t with
      plan := .none, listing := some listing, registry := some registry }
    let x : Step := ⟨monitor, .annotate set type parts⟩
    ∃ done outcome, Scan.Visits monitor (listing.within set) done outcome ∧
      x.answer before = .outcome outcome ∧
      before.store.Annotated type parts done (x.behind before).store := by
  intro before x
  have hs := ht.sound
  have hbefore : before.Sound :=
    hs.equip FaultPlan.loud_none (some listing) (some registry)
  have hstart := x.sound_start hbefore
  obtain ⟨done, outcome, hv, hr, hbound⟩ :=
    Table.annotate_run hstart rfl rfl rfl hfaithful hfits hlength parts
  have hon : Action.on x.request.run (x.start before) =
      (.outcome outcome, (Attempt.on (Table.annotate set type parts) (x.start before)).2) := by
    show Action.on (Attempt.answer _ _) _ = _
    rw [Attempt.on_answer, hr]
    rfl
  have hann := hbound.annotated (hsorted.sublist hv.sublist)
  refine ⟨done, outcome, hv, congrArg Prod.fst hon, ?_⟩
  rw [Step.behind, hon]
  -- The step starts with an empty journal, which is all that tells its store from the table's.
  exact ⟨hann.bound, hann.untouched, hann.stayed, hann.added⟩

/-- An unsigned byte. -/
def byte (n : UInt64) : Scalar := .truncate 8 n false

/-- The first operand has two parts that match; the equate of the one is displaced by that of the
other, and comes back for the second instruction. -/
def recurring : Listing where
  instructions := [⟨⟨0, 16⟩, [.compound [.scalar (byte 1), .text "+", .scalar (byte 2)]]⟩,
    ⟨⟨0, 20⟩, [.whole (byte 1)]⟩, ⟨⟨0, 24⟩, [.whole (byte 2)]⟩]

def oneOrTwo : EnumType := ⟨7, "OneOrTwo", 1, [⟨"One", 1⟩, ⟨"Two", 2⟩]⟩

def lowAddresses : AddressSet := ⟨[⟨⟨0, 0⟩, ⟨0, 32⟩⟩]⟩

/-- The monitor stops the annotation before the third instruction. -/
def interrupted : Step := ⟨{ allowance := some 2 }, .annotate lowAddresses oneOrTwo true⟩

/-- The table on which the annotation starts. -/
def listed : Table :=
  { oneUsed with plan := .none, listing := some recurring, registry := some {} }

theorem annotation_binds_matching_interrupted :
    Reached oneUsed ∧ TypeRegistry.Faithful {} ∧
      (recurring.within lowAddresses).Pairwise (·.address < ·.address) ∧
      (∀ insn ∈ recurring.within lowAddresses, insn.Fits) ∧
      (1 ≤ oneOrTwo.length ∧ oneOrTwo.length ≤ 8) ∧
      interrupted.answer listed = .outcome .cancelled ∧
      ∃ r, (∀ r', (interrupted.behind listed).store.Refers r' ∧ r'.StandsAt ⟨0, 16⟩ 0 ↔ r' = r) ∧
        ∃ e ∈ (interrupted.behind listed).store.equates,
          e.id = r.equate ∧ e.name = "dtID:7:2" := by
  have ht : Reached oneUsed := ⟨.none, FaultPlan.loud_none, 1, 0, none, none, _, rfl⟩
  have hfaithful : TypeRegistry.Faithful {} := ⟨fun h => by simp at h, rfl⟩
  have hsorted : (recurring.within lowAddresses).Pairwise (·.address < ·.address) := by decide
  have haddress : ∀ insn ∈ recurring.within lowAddresses, insn.address.Mappable := by decide
  have hoperands : ∀ insn ∈ recurring.within lowAddresses, insn.operands.length ≤ 32768 := by
    decide
  have hfits : ∀ insn ∈ recurring.within lowAddresses, insn.Fits :=
    fun insn h => ⟨haddress insn h, hoperands insn h⟩
  have hlength : 1 ≤ oneOrTwo.length ∧ oneOrTwo.length ≤ 8 := by decide
  have hcancelled : interrupted.answer listed = .outcome .cancelled := by decide +kernel
  obtain ⟨done, outcome, hv, hanswer, hann⟩ := annotation_binds_matching ht hfaithful hsorted
    hfits hlength true { allowance := some 2 }
  have hname : (DerivedName.mk oneOrTwo.id (byte 2).value).text = "dtID:7:2" := by decide +kernel
  have hwithin : recurring.within lowAddresses = recurring.instructions := by decide
  obtain rfl : outcome = .cancelled := Answer.outcome.inj (hanswer.symm.trans hcancelled)
  obtain ⟨ho, -⟩ | ⟨-, hask, insn, rest, hl⟩ := hv.ended
  · cases ho
  · -- The first poll does not ask to stop, so the first instruction has been annotated.
    cases done with
    | nil => exact absurd hask (by decide)
    | cons first done =>
      obtain rfl := (List.cons.inj (hwithin.symm.trans hl)).1
      obtain ⟨r, hr, e, he, hid, hn⟩ :=
        hann.bound _ List.mem_cons_self 0 _ (byte 2) rfl (by decide)
      exact ⟨ht, hfaithful, hsorted, hfits, hlength, hcancelled, r, hr, e, he, hid, hn.trans hname⟩

end Session

end Equates

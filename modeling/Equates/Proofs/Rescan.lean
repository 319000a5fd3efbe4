/-
A second annotation changes nothing.

Behind an annotation that went through, each bound operand refers to an equate with the name of its
last binding, and an annotation of the same instructions makes the same of it again.  What shows
from outside, the names with their values and the uses of the names, is as it was
(`Session.rescan_idempotent`); only keys may have changed, where an equate was displaced on the way
and stored again.  Where operands are bound as a whole each of them has one binding, which finds
its own equate in place; so no equate goes, and none is stored (`Table.carry_again`).
-/
import Equates.Proofs.Catalogue
import Equates.Proofs.Name.Derived
import Equates.Proofs.Orphans

namespace Equates

open Attempt

/-! ### The registry -/

namespace TypeRegistry

variable {r : TypeRegistry}

theorem Faithful.resolve (h : r.Faithful) (type : EnumType) : (r.resolve type).2.Faithful := by
  cases hfind : r.types[type.id]? with
  | some known =>
    rw [resolve_of_known hfind]
    exact ⟨h.own, h.unshifted⟩
  | none =>
    rw [h.resolve_of_unknown hfind]
    refine ⟨fun {id known} hknown => ?_, h.unshifted⟩
    rw [Std.ExtTreeMap.getElem?_insert] at hknown
    split at hknown
    · next hid =>
      cases hknown
      exact Std.LawfulEqCmp.eq_of_compare hid
    · exact h.own hknown

/-- To resolve a type again adds nothing to the registry. -/
theorem Faithful.uncounted_resolve_resolve (h : r.Faithful) (type : EnumType) :
    ((r.resolve type).2.resolve type).2.uncounted = (r.resolve type).2.uncounted := by
  have hknown : ∃ known, (r.resolve type).2.types[type.id]? = some known := by
    cases hfind : r.types[type.id]? with
    | some known =>
      rw [resolve_of_known hfind]
      exact ⟨known, hfind⟩
    | none =>
      rw [h.resolve_of_unknown hfind]
      exact ⟨type, Std.ExtTreeMap.getElem?_insert_self⟩
  obtain ⟨known, hknown⟩ := hknown
  rw [resolve_of_known hknown]
  rfl

end TypeRegistry

/-! ### What shows from outside -/

namespace Store

theorem mem_uses_iff {s : Store} (hs : s.Sound) {u : Use} :
    u ∈ s.uses ↔ ∃ r, s.Refers r ∧ ∃ e ∈ s.equates, e.id = r.equate ∧
      u = ⟨e.name, r.address, r.operand, r.hash⟩ := by
  rw [mem_uses hs]
  constructor
  · rintro ⟨row, hrow, huse⟩
    obtain ⟨a, e, ha, he, rfl⟩ := use?_eq_some.mp huse
    refine ⟨⟨row.id, a, row.operand, row.hash, row.equate⟩, ⟨row, hrow,
      ReferenceRow.decode_eq_ok_iff.mpr ⟨ha, rfl, rfl, rfl, rfl⟩⟩, e, hs.equates.mem_of_get? he,
      hs.equates.id_eq he, rfl⟩
  · rintro ⟨r, ⟨row, hrow, hd⟩, e, he, hid, rfl⟩
    obtain ⟨ha, -, hoperand, hhash, hequate⟩ := ReferenceRow.decode_eq_ok_iff.mp hd
    refine ⟨row, hrow, use?_eq_some.mpr ⟨r.address, e, ha, ?_, by rw [hoperand, hhash]⟩⟩
    rw [← hequate, ← hid]
    exact EquateRows.mem_def.mp he

end Store

/-- The use is one of the operand `i` at `a` as a whole. -/
def Use.StandsAt (u : Use) (a : Address) (i : Nat) : Prop :=
  u.address = a ∧ Slot.of u.operand u.hash = .operand i

/-- A use of an operand as a whole has no hash. -/
theorem Use.StandsAt.eq {u : Use} {a : Address} {i : Nat} (h : u.StandsAt a i) :
    u = ⟨u.name, a, i, 0⟩ := by
  obtain ⟨name, address, operand, hash⟩ := u
  obtain ⟨rfl, hslot⟩ := h
  dsimp only at hslot
  rw [Slot.of] at hslot
  split at hslot
  · next hzero =>
    cases hslot
    rw [hzero]
  · cases hslot

namespace Store.Bound

variable {l : List Binding} {s s' : Store} (h : Bound l s s')
include h

/-- A bound operand is used under the name of its last binding. -/
theorem mem_uses_of_last? (hs' : s'.Sound) {a : Address} {i : Nat} {b : Binding}
    (hlast : Binding.last? l a i = some b) {u : Use} (hu : u.StandsAt a i) :
    u ∈ s'.uses ↔ u.name = b.name := by
  obtain ⟨r, hiff, e, he, hid, hname⟩ := h.filled hlast
  have huse : ∀ r', s'.Refers r' → (∃ e' ∈ s'.equates, e'.id = r'.equate ∧
      u = ⟨e'.name, r'.address, r'.operand, r'.hash⟩) → r' = r := by
    rintro r' hr' ⟨e', -, -, rfl⟩
    exact (hiff r').mp ⟨hr', hu⟩
  rw [mem_uses_iff hs']
  constructor
  · rintro ⟨r', hr', he'⟩
    obtain rfl := huse r' hr' he'
    obtain ⟨e', he', hid', rfl⟩ := he'
    rw [← hname]
    exact (hs'.equates.name_eq_iff he' he).mpr (hid'.trans hid.symm)
  · intro hn
    obtain ⟨hr, hin⟩ := (hiff r).mpr rfl
    refine ⟨r, hr, e, he, hid, ?_⟩
    have hr : (⟨e.name, r.address, r.operand, r.hash⟩ : Use).StandsAt a i := hin
    rw [hu.eq, hn, ← hname]
    exact hr.eq.symm

/-- Uses of what is not bound stay as they are. -/
theorem mem_uses_of_not_bound (hs : s.Sound) (hs' : s'.Sound) (hint : s.Integral) {u : Use}
    (hout : ∀ b ∈ l, ¬ u.StandsAt b.address b.operand) : u ∈ s'.uses ↔ u ∈ s.uses := by
  rw [mem_uses_iff hs, mem_uses_iff hs']
  constructor
  · rintro ⟨r, hr, e, he, hid, rfl⟩
    have hold : s.Refers r := (h.untouched hout).mp hr
    obtain ⟨e', he', hid'⟩ := hint.exists_equate hs hold
    obtain rfl := h.eq_of_id_eq hs he' he (hid.trans hid'.symm)
    exact ⟨r, hold, e, he', hid, rfl⟩
  · rintro ⟨r, hr, e, he, hid, rfl⟩
    have hnew : s'.Refers r := (h.untouched hout).mpr hr
    exact ⟨r, hnew, e, (h.stayed he).mpr (.inl ⟨r, hnew, hid.symm⟩), hid, rfl⟩

end Store.Bound

/-! ### The same bindings again -/

namespace Store

/-- A stored equate that has the name of a binding has its value. -/
def Agrees (l : List Binding) (s : Store) : Prop :=
  ∀ e ∈ s.equates, ∀ b ∈ l, e.name = b.name → e.value = b.value

namespace Bound

section twice

variable {l : List Binding} {s s₁ s₂ : Store} (h : Bound l s s₁) (h' : Bound l s₁ s₂)
  (hs : s.Sound) (hs₁ : s₁.Sound) (hint : s.Integral)
include h

/-- Bindings that agree with one another and with what is stored go on to do so. -/
theorem agrees (hcoherent : ∀ b ∈ l, ∀ b' ∈ l, b.name = b'.name → b.value = b'.value)
    (hagrees : Agrees l s) : Agrees l s₁ := by
  intro e he b hb hname
  obtain hold | ⟨-, -, b', hb', hname', hvalue⟩ := h.added he
  · exact hagrees e hold b hb hname
  · exact hvalue.trans (hcoherent b' hb' b hb (hname'.symm.trans hname))

include h' hs hs₁ hint

theorem mem_uses_twice (hs₂ : s₂.Sound) {u : Use} : u ∈ s₂.uses ↔ u ∈ s₁.uses := by
  by_cases hin : ∃ b ∈ l, u.StandsAt b.address b.operand
  · obtain ⟨b, hb, hu⟩ := hin
    obtain ⟨b', hlast⟩ := Option.ne_none_iff_exists'.mp (Binding.last?_ne_none hb)
    rw [h.mem_uses_of_last? hs₁ hlast hu, h'.mem_uses_of_last? hs₂ hlast hu]
  · push Not at hin
    exact h'.mem_uses_of_not_bound hs₁ hs₂ (h.integral hs hs₁ hint) hin

/-- What the first bindings left alone, the second ones leave alone, too. -/
theorem exists_named_twice {name : String} :
    (∃ e ∈ s₂.equates, e.name = name) ↔ ∃ e ∈ s₁.equates, e.name = name := by
  rw [h'.exists_named_iff hs₁ (h.integral hs hs₁ hint)]
  constructor
  · rintro (⟨a, i, b, hlast, rfl⟩ | ⟨e, he, hname, -⟩)
    · obtain ⟨-, -, e, he, -, hname⟩ := h.filled hlast
      exact ⟨e, he, hname⟩
    · exact ⟨e, he, hname⟩
  · intro hnamed
    refine ((h.exists_named_iff hs hint).mp hnamed).imp_right ?_
    rintro ⟨e, he, hname, hout | ⟨r, hr, hid, hout⟩⟩
    · refine ⟨e, (h.stayed he).mpr (.inr hout), hname, .inl ?_⟩
      rwa [h.touches_iff hs he hout]
    · have hr₁ := (h.untouched hout).mpr hr
      exact ⟨e, (h.stayed he).mpr (.inl ⟨r, hr₁, hid⟩), hname, .inr ⟨r, hr₁, hid, hout⟩⟩

theorem values_twice (hs₂ : s₂.Sound)
    (hcoherent : ∀ b ∈ l, ∀ b' ∈ l, b.name = b'.name → b.value = b'.value)
    (hagrees : Agrees l s) : s₂.values = s₁.values := by
  have hsame : ∀ e₁ ∈ s₁.equates, ∀ e₂ ∈ s₂.equates, e₂.name = e₁.name →
      e₂.value = e₁.value := by
    intro e₁ he₁ e₂ he₂ hname
    obtain hold | ⟨-, -, b, hb, hname', hvalue⟩ := h'.added he₂
    · rw [hs₁.equates.eq_of_name_eq hold he₁ hname]
    · exact hvalue.trans
        (h.agrees hcoherent hagrees e₁ he₁ b hb (hname.symm.trans hname')).symm
  refine values_eq hs₂ fun name value => ?_
  rw [getElem?_values hs₁]
  constructor
  · rintro ⟨e₁, he₁, rfl, rfl⟩
    obtain ⟨e₂, he₂, hname⟩ := (h.exists_named_twice h' hs hs₁ hint).mpr ⟨e₁, he₁, rfl⟩
    exact ⟨e₂, he₂, hname, hsame e₁ he₁ e₂ he₂ hname⟩
  · rintro ⟨e₂, he₂, rfl, rfl⟩
    obtain ⟨e₁, he₁, hname⟩ := (h.exists_named_twice h' hs hs₁ hint).mp ⟨e₂, he₂, rfl⟩
    exact ⟨e₁, he₁, hname, (hsame e₁ he₁ e₂ he₂ hname.symm).symm⟩

end twice

end Bound

/-! ### Bindings that find their equates in place -/

/-- The operand of the binding holds one reference, to an equate of its name. -/
def Holds (s : Store) (b : Binding) : Prop :=
  ∃ r, (∀ r', s.Refers r' ∧ r'.StandsAt b.address b.operand ↔ r' = r) ∧
    ∃ e ∈ s.equates, e.id = r.equate ∧ e.name = b.name

/-- `s'` has the equates of `s`, and no more was made known than that references went and came. -/
structure Refreshed (s s' : Store) : Prop where
  equates : s'.equates = s.equates
  changes : ∃ new, s'.changes = new ++ s.changes ∧
    ∀ c ∈ new, (∃ a, c = .referenceRemoved a) ∨ ∃ a, c = .referenceAdded a

namespace Refreshed

theorem refl (s : Store) : Refreshed s s := ⟨rfl, [], rfl, List.forall_mem_nil _⟩

theorem trans {s s₁ s₂ : Store} (h : Refreshed s s₁) (h' : Refreshed s₁ s₂) : Refreshed s s₂ := by
  obtain ⟨new, hnew, honly⟩ := h.changes
  obtain ⟨new', hnew', honly'⟩ := h'.changes
  refine ⟨h'.equates.trans h.equates, new' ++ new, ?_, List.forall_mem_append.mpr ⟨honly', honly⟩⟩
  rw [hnew', hnew, List.append_assoc]

end Refreshed

/-- To fill a slot for the equate that it stands for displaces no other. -/
theorem refreshed_filling {s : Store} (hs : s.Sound) {e : Equate} (he : e ∈ s.equates) {a : Address}
    (ha : a.Mappable) {operand : Int} (hop : 0 ≤ operand ∧ operand ≤ Table.maxOperand)
    {hash : UInt64} (hsame : ∀ r ∈ s.occupants a (.of operand hash), r.equate = e.id) :
    Refreshed s (s.after (s.filling e a operand hash)) := by
  have hnone : ((s.occupants a (.of operand hash)).map Reference.equate).filter (· ≠ e.id) = [] :=
    List.filter_eq_nil_iff.mpr (List.forall_mem_map.mpr fun r hr => by simp [hsame r hr])
  obtain ⟨-, hattach, -⟩ := lawful_append.mp (s.clears_filling hs he ha hop hash).lawful
  obtain ⟨k, -, happ⟩ := Effect.apply_attach hattach
  rw [after_filling, hnone]
  refine ⟨equates_attached s e a operand hash, ?_⟩
  rw [List.map_nil, after_nil, attached, happ]
  refine ⟨.referenceAdded ⟨e.name, e.value, a, operand, hash⟩ ::
    ((s.occupants a (.of operand hash)).map fun r =>
      .referenceRemoved (r.attachment (s.equates.get? r.equate))).reverse, ?_, ?_⟩
  · exact congrArg (_ :: ·) (changes_after_detach s _)
  · refine List.forall_mem_cons.mpr ⟨.inr ⟨_, rfl⟩, fun c hc => .inl ?_⟩
    obtain ⟨r, -, rfl⟩ := List.mem_map.mp (List.mem_reverse.mp hc)
    exact ⟨_, rfl⟩

/-- What holds a binding goes on to do so when others are carried out that are held, too. -/
theorem Bound.holds {s s' : Store} {b b' : Binding} (h : Bound [b] s s') (hb : s.Holds b)
    (hb' : s.Holds b') : s'.Holds b' := by
  obtain ⟨r', hiff', e', he', hid', hname'⟩ := hb'
  by_cases hsame : b.address = b'.address ∧ b.operand = b'.operand
  · obtain ⟨r, hiff, e, he, hid, hname⟩ := hb
    rw [hsame.1, hsame.2] at hiff
    obtain rfl : r' = r := (hiff r').mp ((hiff' r').mpr rfl)
    have heq : e' = e := Option.some.inj <|
      (EquateRows.mem_def.mp he').symm.trans (hid'.trans hid.symm ▸ EquateRows.mem_def.mp he)
    have hlast : Binding.last? [b] b'.address b'.operand = some b := by
      simp [Binding.last?, hsame]
    rw [Holds, ← hname', heq, hname]
    exact h.filled hlast
  · have hlast : Binding.last? [b] b'.address b'.operand = none := by
      simp [Binding.last?, hsame]
    have hrefers : ∀ r, s'.Refers r ∧ r.StandsAt b'.address b'.operand ↔ r = r' := by
      intro r
      rw [← hiff' r]
      exact and_congr_left fun hr => h.refers_iff hlast hr
    have huses : s'.Uses e'.id := ⟨r', ((hrefers r').mpr rfl).1, hid'.symm⟩
    exact ⟨r', hrefers, e', (h.stayed he').mpr (.inl huses), hid', hname'⟩

end Store

namespace Table

/-- A binding that is held finds its equate, and displaces no other. -/
theorem bindOperand_refreshes {s : Store} (hs : s.Sound) {b : Binding} (hb : b.Fits)
    (hheld : s.Holds b) :
    ∃ l, Attempt.Enacts (bindOperand b) s l (.ok ()) ∧ s.Refreshed (s.after l) := by
  obtain ⟨r, hiff, e, he, hid, hname⟩ := hheld
  have hop : 0 ≤ (b.operand : Int) ∧ (b.operand : Int) ≤ maxOperand :=
    ⟨Int.natCast_nonneg _, hb.operand⟩
  have hm := obtain_enacts_of_mem hs he hname b.value
  have hfill := fillSlot_enacts hs he hb.address hop 0
  refine ⟨_, Enacts.bind_read hm (Enacts.bind hfill (Enacts.pure _ ())), ?_⟩
  rw [List.append_nil]
  refine Store.refreshed_filling hs he hb.address hop fun r' hr' => ?_
  obtain rfl := (hiff r').mp ((Store.mem_occupants hs).mp hr')
  exact hid.symm

variable {t : Table} (ht : t.Sound) (hp : t.plan = .none)
include ht hp

theorem bindOperand_again {b : Binding} (hb : b.Fits) (hheld : t.store.Holds b) :
    ∃ t', (submission b).run t = (.ok (), t') ∧ (t'.Sound ∧ t'.plan = .none) ∧
      t.store.Refreshed t'.store ∧ ∀ b', t.store.Holds b' → t'.store.Holds b' := by
  obtain ⟨t', s', hrun, hbecomes, hbound⟩ := bindOperand_run ht hp hb
  obtain ⟨l, hm, hrefreshed⟩ := bindOperand_refreshes ht.store hb hheld
  have hafter : t'.store = t.store.after l := by
    have hb := ((hm t ht.has).run hp).2.store
    rwa [show (Attempt.on (bindOperand b) t).2 = t' from congrArg Prod.snd hrun] at hb
  refine ⟨t', hrun, ⟨hbecomes.sound, hbecomes.frame.plan.trans hp⟩, hafter ▸ hrefreshed, ?_⟩
  rw [hbecomes.store]
  exact fun b' hb' => hbound.holds hheld hb'

/-- Bindings that are all held keep the equates. -/
theorem carry_again {l : List Binding} (hl : ∀ b ∈ l, b.Fits) (hheld : ∀ b ∈ l, t.store.Holds b) :
    ∃ t', Scan.carry submission l t = (.ok (), t') ∧ t.store.Refreshed t'.store := by
  let I (c : Table) : Prop := (c.Sound ∧ c.plan = .none) ∧ ∀ b ∈ l, c.store.Holds b
  have hbind : ∀ {b : Binding} {c : Table}, b ∈ l → I c →
      ∃ c', (submission b).run c = (.ok (), c') ∧ I c' ∧ c.store.Refreshed c'.store := by
    rintro b c hb ⟨⟨hc, hpc⟩, hheld⟩
    obtain ⟨c', hrun, hc', hrefreshed, hkeeps⟩ := bindOperand_again hc hpc (hl b hb) (hheld b hb)
    exact ⟨c', hrun, ⟨hc', fun b' hb' => hkeeps b' (hheld b' hb')⟩, hrefreshed⟩
  obtain ⟨t', hcarry, -, hrefreshed⟩ :=
    Scan.carry_of_forall (I := I) (P := (· ∈ l))
      (R := fun _ (c c' : Table) => c.store.Refreshed c'.store) (fun c => .refl c.store)
      (fun _ h h' => h.trans h') hbind (fun _ hb => hb) ⟨⟨ht, hp⟩, hheld⟩
  exact ⟨t', hcarry, hrefreshed⟩

end Table

/-! ### The bindings of a listing -/

namespace Scan

/-- Derived names tell the values apart. -/
theorem value_eq_of_mem_bindings {type : EnumType} {parts : Bool} {l : List Instruction}
    {b b' : Binding} (hb : b ∈ bindings type parts l) (hb' : b' ∈ bindings type parts l)
    (hname : b.name = b'.name) : b.value = b'.value := by
  obtain ⟨insn, -, o, i, -, v, -, -, rfl⟩ := mem_bindings.mp hb
  obtain ⟨insn', -, o', i', -, v', -, -, rfl⟩ := mem_bindings.mp hb'
  exact congrArg DerivedName.value (DerivedName.text_injective hname)

/-- An operand that is bound as a whole has one binding. -/
theorem last?_of_mem_bindings {type : EnumType} {l : List Instruction}
    (hl : l.Pairwise (·.address < ·.address)) {b : Binding} (hb : b ∈ bindings type false l) :
    Binding.last? (bindings type false l) b.address b.operand = some b := by
  obtain ⟨insn, hinsn, o, i, ho, v, hv, hmatch, rfl⟩ := mem_bindings.mp hb
  have hlast : Binding.last? (bindings type false l) insn.address i =
      (o.lastMatch? type false).map (binding type insn.address i) := last?_bindings hl hinsn ho
  have hscalars : o.scalars false = [v] := by
    rw [Operand.scalars, if_neg Bool.false_ne_true] at hv ⊢
    rw [Option.mem_toList.mp hv]
    rfl
  have hlastMatch : o.lastMatch? type false = some v := by
    rw [Operand.lastMatch?, hscalars, List.filter_singleton, decide_eq_true hmatch]
    rfl
  rw [hlastMatch] at hlast
  exact hlast

end Scan

/-! ### Annotations that go through -/

/-- Where not all bindings fit, there is a first one that does not. -/
theorem Binding.exists_first_unfit {l : List Binding} (h : ¬ ∀ b ∈ l, b.Fits) :
    ∃ fit b rest, l = fit ++ b :: rest ∧ (∀ b' ∈ fit, b'.Fits) ∧ ¬ b.Fits := by
  classical
  push Not at h
  obtain ⟨b, hb, hunfit⟩ := h
  cases hfind : l.find? fun b => decide (¬ b.Fits) with
  | none => exact absurd (decide_eq_true hunfit) (List.find?_eq_none.mp hfind b hb)
  | some b' =>
    obtain ⟨hb', fit, rest, hsplit, hfit⟩ := List.find?_eq_some_iff_append.mp hfind
    exact ⟨fit, b', rest, hsplit, fun b hb => by simpa using hfit b hb, of_decide_eq_true hb'⟩

/-- An annotation that is completed has carried out the bindings of all instructions. -/
theorem Step.annotate_completed {t : Table} {listing : Listing} {registry : TypeRegistry}
    (hlisting : t.listing = some listing) (hregistry : t.registry = some registry)
    (set : AddressSet) {type : EnumType} (parts : Bool) (monitor : Monitor) (ht : t.Sound)
    (hp : t.plan = .none) :
    let x : Step := ⟨monitor, .annotate set type parts⟩
    let l := Scan.bindings { type with id := (registry.resolve type).1.id } parts
      (listing.within set)
    x.answer t = .outcome .completed →
      (∀ b ∈ l, b.Fits) ∧ t.store.Bound l (x.behind t).store ∧
        (x.behind t).store = (Scan.carry Table.submission l (x.start t)).2.store ∧
        (x.behind t).listing = some listing ∧
        (x.behind t).registry =
          some (if l = [] then registry else (registry.resolve type).2) := by
  intro x l hcompleted
  have hnot : ¬ x.Refused t := by
    rintro ⟨d, hanswer, -⟩
    cases hcompleted.symm.trans hanswer
  have hlength : 1 ≤ type.length ∧ type.length ≤ 8 := by
    by_contra h
    exact hnot (annotate_unsupported hlisting hregistry set parts monitor h).1
  obtain ⟨done, outcome, hv, haccepted, hrefused⟩ :=
    annotate_carried hlisting hregistry set parts monitor ht hp hlength
  by_cases hfits : ∀ b ∈ Scan.bindings { type with id := (registry.resolve type).1.id } parts done,
      b.Fits
  · obtain ⟨hanswer, hrest⟩ := haccepted hfits
    obtain rfl : outcome = .completed := Answer.outcome.inj (hanswer.symm.trans hcompleted)
    obtain ⟨-, rfl⟩ | ⟨ho, -⟩ := hv.ended
    · exact ⟨hfits, hrest⟩
    · cases ho
  · obtain ⟨fit, b, rest, hsplit, hfit, hb⟩ := Binding.exists_first_unfit hfits
    exact absurd (hrefused fit b rest hsplit hfit hb).1 hnot

namespace Session

/-- Behind every session and with no storage call failing: an annotation that is completed, and is
then completed again, leaves the registry, the uses and, if the stored equates of derived names have
their values, the values as they were after the first time; the registry has been asked more often.
Where operands are bound as a whole the values are the same in any case, since the equates are, with
their keys, and only references are made known to have gone and come. -/
theorem rescan_idempotent {t : Table} (ht : Reached t) {listing : Listing}
    {registry : TypeRegistry} (hfaithful : registry.Faithful) {set : AddressSet}
    (hsorted : (listing.within set).Pairwise (·.address < ·.address)) (type : EnumType)
    (parts : Bool) (first second : Monitor) :
    let before : Table := { t with
      plan := .none, listing := some listing, registry := some registry }
    let x : Step := ⟨first, .annotate set type parts⟩
    let y : Step := ⟨second, .annotate set type parts⟩
    let once := x.behind before
    let twice := y.behind once
    x.answer before = .outcome .completed → y.answer once = .outcome .completed →
      twice.registry.map (·.uncounted) = once.registry.map (·.uncounted) ∧
        (∀ u, u ∈ twice.store.uses ↔ u ∈ once.store.uses) ∧
        ((∀ e ∈ before.equates.toList, ∀ v, e.name = (DerivedName.mk type.id v).text →
          e.value = v) → twice.store.values = once.store.values) ∧
        (parts = false → twice.store.values = once.store.values ∧ twice.equates = once.equates ∧
          ∀ c ∈ y.changes once, (∃ a, c = .referenceRemoved a) ∨ ∃ a, c = .referenceAdded a) := by
  intro before x y once twice hcompleted hagain
  have hbefore : before.Sound := ht.sound.equip FaultPlan.loud_none (some listing) (some registry)
  have hint : before.store.Integral := ht.integral
  have honce : once.Sound := (x.settles hbefore).sound
  have hplan : once.plan = .none := (x.settles hbefore).plan
  have htwice : twice.Sound := (y.settles honce).sound
  obtain ⟨hfits, hbound, -, hlisting, hregistry⟩ :=
    Step.annotate_completed rfl rfl set parts first hbefore rfl hcompleted
  rw [hfaithful.named_eq] at hfits hbound hregistry
  obtain ⟨-, hbound', hstore, -, hregistry'⟩ :=
    Step.annotate_completed hlisting hregistry set parts second honce hplan hagain
  -- The registry goes on to store the type under its own identity.
  have hfaithful' : TypeRegistry.Faithful
      (if Scan.bindings type parts (listing.within set) = [] then registry
        else (registry.resolve type).2) := by
    split
    · exact hfaithful
    · exact hfaithful.resolve type
  rw [hfaithful'.named_eq] at hbound' hstore hregistry'
  have hcoherent : ∀ b ∈ Scan.bindings type parts (listing.within set),
      ∀ b' ∈ Scan.bindings type parts (listing.within set), b.name = b'.name →
        b.value = b'.value :=
    fun b hb b' hb' hname => Scan.value_eq_of_mem_bindings hb hb' hname
  refine ⟨?_, fun u => ?_, fun hvalues => ?_, ?_⟩
  · rw [show twice.registry = _ from hregistry', show once.registry = _ from hregistry]
    split
    · rfl
    · exact congrArg some (hfaithful.uncounted_resolve_resolve type)
  · exact hbound.mem_uses_twice hbound' hbefore.store honce.store hint htwice.store
  · refine hbound.values_twice hbound' hbefore.store honce.store hint htwice.store hcoherent ?_
    intro e he b hb hname
    obtain ⟨insn, -, o, i, -, v, -, -, rfl⟩ := Scan.mem_bindings.mp hb
    exact hvalues e (hbefore.store.equates.mem_toList.mpr he) v.value hname
  · rintro rfl
    have hheld : ∀ b ∈ Scan.bindings type false (listing.within set), once.store.Holds b :=
      fun b hb => hbound.filled (Scan.last?_of_mem_bindings hsorted hb)
    obtain ⟨c, hcarry, hrefreshed⟩ :=
      Table.carry_again (y.sound_start honce) hplan hfits hheld
    rw [hcarry] at hstore
    have hequates : twice.equates = once.equates :=
      (congrArg Store.equates hstore).trans hrefreshed.equates
    obtain ⟨new, hnew, honly⟩ := hrefreshed.changes
    have hchanges : twice.store.changes = new :=
      (congrArg Store.changes hstore).trans (hnew.trans (List.append_nil new))
    refine ⟨?_, hequates, fun c hc => honly c ?_⟩
    · rw [Store.values, Store.values, show twice.store.equates = once.store.equates from hequates]
    · rw [← hchanges]
      exact List.mem_reverse.mp hc

/-- Of two parts of one operand the second one displaces the equate of the first. -/
def contested : Listing where
  instructions := [⟨⟨0, 16⟩, [.compound [.scalar (byte 1), .scalar (byte 2)]]⟩]

/-- Both equates of the operand are stored again, under new keys; those of whole operands stay. -/
theorem rescan_idempotent_contested :
    let start (listing : Listing) : Table := { oneUsed with
      plan := .none, listing := some listing, registry := some {} }
    let x (parts : Bool) : Step := ⟨{}, .annotate lowAddresses oneOrTwo parts⟩
    let once := (x true).behind (start contested)
    let whole := (x false).behind (start recurring)
    Reached oneUsed ∧ TypeRegistry.Faithful {} ∧
      (contested.within lowAddresses).Pairwise (·.address < ·.address) ∧
      (recurring.within lowAddresses).Pairwise (·.address < ·.address) ∧
      (x true).answer (start contested) = .outcome .completed ∧
      (x true).answer once = .outcome .completed ∧
      (x false).answer (start recurring) = .outcome .completed ∧
      (x false).answer whole = .outcome .completed ∧
      once.equates.toList = [⟨2, "two", 2⟩, ⟨4, "dtID:7:2", 2⟩] ∧
      ((x true).behind once).equates.toList = [⟨2, "two", 2⟩, ⟨6, "dtID:7:2", 2⟩] ∧
      ((x true).behind once).store.values = once.store.values ∧
      (∀ u, u ∈ ((x true).behind once).store.uses ↔ u ∈ once.store.uses) ∧
      ((x false).behind whole).equates = whole.equates := by
  intro start x once whole
  have ht : Reached oneUsed := ⟨.none, FaultPlan.loud_none, 1, 0, none, none, _, rfl⟩
  have hfaithful : TypeRegistry.Faithful {} := ⟨fun h => by simp at h, rfl⟩
  have hcontested : (contested.within lowAddresses).Pairwise (·.address < ·.address) := by decide
  have hrecurring : (recurring.within lowAddresses).Pairwise (·.address < ·.address) := by decide
  have hanswer : (x true).answer (start contested) = .outcome .completed := by decide +kernel
  have hagain : (x true).answer once = .outcome .completed := by decide +kernel
  have hanswer' : (x false).answer (start recurring) = .outcome .completed := by decide +kernel
  have hagain' : (x false).answer whole = .outcome .completed := by decide +kernel
  have hstart : (start contested).equates.toList = [⟨1, "one", 1⟩, ⟨2, "two", 2⟩] := by
    decide +kernel
  have honce : once.equates.toList = [⟨2, "two", 2⟩, ⟨4, "dtID:7:2", 2⟩] := by decide +kernel
  have htwice : ((x true).behind once).equates.toList = [⟨2, "two", 2⟩, ⟨6, "dtID:7:2", 2⟩] := by
    decide +kernel
  have hvalues : ∀ e ∈ (start contested).equates.toList, ∀ v,
      e.name = (DerivedName.mk oneOrTwo.id v).text → e.value = v := by
    -- None of the stored names is a derived one.
    have hplain : ∀ e ∈ (start contested).equates.toList, DerivedName.ofText? e.name = none := by
      rw [hstart]
      decide +kernel
    intro e he v hname
    have hnone := hplain e he
    rw [hname, DerivedName.ofText?_text] at hnone
    cases hnone
  obtain ⟨-, huses, hsame, -⟩ := rescan_idempotent ht hfaithful hcontested oneOrTwo true {} {}
    hanswer hagain
  obtain ⟨-, -, -, hwhole⟩ := rescan_idempotent ht hfaithful hrecurring oneOrTwo false {} {}
    hanswer' hagain'
  exact ⟨ht, hfaithful, hcontested, hrecurring, hanswer, hagain, hanswer', hagain', honce, htwice,
    hsame hvalues, huses, (hwhole rfl).2.1⟩

end Session

end Equates

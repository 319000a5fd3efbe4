/-
Which equates an annotation leaves without references.

A binding stores its equate before it looks at the place of the reference.  Where the place will not
do, the binding is refused and the annotation stops; an equate that was new then stays without any
reference.  So an annotation leaves a new orphan just where the first binding that does not fit has
a name that no equate has by then (`Session.annotation_orphans_iff`).  Which names are taken by
then is told by the bindings before and by what was stored (`Store.NamesBehind`).
-/
import Equates.Proofs.Annotation
import Equates.Proofs.Clearance

namespace Equates

namespace Store

/-- The equate is stored, and no reference to it is. -/
def Orphaned (s : Store) (e : Equate) : Prop :=
  e ∈ s.equates ∧ ¬ s.Uses e.id

/-- Behind the bindings an equate has the name: the last binding of an operand does, or an equate
of the name was stored that they do not touch, or that has a reference elsewhere. -/
def NamesBehind (l : List Binding) (s : Store) (name : String) : Prop :=
  (∃ a i b, Binding.last? l a i = some b ∧ b.name = name) ∨
    ∃ e ∈ s.equates, e.name = name ∧ (¬ Touches l s e ∨
      ∃ r, s.Refers r ∧ r.equate = e.id ∧ ∀ b ∈ l, ¬ r.StandsAt b.address b.operand)

/-! ### Bindings that are carried out -/

namespace Bound

variable {l : List Binding} {s s' : Store} (h : Bound l s s')
include h

/-- What has no reference behind the bindings had none before. -/
theorem orphaned {e : Equate} (he : s'.Orphaned e) : s.Orphaned e := by
  obtain ⟨hmem, hunused⟩ := he
  have hold : e ∈ s.equates := (h.added hmem).resolve_right fun hnew => hunused hnew.2.1
  have hout := ((h.stayed hold).mp hmem).resolve_left hunused
  exact ⟨hold, fun hu => hunused (h.uses_of_not_touches hout hu)⟩

/-- Of a stored reference either the operand is bound, or it was there before. -/
theorem last?_or_refers {r : Reference} (hr : s'.Refers r) :
    (∃ a i b, Binding.last? l a i = some b ∧ ∃ e ∈ s'.equates, e.id = r.equate ∧ e.name = b.name) ∨
      s.Refers r ∧ ∀ b ∈ l, ¬ r.StandsAt b.address b.operand := by
  by_cases hin : ∃ b ∈ l, r.StandsAt b.address b.operand
  · obtain ⟨b, hb, hin⟩ := hin
    obtain ⟨b', hlast⟩ := Option.ne_none_iff_exists'.mp (Binding.last?_ne_none hb)
    obtain ⟨r', hiff, he⟩ := h.filled hlast
    obtain rfl := (hiff r).mp ⟨hr, hin⟩
    exact .inl ⟨_, _, b', hlast, he⟩
  · push Not at hin
    exact .inr ⟨(h.untouched hin).mp hr, hin⟩

/-- References go on to belong to stored equates. -/
theorem integral (hs : s.Sound) (hs' : s'.Sound) (hint : s.Integral) : s'.Integral := by
  intro row hrow
  obtain ⟨r, hd⟩ := hs'.decode hrow
  rw [← (ReferenceRow.decode_eq_ok_iff.mp hd).2.2.2.2]
  have hr : s'.Refers r := ⟨row, hrow, hd⟩
  obtain ⟨-, -, -, -, e, he, hid, -⟩ | ⟨hold, -⟩ := h.last?_or_refers hr
  · exact ⟨e, hid ▸ EquateRows.mem_def.mp he⟩
  · obtain ⟨e, he, hid⟩ := hint.exists_equate hs hold
    have he' : e ∈ s'.equates := (h.stayed he).mpr (.inl ⟨r, hr, hid.symm⟩)
    exact ⟨e, hid ▸ EquateRows.mem_def.mp he'⟩

/-- Which names are taken is told by the store before and by the bindings. -/
theorem exists_named_iff (hs : s.Sound) (hint : s.Integral) {name : String} :
    (∃ e ∈ s'.equates, e.name = name) ↔ NamesBehind l s name := by
  constructor
  · rintro ⟨e, he, rfl⟩
    -- An equate that was touched or is new has a reference that tells where it comes from.
    have hused : s'.Uses e.id → NamesBehind l s e.name := by
      rintro ⟨r, hr, hid⟩
      obtain ⟨a, i, b, hlast, e', he', hid', hname⟩ | ⟨hold, hout⟩ := h.last?_or_refers hr
      · obtain rfl := Option.some.inj <|
          (EquateRows.mem_def.mp he').symm.trans (hid'.trans hid ▸ EquateRows.mem_def.mp he)
        exact .inl ⟨a, i, b, hlast, hname.symm⟩
      · obtain ⟨e', he', hid'⟩ := hint.exists_equate hs hold
        obtain rfl := h.eq_of_id_eq hs he' he (hid.symm.trans hid'.symm)
        exact .inr ⟨e, he', rfl, .inr ⟨r, hold, hid, hout⟩⟩
    obtain hold | hnew := h.added he
    · obtain hu | hout := (h.stayed hold).mp he
      · exact hused hu
      · exact .inr ⟨e, hold, rfl, .inl hout⟩
    · exact hused hnew.2.1
  · rintro (⟨a, i, b, hlast, rfl⟩ | ⟨e, he, rfl, hout | ⟨r, hr, hid, hout⟩⟩)
    · obtain ⟨-, -, e, he, -, hname⟩ := h.filled hlast
      exact ⟨e, he, hname⟩
    · exact ⟨e, (h.stayed he).mpr (.inr hout), rfl⟩
    · exact ⟨e, (h.stayed he).mpr (.inl ⟨r, (h.untouched hout).mpr hr, hid⟩), rfl⟩

end Bound

/-! ### The look for an equate -/

namespace Obtains

variable {s s' : Store} {name : String} {value : Int64} {e : Equate}
  (h : s.Obtains name value e s')
include h

/-- The equate is an old one if its name is taken. -/
theorem mem_iff_named : e ∈ s.equates ↔ ∃ e' ∈ s.equates, e'.name = name := by
  refine ⟨fun he => ⟨e, he, h.name_eq⟩, ?_⟩
  rintro ⟨e', he', hname⟩
  have hsame : e' = e := h.sound.equates.eq_of_name_eq (h.mem_iff.mpr (.inr he'))
    (h.mem_iff.mpr (.inl rfl)) (hname.trans h.name_eq.symm)
  exact hsame ▸ he'

/-- A new equate has no reference yet. -/
theorem orphaned_iff (hs : s.Sound) (hint : s.Integral) {e' : Equate} :
    s'.Orphaned e' ↔ s.Orphaned e' ∨ e' = e ∧ e ∉ s.equates := by
  rw [Orphaned, Orphaned, h.mem_iff, uses_congr h.references]
  constructor
  · rintro ⟨rfl | he', hunused⟩
    · exact (Classical.em (e' ∈ s.equates)).imp (⟨·, hunused⟩) (⟨rfl, ·⟩)
    · exact .inl ⟨he', hunused⟩
  · rintro (⟨he', hunused⟩ | ⟨rfl, hnew⟩)
    · exact ⟨.inr he', hunused⟩
    · refine ⟨.inl rfl, ?_⟩
      rintro ⟨r, hr, hid⟩
      -- Old references belong to old equates, which have smaller keys.
      obtain ⟨e₀, he₀, hid₀⟩ := hint.exists_equate hs hr
      have hnext := (h.found_or_new.resolve_left hnew).1
      exact absurd (hs.equates.lt_next he₀) (not_lt_of_ge (hid₀.trans hid ▸ hnext))

end Obtains

end Store

theorem Table.Sound.orphaned_iff {t : Table} (ht : t.Sound) {l : List Reference}
    (hl : t.references.StandFor l) {e : Equate} :
    t.store.Orphaned e ↔ e ∈ t.equates.toList ∧ ∀ r ∈ l, r.equate ≠ e.id := by
  rw [Store.Orphaned, ← ht.store.equates.mem_toList]
  simp only [Store.Uses, ← ht.store.mem_iff_refers hl]
  push Not
  exact Iff.rfl

namespace Step

/-- What has no reference behind the step had none before, either. -/
def LeavesNoOrphan (x : Step) (t : Table) : Prop :=
  ∀ e, (x.behind t).store.Orphaned e → t.store.Orphaned e

/-- Just the equate of a binding that is refused may have been left without references. -/
theorem annotate_orphans {t : Table} {listing : Listing} {registry : TypeRegistry}
    (hlisting : t.listing = some listing) (hregistry : t.registry = some registry)
    (set : AddressSet) {type : EnumType} (parts : Bool) (monitor : Monitor) (ht : t.Sound)
    (hp : t.plan = .none) (hlength : 1 ≤ type.length ∧ type.length ≤ 8)
    (hint : t.store.Integral) :
    let x : Step := ⟨monitor, .annotate set type parts⟩
    ∃ done outcome, Scan.Visits monitor (listing.within set) done outcome ∧
      let l := Scan.bindings { type with id := (registry.resolve type).1.id } parts done
      ((∀ b ∈ l, b.Fits) → x.answer t = .outcome outcome ∧ x.LeavesNoOrphan t) ∧
      ∀ fit b rest, l = fit ++ b :: rest → (∀ b' ∈ fit, b'.Fits) → ¬ b.Fits →
        x.Refused t ∧ (x.LeavesNoOrphan t ↔ t.store.NamesBehind fit b.name) ∧
          ∀ e, (x.behind t).store.Orphaned e →
            t.store.Orphaned e ∨ e.name = b.name ∧ e.value = b.value := by
  intro x
  obtain ⟨done, outcome, hv, haccepted, hrefused⟩ :=
    annotate_carried hlisting hregistry set parts monitor ht hp hlength
  refine ⟨done, outcome, hv, ?_⟩
  intro l
  constructor
  · intro hl
    obtain ⟨hanswer, hbound, -⟩ := haccepted hl
    exact ⟨hanswer, fun _ => hbound.orphaned⟩
  · rintro fit b rest hsplit hfit hb
    obtain ⟨hanswer, e, mid, hmid, hbound, hobtains⟩ := hrefused fit b rest hsplit hfit hb
    -- The references before the refusal belong to equates, as they did at the start.
    have hmint : mid.Integral := hbound.integral ht.store hmid hint
    have horphaned : ∀ e', (x.behind t).store.Orphaned e' ↔
        mid.Orphaned e' ∨ e' = e ∧ e ∉ mid.equates :=
      fun e' => hobtains.orphaned_iff hmid hmint
    have hnamed : e ∈ mid.equates ↔ t.store.NamesBehind fit b.name :=
      hobtains.mem_iff_named.trans (hbound.exists_named_iff ht.store hint)
    refine ⟨hanswer, ⟨fun hleaves => ?_, fun htaken e' he' => ?_⟩, fun e' he' => ?_⟩
    · by_contra htaken
      have hnew : e ∉ mid.equates := mt hnamed.mp htaken
      have hnext := (hobtains.found_or_new.resolve_left hnew).1
      have hold := hleaves e ((horphaned e).mpr (.inr ⟨rfl, hnew⟩))
      exact absurd (ht.store.equates.lt_next hold.1)
        (not_lt_of_ge (le_trans hbound.next hnext))
    · obtain he' | ⟨-, hnew⟩ := (horphaned e').mp he'
      · exact hbound.orphaned he'
      · exact absurd (hnamed.mpr htaken) hnew
    · obtain he' | ⟨rfl, hnew⟩ := (horphaned e').mp he'
      · exact .inl (hbound.orphaned he')
      · exact .inr ⟨hobtains.name_eq, (hobtains.found_or_new.resolve_left hnew).2⟩

end Step

namespace Session

/-- Behind every session and with no storage call failing: an annotation leaves an orphan that was
none before just where it comes to a binding that does not fit, and no equate has its name by then.
That equate is the only such orphan. -/
theorem annotation_orphans_iff {t : Table} (ht : Reached t) (listing : Listing)
    (registry : TypeRegistry) (set : AddressSet) (type : EnumType) (parts : Bool)
    (monitor : Monitor) :
    let before : Table := { t with
      plan := .none, listing := some listing, registry := some registry }
    let x : Step := ⟨monitor, .annotate set type parts⟩
    let Supported := 1 ≤ type.length ∧ type.length ≤ 8
    (¬ Supported → x.Refused before ∧ x.LeavesNoOrphan before) ∧
      (Supported → ∃ done outcome, Scan.Visits monitor (listing.within set) done outcome ∧
        let l := Scan.bindings { type with id := (registry.resolve type).1.id } parts done
        ((∀ b ∈ l, b.Fits) → x.answer before = .outcome outcome ∧ x.LeavesNoOrphan before) ∧
        ∀ fit b rest, l = fit ++ b :: rest → (∀ b' ∈ fit, b'.Fits) → ¬ b.Fits →
          x.Refused before ∧
            (x.LeavesNoOrphan before ↔ before.store.NamesBehind fit b.name) ∧
            ∀ e, (x.behind before).store.Orphaned e →
              before.store.Orphaned e ∨ e.name = b.name ∧ e.value = b.value) := by
  intro before x Supported
  have hbefore : before.Sound := ht.sound.equip FaultPlan.loud_none (some listing) (some registry)
  refine ⟨fun hlength => ?_, fun hlength => ?_⟩
  · obtain ⟨hrefused, hbehind⟩ := Step.annotate_unsupported (t := before) rfl rfl set parts monitor
      hlength
    refine ⟨hrefused, fun e he => ?_⟩
    rw [hbehind] at he
    exact he
  · exact Step.annotate_orphans rfl rfl set parts monitor hbefore rfl hlength ht.integral

/-- A place without a storage key. -/
def beyond : Address := ⟨0, 281474976710656⟩

/-- The operand of the second instruction can not be bound. -/
def halfway : Listing where
  instructions := [⟨⟨0, 16⟩, [.whole (byte 1)]⟩, ⟨beyond, [.whole (byte 1)]⟩]

def anywhere : AddressSet := ⟨[⟨⟨0, 0⟩, beyond⟩]⟩

/-- Both operands have one name, which is taken when the second one is refused. -/
theorem annotation_orphans_iff_halfway :
    let before : Table := { oneUsed with
      plan := .none, listing := some halfway, registry := some {} }
    let x : Step := ⟨{}, .annotate anywhere oneOrTwo false⟩
    Reached oneUsed ∧ (1 ≤ oneOrTwo.length ∧ oneOrTwo.length ≤ 8) ∧
      ¬ Binding.Fits ⟨"dtID:7:1", 1, beyond, 0⟩ ∧ x.Refused before ∧ x.LeavesNoOrphan before := by
  intro before x
  have ht : Reached oneUsed := ⟨.none, FaultPlan.loud_none, 1, 0, none, none, _, rfl⟩
  have hlength : 1 ≤ oneOrTwo.length ∧ oneOrTwo.length ≤ 8 := by decide
  obtain ⟨done, outcome, hv, -, hrefused⟩ :=
    (annotation_orphans_iff ht halfway {} anywhere oneOrTwo false {}).2 hlength
  obtain ⟨-, rfl⟩ | ⟨-, hask, -⟩ := hv.ended
  · have hsplit : Scan.bindings { oneOrTwo with id := (TypeRegistry.resolve {} oneOrTwo).1.id } false
        (halfway.within anywhere) =
          [⟨"dtID:7:1", 1, ⟨0, 16⟩, 0⟩] ++ ⟨"dtID:7:1", 1, beyond, 0⟩ :: [] := by decide +kernel
    have hfit : Binding.Fits ⟨"dtID:7:1", 1, ⟨0, 16⟩, 0⟩ := ⟨by decide, by decide, by decide⟩
    have hunfit : ¬ Binding.Fits ⟨"dtID:7:1", 1, beyond, 0⟩ := fun h => absurd h.address (by decide)
    obtain ⟨hanswer, hiff, -⟩ :=
      hrefused _ _ _ hsplit (List.forall_mem_singleton.mpr hfit) hunfit
    refine ⟨ht, hlength, hunfit, hanswer, hiff.mpr (.inl ?_)⟩
    exact ⟨⟨0, 16⟩, 0, ⟨"dtID:7:1", 1, ⟨0, 16⟩, 0⟩, by decide, rfl⟩
  · rw [Monitor.asks_eq] at hask
    cases hask

/-- The only operand can not be bound. -/
def stranded : Table :=
  Table.opened 1 0 .none (some ⟨[⟨beyond, [.whole (byte 1)]⟩]⟩) (some {})

/-- The equate of an operand that can not be bound stays without references. -/
theorem annotation_leaves_orphan :
    let x : Step := ⟨{}, .annotate anywhere oneOrTwo false⟩
    Reached stranded ∧ x.Refused stranded ∧ stranded.equates.toList = [] ∧
      (x.behind stranded).equates.toList = [⟨1, "dtID:7:1", 1⟩] ∧
      (x.behind stranded).references.StandFor [] ∧ ¬ x.LeavesNoOrphan stranded := by
  intro x
  have ht : Reached stranded :=
    ⟨.none, FaultPlan.loud_none, 1, 0, some ⟨[⟨beyond, [.whole (byte 1)]⟩]⟩, some {}, [], rfl⟩
  have hanswer : x.answer stranded =
      .failed (Problem.diagnostic (.unmappable beyond)) := by decide +kernel
  have hempty : stranded.equates.toList = [] := by decide +kernel
  have hequates : (x.behind stranded).equates.toList = [⟨1, "dtID:7:1", 1⟩] := by decide +kernel
  have hreferences : (x.behind stranded).references.StandFor [] := by
    rw [ReferenceRows.StandFor]
    decide +kernel
  refine ⟨ht, ⟨_, hanswer, rfl⟩, hempty, hequates, hreferences, fun hleaves => ?_⟩
  have hstored : stranded.references.StandFor [] := by
    rw [ReferenceRows.StandFor]
    decide +kernel
  have hbehind : (x.behind stranded).Sound := (x.settles ht.sound).sound
  have horphaned : (x.behind stranded).store.Orphaned ⟨1, "dtID:7:1", 1⟩ := by
    rw [hbehind.orphaned_iff hreferences, hequates]
    exact ⟨List.mem_singleton_self _, List.forall_mem_nil _⟩
  have hold := hleaves _ horphaned
  rw [ht.sound.orphaned_iff hstored, hempty] at hold
  exact List.not_mem_nil hold.1

end Session

end Equates

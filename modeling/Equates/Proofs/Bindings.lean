/-
What the bindings of a scan make of the store.

`Store.Bound l s s'` says how `s'` comes from `s` by the bindings `l`, carried out in order:
each slot that is bound holds one reference, to an equate with the name of the last binding
there, and every other slot holds what it held.  Of the equates, those go that were touched, in a
bound slot or by a binding of their own name, and are not in use in the end; the new ones have the
name and the value of a binding, and are in use.

An equate that was defined for one binding may be displaced by the next one, pruned, and defined
again by a third; so nothing is said of the stores in between.  What carries the composition
(`Store.Bound.trans`) is that keys are not handed out twice.

* `Store.Obtains.bound` — one binding;
* `Table.bindOperand_enacts` — the attempt that a scan makes at each matching scalar.
-/
import Equates.Proofs.Store.Filling
import Equates.Proofs.Table.Slot
import Equates.Proofs.Visits
import Equates.Table.Annotate

namespace Equates

open Attempt

/-- The reference occupies the operand `i` at `a` as a whole. -/
def Reference.StandsAt (r : Reference) (a : Address) (i : Nat) : Prop :=
  r.address = a ∧ r.slot = .operand i

namespace Binding

/-- The binding can be carried out. -/
structure Fits (b : Binding) : Prop where
  address : b.address.Mappable
  operand : (b.operand : Int) ≤ Table.maxOperand
  name : Name.validate b.name = .ok ()

end Binding

namespace Store

/-- A reference to the equate stands in a slot that is bound, or a binding has its name. -/
def Touches (l : List Binding) (s : Store) (e : Equate) : Prop :=
  (∃ r, s.Refers r ∧ r.equate = e.id ∧ ∃ b ∈ l, r.StandsAt b.address b.operand) ∨
    ∃ b ∈ l, b.name = e.name

/-- `s'` is what the bindings make of `s`. -/
structure Bound (l : List Binding) (s s' : Store) : Prop where
  filled : ∀ {a i b}, Binding.last? l a i = some b →
    ∃ r, (∀ r', s'.Refers r' ∧ r'.StandsAt a i ↔ r' = r) ∧
      ∃ e ∈ s'.equates, e.id = r.equate ∧ e.name = b.name
  untouched : ∀ {r : Reference}, (∀ b ∈ l, ¬ r.StandsAt b.address b.operand) →
    (s'.Refers r ↔ s.Refers r)
  stayed : ∀ {e}, e ∈ s.equates → (e ∈ s'.equates ↔ s'.Uses e.id ∨ ¬ Touches l s e)
  added : ∀ {e}, e ∈ s'.equates → e ∈ s.equates ∨
    s.equates.next ≤ e.id ∧ s'.Uses e.id ∧ ∃ b ∈ l, e.name = b.name ∧ e.value = b.value
  next : s.equates.next ≤ s'.equates.next

theorem touches_append {l l' : List Binding} {s : Store} {e : Equate} :
    Touches (l ++ l') s e ↔ Touches l s e ∨ Touches l' s e := by
  simp only [Touches, List.mem_append, or_and_right, exists_or, and_or_left]
  exact or_or_or_comm

namespace Bound

section

variable {l : List Binding} {s s' : Store} (h : Bound l s s')
include h

/-- An operand that is not bound holds what it held. -/
theorem refers_iff {a : Address} {i : Nat} (hlast : Binding.last? l a i = none) {r : Reference}
    (hr : r.StandsAt a i) : s'.Refers r ↔ s.Refers r := by
  refine h.untouched fun b hb hin => Binding.last?_ne_none hb ?_
  have hi : (i : Int) = b.operand := Slot.operand.inj (hr.2.symm.trans hin.2)
  rw [← hin.1, hr.1, ← Int.ofNat.inj hi, hlast]

/-- A reference in a slot that is bound belongs to the equate of a binding. -/
theorem equate_of_standsAt {b : Binding} (hb : b ∈ l) {r : Reference} (hr : s'.Refers r)
    (hin : r.StandsAt b.address b.operand) :
    ∃ e ∈ s'.equates, e.id = r.equate ∧ ∃ b' ∈ l, b'.name = e.name := by
  obtain ⟨b', hlast⟩ := Option.ne_none_iff_exists'.mp (Binding.last?_ne_none hb)
  obtain ⟨r', hiff, e, he, hid, hname⟩ := h.filled hlast
  obtain rfl := (hiff r).mp ⟨hr, hin⟩
  exact ⟨e, he, hid, b', (Binding.of_last? hlast).1, hname.symm⟩

/-- Keys are not handed out twice. -/
theorem eq_of_id_eq (hs : s.Sound) {e e' : Equate} (he : e ∈ s.equates) (he' : e' ∈ s'.equates)
    (hid : e'.id = e.id) : e' = e := by
  obtain hmem | ⟨hnext, -⟩ := h.added he'
  · rw [EquateRows.mem_def, hid, EquateRows.mem_def.mp he] at hmem
    exact (Option.some.inj hmem).symm
  · exact absurd (hid ▸ hs.equates.lt_next he) (not_lt_of_ge hnext)

theorem mem_of_mem {e : Equate} (he : e.id < s.equates.next)
    (he' : e ∈ s'.equates) : e ∈ s.equates :=
  (h.added he').resolve_right fun hnew => absurd hnew.1 (not_le_of_gt he)

/-- The references to an equate that is not touched stay. -/
theorem uses_of_not_touches {e : Equate} (ht : ¬ Touches l s e) (hu : s.Uses e.id) :
    s'.Uses e.id := by
  obtain ⟨r, hr, hid⟩ := hu
  refine ⟨r, (h.untouched fun b hb hin => ht ?_).mpr hr, hid⟩
  exact .inl ⟨r, hr, hid, b, hb, hin⟩

/-- For an equate that is not touched, it makes no difference which of the stores others touch. -/
theorem touches_iff (hs : s.Sound) {e : Equate} (he : e ∈ s.equates) (ht : ¬ Touches l s e)
    (l' : List Binding) : Touches l' s' e ↔ Touches l' s e := by
  have hout : ∀ {r : Reference}, s.Refers r ∨ s'.Refers r → r.equate = e.id →
      ∀ b ∈ l, ¬ r.StandsAt b.address b.operand := by
    rintro r (hr | hr) hid b hb hin
    · exact ht (.inl ⟨r, hr, hid, b, hb, hin⟩)
    · -- The slot holds a reference to an equate of a binding, which this one is not.
      obtain ⟨e', he', hid', b', hb', hname⟩ := h.equate_of_standsAt hb hr hin
      obtain rfl := h.eq_of_id_eq hs he he' (hid'.trans hid)
      exact ht (.inr ⟨b', hb', hname⟩)
  refine or_congr_left (exists_congr fun r => ?_)
  constructor
  · rintro ⟨hr, hid, hin⟩
    exact ⟨(h.untouched (hout (.inr hr) hid)).mp hr, hid, hin⟩
  · rintro ⟨hr, hid, hin⟩
    exact ⟨(h.untouched (hout (.inl hr) hid)).mpr hr, hid, hin⟩

end

protected theorem refl (s : Store) : Bound [] s s where
  filled h := by simp [Binding.last?] at h
  untouched _ := Iff.rfl
  stayed he := by simp [he, Touches]
  added := .inl
  next := le_refl _

section trans

variable {l l' : List Binding} {s s₁ s₂ : Store} (h : Bound l s s₁) (h' : Bound l' s₁ s₂)
  (hs : s.Sound)
include h h' hs

/-- An equate that is in use in the end has been there all the while. -/
theorem mem_of_uses {e : Equate} (he : e ∈ s.equates) (hu : s₂.Uses e.id) : e ∈ s₁.equates := by
  obtain ⟨r, hr, hid⟩ := hu
  by_cases hin : ∃ b ∈ l', r.StandsAt b.address b.operand
  · obtain ⟨b, hb, hin⟩ := hin
    obtain ⟨e', he', hid', -⟩ := h'.equate_of_standsAt hb hr hin
    have hlt : e'.id < s₁.equates.next := by
      rw [hid', hid]
      exact lt_of_lt_of_le (hs.equates.lt_next he) h.next
    -- The equate was not added by the second bindings, and so it was there before.
    have hmem := h'.mem_of_mem hlt he'
    exact h.eq_of_id_eq hs he hmem (hid'.trans hid) ▸ hmem
  · refine (h.stayed he).mpr (.inl ⟨r, ?_, hid⟩)
    exact (h'.untouched fun b hb hb' => hin ⟨b, hb, hb'⟩).mp hr

theorem stayed_trans {e : Equate} (he : e ∈ s.equates) :
    e ∈ s₂.equates ↔ s₂.Uses e.id ∨ ¬ Touches (l ++ l') s e := by
  constructor
  · intro he₂
    have hlt : e.id < s₁.equates.next := lt_of_lt_of_le (hs.equates.lt_next he) h.next
    have he₁ := h'.mem_of_mem hlt he₂
    by_cases ht' : Touches l' s₁ e
    · exact ((h'.stayed he₁).mp he₂).imp_right (absurd ht')
    · by_cases ht : Touches l s e
      · have hu := ((h.stayed he).mp he₁).resolve_right (not_not_intro ht)
        exact .inl (h'.uses_of_not_touches ht' hu)
      · right
        rw [touches_append, ← h.touches_iff hs he ht l']
        exact not_or.mpr ⟨ht, ht'⟩
  · rintro (hu | ht)
    · exact (h'.stayed (h.mem_of_uses h' hs he hu)).mpr (.inl hu)
    · obtain ⟨ht, ht'⟩ := not_or.mp (touches_append.not.mp ht)
      have he₁ := (h.stayed he).mpr (.inr ht)
      exact (h'.stayed he₁).mpr (.inr ((h.touches_iff hs he ht l').not.mpr ht'))

omit hs in
theorem filled_trans {a : Address} {i : Nat} {b : Binding}
    (hb : Binding.last? (l ++ l') a i = some b) :
    ∃ r, (∀ r', s₂.Refers r' ∧ r'.StandsAt a i ↔ r' = r) ∧
      ∃ e ∈ s₂.equates, e.id = r.equate ∧ e.name = b.name := by
  rw [Binding.last?_append] at hb
  cases hlast : Binding.last? l' a i with
  | some b' =>
    rw [hlast] at hb
    exact h'.filled (hlast.trans hb)
  | none =>
    rw [hlast] at hb
    obtain ⟨r, hiff, e, he, hid, hname⟩ := h.filled hb
    have hiff' : ∀ r', s₂.Refers r' ∧ r'.StandsAt a i ↔ r' = r := by
      intro r'
      rw [← hiff r']
      exact and_congr_left fun hin => h'.refers_iff hlast hin
    -- The reference is still there, and so is its equate.
    have huses : s₂.Uses e.id := ⟨r, ((hiff' r).mpr rfl).1, hid.symm⟩
    exact ⟨r, hiff', e, (h'.stayed he).mpr (.inl huses), hid, hname⟩

protected theorem trans : Bound (l ++ l') s s₂ where
  filled := filled_trans h h'
  untouched hr := by
    obtain ⟨hl, hl'⟩ := List.forall_mem_append.mp hr
    exact (h'.untouched hl').trans (h.untouched hl)
  stayed := stayed_trans h h' hs
  added := by
    intro e he₂
    have hmono : ∀ {l₁ : List Binding}, l₁ ⊆ l ++ l' → (∃ b ∈ l₁, e.name = b.name ∧
        e.value = b.value) → ∃ b ∈ l ++ l', e.name = b.name ∧ e.value = b.value :=
      fun hsub ⟨b, hb, hnv⟩ => ⟨b, hsub hb, hnv⟩
    obtain he₁ | ⟨hnext, hu, hb⟩ := h'.added he₂
    · refine (h.added he₁).imp_right fun ⟨hnext, hu, hb⟩ => ⟨hnext, ?_, ?_⟩
      · by_contra hunused
        have ht := ((h'.stayed he₁).mp he₂).resolve_left hunused
        exact hunused (h'.uses_of_not_touches ht hu)
      · exact hmono (List.subset_append_left l l') hb
    · exact .inr ⟨le_trans h.next hnext, hu, hmono (List.subset_append_right l l') hb⟩
  next := le_trans h.next h'.next

end trans

end Bound

/-! ### A single binding -/

/-- `s'` is the store `s` with an equate `e` of the name at hand, which is a new one with the
value if need be. -/
structure Obtains (s : Store) (name : String) (value : Int64) (e : Equate) (s' : Store) : Prop where
  sound : s'.Sound
  name_eq : e.name = name
  references : s'.references = s.references
  mem_iff : ∀ {e'}, e' ∈ s'.equates ↔ e' = e ∨ e' ∈ s.equates
  found_or_new : e ∈ s.equates ∨ s.equates.next ≤ e.id ∧ e.value = value
  next : s.equates.next ≤ s'.equates.next

namespace Obtains

variable {s s₁ : Store} {b : Binding} {e : Equate} (h : s.Obtains b.name b.value e s₁)
  (hb : b.Fits)
include h hb

theorem refers_iff {r : Reference} :
    (s₁.after (s₁.filling e b.address b.operand 0)).Refers r ↔
      r = ⟨s.references.next, b.address, b.operand, 0, e.id⟩ ∨
        s.Refers r ∧ ¬ r.StandsAt b.address b.operand := by
  have he : e ∈ s₁.equates := h.mem_iff.mpr (.inl rfl)
  rw [refers_filling h.sound he hb.address ⟨Int.natCast_nonneg _, hb.operand⟩ 0, Refers, Refers,
    h.references]
  rfl

theorem mem_equates_iff {e' : Equate} :
    e' ∈ (s₁.after (s₁.filling e b.address b.operand 0)).equates ↔
      (e' = e ∨ e' ∈ s.equates) ∧
        ((s₁.after (s₁.filling e b.address b.operand 0)).Uses e'.id ∨
          ∀ r, s.Refers r → r.StandsAt b.address b.operand → r.equate ≠ e'.id) := by
  have he : e ∈ s₁.equates := h.mem_iff.mpr (.inl rfl)
  have hrefers : ∀ r, s₁.Refers r ↔ s.Refers r := by
    intro r
    rw [Refers, Refers, h.references]
  rw [mem_equates_filling h.sound he hb.address ⟨Int.natCast_nonneg _, hb.operand⟩ 0, h.mem_iff]
  have hoccupants : ∀ r, r ∈ s₁.occupants b.address (.of b.operand 0) ↔
      s.Refers r ∧ r.StandsAt b.address b.operand :=
    fun r => (mem_occupants h.sound).trans (and_congr_left fun _ => hrefers r)
  simp only [hoccupants, and_imp]

/-- The reference in the slot, and its equate, are those of the binding. -/
theorem bound : Bound [b] s (s₁.after (s₁.filling e b.address b.operand 0)) := by
  have hrefers := @refers_iff s s₁ b e h hb
  have hmem := @mem_equates_iff s s₁ b e h hb
  have hnext := (next_filling s₁ e b.address b.operand 0).symm ▸ h.next
  generalize s₁.after (s₁.filling e b.address b.operand 0) = s' at hrefers hmem hnext
  have huses : s'.Uses e.id := ⟨_, hrefers.mpr (.inl rfl), rfl⟩
  refine ⟨?_, ?_, ?_, ?_, hnext⟩
  · intro a i b' hlast
    obtain ⟨hb', rfl, rfl⟩ := Binding.of_last? hlast
    obtain rfl := List.mem_singleton.mp hb'
    refine ⟨⟨s.references.next, b'.address, b'.operand, 0, e.id⟩, fun r' => ?_, e,
      hmem.mpr ⟨.inl rfl, .inl huses⟩, rfl, h.name_eq⟩
    constructor
    · rintro ⟨hr', hin⟩
      exact (hrefers.mp hr').resolve_right fun hold => hold.2 hin
    · rintro rfl
      exact ⟨hrefers.mpr (.inl rfl), rfl, rfl⟩
  · intro r hout
    have hout := hout b (List.mem_singleton_self b)
    rw [hrefers]
    constructor
    · rintro (rfl | hr)
      · exact absurd ⟨rfl, rfl⟩ hout
      · exact hr.1
    · exact fun hr => .inr ⟨hr, hout⟩
  · intro e' he'
    rw [hmem, and_iff_right (Or.inr he')]
    refine or_congr_right' fun hunused => ?_
    -- An equate that is not in use in the end is not the one that is bound.
    have hname : b.name ≠ e'.name := by
      intro hname
      have he : e ∈ s₁.equates := h.mem_iff.mpr (.inl rfl)
      have he₁ : e' ∈ s₁.equates := h.mem_iff.mpr (.inr he')
      obtain rfl := h.sound.equates.eq_of_name_eq he he₁ (h.name_eq.trans hname)
      exact hunused huses
    simp only [Touches, List.mem_singleton, exists_eq_left, hname, or_false, not_exists, not_and]
    exact ⟨fun hno r hr hid hin => hno r hr hin hid, fun hno r hr hin hid => hno r hr hid hin⟩
  · intro e' he'
    obtain rfl | hold := (hmem.mp he').1
    · refine h.found_or_new.imp_right fun hnew => ⟨hnew.1, huses, b, ?_⟩
      exact ⟨List.mem_singleton_self b, h.name_eq, hnew.2⟩
    · exact .inl hold

end Obtains

end Store

namespace Table

/-- An equate that is there is found. -/
theorem obtain_enacts_of_mem {s : Store} (hs : s.Sound) {e : Equate} (he : e ∈ s.equates)
    {name : String} (hname : e.name = name) (value : Int64) :
    Attempt.Enacts (obtain name value) s [] (.ok e) := by
  have hfind := fetchNamed_enacts s name
  rw [hs.equates.named_iff.mpr ⟨he, hname⟩] at hfind
  rw [Table.obtain]
  exact Enacts.bind_read hfind (Enacts.pure s e)

theorem obtain_enacts {s : Store} (hs : s.Sound) {name : String} (hv : Name.validate name = .ok ())
    (value : Int64) : ∃ e l, Attempt.Enacts (obtain name value) s l (.ok e) ∧
      s.Obtains name value e (s.after l) := by
  cases h : (s.equates.idOf? name).bind s.equates.get? with
  | some e =>
    obtain ⟨hmem, hname⟩ := hs.equates.named_iff.mp h
    refine ⟨e, [], obtain_enacts_of_mem hs hmem hname value, hs, hname, rfl, fun {e'} => ?_,
      .inl hmem, le_refl _⟩
    exact (or_iff_right_of_imp fun heq => heq ▸ hmem).symm
  | none =>
    have hfind := fetchNamed_enacts s name
    rw [h] at hfind
    have hfits : (Effect.define name value).Fits [] s := ⟨hs.equates.hasName_eq_false h, hv⟩
    obtain ⟨rows, hc, happ⟩ := Effect.apply_define hfits
    refine ⟨⟨s.equates.next, name, value⟩, [.define name value], ?_, hfits.sound hs, rfl, ?_, ?_,
      .inr ⟨le_refl _, rfl⟩, ?_⟩
    · rw [Table.obtain]
      refine Enacts.bind_read hfind ?_
      rw [← List.append_nil [_]]
      exact Enacts.bind (storeEquate_enacts hfits) (Enacts.bind_trace (Enacts.pure _ _))
    · rw [Store.after_cons, happ]
      rfl
    · intro e'
      rw [Store.after_cons, happ]
      exact EquateRows.mem_create hs.equates hc
    · rw [Store.after_cons, happ]
      show s.equates.next ≤ rows.next
      rw [EquateRows.next_create hc]
      exact le_of_lt (Int.lt_succ _)

/-- A binding that fits is carried out. -/
theorem bindOperand_enacts {s : Store} (hs : s.Sound) {b : Binding} (hb : b.Fits) :
    ∃ l, Attempt.Enacts (bindOperand b) s l (.ok ()) ∧ s.Bound [b] (s.after l) := by
  obtain ⟨e, l, hm, hobtains⟩ := obtain_enacts hs hb.name b.value
  have he : e ∈ (s.after l).equates := hobtains.mem_iff.mpr (.inl rfl)
  have hfill := fillSlot_enacts hobtains.sound he hb.address
    ⟨Int.natCast_nonneg _, hb.operand⟩ 0
  refine ⟨_, Enacts.bind hm (Enacts.bind hfill (Enacts.pure _ ())), ?_⟩
  rw [List.append_nil, Store.after_append]
  exact hobtains.bound hb

end Table

end Equates

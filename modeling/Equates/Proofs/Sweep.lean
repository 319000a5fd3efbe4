/-
The removal of several references, one after the other.

A clearing removes references in order, and behind each of them its equate if that was the last
reference to it (`Effect.sweep`).

* `Store.refers_after_sweep`, `Store.mem_equates_after_sweep` — just these references go, and
  the equates that had no others;
* `Store.told_after_sweep` — the loss of each reference and of each equate is made known once,
  that of an equate behind those of its references (`EquateRows.Told`);
* `Store.SameRows.after` — what has been made known so far does not matter to the rows, so a
  sweep may be broken off and taken up again later.
-/
import Equates.Proofs.Integrity
import Equates.Proofs.Store.Filling
import Equates.Proofs.Store.Inventory

namespace Equates

/-- Removes the references in order, and the equate of each behind its last one. -/
def Effect.sweep (refs : List Reference) : List Effect :=
  refs.flatMap fun r => [.detach r, .settle r.equate]

namespace Store

open Effect

theorem after_sweep_cons (s : Store) (r : Reference) (refs : List Reference) :
    s.after (sweep (r :: refs)) =
      ((settle r.equate).apply (s.withoutReference r)).after (sweep refs) := rfl

theorem after_sweep_append (s : Store) (refs refs' : List Reference) :
    s.after (sweep (refs ++ refs')) = (s.after (sweep refs)).after (sweep refs') := by
  rw [sweep, List.flatMap_append, after_append]
  rfl

theorem Sound.withoutReference {s : Store} (hs : s.Sound) (r : Reference) :
    (s.withoutReference r).Sound :=
  hs.erase_reference r.id _

theorem Sound.after_sweep {s : Store} (hs : s.Sound) (refs : List Reference) :
    (s.after (sweep refs)).Sound := by
  induction refs generalizing s with
  | nil => exact hs
  | cons r refs ih => exact ih (sound_apply_settle (hs.withoutReference r) r.equate)

/-! ### What is left -/

theorem refers_apply_settle {s : Store} {id : Key} {r : Reference} :
    ((settle id).apply s).Refers r ↔ s.Refers r := by
  rw [Refers, references_apply_settle]
  exact Iff.rfl

/-- The references that are not removed stay. -/
theorem refers_after_sweep {s : Store} {refs : List Reference} {r : Reference} :
    (s.after (sweep refs)).Refers r ↔ s.Refers r ∧ ∀ r' ∈ refs, r.id ≠ r'.id := by
  induction refs generalizing s with
  | nil => simp [sweep]
  | cons r' refs ih =>
    rw [after_sweep_cons, ih, refers_apply_settle, refers_withoutReference, List.forall_mem_cons,
      and_assoc]

section equates

variable {s : Store} (hs : s.Sound) {refs : List Reference} (hrefs : ∀ r ∈ refs, s.Refers r)
  (hnodup : refs.Pairwise (·.id ≠ ·.id))

/-- References that are still to be removed are there until it is their turn. -/
theorem refers_step {s : Store} {r : Reference} {refs : List Reference}
    (hrefs : ∀ r' ∈ r :: refs, s.Refers r') (hnodup : (r :: refs).Pairwise (·.id ≠ ·.id)) :
    ∀ r' ∈ refs, (s.withoutReference r).Refers r' := fun r' hr' =>
  refers_withoutReference.mpr ⟨hrefs r' (List.mem_cons_of_mem r hr'),
    ((List.pairwise_cons.mp hnodup).1 r' hr').symm⟩

include hs hrefs hnodup

/-- An equate stays where it is referred to, or where no reference to it was removed. -/
theorem mem_equates_after_sweep {e : Equate} :
    e ∈ (s.after (sweep refs)).equates ↔ e ∈ s.equates ∧
      ((s.after (sweep refs)).Uses e.id ∨ ∀ r ∈ refs, r.equate ≠ e.id) := by
  induction refs generalizing s with
  | nil => simp [sweep]
  | cons r refs ih =>
    have hs₁ := hs.withoutReference r
    have hrefs₁ := refers_step hrefs hnodup
    have hstep : e ∈ ((settle r.equate).apply (s.withoutReference r)).equates ↔
        e ∈ s.equates ∧ ((s.withoutReference r).Uses e.id ∨ e.id ≠ r.equate) :=
      mem_equates_apply_settle hs₁
    rw [after_sweep_cons, ih (sound_apply_settle hs₁ _)
      (fun r' hr' => refers_apply_settle.mpr (hrefs₁ r' hr')) (List.pairwise_cons.mp hnodup).2,
      hstep]
    -- Who uses the equate now still does in the end, or is one of those to come.
    have hlater : (s.withoutReference r).Uses e.id →
        (((settle r.equate).apply (s.withoutReference r)).after (sweep refs)).Uses e.id ∨
          ∃ r' ∈ refs, r'.equate = e.id := by
      rintro ⟨r₀, hr₀, he⟩
      by_cases hin : ∃ r' ∈ refs, r₀.id = r'.id
      · obtain ⟨r', hr', hid⟩ := hin
        rw [hs₁.eq_of_id_eq hr₀ (hrefs₁ r' hr') hid] at he
        exact .inr ⟨r', hr', he⟩
      · refine .inl ⟨r₀, refers_after_sweep.mpr ⟨refers_apply_settle.mpr hr₀, ?_⟩, he⟩
        exact fun r' hr' hid => hin ⟨r', hr', hid⟩
    have hearlier :
        (((settle r.equate).apply (s.withoutReference r)).after (sweep refs)).Uses e.id →
          (s.withoutReference r).Uses e.id := by
      rintro ⟨r₀, hr₀, he⟩
      exact ⟨r₀, refers_apply_settle.mp (refers_after_sweep.mp hr₀).1, he⟩
    rw [List.forall_mem_cons]
    constructor
    · rintro ⟨⟨he, hnow⟩, hend | hrest⟩
      · exact ⟨he, .inl hend⟩
      · obtain hu | hne := hnow
        · refine ⟨he, .inl ((hlater hu).resolve_right ?_)⟩
          rintro ⟨r', hr', heq⟩
          exact hrest r' hr' heq
        · exact ⟨he, .inr ⟨hne.symm, hrest⟩⟩
    · rintro ⟨he, hend | ⟨hne, hrest⟩⟩
      · exact ⟨⟨he, .inl (hearlier hend)⟩, .inl hend⟩
      · exact ⟨⟨he, .inr hne.symm⟩, .inr hrest⟩

end equates

section lists

variable {s : Store} (hs : s.Sound) {l : List Reference} (hl : s.references.StandFor l)
  {refs : List Reference} (hrefs : ∀ r ∈ refs, r ∈ l)
include hs hl hrefs

theorem standFor_after_sweep :
    (s.after (sweep refs)).references.StandFor (l.filter (· ∉ refs)) := by
  refine (hs.after_sweep refs).standFor_iff.mpr
    ⟨(hs.sorted_of_standFor hl).filter _, fun r => ?_⟩
  rw [List.mem_filter, refers_after_sweep, hs.mem_iff_refers hl, decide_eq_true_eq]
  refine and_congr_right fun hr => ⟨fun hout r' hr' hid => hout ?_, fun hout hin => hout r hin rfl⟩
  -- A reference with the key of one of them is that one.
  rwa [hs.eq_of_id_eq hr ((hs.mem_iff_refers hl).mp (hrefs r' hr')) hid]

variable (hnodup : refs.Pairwise (·.id ≠ ·.id))
include hnodup

theorem equates_after_sweep :
    (s.after (sweep refs)).equates.toList = s.equates.toList.filter fun e : Equate =>
      (∀ r ∈ refs, r.equate ≠ e.id) ∨ ∃ r ∈ l, r ∉ refs ∧ r.equate = e.id := by
  have hafter := hs.after_sweep refs
  refine hafter.equates.toList_eq_of_mem (hs.equates.toList_sorted.filter _) fun e => ?_
  have huses : (s.after (sweep refs)).Uses e.id ↔ ∃ r ∈ l, r ∉ refs ∧ r.equate = e.id := by
    simp only [Uses, ← hafter.mem_iff_refers (standFor_after_sweep hs hl hrefs), List.mem_filter,
      decide_eq_true_eq, and_assoc]
  rw [List.mem_filter, hs.equates.mem_toList, decide_eq_true_eq, mem_equates_after_sweep hs
    (fun r hr => (hs.mem_iff_refers hl).mp (hrefs r hr)) hnodup, huses]
  exact and_congr_right fun _ => or_comm

end lists

end Store

/-! ### What is made known -/

namespace Change

/-- The reference whose loss the change makes known. -/
def lostReference? : Change → Option Attachment
  | referenceRemoved a => some a
  | _ => none

/-- The name and the value of the equate whose loss the change makes known. -/
def lostEquate? : Change → Option (String × Int64)
  | equateRemoved name value => some (name, value)
  | _ => none

end Change

/-- The changes, oldest first, tell that the references `lost` to these equates went in this
order, and the equates `gone`, each of them behind all its references; they tell of nothing
else. -/
structure EquateRows.Told (equates : EquateRows) (lost : List Reference) (gone : List Equate)
    (changes : List Change) : Prop where
  references : changes.filterMap Change.lostReference? =
    lost.map fun r => r.attachment (equates.get? r.equate)
  equates : (changes.filterMap Change.lostEquate?).Perm (gone.map fun e => (e.name, e.value))
  behind : changes.Pairwise fun c c' => ∀ name value a, c = .equateRemoved name value →
    c' = .referenceRemoved a → a.name ≠ name
  only : ∀ c ∈ changes, (∃ a, c = .referenceRemoved a) ∨
    ∃ name value, c = .equateRemoved name value

/-- A row stands once in the list of all rows. -/
theorem EquateRows.Sound.perm_toList_erase {t : EquateRows} (ht : t.Sound) {e : Equate} (he : e ∈ t)
    {p : Equate → Bool} (hp : p e = true) :
    List.Perm (e :: (t.erase e.id).toList.filter p) (t.toList.filter p) := by
  have hnodup : t.toList.Nodup :=
    ht.toList_sorted.imp fun hlt heq => ne_of_lt hlt (congrArg Equate.id heq)
  rw [ht.toList_erase]
  refine (List.perm_ext_iff_of_nodup (List.nodup_cons.mpr ⟨?_, (hnodup.filter _).filter _⟩)
    (hnodup.filter p)).mpr fun e' => ?_
  · simp
  · have hsame : e'.id = e.id → e' ∈ t → e' = e := fun hid he' =>
      Option.some.inj ((mem_def.mp he').symm.trans (hid ▸ mem_def.mp he))
    simp only [List.mem_cons, List.mem_filter, ht.mem_toList, decide_eq_true_eq]
    grind

namespace EquateRows.Told

variable {equates : EquateRows} {r : Reference} {refs : List Reference}
  {gone gone' : List Equate} {changes : List Change}

theorem perm (h : equates.Told refs gone changes) (hperm : gone.Perm gone') :
    equates.Told refs gone' changes :=
  { h with equates := h.equates.trans (hperm.map _) }

/-- A reference goes, and its equate stays. -/
theorem cons_reference (h : equates.Told refs gone changes) (r : Reference) :
    equates.Told (r :: refs) gone
      (.referenceRemoved (r.attachment (equates.get? r.equate)) :: changes) where
  references := congrArg (_ :: ·) h.references
  equates := h.equates
  behind := List.pairwise_cons.mpr ⟨by rintro _ _ _ _ _ ⟨⟩, h.behind⟩
  only := List.forall_mem_cons.mpr ⟨.inl ⟨_, rfl⟩, h.only⟩

/-- A reference goes, and its equate with it; all references to come have other equates. -/
theorem cons_both (hs : equates.Sound) {e : Equate} (he : equates.get? r.equate = some e)
    (hrefs : ∀ r' ∈ refs, r'.equate ≠ e.id ∧ ∃ e', equates.get? r'.equate = some e')
    (h : (equates.erase e.id).Told refs gone changes) :
    equates.Told (r :: refs) (e :: gone)
      (.referenceRemoved (r.attachment (equates.get? r.equate)) ::
        .equateRemoved e.name e.value :: changes) := by
  have hlost : changes.filterMap Change.lostReference? =
      refs.map fun r' => r'.attachment (equates.get? r'.equate) := by
    rw [h.references]
    refine List.map_congr_left fun r' hr' => ?_
    rw [get?_erase, if_neg (hrefs r' hr').1]
  refine ⟨congrArg (_ :: ·) hlost, h.equates.cons _, ?_, ?_⟩
  · refine List.pairwise_cons.mpr ⟨by rintro _ _ _ _ _ ⟨⟩, List.pairwise_cons.mpr ⟨?_, h.behind⟩⟩
    -- What follows on the equate tells of references to other equates, which have other names.
    rintro c hc name value a ⟨⟩ rfl
    have ha : a ∈ changes.filterMap Change.lostReference? :=
      List.mem_filterMap.mpr ⟨_, hc, rfl⟩
    rw [hlost] at ha
    obtain ⟨r', hr', rfl⟩ := List.mem_map.mp ha
    obtain ⟨hne, e', he'⟩ := hrefs r' hr'
    rw [he']
    intro hname
    refine hne ((hs.id_eq he').symm.trans ?_)
    exact (hs.name_eq_iff (hs.mem_of_get? he') (hs.mem_of_get? he)).mp hname
  · exact List.forall_mem_cons.mpr ⟨.inl ⟨_, rfl⟩,
      List.forall_mem_cons.mpr ⟨.inr ⟨_, _, rfl⟩, h.only⟩⟩

end EquateRows.Told

namespace Store

open Effect

/-- The removal of references tells of each of them, and of the equates that go with them. -/
theorem told_after_sweep {s : Store} (hs : s.Sound) (hint : s.Integral) {refs : List Reference}
    (hrefs : ∀ r ∈ refs, s.Refers r) (hnodup : refs.Pairwise (·.id ≠ ·.id)) :
    ∃ changes, (s.after (sweep refs)).changes = changes.reverse ++ s.changes ∧
      s.equates.Told refs
        (s.equates.toList.filter (· ∉ (s.after (sweep refs)).equates.toList)) changes := by
  induction refs generalizing s with
  | nil =>
    refine ⟨[], rfl, rfl, ?_, .nil, List.forall_mem_nil _⟩
    simp [sweep]
  | cons r refs ih =>
    have hr : (Effect.detach r).Fits [] s := hrefs r List.mem_cons_self
    have hs₁ := hs.withoutReference r
    have hint₁ : (s.withoutReference r).Integral := hr.integral hs hint
    have hrefs₁ := refers_step hrefs hnodup
    have hrefs₂ : ∀ r' ∈ refs, ((settle r.equate).apply (s.withoutReference r)).Refers r' :=
      fun r' hr' => refers_apply_settle.mpr (hrefs₁ r' hr')
    have hnodup₁ := (List.pairwise_cons.mp hnodup).2
    have hsettle : (Effect.settle r.equate).Fits [r.equate] (s.withoutReference r) :=
      List.mem_singleton_self _
    have hs₂ := hsettle.sound hs₁
    rw [after_sweep_cons]
    obtain ⟨changes, hchanges, htold⟩ := ih hs₂ (hsettle.integral hs₁ hint₁) hrefs₂ hnodup₁
    have hstay : ∀ e ∈ (((settle r.equate).apply (s.withoutReference r)).after
        (sweep refs)).equates.toList,
        e ∈ ((settle r.equate).apply (s.withoutReference r)).equates := fun e he =>
      ((mem_equates_after_sweep hs₂ hrefs₂ hnodup₁).mp
        ((hs₂.after_sweep refs).equates.mem_toList.mp he)).1
    obtain ⟨e, he, hk, happ⟩ | ⟨-, happ⟩ := (s.withoutReference r).apply_settle r.equate
    · have hid := hs.equates.id_eq he
      rw [happ] at hchanges htold hstay ⊢
      have hgone : e ∉ (((s.withoutReference r).withoutEquate e).after
          (sweep refs)).equates.toList :=
        fun hin => (EquateRows.mem_erase.mp (hstay e hin)).2 rfl
      refine ⟨_, ?_, (EquateRows.Told.cons_both hs.equates he (fun r' hr' => ⟨?_, ?_⟩) htold).perm
        (hs.equates.perm_toList_erase (hs.equates.mem_of_get? he) (decide_eq_true hgone))⟩
      · rw [hchanges]
        simp [withoutEquate, withoutReference]
      · -- A reference to the equate that is still to come would have kept it.
        intro heq
        exact hs₁.keysTo_eq_nil_iff.mp hk ⟨r', hrefs₁ r' hr', heq.trans hid⟩
      · obtain ⟨row, hrow, hd⟩ := hrefs r' (List.mem_cons_of_mem r hr')
        rw [(ReferenceRow.decode_eq_ok_iff.mp hd).2.2.2.2]
        exact hint row hrow
    · rw [happ] at hchanges htold ⊢
      refine ⟨_, ?_, htold.cons_reference r⟩
      rw [hchanges]
      simp [withoutReference]

/-! ### Breaking off and taking up again -/

/-- The stores have the same rows. -/
def SameRows (s s' : Store) : Prop :=
  s.equates = s'.equates ∧ s.references = s'.references

theorem SameRows.apply {s s' : Store} (h : s.SameRows s') (x : Effect) :
    (x.apply s).SameRows (x.apply s') := by
  obtain ⟨equates, references, changes⟩ := s
  obtain ⟨equates', references', changes'⟩ := s'
  obtain ⟨rfl, rfl⟩ : equates = equates' ∧ references = references' := h
  -- Every effect is decided by the rows alone.
  cases x with
  | define name value =>
    simp only [Effect.apply]
    rcases equates.create name value with ⟨_ | _, _⟩
    · exact ⟨rfl, rfl⟩
    · exact ⟨rfl, rfl⟩
  | relabel e name =>
    simp only [Effect.apply]
    rcases equates.update { e with name } with ⟨_ | _, _⟩
    · exact ⟨rfl, rfl⟩
    · exact ⟨rfl, rfl⟩
  | discard e => exact ⟨rfl, rfl⟩
  | settle id =>
    simp only [Effect.apply]
    by_cases hk : references.keysTo id = []
    · rw [if_pos hk, if_pos hk]
      cases equates.get? id with
      | some e => exact ⟨rfl, rfl⟩
      | none => exact ⟨rfl, rfl⟩
    · rw [if_neg hk, if_neg hk]
      exact ⟨rfl, rfl⟩
  | attach e a operand hash =>
    simp only [Effect.apply]
    cases a.key? with
    | some k => exact ⟨rfl, rfl⟩
    | none => exact ⟨rfl, rfl⟩
  | detach r => exact ⟨rfl, rfl⟩
  | rekey r key =>
    simp only [Effect.apply]
    rcases references.update { r with addressKey := key } with ⟨_ | _, _⟩
    · exact ⟨rfl, rfl⟩
    · exact ⟨rfl, rfl⟩

/-- What has been made known so far does not matter to the rows. -/
theorem SameRows.after {s s' : Store} (h : s.SameRows s') (l : List Effect) :
    (s.after l).SameRows (s'.after l) := by
  induction l generalizing s s' with
  | nil => exact h
  | cons x l ih => exact ih (h.apply x)

end Store

end Equates

/-
Every request is prompt.

This is put together from the parts that read and write single equates and slots, and from
the loops: a cursor that goes from address to address, and the operations that go through
the records of a range or the operands of a listing.  A loop stops at its first failing
step, and the operation around it reports that failure and nothing else.

* `Request.Degraded` — what a request answers when a storage call fails;
* `Request.run_prompt` — the one theorem about all requests.
-/
import Equates.Proofs.Table.Prompt

namespace Equates

open Attempt

/-! ### Cursors -/

theorem Store.Sound.ofKey?_of_firstAddressIn? {s : Store} (hs : s.Sound) {w : KeyWindow} {k : Int}
    {hk : k ∈ w} (h : s.references.firstAddressIn? w = some ⟨k, hk⟩) :
    ∃ a, Address.ofKey? k = some a := by
  refine Store.ofKey?_of_mem_keysAlong (c := [w]) hs ?_
  rw [Store.keysAlong, List.flatMap_singleton, Index.firstIn?_eq_some h]
  exact List.mem_cons_self

namespace Cursor

theorem seek_prompt {E : Diagnostic → Prop} (w : KeyWindow) : Attempt.Prompt 0 E (seek w) :=
  queryReferences_prompt .firstAddress none _

theorem next_halts {t : Table} (ht : t.Strict) (c : Cursor) :
    Action.Halts 0 (fun p => ∃ a?, p.1 = .ok a?) (fun d p => BreaksWith d p.1) (next c) t := by
  induction c generalizing t with
  | nil => exact .inl ⟨⟨none, rfl⟩, .refl t⟩
  | cons w rest ih =>
    rw [next]
    split
    · exact ih ht
    · have hseek := seek_prompt (E := fun _ => False) w t ht
      refine Action.Halts.bind (j := 0) hseek.1 (fun hr _ => ?_) fun d hd => ?_
      · have hread := seek_enacts t.store w t ht.sound.has
        rw [Attempt.Ends] at hread
        rcases hrun : Attempt.on (seek w) t with ⟨d | _ | ⟨k, hk⟩, t₁⟩
        all_goals
          rw [hrun] at hread
          rw [show Action.on (seek w).run t = _ from hrun] at hseek hr ⊢
        · exact (hr d rfl).elim
        · exact ih hseek.2
        · -- The index hands out keys of stored rows, and these are keys of addresses.
          have hfirst : t.store.references.firstAddressIn? w = some ⟨k, hk⟩ := by
            obtain ⟨hr, -⟩ | ⟨d, u, hr, -⟩ := hread
            · exact (Except.ok.inj hr).symm
            · cases hr
          obtain ⟨a, ha⟩ := ht.sound.store.ofKey?_of_firstAddressIn? hfirst
          dsimp only
          rw [ha]
          exact .inl ⟨⟨some a, rfl⟩, .refl t₁⟩
      · rw [hd.1]
        exact Action.Reports.pure ⟨rfl, hd.2⟩

theorem next_prompt (c : Cursor) :
    Action.Prompt 0 (fun p => ∃ a?, p.1 = .ok a?) (fun d p => BreaksWith d p.1) (next c) := by
  intro t ht
  obtain ⟨hb, -⟩ := next_on ht.sound.has c
  exact ⟨next_halts ht c, hb.sound, hb.frame.plan ▸ ht.classified⟩

/-- Gathering is prompt if visiting an address is, and only reads. -/
theorem gather_prompt {α : Type} {E : Diagnostic → Prop} {visit : Address → Attempt (List α)}
    {found : Store → Address → List α} (hvisit : ∀ a, Attempt.Prompt 0 E (visit a))
    (hread : ∀ s a, Attempt.Enacts (visit a) s [] (.ok (found s a))) (c : Cursor) :
    Attempt.Prompt 0 E (gather visit c) := by
  refine Prompt.of_halts (fun t ht => ?_) fun t ht => (gather_on (hread t.store) ht.has c).1.sound
  induction hn : c.size using Nat.strong_induction_on generalizing c t with
  | _ n ih =>
    subst hn
    rw [gather_eq]
    refine Halts.lift_bind (c := poll) ⟨rfl, rfl, rfl⟩ ?_
    have hpoll : (Action.on poll t).2.Strict := ⟨ht.sound.has.polled.sound, ht.classified⟩
    cases (Action.on poll t).1 with
    | true => exact Halts.pure none
    | false =>
      generalize (Action.on poll t).2 = t₁ at hpoll
      rw [if_neg Bool.false_ne_true, Attempt.Halts, run_lift_bind]
      obtain ⟨hnext, hstrict⟩ := next_prompt c t₁ hpoll
      refine Action.Halts.bind (j := 0) hnext (fun hok _ => ?_) fun d hd => ?_
      · rcases hrun : Action.on (next c) t₁ with ⟨⟨r, c'⟩, t₂⟩
        rw [hrun] at hok hstrict
        obtain ⟨a?, rfl⟩ : ∃ a?, r = .ok a? := hok
        cases a? with
        | none => exact Halts.pure _
        | some a =>
          have hlt : c'.size < c.size := size_next_lt hrun
          refine (hvisit a).bind_halts hstrict fun l t₃ _ ht₃ => ?_
          exact Halts.bind (ih _ hlt c' t₃ ht₃ rfl) fun l' t₄ _ _ => Halts.pure _
      · rcases hrun : (Action.on (next c) t₁).1 with ⟨r, c'⟩
        rw [hrun] at hd
        obtain ⟨rfl, hclass⟩ : r = .error d ∧ _ := hd
        exact Action.Reports.pure ⟨rfl, hclass⟩

end Cursor

/-! ### Walks -/

namespace Walk

theorem next_prompt (w : Walk) :
    Action.Prompt 1 (fun _ => True) (fun _ p => p.1 = none ∧ p.2.ended = true) w.next := by
  rw [next]
  split
  · exact Action.Prompt.pure trivial
  · refine Action.Prompt.bind (j := 1) (Cursor.next_prompt w.cursor) (fun p hp => ?_)
      fun d p hd => ?_
    · obtain ⟨r, c⟩ := p
      obtain ⟨a?, rfl⟩ : ∃ a?, r = .ok a? := hp
      cases a? with
      | none => exact Action.Prompt.pure trivial
      | some a => exact Action.Prompt.pure trivial
    · obtain ⟨r, c⟩ := p
      obtain ⟨rfl, -⟩ : r = .error d ∧ _ := hd
      exact (Action.reports_report d).bind fun _ _ => .pure ⟨rfl, rfl⟩

/-- A walk that has ended comes to nothing and asks for nothing. -/
theorem next_of_ended {w : Walk} (h : w.ended = true) (t : Table) :
    Action.on w.next t = ((none, w), t) := by
  rw [next, h]
  rfl

theorem drain_prompt (w : Walk) :
    Action.Prompt 1 (fun _ => True) (fun _ p => p.2.ended = true) w.drain := by
  intro t ht
  obtain ⟨-, hplan⟩ := drain_keeps ht.sound.has w
  refine ⟨?_, (drain_keeps ht.sound.has w).sound, hplan ▸ ht.classified⟩
  clear hplan
  induction hn : w.cursor.size using Nat.strong_induction_on generalizing w t with
  | _ n ih =>
    subst hn
    rw [drain_eq]
    obtain ⟨hnext, hstrict⟩ := next_prompt w t ht
    refine Action.Halts.bind (j := 0) hnext (fun _ _ => ?_) fun d hd => ?_
    · rcases hrun : Action.on w.next t with ⟨⟨a?, w'⟩, t₁⟩
      rw [hrun] at hstrict
      cases a? with
      | none => exact .inl ⟨trivial, .refl t₁⟩
      | some a =>
        refine Action.Halts.bind (j := 0) (ih _ (size_next_lt hrun) w' t₁ hstrict rfl)
          (fun _ _ => .inl ⟨trivial, .refl _⟩) fun d hd => Action.Reports.pure hd
    · rcases hrun : (Action.on w.next t).1 with ⟨a?, w'⟩
      rw [hrun] at hd
      obtain ⟨rfl, hended⟩ : a? = none ∧ w'.ended = true := hd
      exact Action.Reports.pure hended

end Walk

/-! ### Clearing -/

/-- The operation came to its end or was stopped by the monitor; a diagnostic is in `E`. -/
def Concludes (E : Diagnostic → Prop) (r : Except Diagnostic Outcome) : Prop :=
  Refuses E r ∧ r ≠ .ok .storageFailed

theorem concludes_ok {E : Diagnostic → Prop} {o : Outcome} (h : o ≠ .storageFailed) :
    Concludes E (.ok o) :=
  ⟨refuses_ok E o, fun ho => h (Except.ok.inj ho)⟩

theorem concludes_error {E : Diagnostic → Prop} {d : Diagnostic} (h : E d) :
    Concludes E (.error d) :=
  ⟨refuses_error h, fun ho => by cases ho⟩

namespace Table

theorem removeEach_prompt (total done : Nat) (refs : List Reference) :
    Action.Prompt 0 (fun p => Concludes (fun _ => False) p.2) (fun d p => BreaksWith d p.2)
      (removeEach total done refs) := by
  induction refs generalizing done with
  | nil =>
    rw [removeEach]
    exact Action.Prompt.after (Action.reports_advanceMonitor total total) fun _ _ =>
      Action.Prompt.pure (concludes_ok Outcome.noConfusion)
  | cons r rest ih =>
    rw [removeEach]
    refine Action.Prompt.after Action.reports_poll fun stop _ => ?_
    cases stop with
    | true => exact Action.Prompt.pure (concludes_ok Outcome.noConfusion)
    | false =>
      refine Action.Prompt.after (Action.reports_advanceMonitor done total) fun _ _ => ?_
      refine Prompt.elim (j := 0) (detach_prompt r) (fun _ => ?_) fun d hd => .pure ⟨rfl, hd⟩
      refine Prompt.elim (j := 0) (prune_prompt r.equate) (fun _ => ?_) fun d hd =>
        .pure ⟨rfl, hd⟩
      exact ih (done + 1)

theorem clearWindow_prompt (w : KeyWindow) :
    Action.Prompt 0 (fun p => Concludes (fun _ => False) p.2) (fun d p => BreaksWith d p.2)
      (clearWindow w) := by
  rw [clearWindow]
  refine Action.Prompt.after (Action.reports_tellMonitor _) fun _ _ => ?_
  refine Prompt.elim (j := 0) (Cursor.gather_prompt fetchAt_prompt fetchAt_enacts [w])
    (fun doomed? => ?_) fun d hd => .pure ⟨rfl, hd⟩
  cases doomed? with
  | none => exact Action.Prompt.pure (concludes_ok Outcome.noConfusion)
  | some doomed => exact removeEach_prompt doomed.length 0 doomed

theorem clear_prompt (first last : Address) :
    Action.Prompt 1 (· ≠ .storageFailed) (fun _ o => o = .storageFailed) (clear first last) := by
  rw [clear]
  cases KeyWindow.between? first last with
  | none => exact Action.Prompt.pure Outcome.noConfusion
  | some w =>
    refine Action.Prompt.bind (j := 1) (clearWindow_prompt w) (fun p hp => ?_) fun d p hd => ?_
    · obtain ⟨removed, d | outcome⟩ := p
      · exact (hp.1 d rfl).elim
      · exact Action.Prompt.after (Action.reports_trace _) fun _ _ =>
          Action.Prompt.pure fun h => hp.2 (congrArg Except.ok h)
    · obtain ⟨removed, r⟩ := p
      obtain ⟨rfl, -⟩ : r = .error d ∧ _ := hd
      exact (Action.reports_report d).bind fun _ _ =>
        (Action.reports_trace _).bind fun _ _ => .pure rfl

/-! ### Moving -/

section moving

variable {source target : Address} {length : UInt64} {s : Store} {E : Diagnostic → Prop}

theorem moveRow_halts {t : Table} (ht : t.Strict) {row : ReferenceRow} {a : Address} {k : Int}
    (hrow : row ∈ t.store.references) (ha : Address.ofKey? row.addressKey = some a)
    (hk : (translate source target a).key? = some k) :
    Attempt.Halts 0 E (moveRow source target row) t := by
  have hfits : (Effect.rekey row k).Fits [] t.store := ⟨hrow, _, Address.ofKey?_of_key? hk⟩
  obtain ⟨rows, hu, -⟩ := Effect.apply_rekey hfits
  rw [moveRow, ha]
  dsimp only
  rw [hk, Option.getD_some]
  refine Halts.bind (changeReferences_halts ht hu) fun _ t₁ _ _ => ?_
  exact Halts.lift ⟨rfl, rfl, rfl⟩

theorem moveEach_halts (hl : length ≠ 0) (hfit : ¬ lastOffset - target.offset < length - 1)
    (hlast : (lastOf target length).Mappable) {t : Table} (ht : t.Strict) (total done : Nat)
    {rows : List ReferenceRow}
    (hrows : ∀ row ∈ rows, row ∈ t.store.references ∧ row ∈ s.references ∧
      ∃ a, Address.ofKey? row.addressKey = some a ∧ source ≤ a ∧ a ≤ lastOf source length)
    (hnodup : rows.Pairwise (·.id ≠ ·.id)) :
    Action.Halts 0 (Concludes E) BreaksWith (moveEach source target total done rows).run t := by
  induction rows generalizing t done with
  | nil =>
    rw [moveEach, run_lift_bind]
    exact Action.Halts.after ⟨rfl, rfl, rfl⟩
      (.inl ⟨concludes_ok Outcome.noConfusion, .refl _⟩)
  -- As for what a move does to the store: no row comes twice, so each row stands at its
  -- old place when its turn comes.
  | cons row rest ih =>
    obtain ⟨hne, hnodup⟩ := List.pairwise_cons.mp hnodup
    rw [moveEach, run_lift_bind]
    refine Action.Halts.after ⟨rfl, rfl, rfl⟩ ?_
    have hpoll := ht.sound.has.polled
    cases (Action.on poll t).1 with
    | true => exact .inl ⟨concludes_ok Outcome.noConfusion, .refl _⟩
    | false =>
      rw [if_neg Bool.false_ne_true, run_lift_bind]
      refine Action.Halts.after ⟨rfl, rfl, rfl⟩ ?_
      have hkeeps := hpoll.trans (hpoll.toHas.advanced done total)
      generalize (Action.on (advanceMonitor done total) (Action.on poll t).2).2 = t₁ at hkeeps ⊢
      have ht₁ : t₁.Strict := ⟨hkeeps.sound, hkeeps.plan ▸ ht.classified⟩
      obtain ⟨hrow, hs, a, ha, hin⟩ := hrows row List.mem_cons_self
      rw [← hkeeps.store] at hrow
      obtain ⟨k, hk⟩ := exists_key?_translate hl hfit hlast hin
      have hmove : Attempt.Halts 0 (fun _ => False) (moveRow source target row) t₁ :=
        moveRow_halts ht₁ hrow ha hk
      refine Halts.run_bind hmove (fun _ t₂ hrun hflows => ?_) fun _ => False.elim
      obtain ⟨hstep, hrest⟩ := moveRow_cases hkeeps.sound hrow hs hl hfit hlast ha hin
      rw [hrun] at hstep hrest
      have hrest := hrest.resolve_left (by rintro ⟨d, ⟨⟩⟩)
      have ht₂ : t₂.Strict := ⟨hstep.sound, hstep.plan ▸ ht₁.classified⟩
      refine ih ht₂ (done + 1) (fun row' hrow' => ?_) hnodup
      obtain ⟨hmem, hs', hplace⟩ := hrows row' (List.mem_cons_of_mem row hrow')
      rw [← hkeeps.store] at hmem
      exact ⟨hrest row' hmem (hne row' hrow').symm, hs', hplace⟩

theorem moveWindow_halts (hl : length ≠ 0) (hfit : ¬ lastOffset - target.offset < length - 1)
    (hlast : (lastOf target length).Mappable) {t : Table} (ht : t.Strict) {w : KeyWindow}
    (hw : KeyWindow.between? source (lastOf source length) = some w) :
    Action.Halts 0 (Concludes E) BreaksWith (moveWindow source target w).run t := by
  rw [moveWindow, run_lift_bind]
  refine Action.Halts.after ⟨rfl, rfl, rfl⟩ ?_
  have htell : (Action.on (tellMonitor "Moving equate references") t).2.Strict :=
    ⟨⟨ht.sound.store, ht.sound.equateCache, ht.sound.referenceCache, ht.sound.loud⟩, ht.classified⟩
  generalize (Action.on (tellMonitor "Moving equate references") t).2 = t₁ at htell ⊢
  have hvisit : ∀ a, Attempt.Prompt 0 (fun _ => False) (do fetchRows (← keysAt a)) :=
    fun a => Prompt.bind (keysAt_prompt a) fun ids => fetchRows_prompt ids
  have hgather := Cursor.gather_prompt hvisit visitRows_enacts [w]
  refine Halts.run_bind (hgather t₁ htell).1 (fun rows? t₂ hrun _ => ?_) fun _ => False.elim
  obtain ⟨hk, hr⟩ := Cursor.gather_on (visitRows_enacts t₁.store) htell.sound.has [w]
  rw [hrun] at hk hr
  have ht₂ : t₂.Strict := ⟨hk.sound, hk.plan ▸ htell.classified⟩
  obtain ⟨hr, -⟩ | ⟨hr, -⟩ | ⟨d, hr, -⟩ := hr
  · cases hr
    exact .inl ⟨concludes_ok Outcome.noConfusion, .refl t₂⟩
  · cases hr
    refine moveEach_halts hl hfit hlast ht₂ _ 0 (fun row hrow => ?_) ?_ (s := t₁.store)
    · obtain ⟨hmem, hplace⟩ := between_of_mem_rows htell.sound.store hw hrow
      exact ⟨hk.store ▸ hmem, hmem, hplace⟩
    · exact nodup_rows_window htell.sound.store w
  · cases hr

theorem checkDestination_halts (target : Address) (length : UInt64) (t : Table) :
    Attempt.Halts 0 Diagnostic.IsRefusal (checkDestination target length) t := by
  rw [checkDestination]
  split
  · exact Halts.refuse_bind _ _ rfl
  · split
    · exact Halts.pure ()
    · exact Halts.refuse rfl

theorem relocate_halts {t : Table} (ht : t.Strict) :
    Action.Halts 0 (Concludes Diagnostic.IsRefusal) BreaksWith
      (relocate source target length).run t := by
  rw [relocate]
  split
  · exact .inl ⟨concludes_ok Outcome.noConfusion, .refl t⟩
  · next hl =>
    refine Halts.run_bind (checkDestination_halts target length t) (fun u t₁ hrun _ => ?_)
      fun _ => concludes_error
    obtain ⟨hsame, hchecked⟩ := checkDestination_on target length t
    have hok : (Attempt.on (checkDestination target length) t).1 = .ok u := congrArg Prod.fst hrun
    obtain rfl : t₁ = t := (congrArg Prod.snd hrun).symm.trans hsame
    rw [run_lift_bind]
    refine Action.Halts.after ⟨rfl, rfl, rfl⟩ ?_
    have hdrop : (Action.on dropReferenceCache t₁).2.Strict :=
      ⟨(Action.reports_dropReferenceCache t₁).2.2 ht.sound, ht.classified⟩
    cases hw : KeyWindow.between? source (lastOf source length) with
    | none => exact .inl ⟨concludes_ok Outcome.noConfusion, .refl _⟩
    | some w =>
      obtain ⟨hfit, hlast⟩ := hchecked u hok
      exact moveWindow_halts hl hfit hlast hdrop hw

end moving

theorem relocate_prompt (source target : Address) (length : UInt64) :
    Action.Prompt 0 (Concludes Diagnostic.IsRefusal) BreaksWith
      (relocate source target length).run := by
  intro t ht
  have hsettles : t.Settles (Effect.Shifts t.store source target length)
      (Attempt.on (relocate source target length) t).2 := relocate_settles ht.sound.has
  exact ⟨relocate_halts ht, hsettles.sound, hsettles.plan ▸ ht.classified⟩

theorem move_prompt (source target : Address) (length : UInt64) :
    Action.Prompt 1 (Concludes Diagnostic.IsRefusal) (fun _ r => r = .ok .storageFailed)
      (move source target length).run := by
  have hcaught : Action.Prompt 1 (Concludes Diagnostic.IsRefusal)
      (fun _ r => r = .ok .storageFailed)
      (tryCatch (relocate source target length) fun d => do
        unless d.isStorageFailure do throw d
        report d
        return .storageFailed).run := by
    refine Prompt.run_tryCatch (j := 1) (relocate_prompt source target length) (fun _ => id)
      (fun d hd => ?_) fun d hd => ?_
    · rw [show d.isStorageFailure = false from hd.1 d rfl]
      exact Action.Prompt.pure hd
    · rw [hd]
      exact (Action.reports_report d).bind fun _ _ => .pure rfl
  rw [move, run_lift_bind]
  refine Action.Prompt.after Action.reports_dropEquateCache fun _ _ => ?_
  rw [ExceptT.run_bind]
  refine Action.Prompt.bind (j := 0) hcaught (fun r hr => ?_) fun d r hd => ?_
  · cases r with
    | error d => exact Action.Prompt.pure hr
    | ok o => exact Action.Prompt.after (Action.reports_trace _) fun _ _ => Action.Prompt.pure hr
  · rw [hd]
    exact (Action.reports_trace _).bind fun _ _ => .pure rfl

/-! ### Annotation -/

/-- On a strict table every call went through. -/
def Proceeds (t t' : Table) : Prop :=
  t.Strict → t.Flows t' ∧ t'.Strict

/-- On a strict table every call went through and the diagnostic is a refusal, or the
diagnostic is the one of the failing call. -/
def Breaks (d : Diagnostic) (t t' : Table) : Prop :=
  t.Strict → (d.IsRefusal ∧ t.Flows t' ∨ d.isStorageFailure = true ∧ t.Stops d 0 t') ∧ t'.Strict

theorem Proceeds.refl (t : Table) : t.Proceeds t :=
  fun ht => ⟨.refl t, ht⟩

theorem Proceeds.trans {t t₁ t₂ : Table} (h : t.Proceeds t₁) (h' : t₁.Proceeds t₂) :
    t.Proceeds t₂ := by
  intro ht
  obtain ⟨hf, hs⟩ := h ht
  exact ⟨hf.trans (h' hs).1, (h' hs).2⟩

theorem Proceeds.breaks {t t₁ t₂ : Table} {d : Diagnostic} (h : t.Proceeds t₁)
    (h' : t₁.Breaks d t₂) : t.Breaks d t₂ := by
  intro ht
  obtain ⟨hf, hs⟩ := h ht
  exact (h' hs).imp_left (Or.imp (And.imp_right hf.trans) (And.imp_right hf.stops))

/-- A scan makes use of a monitor and a registry, and these do not matter here. -/
theorem Strict.equipped {t : Table} (ht : t.Strict) (monitor : Monitor)
    (registry : Option TypeRegistry) : Table.Strict { t with monitor, registry } :=
  ⟨⟨ht.sound.store, ht.sound.equateCache, ht.sound.referenceCache, ht.sound.loud⟩, ht.classified⟩

/-- A scan stops at the first operand that could not be bound. -/
theorem scanTable_prompt (listing : Listing) (registry : TypeRegistry) (set : AddressSet)
    (type : EnumType) (parts : Bool) :
    Action.Prompt 0 (fun p => Concludes Diagnostic.IsRefusal p.1) (fun d p => BreaksWith d p.1)
      (scanTable listing registry set type parts) := by
  intro t ht
  have hleaves : Scan.Leaves (· ≠ .storageFailed) Proceeds Breaks
      (Scan.run (fun _ b => (bindOperand b).run) listing set type parts) := by
    refine Scan.run_leaves (B := Breaks) Proceeds.refl (fun _ _ _ => Proceeds.trans)
      (fun _ _ _ _ => Proceeds.breaks) (fun _ b c => ?_) listing set type parts
    rcases hrun : (bindOperand b).run.run c with ⟨d | u, c'⟩
    · exact fun hc => (bindOperand_prompt b).on_error hc hrun
    · exact fun hc => (bindOperand_prompt b).on_ok hc hrun
  have hscan := hleaves { monitor := t.monitor, registry, client := t }
  have hon : Action.on (scanTable listing registry set type parts) t =
      let p := Scan.on (Scan.run (fun _ b => (bindOperand b).run) listing set type parts)
        { monitor := t.monitor, registry, client := t }
      ((p.1, p.2.visited, p.2.bound),
        { p.2.client with monitor := p.2.monitor, registry := some p.2.registry }) := rfl
  rw [Action.Halts, hon]
  rcases hrun : Scan.on (Scan.run (fun _ b => (bindOperand b).run) listing set type parts)
    { monitor := t.monitor, registry, client := t } with ⟨d | o, s⟩
  · rw [show Scan.on _ _ = _ from hrun] at hscan
    obtain ⟨hends, hs⟩ := hscan ht
    refine ⟨?_, hs.equipped _ _⟩
    obtain ⟨hd, hf⟩ | ⟨hd, hstops⟩ := hends
    · exact .inl ⟨concludes_error hd, hf.plan, hf.calls, hf.reported⟩
    · exact .inr ⟨d, ⟨rfl, hd⟩, hstops.plan, hstops.calls, hstops.reported⟩
  · rw [show Scan.on _ _ = _ from hrun] at hscan
    obtain ⟨hf, hs⟩ := hscan.2 ht
    exact ⟨.inl ⟨concludes_ok hscan.1, hf.plan, hf.calls, hf.reported⟩, hs.equipped _ _⟩

theorem annotate_prompt (set : AddressSet) (type : EnumType) (parts : Bool) :
    Action.Prompt 1 (Concludes Diagnostic.IsRefusal) (fun _ r => r = .ok .storageFailed)
      (annotate set type parts).run := by
  have hget : ∀ f : Table → Attempt Outcome,
      (get >>= f).run = (get : Action Table) >>= fun t => (f t).run := fun _ => rfl
  have hread : Action.Reports [] (fun _ => True) (get : Action Table) :=
    fun t => ⟨trivial, .refl t, id⟩
  rw [annotate, hget]
  refine Action.Prompt.after hread fun t _ => ?_
  split
  · next listing registry _ =>
    dsimp only
    split
    · rw [run_lift_bind]
      refine Action.Prompt.bind (j := 1) (scanTable_prompt listing registry set type parts)
        (fun p hp => ?_) fun d p hd => ?_
      · obtain ⟨d | outcome, visited, bound⟩ := p
        · dsimp only
          rw [show d.isStorageFailure = false from hp.1 d rfl]
          exact Action.Prompt.pure (concludes_error (hp.1 d rfl))
        · exact Action.Prompt.after (Action.reports_trace _) fun _ _ => Action.Prompt.pure hp
      · obtain ⟨r, visited, bound⟩ := p
        obtain ⟨rfl, hclass⟩ : r = .error d ∧ d.isStorageFailure = true := hd
        dsimp only
        rw [hclass]
        exact (Action.reports_report d).bind fun _ _ =>
          (Action.reports_trace _).bind fun _ _ => .pure rfl
    · exact Action.Prompt.pure (concludes_error rfl)
  · exact Action.Prompt.pure (concludes_error rfl)

/-! ### Labels -/

theorem label_reports (name : String) (value : Int64) :
    Action.Reports [] (fun _ => True) (label name value) := by
  rw [label]
  split
  · split
    · next d _ =>
      exact (Action.reports_memberName d.typeId value).bind fun _ _ => .pure trivial
    · exact .pure trivial
  · exact .pure trivial

end Table

/-! ### Requests -/

/-- A walk that comes to nothing, on every table, and stays as it is. -/
def Walk.Exhausted (w : Walk) : Prop :=
  ∀ t : Table, Action.on w.next t = ((none, w), t)

/-- The answer speaks of a failing storage call. -/
def Answer.reportsFailure : Answer → Bool
  | failed d => d.isStorageFailure
  | outcome o => o = .storageFailed
  | _ => false

/-- What the request answers when a storage call fails with the diagnostic: queries have an
empty answer and walks are exhausted; edits end with the diagnostic, removals answer `false`,
and operations on whole ranges end with an outcome of its own.  The other requests make no
storage call. -/
def Request.Degraded (q : Request) (d : Diagnostic) (a : Answer) : Prop :=
  match q with
  | define .. | ensure .. | attach .. | rename .. => a = .failed d
  | equateNamed _ | equateWithId _ | equateAt .. => a = .equate? none
  | equatesAt .. | allEquates | equatesWithValue _ => a = .equates []
  | referencesAt _ | referencesTo _ => a = .references []
  | countReferences _ => a = .count 0
  | step _ => ∃ rest : Walk, a = .stepped none rest ∧ rest.Exhausted
  | drain _ => ∃ (l : List Address) (rest : Walk), a = .drained l rest ∧ rest.Exhausted
  | detachOperand .. | detachHash .. | remove _ => a = .flag false
  | clear .. | move .. | annotate .. => a = .outcome .storageFailed
  | dropCaches | label .. => False

section answers

variable {α : Type} {m : Action α} {f : α → Answer} {n : Nat} {good : α → Prop}
  {lost : Diagnostic → α → Prop} {lostβ : Diagnostic → Answer → Prop}

/-- An answer that never speaks of failures. -/
theorem Action.Prompt.answering (hm : Action.Prompt n good lost m)
    (hgood : ∀ a, good a → (f a).reportsFailure = false)
    (hlost : ∀ d a, lost d a → lostβ d (f a)) :
    Action.Prompt n (fun a => a.reportsFailure = false) lostβ (f <$> m) := by
  rw [map_eq_pure_bind]
  exact Action.Prompt.bind (j := 0) hm (fun a ha => .pure (hgood a ha)) fun d a hd =>
    .pure (hlost d a hd)

/-- A query that reports every diagnostic. -/
theorem Attempt.Prompt.answerElse {m : Attempt α} (hm : Attempt.Prompt 0 (fun _ => False) m)
    (fallback : α) (hf : ∀ a, (f a).reportsFailure = false) :
    Action.Prompt 1 (fun a => a.reportsFailure = false) (fun _ a => a = f fallback)
      (f <$> m.orElseReport fallback) :=
  (hm.orElseReport fallback).answering (fun a _ => hf a) fun _ _ => congrArg f

theorem Attempt.Prompt.answer {m : Attempt α} (hm : Attempt.Prompt n Diagnostic.IsRefusal m)
    (hf : ∀ a, (f a).reportsFailure = false) :
    Action.Prompt n (fun a => a.reportsFailure = false) (fun d a => a = .failed d)
      (m.answer f) := by
  refine Action.Prompt.bind (j := 0) hm (fun r hr => ?_) fun d r hd => ?_
  · cases r with
    | ok a => exact Action.Prompt.pure (hf a)
    | error d => exact Action.Prompt.pure (hr d rfl)
  · rw [hd.1]
    exact Action.Reports.pure rfl

/-- An attempt that turns a failing call into an outcome. -/
theorem Attempt.prompt_answer_outcome {m : Attempt Outcome}
    (hm : Action.Prompt n (Concludes Diagnostic.IsRefusal) (fun _ r => r = .ok .storageFailed)
      m.run) :
    Action.Prompt n (fun a => a.reportsFailure = false) (fun _ a => a = .outcome .storageFailed)
      (m.answer .outcome) := by
  refine Action.Prompt.bind (j := 0) hm (fun r hr => ?_) fun d r hd => ?_
  · cases r with
    | ok o => exact Action.Prompt.pure (decide_eq_false fun ho => hr.2 (congrArg Except.ok ho))
    | error d => exact Action.Prompt.pure (hr.1 d rfl)
  · rw [hd]
    exact Action.Reports.pure rfl

end answers

/-- Every request is prompt: it stops at the first storage call that fails, reports it once
and has the answer that the request has for it; and if no call fails, nothing is reported and
the answer does not speak of failures. -/
theorem Request.run_prompt (q : Request) :
    Action.Prompt 1 (fun a => a.reportsFailure = false) q.Degraded q.run := by
  cases q with
  | define name value => exact (Table.define_prompt name value).answer fun _ => rfl
  | ensure name value =>
    exact (Table.obtain_prompt name value).reportingFailure.answer fun _ => rfl
  | equateNamed name => exact (Table.fetchNamed_prompt name).answerElse none fun _ => rfl
  | equateWithId id => exact (Table.fetchEquate_prompt id).answerElse none fun _ => rfl
  | equateAt a operand value =>
    have hat : Action.Prompt 1 (fun _ => True) (fun _ e? => e? = none)
        (Table.equateAt a operand value) := by
      refine Action.Prompt.bind (j := 0)
        ((Table.fetchEquatesAt_prompt a operand).orElseReport []) (fun _ _ => .pure trivial)
        fun d l hl => .pure ?_
      rw [hl]
      rfl
    exact hat.answering (fun _ _ => rfl) fun _ _ => congrArg _
  | equatesAt a operand =>
    exact (Table.fetchEquatesAt_prompt a operand).answerElse [] fun _ => rfl
  | allEquates => exact Table.fetchAll_prompt.answerElse [] fun _ => rfl
  | equatesWithValue value => exact (Table.fetchWithValue_prompt value).answerElse [] fun _ => rfl
  | referencesAt a => exact (Table.fetchAt_prompt a).answerElse [] fun _ => rfl
  | referencesTo id => exact (Table.fetchTo_prompt id).answerElse [] fun _ => rfl
  | countReferences id =>
    have hkeys : Attempt.Prompt 0 (fun _ => False) (List.length <$> Table.keysTo id) := by
      rw [map_eq_pure_bind]
      exact Attempt.Prompt.bind (Table.keysTo_prompt id) fun _ => .pure _
    exact hkeys.answerElse 0 fun _ => rfl
  | step walk =>
    refine Action.Prompt.bind (j := 0) walk.next_prompt (fun _ _ => .pure rfl) fun d p hd => ?_
    obtain ⟨a?, rest⟩ := p
    obtain ⟨rfl, hended⟩ : a? = none ∧ rest.ended = true := hd
    exact .pure ⟨rest, rfl, Walk.next_of_ended hended⟩
  | drain walk =>
    refine Action.Prompt.bind (j := 0) walk.drain_prompt (fun _ _ => .pure rfl) fun d p hd => ?_
    exact .pure ⟨p.1, p.2, rfl, Walk.next_of_ended hd⟩
  | attach id a operand hash =>
    exact (Table.fillSlot_prompt id a operand hash).reportingFailure.answer fun _ => rfl
  | detachOperand id a operand =>
    exact (Table.emptySlot_prompt id _).answerElse false fun _ => rfl
  | detachHash id a hash => exact (Table.emptySlot_prompt id _).answerElse false fun _ => rfl
  | remove name => exact (Table.eraseNamed_prompt name).answerElse false fun _ => rfl
  | rename id name => exact (Table.rename_prompt id name).answer fun _ => rfl
  | clear first last =>
    exact (Table.clear_prompt first last).answering (fun _ => decide_eq_false)
      fun _ _ => congrArg _
  | move source target length =>
    exact Attempt.prompt_answer_outcome (Table.move_prompt source target length)
  | annotate set type parts =>
    exact Attempt.prompt_answer_outcome (Table.annotate_prompt set type parts)
  | dropCaches =>
    have hdrop := Action.reports_dropEquateCache.bind fun _ _ => Action.reports_dropReferenceCache
    exact Action.Prompt.after hdrop fun _ _ => .pure rfl
  | label name value =>
    rw [run, map_eq_pure_bind]
    exact Action.Prompt.after (Table.label_reports name value) fun _ _ => .pure rfl

end Equates

/-
Operations that perform effects in order and leave no debt.

`Table.Settles P t t'` says that between two tables effects of the kinds `P` were
performed, each in order in its turn, and that they leave no debt if no storage call
fails.  This relation is closed under composition, so that what an operation does
follows from what its parts do: `Action.Tidy` and `Attempt.Tidy` are closed under
sequencing and under the handling of diagnostics.
-/
import Equates.Proofs.Store.Ledger
import Equates.Proofs.Table.Cursor

namespace Equates

open Attempt

namespace Table

/-- Effects of the kinds `P` lead from `t` to `t'`. -/
def Settles (P : Effect → Prop) (t t' : Table) : Prop :=
  ∃ l, t.Keeps (t.store.after l) t' ∧ Store.Lawful [] t.store l ∧
    (t.plan = .none → Store.debts [] l = []) ∧ ∀ x ∈ l, P x

namespace Settles

variable {P : Effect → Prop} {t t₁ t₂ : Table}

theorem of_keeps (h : t.Keeps t.store t₁) : Settles P t t₁ :=
  ⟨[], h, trivial, fun _ => rfl, List.forall_mem_nil _⟩

protected theorem refl (ht : t.Sound) : Settles P t t :=
  of_keeps ht.has.becomes.keeps

theorem sound (h : Settles P t t₁) : t₁.Sound := by
  obtain ⟨l, hk, -⟩ := h
  exact hk.sound

theorem plan (h : Settles P t t₁) : t₁.plan = t.plan := by
  obtain ⟨l, hk, -⟩ := h
  exact hk.plan

protected theorem trans (h : Settles P t t₁) (h' : Settles P t₁ t₂) : Settles P t t₂ := by
  obtain ⟨l, hk, hl, hd, hP⟩ := h
  obtain ⟨l', hk', hl', hd', hP'⟩ := h'
  rw [hk.store] at hk' hl'
  refine ⟨l ++ l', ?_, ?_, fun hp => ?_, ?_⟩
  · rw [Store.after_append]
    exact hk.trans hk'
  · -- The second list is in order from a clean ledger on, so also with what the first
    -- may have left owing where it broke off.
    exact Store.lawful_append.mpr ⟨hl, hl'.mono List.nil_subperm⟩
  · rw [Store.debts_append, hd hp, hd' (hk.plan.trans hp)]
  · intro x hx
    exact (List.mem_append.mp hx).elim (hP x) (hP' x)

/-- An attempt that enacts a list without debts. -/
theorem of_enacts {α : Type} {m : Attempt α} {l : List Effect} {r : Except Diagnostic α}
    (hm : Attempt.Enacts m t.store l r) (ht : t.Sound) (hl : t.store.Clears l)
    (hP : ∀ x ∈ l, P x) : Settles P t (Attempt.on m t).2 := by
  obtain ⟨-, hb⟩ | ⟨d, u, -, ⟨l', hl', rfl⟩, hb, hbroke⟩ := hm t ht.has
  · exact ⟨l, hb.keeps, hl.lawful, fun _ => hl.debts, hP⟩
  · refine ⟨l', hb.keeps, hl.lawful.of_prefix hl', fun hp => ?_, fun x hx => ?_⟩
    · -- The debts of a list that was cut short need not be paid: something has failed.
      exact absurd hbroke (not_broke_of_none (hb.frame.plan.trans hp) d)
    · exact hP x (hl'.subset hx)

end Settles

end Table

/-! ### Tidy operations -/

/-- From every sound table on, the action performs effects of the kinds `P`. -/
def Action.Tidy {α : Type} (P : Effect → Prop) (m : Action α) : Prop :=
  ∀ t : Table, t.Sound → t.Settles P (Action.on m t).2

/-- From every sound table on, the attempt performs effects of the kinds `P`. -/
def Attempt.Tidy {α : Type} (P : Effect → Prop) (m : Attempt α) : Prop :=
  Action.Tidy P m.run

namespace Action.Tidy

variable {α β : Type} {P : Effect → Prop} {m : Action α} {f : α → Action β}

protected theorem pure (a : α) : Action.Tidy P (pure a) :=
  fun _ ht => Table.Settles.refl ht

protected theorem bind (hm : Action.Tidy P m) (hf : ∀ a, Action.Tidy P (f a)) :
    Action.Tidy P (m >>= f) := by
  intro t ht
  rw [Action.on_bind]
  exact (hm t ht).trans (hf _ _ (hm t ht).sound)

/-- An action that leaves the stored part alone. -/
theorem of_keeps (h : ∀ t : Table, t.Sound → t.Keeps t.store (Action.on m t).2) :
    Action.Tidy P m :=
  fun t ht => .of_keeps (h t ht)

end Action.Tidy

theorem Table.Sound.keeps_of_same {t t' : Table} (ht : t.Sound) (hs : t'.store = t.store)
    (he : t'.equateCache.Agrees t.equates.get?) (hr : t'.referenceCache.Agrees t.references.get?)
    (hp : t'.plan = t.plan) : t.Keeps t.store t' :=
  ⟨Table.Has.of_store ht.store hs he hr (hp ▸ ht.loud), hp⟩

section entries

variable {P : Effect → Prop}

theorem tidy_trace (l : TraceLine) : Action.Tidy P (trace l) :=
  .of_keeps fun _ ht => (ht.has.traced l).keeps

theorem tidy_report (d : Diagnostic) : Action.Tidy P (report d) :=
  .of_keeps fun _ ht => (ht.has.reported d).keeps

theorem tidy_tellMonitor (message : String) : Action.Tidy P (tellMonitor message) :=
  .of_keeps fun _ ht => ht.keeps_of_same rfl ht.equateCache ht.referenceCache rfl

theorem tidy_advanceMonitor (done total : Nat) : Action.Tidy P (advanceMonitor done total) :=
  .of_keeps fun _ ht => ht.has.advanced done total

theorem tidy_dropEquateCache : Action.Tidy P Table.dropEquateCache :=
  .of_keeps fun t ht =>
    ht.keeps_of_same rfl (t.equateCache.agrees_clear _) ht.referenceCache rfl

theorem tidy_dropReferenceCache : Action.Tidy P Table.dropReferenceCache :=
  .of_keeps fun t ht =>
    ht.keeps_of_same rfl ht.equateCache (t.referenceCache.agrees_clear _) rfl

end entries

namespace Attempt.Tidy

variable {α β : Type} {P : Effect → Prop} {m : Attempt α} {f : α → Attempt β}

protected theorem pure (a : α) : Attempt.Tidy P (pure a) :=
  fun _ ht => Table.Settles.refl ht

protected theorem refuse (p : Problem) : Attempt.Tidy P (refuse p : Attempt α) :=
  fun _ ht => Table.Settles.refl ht

protected theorem throw (d : Diagnostic) : Attempt.Tidy P (throw d : Attempt α) :=
  fun _ ht => Table.Settles.refl ht

protected theorem lift {act : Action α} (h : Action.Tidy P act) : Attempt.Tidy P (liftM act) :=
  h

/-- What follows on an attempt starts where the attempt has ended. -/
theorem bind_settles_of {t : Table} (hm : t.Settles P (Attempt.on m t).2)
    (hf : ∀ a, (Attempt.on m t).1 = .ok a →
      (Attempt.on m t).2.Settles P (Attempt.on (f a) (Attempt.on m t).2).2) :
    t.Settles P (Attempt.on (m >>= f) t).2 := by
  rw [on_bind]
  rcases hrun : Attempt.on m t with ⟨d | a, t₁⟩
  · rw [hrun] at hm
    exact hm
  · rw [hrun] at hm hf
    exact hm.trans (hf a rfl)

/-- A tidy attempt may follow on what was done. -/
theorem bind_settles {t : Table} (hm : t.Settles P (Attempt.on m t).2)
    (hf : ∀ a, Attempt.Tidy P (f a)) : t.Settles P (Attempt.on (m >>= f) t).2 :=
  bind_settles_of hm fun a _ => hf a _ hm.sound

/-- A tidy handler may follow on what was done. -/
theorem tryCatch_settles {handler : Diagnostic → Attempt α} {t : Table}
    (hm : t.Settles P (Attempt.on m t).2) (hh : ∀ d, Attempt.Tidy P (handler d)) :
    t.Settles P (Attempt.on (tryCatch m handler) t).2 := by
  rw [on_tryCatch]
  rcases hrun : Attempt.on m t with ⟨d | a, t₁⟩
  · rw [hrun] at hm
    exact hm.trans (hh d t₁ hm.sound)
  · rw [hrun] at hm
    exact hm

protected theorem bind (hm : Attempt.Tidy P m) (hf : ∀ a, Attempt.Tidy P (f a)) :
    Attempt.Tidy P (m >>= f) :=
  fun t ht => bind_settles (hm t ht) hf

protected theorem tryCatch {handler : Diagnostic → Attempt α} (hm : Attempt.Tidy P m)
    (hh : ∀ d, Attempt.Tidy P (handler d)) : Attempt.Tidy P (tryCatch m handler) :=
  fun t ht => tryCatch_settles (hm t ht) hh

/-- What stands behind a refusal is never reached. -/
theorem throw_bind (d : Diagnostic) (f : α → Attempt β) : Attempt.Tidy P (throw d >>= f) :=
  fun _ ht => Table.Settles.refl ht

theorem orElseReport (hm : Attempt.Tidy P m) (fallback : α) :
    Action.Tidy P (m.orElseReport fallback) := by
  rw [Attempt.orElseReport]
  refine Action.Tidy.bind hm fun r => ?_
  cases r with
  | ok a => exact Action.Tidy.pure a
  | error d => exact Action.Tidy.bind (tidy_report d) fun _ => Action.Tidy.pure fallback

theorem reportingFailure (hm : Attempt.Tidy P m) : Attempt.Tidy P m.reportingFailure := by
  rw [Attempt.reportingFailure]
  refine Tidy.tryCatch hm fun d => ?_
  cases hd : d.isStorageFailure with
  | true =>
    exact Tidy.bind (Tidy.lift (tidy_report d)) fun _ => Tidy.throw d
  | false => exact Tidy.throw d

theorem of_enacts (h : ∀ s : Store, s.Sound → ∃ l r, Attempt.Enacts m s l r ∧ s.Clears l ∧
    ∀ x ∈ l, P x) : Attempt.Tidy P m := by
  intro t ht
  obtain ⟨l, r, hm, hl, hP⟩ := h t.store ht.store
  exact Table.Settles.of_enacts hm ht hl hP

/-- What only reads is tidy. -/
theorem of_read {r : Store → Except Diagnostic α} (h : ∀ s, Attempt.Enacts m s [] (r s)) :
    Attempt.Tidy P m :=
  of_enacts fun s _ =>
    ⟨[], r s, h s, s.clears_nil, List.forall_mem_nil _⟩

end Attempt.Tidy

end Equates

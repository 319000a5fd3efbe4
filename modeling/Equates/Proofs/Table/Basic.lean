/-
How an attempt on a table ends.

An attempt either comes to its end or breaks at a failing storage call.
`Attempt.Ends` says both: from a table `t` the attempt ends with a result `r` and the
store `s`, or it breaks, and then the store is one of those that `mid` describes, and
the diagnostic is that of the last storage call (`Table.Broke`).  Where no storage
call fails, nothing breaks (`Attempt.Ends.run`).

Beside the stored rows a sound table (`Table.Sound`) has caches that agree with them,
and storage calls that fail openly: none of them pretends to have found nothing.

* `Attempt.Ends.bind` — attempts are joined end to end;
* `Attempt.Ends.call` — a storage call goes through, or the attempt breaks there.
-/
import Equates.Table.Basic
import Equates.Proofs.Cache
import Equates.Proofs.Store.Effect

namespace Equates

/-- A call that does not go through always fails. -/
def FaultPlan.Loud (plan : FaultPlan) : Prop :=
  ∀ calls call fault, plan calls call = some fault → fault.silent = false

theorem FaultPlan.loud_none : FaultPlan.none.Loud := by
  intro calls call fault h
  cases h

/-- A plan that fails some calls with one diagnostic. -/
theorem FaultPlan.loud_ite (p : List CallRecord → StorageCall → Prop)
    [∀ calls call, Decidable (p calls call)] (d : Diagnostic) :
    FaultPlan.Loud fun calls call =>
      if p calls call then some { diagnostic := d } else Option.none := by
  intro calls call fault h
  dsimp only at h
  split at h
  · cases h
    rfl
  · cases h

namespace Table

structure Sound (t : Table) : Prop where
  store : t.store.Sound
  equateCache : t.equateCache.Agrees t.equates.get?
  referenceCache : t.referenceCache.Agrees t.references.get?
  loud : t.plan.Loud

/-- The table is sound, and `s` is its store. -/
structure Has (t : Table) (s : Store) : Prop where
  sound : t.Sound
  store : t.store = s

/-- What a table works with is the same. -/
structure Frame (t t' : Table) : Prop where
  plan : t'.plan = t.plan
  monitor : t'.monitor = t.monitor
  listing : t'.listing = t.listing
  registry : t'.registry = t.registry

/-- `t'` is a sound table with the store `s` that works with what `t` works with. -/
structure Becomes (t : Table) (s : Store) (t' : Table) : Prop extends Has t' s where
  frame : t.Frame t'

/-- The last storage call failed with the diagnostic `d`, as planned. -/
def Broke (t : Table) (d : Diagnostic) : Prop :=
  ∃ call rest fault, t.calls = ⟨call, some d⟩ :: rest ∧ t.plan rest call = some fault ∧
    fault.diagnostic = d

theorem Frame.refl (t : Table) : t.Frame t := ⟨rfl, rfl, rfl, rfl⟩

theorem Frame.trans {t t₁ t₂ : Table} (h : t.Frame t₁) (h' : t₁.Frame t₂) : t.Frame t₂ :=
  ⟨h'.plan.trans h.plan, h'.monitor.trans h.monitor, h'.listing.trans h.listing,
    h'.registry.trans h.registry⟩

namespace Has

variable {t : Table} {s : Store}

theorem equates (h : t.Has s) : t.equates = s.equates :=
  congrArg Store.equates h.store

theorem references (h : t.Has s) : t.references = s.references :=
  congrArg Store.references h.store

theorem changes (h : t.Has s) : t.journal.filterMap Entry.change? = s.changes :=
  congrArg Store.changes h.store

theorem store_sound (h : t.Has s) : s.Sound :=
  h.store ▸ h.sound.store

theorem equateCache (h : t.Has s) : t.equateCache.Agrees s.equates.get? :=
  h.equates ▸ h.sound.equateCache

theorem referenceCache (h : t.Has s) : t.referenceCache.Agrees s.references.get? :=
  h.references ▸ h.sound.referenceCache

theorem of_store (hs : s.Sound) (hstore : t.store = s)
    (he : t.equateCache.Agrees s.equates.get?) (hr : t.referenceCache.Agrees s.references.get?)
    (hplan : t.plan.Loud) : t.Has s := by
  subst hstore
  exact ⟨⟨hs, he, hr, hplan⟩, rfl⟩

theorem becomes (h : t.Has s) : t.Becomes s t :=
  ⟨h, Frame.refl t⟩

theorem becomes_of (h : t.Has s) {t' : Table} {s' : Store} (hf : t.Frame t') (hs : s'.Sound)
    (hstore : t'.store = s') (he : t'.equateCache.Agrees s'.equates.get?)
    (hr : t'.referenceCache.Agrees s'.references.get?) : t.Becomes s' t' :=
  ⟨of_store hs hstore he hr (hf.plan ▸ h.sound.loud), hf⟩

end Has

theorem Sound.has {t : Table} (h : t.Sound) : t.Has t.store :=
  ⟨h, rfl⟩

theorem Frame.becomes {t t₁ t₂ : Table} {s : Store} (h : t.Frame t₁) (h' : t₁.Becomes s t₂) :
    t.Becomes s t₂ :=
  ⟨h'.toHas, h.trans h'.frame⟩

theorem not_broke_of_none {t : Table} (h : t.plan = .none) (d : Diagnostic) : ¬ t.Broke d := by
  rintro ⟨call, rest, fault, -, hp, -⟩
  rw [h] at hp
  cases hp

theorem Sound.recordCall {t : Table} (h : t.Sound) (call : StorageCall)
    (failure : Option Diagnostic) : (t.recordCall call failure).Sound :=
  ⟨h.store, h.equateCache, h.referenceCache, h.loud⟩

/-- A sound table may work with another plan, as long as it is loud, and on another program. -/
theorem Sound.equip {t : Table} (h : t.Sound) {plan : FaultPlan} (hplan : plan.Loud)
    (listing : Option Listing) (registry : Option TypeRegistry) :
    Table.Sound { t with plan, listing, registry } :=
  ⟨h.store, h.equateCache, h.referenceCache, hplan⟩

theorem frame_recordCall (t : Table) (call : StorageCall) (failure : Option Diagnostic) :
    t.Frame (t.recordCall call failure) :=
  ⟨rfl, rfl, rfl, rfl⟩

end Table

/-! ### Running an attempt -/

/-- The answer of the action on `t`, and the table behind it. -/
def Action.on {α : Type} (m : Action α) (t : Table) : α × Table :=
  m.run t

/-- The result of the attempt on `t`, and the table behind it. -/
def Attempt.on {α : Type} (m : Attempt α) (t : Table) : Except Diagnostic α × Table :=
  Action.on m.run t

theorem Action.on_bind {α β : Type} (m : Action α) (f : α → Action β) (t : Table) :
    Action.on (m >>= f) t = Action.on (f (Action.on m t).1) (Action.on m t).2 := rfl

theorem Action.on_map {α β : Type} (f : α → β) (m : Action α) (t : Table) :
    Action.on (f <$> m) t = (f (Action.on m t).1, (Action.on m t).2) := rfl

namespace Attempt

variable {α β : Type}

theorem on_lift (m : Action α) (t : Table) :
    Attempt.on (liftM m) t = (.ok (Action.on m t).1, (Action.on m t).2) := rfl

theorem on_bind (m : Attempt α) (f : α → Attempt β) (t : Table) :
    Attempt.on (m >>= f) t =
      match Attempt.on m t with
      | (.ok a, t') => Attempt.on (f a) t'
      | (.error d, t') => (.error d, t') := by
  rw [Attempt.on, ExceptT.run_bind, Action.on_bind]
  show Action.on _ (Attempt.on m t).2 = _
  rcases h : Attempt.on m t with ⟨_ | _, t'⟩
  · rw [show Action.on m.run t = Attempt.on m t from rfl, h]
    rfl
  · rw [show Action.on m.run t = Attempt.on m t from rfl, h]
    rfl

/-- What follows on an attempt that ends well. -/
theorem on_bind_ok {m : Attempt α} {t t' : Table} {a : α} (h : Attempt.on m t = (.ok a, t'))
    (f : α → Attempt β) : Attempt.on (m >>= f) t = Attempt.on (f a) t' := by
  rw [on_bind, h]

theorem on_bind_error {m : Attempt α} {t t' : Table} {d : Diagnostic}
    (h : Attempt.on m t = (.error d, t')) (f : α → Attempt β) :
    Attempt.on (m >>= f) t = (.error d, t') := by
  rw [on_bind, h]

theorem on_lift_bind (m : Action α) (f : α → Attempt β) (t : Table) :
    Attempt.on (liftM m >>= f) t = Attempt.on (f (Action.on m t).1) (Action.on m t).2 := by
  rw [on_bind, on_lift]

theorem on_get_bind (f : Table → Attempt β) (t : Table) :
    Attempt.on (get >>= f) t = Attempt.on (f t) t := rfl

theorem on_tryCatch (m : Attempt α) (handler : Diagnostic → Attempt α) (t : Table) :
    Attempt.on (tryCatch m handler) t =
      match Attempt.on m t with
      | (.ok a, t') => (.ok a, t')
      | (.error d, t') => Attempt.on (handler d) t' := by
  rw [Attempt.on, ExceptT.run_tryCatch, Action.on_bind]
  show Action.on _ (Attempt.on m t).2 = _
  rcases h : Attempt.on m t with ⟨_ | _, t'⟩
  · rw [show Action.on m.run t = Attempt.on m t from rfl, h]
    rfl
  · rw [show Action.on m.run t = Attempt.on m t from rfl, h]
    rfl

/-- An attempt that ends well needs no handler. -/
theorem on_tryCatch_ok {m : Attempt α} {t t' : Table} {a : α}
    (h : Attempt.on m t = (.ok a, t')) (handler : Diagnostic → Attempt α) :
    Attempt.on (tryCatch m handler) t = (.ok a, t') := by
  rw [on_tryCatch, h]

/-- From `t` the attempt ends with the result `r` and the store `s`, or it breaks with
one of the stores that `mid` describes. -/
def Ends (m : Attempt α) (t : Table) (mid : Store → Prop) (r : Except Diagnostic α) (s : Store) :
    Prop :=
  ((Attempt.on m t).1 = r ∧ t.Becomes s (Attempt.on m t).2) ∨
    ∃ d u, (Attempt.on m t).1 = .error d ∧ mid u ∧ t.Becomes u (Attempt.on m t).2 ∧
      (Attempt.on m t).2.Broke d

namespace Ends

variable {m : Attempt α} {f : α → Attempt β} {t : Table} {mid mid' : Store → Prop}
  {r : Except Diagnostic α} {r' : Except Diagnostic β} {a : α} {d : Diagnostic} {s s' : Store}

/-- Where no storage call fails, an attempt comes to its end. -/
theorem run (h : Attempt.Ends m t mid r s) (hp : t.plan = .none) :
    (Attempt.on m t).1 = r ∧ t.Becomes s (Attempt.on m t).2 := by
  rcases h with h | ⟨d, u, -, -, hb, hbroke⟩
  · exact h
  · exact absurd hbroke (Table.not_broke_of_none (hb.frame.plan.trans hp) d)

theorem mono (h : Attempt.Ends m t mid r s) (hmid : ∀ u, mid u → mid' u) :
    Attempt.Ends m t mid' r s := by
  rcases h with h | ⟨d, u, hr, hu, hb⟩
  · exact .inl h
  · exact .inr ⟨d, u, hr, hmid u hu, hb⟩

protected theorem pure (ht : t.Has s) (a : α) : Attempt.Ends (pure a) t mid (.ok a) s :=
  .inl ⟨rfl, ht.becomes⟩

protected theorem refuse (ht : t.Has s) (p : Problem) :
    Attempt.Ends (refuse p : Attempt α) t mid (.error p.diagnostic) s :=
  .inl ⟨rfl, ht.becomes⟩

protected theorem lift {c : Action α} (h : t.Becomes s (Action.on c t).2) :
    Attempt.Ends (liftM c) t mid (.ok (Action.on c t).1) s :=
  .inl ⟨rfl, h⟩

protected theorem bind (hm : Attempt.Ends m t mid (.ok a) s)
    (hf : ∀ t₁, t.Becomes s t₁ → Attempt.Ends (f a) t₁ mid r' s') :
    Attempt.Ends (m >>= f) t mid r' s' := by
  rw [Ends, on_bind]
  rcases hrun : Attempt.on m t with ⟨res, t₁⟩
  rw [Ends, hrun] at hm
  obtain ⟨hres, hb⟩ | ⟨d, u, hres, hu, hb, hbroke⟩ := hm
  · obtain rfl : res = .ok a := hres
    -- What breaks in either part breaks the whole, with the store it had then.
    obtain ⟨hr, hb'⟩ | ⟨d, u, hr, hu, hb', hbroke⟩ := hf t₁ hb
    · exact .inl ⟨hr, hb.frame.becomes hb'⟩
    · exact .inr ⟨d, u, hr, hu, hb.frame.becomes hb', hbroke⟩
  · obtain rfl : res = .error d := hres
    exact .inr ⟨d, u, rfl, hu, hb, hbroke⟩

theorem bind_error (hm : Attempt.Ends m t mid (.error d) s) :
    Attempt.Ends (m >>= f) t mid (.error d) s := by
  rw [Ends, on_bind]
  rcases hrun : Attempt.on m t with ⟨res, t₁⟩
  rw [Ends, hrun] at hm
  obtain ⟨hres, hb⟩ | ⟨d', u, hres, hu, hb, hbroke⟩ := hm
  · obtain rfl : res = .error d := hres
    exact .inl ⟨rfl, hb⟩
  · obtain rfl : res = .error d' := hres
    exact .inr ⟨d', u, rfl, hu, hb, hbroke⟩

/-- An action that keeps the frame may stand in front. -/
theorem bind_lift {c : Action α} (hf : t.Frame (Action.on c t).2)
    (h : Attempt.Ends (f (Action.on c t).1) (Action.on c t).2 mid r' s') :
    Attempt.Ends (liftM c >>= f) t mid r' s' := by
  rw [Ends, on_lift_bind]
  rcases h with ⟨hr, hb⟩ | ⟨d, u, hr, hu, hb, hbroke⟩
  · exact .inl ⟨hr, hf.becomes hb⟩
  · exact .inr ⟨d, u, hr, hu, hf.becomes hb, hbroke⟩

end Ends

/-! ### Storage calls -/

/-- A storage call fails openly and leaves the table alone, or it does what it is for, which may
end with a problem. -/
theorem storageCall_cases {t : Table} (ht : t.Sound) (call : StorageCall) (silence : Option α)
    (act : Table → Except Problem α × Table) :
    (∃ d, Attempt.on (storageCall call silence act) t = (.error d, t.recordCall call (some d)) ∧
      (t.recordCall call (some d)).Broke d) ∨
    (∃ a t', act t = (.ok a, t') ∧
      Attempt.on (storageCall call silence act) t = (.ok a, t'.recordCall call none)) ∨
    ∃ p t', act t = (.error p, t') ∧ Attempt.on (storageCall call silence act) t =
      (.error p.diagnostic, t'.recordCall call (some p.diagnostic)) := by
  rw [Attempt.on, Action.on, storageCall, ExceptT.run_mk]
  dsimp only [StateT.run]
  cases hplan : t.plan t.calls call with
  | none =>
    rcases hact : act t with ⟨p | a, t'⟩
    · exact .inr (.inr ⟨p, t', rfl, rfl⟩)
    · exact .inr (.inl ⟨a, t', rfl, rfl⟩)
  | some fault =>
    -- A fault of a loud plan is never passed off as an answer.
    refine .inl ⟨fault.diagnostic, ?_, call, t.calls, fault, rfl, hplan, rfl⟩
    dsimp only
    rw [ht.loud _ _ _ hplan]

section calls

variable {f : α → Attempt β} {t t' : Table} {mid : Store → Prop} {r : Except Diagnostic β}
  {a : α} {s s' : Store}

/-- A storage call goes through, or the attempt breaks there. -/
theorem Ends.call {call : StorageCall} {silence : Option α}
    {act : Table → Except Problem α × Table} (ht : t.Has s) (hs : mid s)
    (hact : act t = (.ok a, t')) (hf : t.Frame t')
    (h : Attempt.Ends (f a) (t'.recordCall call none) mid r s') :
    Attempt.Ends (storageCall call silence act >>= f) t mid r s' := by
  rw [Ends, on_bind]
  obtain ⟨d, hd, hbroke⟩ | ⟨a, u, hact', hrun⟩ | ⟨p, u, hact', -⟩ :=
    storageCall_cases ht.sound call silence act
  · rw [hd]
    have hb : t.Becomes s (t.recordCall call (some d)) :=
      ⟨⟨ht.sound.recordCall call _, ht.store⟩, t.frame_recordCall call _⟩
    exact .inr ⟨d, s, rfl, hs, hb, hbroke⟩
  · rw [hact] at hact'
    cases hact'
    rw [hrun]
    have hf' : t.Frame (t'.recordCall call none) := hf.trans (t'.frame_recordCall call none)
    rcases h with ⟨hr, hb⟩ | ⟨d, u, hr, hu, hb, hbroke⟩
    · exact .inl ⟨hr, hf'.becomes hb⟩
    · exact .inr ⟨d, u, hr, hu, hf'.becomes hb, hbroke⟩
  · rw [hact] at hact'
    cases hact'

/-- A call that only reads answers with what is stored. -/
theorem storageCall_ends {call : StorageCall} {silence : Option α}
    {act : Table → Except Problem α × Table} (ht : t.Has s) (hs : mid s)
    (hact : act t = (.ok a, t)) :
    Attempt.Ends (storageCall call silence act) t mid (.ok a) s := by
  have h : Attempt.Ends (pure a) (t.recordCall call none) mid (.ok a) s :=
    Ends.pure ⟨ht.sound.recordCall call none, ht.store⟩ a
  -- The rule for a call in front of a continuation, with nothing behind it.
  rw [← bind_pure (storageCall call silence act)]
  exact Ends.call ht hs hact (Table.Frame.refl t) h

theorem queryEquates_ends (ht : t.Has s) (hs : mid s) (call : EquateCall) (silence : α)
    (f : EquateRows → α) :
    Attempt.Ends (queryEquates call silence f) t mid (.ok (f s.equates)) s := by
  rw [← ht.equates]
  exact storageCall_ends ht hs rfl

theorem queryReferences_ends (ht : t.Has s) (hs : mid s) (call : ReferenceCall) (silence : α)
    (f : ReferenceRows → α) :
    Attempt.Ends (queryReferences call silence f) t mid (.ok (f s.references)) s := by
  rw [← ht.references]
  exact storageCall_ends ht hs rfl

/-- A change of the stored equates goes through, or the attempt breaks there. -/
theorem Ends.changeEquates {k : Unit → Attempt β} {call : EquateCall}
    {f : EquateRows → Except Problem Unit × EquateRows} {rows : EquateRows} (ht : t.Has s) (hs : mid s)
    (hf : f s.equates = (.ok (), rows))
    (h : Attempt.Ends (k ()) ({ t with equates := rows }.recordCall (.equates call) none)
      mid r s') :
    Attempt.Ends (changeEquates call f >>= k) t mid r s' := by
  have hact : ((f t.equates).1, { t with equates := (f t.equates).2 }) =
      (.ok (), { t with equates := rows }) := by
    rw [ht.equates, hf]
  exact Ends.call ht hs hact ⟨rfl, rfl, rfl, rfl⟩ h

/-- A change of the stored references goes through, or the attempt breaks there. -/
theorem Ends.changeReferences {k : Unit → Attempt β} {call : ReferenceCall}
    {f : ReferenceRows → Except Problem Unit × ReferenceRows} {rows : ReferenceRows} (ht : t.Has s)
    (hs : mid s) (hf : f s.references = (.ok (), rows))
    (h : Attempt.Ends (k ()) ({ t with references := rows }.recordCall (.references call) none)
      mid r s') :
    Attempt.Ends (changeReferences call f >>= k) t mid r s' := by
  have hact : ((f t.references).1, { t with references := (f t.references).2 }) =
      (.ok (), { t with references := rows }) := by
    rw [ht.references, hf]
  exact Ends.call ht hs hact ⟨rfl, rfl, rfl, rfl⟩ h

end calls

end Attempt

end Equates

/-
Tables that differ in their caches only.

The bare table (`Table.bare`) is a table without its caches, its history of storage
calls and the number of its type look-ups.  Two sound tables on which every storage call
goes through are twins (`Table.Twin`) if they are the same table when they are bare.  An
operation is blind (`Action.Blind`) if it cannot tell twins apart: it answers the same
on both, and leaves twins behind.

* `Attempt.Blind.bind` — blind attempts may be joined, since the second one gets the
  same argument on both tables;
* `Table.fetchEquate_blind`, `Table.fetchRow_blind` — what is read does not tell whether
  it was cached;
* `Attempt.blind_write` — a change of the rows is blind only together with what it does
  to the cache, since between the two the cache may disagree with the rows.
-/
import Equates.Proofs.Scan
import Equates.Proofs.Table.Cursor
import Equates.Proofs.Table.Writes
import Equates.Table.Lookup

namespace Equates

open Attempt

namespace Table

/-- The table without its caches, its calls and the number of its type look-ups. -/
def bare (t : Table) : Table :=
  { t with
    equateCache := .empty 0
    referenceCache := .empty 0
    calls := []
    registry := t.registry.map TypeRegistry.uncounted }

/-- The table is sound, and every storage call goes through. -/
structure Ready (t : Table) : Prop where
  sound : t.Sound
  plan : t.plan = .none

/-- The tables are ready, and they are the same when they are bare. -/
structure Twin (t₁ t₂ : Table) : Prop where
  left : t₁.Ready
  right : t₂.Ready
  bare : t₁.bare = t₂.bare

/-- The same answer with twins behind it. -/
structure Match {α : Type} (p₁ p₂ : α × Table) : Prop where
  answer : p₁.1 = p₂.1
  behind : p₁.2.Twin p₂.2

section Twin

variable {t₁ t₂ : Table} (h : t₁.Twin t₂)
include h

theorem Twin.equates : t₁.equates = t₂.equates := by
  have := congrArg Table.equates h.bare
  exact this

theorem Twin.references : t₁.references = t₂.references := by
  have := congrArg Table.references h.bare
  exact this

theorem Twin.monitor : t₁.monitor = t₂.monitor := by
  have := congrArg Table.monitor h.bare
  exact this

theorem Twin.journal : t₁.journal = t₂.journal := by
  have := congrArg Table.journal h.bare
  exact this

theorem Twin.listing : t₁.listing = t₂.listing := by
  have := congrArg Table.listing h.bare
  exact this

theorem Twin.registry :
    t₁.registry.map TypeRegistry.uncounted = t₂.registry.map TypeRegistry.uncounted := by
  have := congrArg Table.registry h.bare
  exact this

end Twin

/-- Caches that agree with the rows make the table as ready as it was. -/
theorem Ready.of_rows {t t' : Table} (ht : t.Ready) (he : t'.equates = t.equates)
    (hr : t'.references = t.references) (hec : t'.equateCache.Agrees t.equates.get?)
    (hrc : t'.referenceCache.Agrees t.references.get?) (hp : t'.plan = t.plan) : t'.Ready := by
  have hs := ht.sound.store
  refine ⟨⟨⟨?_, ?_, ?_⟩, ?_, ?_, ?_⟩, hp.trans ht.plan⟩
  · show t'.equates.Sound
    exact he ▸ hs.equates
  · show t'.references.Sound
    exact hr ▸ hs.references
  · show ∀ r ∈ t'.references, ∃ a, Address.ofKey? r.addressKey = some a
    exact hr ▸ hs.placed
  · exact he ▸ hec
  · exact hr ▸ hrc
  · exact hp ▸ ht.sound.loud

end Table

/-! ### Blind operations -/

/-- On twins the action answers the same, and it leaves twins behind. -/
def Action.Blind {α : Type} (m : Action α) : Prop :=
  ∀ t₁ t₂ : Table, t₁.Twin t₂ → Table.Match (Action.on m t₁) (Action.on m t₂)

/-- On twins the attempt has the same result, and it leaves twins behind. -/
def Attempt.Blind {α : Type} (m : Attempt α) : Prop :=
  Action.Blind m.run

namespace Action.Blind

variable {α β : Type} {m : Action α} {f : α → Action β}

protected theorem pure (a : α) : Action.Blind (pure a) :=
  fun _ _ h => ⟨rfl, h⟩

/-- What follows may rely on the answer being one that the action gives. -/
theorem bind_of (hm : Action.Blind m) (hf : ∀ t, Action.Blind (f (Action.on m t).1)) :
    Action.Blind (m >>= f) := by
  intro t₁ t₂ h
  rw [Action.on_bind, Action.on_bind, (hm t₁ t₂ h).answer]
  exact hf t₂ _ _ (hm t₁ t₂ h).behind

protected theorem bind (hm : Action.Blind m) (hf : ∀ a, Action.Blind (f a)) :
    Action.Blind (m >>= f) :=
  hm.bind_of fun t => hf (Action.on m t).1

protected theorem map (hm : Action.Blind m) (g : α → β) : Action.Blind (g <$> m) := by
  intro t₁ t₂ h
  obtain ⟨ha, hb⟩ := hm t₁ t₂ h
  rw [Action.on_map, Action.on_map, ha]
  exact ⟨rfl, hb⟩

/-- An action whose answer and whose table can be told from the bare table. -/
theorem of_bare (f : Table → α) (g : Table → Table)
    (h : ∀ t : Table, t.Ready → (Action.on m t).1 = f t.bare ∧ (Action.on m t).2.Ready ∧
      (Action.on m t).2.bare = g t.bare) : Action.Blind m := by
  intro t₁ t₂ ht
  obtain ⟨ha₁, hr₁, hb₁⟩ := h t₁ ht.left
  obtain ⟨ha₂, hr₂, hb₂⟩ := h t₂ ht.right
  refine ⟨?_, hr₁, hr₂, ?_⟩
  · rw [ha₁, ha₂, ht.bare]
  · rw [hb₁, hb₂, ht.bare]

end Action.Blind

namespace Attempt.Blind

variable {α β : Type} {m : Attempt α} {f : α → Attempt β}

protected theorem pure (a : α) : Attempt.Blind (pure a) :=
  fun _ _ h => ⟨rfl, h⟩

protected theorem throw (d : Diagnostic) : Attempt.Blind (throw d : Attempt α) :=
  fun _ _ h => ⟨rfl, h⟩

protected theorem refuse (p : Problem) : Attempt.Blind (refuse p : Attempt α) :=
  Blind.throw p.diagnostic

protected theorem lift {c : Action α} (h : Action.Blind c) : Attempt.Blind (liftM c) := by
  intro t₁ t₂ ht
  obtain ⟨ha, hb⟩ := h t₁ t₂ ht
  exact ⟨congrArg Except.ok ha, hb⟩

/-- A blind attempt may follow on matching ones, for every result that they can have. -/
theorem match_bind_of {m₁ m₂ : Attempt α} {t₁ t₂ : Table}
    (hm : Table.Match (Attempt.on m₁ t₁) (Attempt.on m₂ t₂))
    (hf : ∀ a, (Attempt.on m₁ t₁).1 = .ok a → Attempt.Blind (f a)) :
    Table.Match (Attempt.on (m₁ >>= f) t₁) (Attempt.on (m₂ >>= f) t₂) := by
  obtain ⟨ha, hb⟩ := hm
  rw [on_bind, on_bind]
  rcases hrun₁ : Attempt.on m₁ t₁ with ⟨r₁, u₁⟩
  rcases hrun₂ : Attempt.on m₂ t₂ with ⟨r₂, u₂⟩
  rw [hrun₁] at hf
  rw [hrun₁, hrun₂] at ha hb
  -- Same result, so both runs go on, or both stop here.
  obtain rfl : r₁ = r₂ := ha
  cases r₁ with
  | ok a => exact hf a rfl u₁ u₂ hb
  | error d => exact ⟨rfl, hb⟩

/-- What follows may rely on the result being one that the attempt has. -/
theorem bind_of (hm : Attempt.Blind m)
    (hf : ∀ t : Table, t.Ready → ∀ a, (Attempt.on m t).1 = .ok a → Attempt.Blind (f a)) :
    Attempt.Blind (m >>= f) :=
  fun t₁ t₂ h => match_bind_of (hm t₁ t₂ h) (hf t₁ h.left)

protected theorem bind (hm : Attempt.Blind m) (hf : ∀ a, Attempt.Blind (f a)) :
    Attempt.Blind (m >>= f) :=
  hm.bind_of fun _ _ a _ => hf a

protected theorem map (hm : Attempt.Blind m) (g : α → β) : Attempt.Blind (g <$> m) := by
  rw [map_eq_pure_bind]
  exact hm.bind fun a => Blind.pure (g a)

protected theorem tryCatch {handler : Diagnostic → Attempt α} (hm : Attempt.Blind m)
    (hh : ∀ d, Attempt.Blind (handler d)) : Attempt.Blind (tryCatch m handler) := by
  intro t₁ t₂ h
  show Table.Match (Attempt.on (tryCatch m handler) t₁) (Attempt.on (tryCatch m handler) t₂)
  obtain ⟨ha, hb⟩ : Table.Match (Attempt.on m t₁) (Attempt.on m t₂) := hm t₁ t₂ h
  rw [on_tryCatch, on_tryCatch]
  rcases hrun₁ : Attempt.on m t₁ with ⟨r₁, u₁⟩
  rcases hrun₂ : Attempt.on m t₂ with ⟨r₂, u₂⟩
  rw [hrun₁, hrun₂] at ha hb
  obtain rfl : r₁ = r₂ := ha
  cases r₁ with
  | ok a => exact ⟨rfl, hb⟩
  | error d => exact hh d u₁ u₂ hb

/-- A write and what it does to the cache are one step. -/
theorem through {c : α → Action Unit}
    (h : Attempt.Blind (m >>= fun a => liftM (c a) >>= fun _ => pure a))
    (hf : ∀ a, Attempt.Blind (f a)) :
    Attempt.Blind (m >>= fun a => liftM (c a) >>= fun _ => f a) := by
  -- Only with the cache step at its end does the write leave twins, so the sequence is
  -- cut behind it.
  have heq : (m >>= fun a => liftM (c a) >>= fun _ => f a) =
      ((m >>= fun a => liftM (c a) >>= fun _ => pure a) >>= f) := by
    simp only [bind_assoc, pure_bind]
  rw [heq]
  exact h.bind hf

end Attempt.Blind

/-! ### The journal, the monitor and the registry -/

section entries

open Action.Blind

/-- A change of the table that can be told on the bare table. -/
theorem blind_modify {g : Table → Table} (f : Table → Table)
    (hready : ∀ t : Table, t.Ready → (g t).Ready) (hbare : ∀ t : Table, (g t).bare = f t.bare) :
    Action.Blind (modify g) :=
  of_bare (fun _ => ()) f fun t ht => ⟨rfl, hready t ht, hbare t⟩

theorem blind_enter (e : Entry) : Action.Blind (enter e) := by
  refine blind_modify (fun b => { b with journal := e :: b.journal }) (fun t ht => ?_) fun _ => rfl
  exact ht.of_rows rfl rfl ht.sound.equateCache ht.sound.referenceCache rfl

theorem blind_tellMonitor (message : String) : Action.Blind (tellMonitor message) := by
  refine blind_modify (fun b => { b with monitor := b.monitor.tell message }) (fun t ht => ?_)
    fun _ => rfl
  exact ht.of_rows rfl rfl ht.sound.equateCache ht.sound.referenceCache rfl

theorem blind_advanceMonitor (done total : Nat) : Action.Blind (advanceMonitor done total) := by
  refine blind_modify (fun b => { b with monitor := b.monitor.advance done total })
    (fun t ht => ?_) fun _ => rfl
  exact ht.of_rows rfl rfl ht.sound.equateCache ht.sound.referenceCache rfl

/-- A cache is not part of the bare table. -/
theorem blind_dropEquateCache : Action.Blind Table.dropEquateCache := by
  refine blind_modify (fun b => b) (fun t ht => ?_) fun _ => rfl
  exact ht.of_rows rfl rfl (t.equateCache.agrees_clear _) ht.sound.referenceCache rfl

theorem blind_dropReferenceCache : Action.Blind Table.dropReferenceCache := by
  refine blind_modify (fun b => b) (fun t ht => ?_) fun _ => rfl
  exact ht.of_rows rfl rfl ht.sound.equateCache (t.referenceCache.agrees_clear _) rfl

theorem blind_poll : Action.Blind poll := by
  refine of_bare (fun b => b.monitor.poll.1) (fun b => { b with monitor := b.monitor.poll.2 })
    fun t ht => ?_
  have hs := ht.sound
  exact ⟨rfl, ht.of_rows rfl rfl hs.equateCache hs.referenceCache rfl, rfl⟩

/-- A type look-up is counted, but its count is not part of the bare table. -/
theorem Table.Ready.on_memberName {t : Table} (ht : t.Ready) (id : UInt64) (value : Int64) :
    (Action.on (Table.memberName id value) t).1 =
        t.bare.registry.bind (fun r => (r.find id).1.bind (·.memberName? value)) ∧
      (Action.on (Table.memberName id value) t).2.Ready ∧
      (Action.on (Table.memberName id value) t).2.bare = t.bare := by
  have hs := ht.sound
  have hregistry : t.bare.registry = t.registry.map TypeRegistry.uncounted := rfl
  obtain ⟨hr, hon⟩ | ⟨r, hr, hon⟩ := Table.memberName_cases id value t
  · rw [hon, hregistry, hr]
    exact ⟨rfl, ht, rfl⟩
  · rw [hon, hregistry, hr]
    refine ⟨rfl, ht.of_rows rfl rfl hs.equateCache hs.referenceCache rfl, ?_⟩
    rw [Table.bare, Table.bare, hr]
    rfl

theorem blind_memberName (id : UInt64) (value : Int64) :
    Action.Blind (Table.memberName id value) :=
  of_bare (fun b => b.registry.bind fun r => (r.find id).1.bind (·.memberName? value))
    (fun b => b) fun _ ht => ht.on_memberName id value

end entries

/-! ### Storage calls -/

namespace Table

variable {α : Type}

/-- On a ready table a storage call goes through, or it finds a problem. -/
theorem Ready.on_storageCall {t : Table} (ht : t.Ready) (call : StorageCall) (silence : Option α)
    (act : Table → Except Problem α × Table) :
    (∃ a t', act t = (.ok a, t') ∧
      Attempt.on (storageCall call silence act) t = (.ok a, t'.recordCall call none)) ∨
    ∃ p t', act t = (.error p, t') ∧ Attempt.on (storageCall call silence act) t =
      (.error p.diagnostic, t'.recordCall call (some p.diagnostic)) := by
  refine (storageCall_cases ht.sound call silence act).resolve_left ?_
  -- No call breaks under a plan without failures.
  rintro ⟨d, -, hbroke⟩
  exact not_broke_of_none (t := t.recordCall call (some d)) ht.plan d hbroke

/-- On a ready table a call that only reads answers with what is stored. -/
theorem Ready.on_query {t : Table} (ht : t.Ready) (call : StorageCall) (silence : Option α)
    (f : Table → α) :
    Attempt.on (storageCall call silence fun t => (.ok (f t), t)) t =
      (.ok (f t), t.recordCall call none) := by
  obtain ⟨a, t', hact, hon⟩ | ⟨p, t', hact, -⟩ :=
    ht.on_storageCall call silence fun t => (.ok (f t), t)
  · cases hact
    exact hon
  · cases hact

theorem Ready.recordCall {t : Table} (ht : t.Ready) (call : StorageCall)
    (failure : Option Diagnostic) : (t.recordCall call failure).Ready :=
  ⟨ht.sound.recordCall call failure, ht.plan⟩

end Table

open Table

/-- A call that only reads. -/
theorem Attempt.Blind.query {α : Type} (call : StorageCall) (silence : Option α) {f : Table → α}
    (hf : ∀ t : Table, f t = f t.bare) :
    Attempt.Blind (storageCall call silence fun t => (.ok (f t), t)) := by
  refine Action.Blind.of_bare (fun b => .ok (f b)) (fun b => b) fun t ht => ?_
  show (Attempt.on _ t).1 = _ ∧ (Attempt.on _ t).2.Ready ∧ (Attempt.on _ t).2.bare = _
  rw [ht.on_query, ← hf]
  exact ⟨rfl, ht.recordCall call none, rfl⟩

theorem queryEquates_blind {α : Type} (call : EquateCall) (silence : α) (f : EquateRows → α) :
    Attempt.Blind (queryEquates call silence f) :=
  .query (.equates call) (some silence) fun _ => rfl

theorem queryReferences_blind {α : Type} (call : ReferenceCall) (silence : α)
    (f : ReferenceRows → α) : Attempt.Blind (queryReferences call silence f) :=
  .query (.references call) (some silence) fun _ => rfl

/-! ### Reads through a cache -/

namespace Table

theorem fetchEquate_blind (id : Key) : Attempt.Blind (fetchEquate id) := by
  refine Action.Blind.of_bare (fun b => .ok (b.equates.get? id)) (fun b => b) fun t ht => ?_
  -- What is read is known already; what is left is that only the cache and the calls
  -- have changed, whichever way the look-up takes.
  obtain ⟨hr, hb⟩ := (fetchEquate_enacts t.store id t ht.sound.has).run ht.plan
  refine ⟨hr, ⟨hb.sound, hb.frame.plan.trans ht.plan⟩, ?_⟩
  show (Attempt.on (fetchEquate id) t).2.bare = t.bare
  rw [fetchEquate, on_lift_bind]
  cases (Action.on (cachedEquate id) t).1 with
  | some e => rfl
  | none =>
    have hready : (Action.on (cachedEquate id) t).2.Ready :=
      ht.of_rows rfl rfl (ht.sound.equateCache.get_snd id) ht.sound.referenceCache rfl
    rw [on_bind, queryEquates, hready.on_query]
    dsimp only
    cases EquateRows.get? _ id with
    | none => rfl
    | some e => rfl

theorem fetchRow_blind (id : Key) : Attempt.Blind (fetchRow id) := by
  refine Action.Blind.of_bare (fun b => .ok (b.references.get? id)) (fun b => b) fun t ht => ?_
  obtain ⟨hr, hb⟩ := (fetchRow_enacts t.store id t ht.sound.has).run ht.plan
  refine ⟨hr, ⟨hb.sound, hb.frame.plan.trans ht.plan⟩, ?_⟩
  show (Attempt.on (fetchRow id) t).2.bare = t.bare
  rw [fetchRow, on_lift_bind]
  cases (Action.on (cachedReference id) t).1 with
  | some r => rfl
  | none =>
    have hready : (Action.on (cachedReference id) t).2.Ready :=
      ht.of_rows rfl rfl ht.sound.equateCache (ht.sound.referenceCache.get_snd id) rfl
    rw [on_bind, queryReferences, hready.on_query]
    dsimp only
    cases ReferenceRows.get? _ id with
    | none => rfl
    | some r => rfl

end Table

/-! ### Writes -/

/-- A storage call that changes rows, together with what it does to a cache.  One that ends with a
problem has to leave the table alone. -/
theorem Attempt.blind_write {α : Type} {call : StorageCall} {silence : Option α}
    {act : Table → Except Problem α × Table} {c : α → Action Unit}
    (hbare : ∀ t : Table, act t.bare = ((act t).1, (act t).2.bare))
    (hc : ∀ a t, (Action.on (c a) t).2.bare = t.bare)
    (hready : ∀ t t' a, t.Ready → act t = (.ok a, t') →
      (Action.on (c a) (t'.recordCall call none)).2.Ready)
    (hkeep : ∀ t t' p, act t = (.error p, t') → t' = t) :
    Attempt.Blind (storageCall call silence act >>= fun a => liftM (c a) >>= fun _ => pure a) := by
  intro t₁ t₂ h
  show Table.Match (Attempt.on _ t₁) (Attempt.on _ t₂)
  have hact : ((act t₁).1, (act t₁).2.bare) = ((act t₂).1, (act t₂).2.bare) := by
    rw [← hbare, ← hbare, h.bare]
  rw [on_bind, on_bind]
  obtain ⟨a, u₁, h₁, hon₁⟩ | ⟨p, u₁, h₁, hon₁⟩ := h.left.on_storageCall call silence act
  · obtain ⟨b, u₂, h₂, hon₂⟩ | ⟨q, u₂, h₂, hon₂⟩ := h.right.on_storageCall call silence act
    · rw [h₁, h₂] at hact
      obtain ⟨hab, hu⟩ := Prod.mk.inj hact
      obtain rfl : a = b := Except.ok.inj hab
      rw [hon₁, hon₂]
      refine ⟨rfl, hready t₁ u₁ a h.left h₁, hready t₂ u₂ a h.right h₂, ?_⟩
      show (Action.on (c a) _).2.bare = (Action.on (c a) _).2.bare
      rw [hc, hc]
      exact hu
    · rw [h₁, h₂] at hact
      cases (Prod.mk.inj hact).1
  · obtain ⟨b, u₂, h₂, hon₂⟩ | ⟨q, u₂, h₂, hon₂⟩ := h.right.on_storageCall call silence act
    · rw [h₁, h₂] at hact
      cases (Prod.mk.inj hact).1
    · rw [h₁, h₂] at hact
      obtain rfl : p = q := Except.error.inj (Prod.mk.inj hact).1
      obtain rfl := hkeep _ _ _ h₁
      obtain rfl := hkeep _ _ _ h₂
      rw [hon₁, hon₂]
      exact ⟨rfl, h.left.recordCall call _, h.right.recordCall call _, h.bare⟩

namespace Table

theorem createRow_blind (name : String) (value : Int64) :
    Attempt.Blind (createRow name value >>= fun e =>
      liftM (cacheEquate e) >>= fun _ => pure e) := by
  refine Attempt.blind_write (fun _ => rfl) (fun _ _ => rfl) (fun t t' e ht hact => ?_)
    fun t t' p hact => ?_
  · rcases hc : t.equates.create name value with ⟨p | e', rows⟩
    · rw [hc] at hact
      cases hact
    · rw [hc] at hact
      cases hact
      have hs := ht.sound
      exact ⟨⟨hs.store.create_equate hc _, hs.equateCache.create_equate hc, hs.referenceCache,
        hs.loud⟩, ht.plan⟩
  · rcases hc : t.equates.create name value with ⟨p' | e', rows⟩
    · rw [hc] at hact
      cases hact
      rw [EquateRows.create_of_error hc]
    · rw [hc] at hact
      cases hact

/-- A change of the equates is blind if the cache follows the rows. -/
theorem changeEquates_blind {call : EquateCall} {f : EquateRows → Except Problem Unit × EquateRows}
    {c : Action Unit} (hc : ∀ t, (Action.on c t).2.bare = t.bare)
    (hready : ∀ (t : Table) rows, t.Ready → f t.equates = (.ok (), rows) →
      (Action.on c ({ t with equates := rows }.recordCall (.equates call) none)).2.Ready)
    (hkeep : ∀ rows rows' p, f rows = (.error p, rows') → rows' = rows) :
    Attempt.Blind (changeEquates call f >>= fun u => liftM c >>= fun _ => pure u) := by
  refine Attempt.blind_write (fun _ => rfl) (fun _ => hc) (fun t t' u ht hact => ?_)
    fun t t' p hact => ?_
  · rcases hf : f t.equates with ⟨p | ⟨⟩, rows⟩
    · rw [hf] at hact
      cases hact
    · rw [hf] at hact
      cases hact
      exact hready t rows ht hf
  · rcases hf : f t.equates with ⟨p' | ⟨⟩, rows⟩
    · rw [hf] at hact
      cases hact
      rw [hkeep _ _ _ hf]
    · rw [hf] at hact
      cases hact

/-- A change of the references is blind if the cache follows the rows. -/
theorem changeReferences_blind {call : ReferenceCall}
    {f : ReferenceRows → Except Problem Unit × ReferenceRows} {c : Action Unit}
    (hc : ∀ t, (Action.on c t).2.bare = t.bare)
    (hready : ∀ (t : Table) rows, t.Ready → f t.references = (.ok (), rows) →
      (Action.on c ({ t with references := rows }.recordCall (.references call) none)).2.Ready)
    (hkeep : ∀ rows rows' p, f rows = (.error p, rows') → rows' = rows) :
    Attempt.Blind (changeReferences call f >>= fun u => liftM c >>= fun _ => pure u) := by
  refine Attempt.blind_write (fun _ => rfl) (fun _ => hc) (fun t t' u ht hact => ?_)
    fun t t' p hact => ?_
  · rcases hf : f t.references with ⟨p | ⟨⟩, rows⟩
    · rw [hf] at hact
      cases hact
    · rw [hf] at hact
      cases hact
      exact hready t rows ht hf
  · rcases hf : f t.references with ⟨p' | ⟨⟩, rows⟩
    · rw [hf] at hact
      cases hact
      rw [hkeep _ _ _ hf]
    · rw [hf] at hact
      cases hact

theorem eraseEquateRow_blind (id : Key) :
    Attempt.Blind (changeEquates .erase (fun rows => (.ok (), rows.erase id)) >>= fun u =>
      liftM (uncacheEquate id) >>= fun _ => pure u) := by
  refine changeEquates_blind (fun _ => rfl) (fun t rows ht hf => ?_) fun _ _ _ hf => by cases hf
  obtain rfl : t.equates.erase id = rows := congrArg Prod.snd hf
  have hs := ht.sound
  exact ⟨⟨hs.store.erase_equate id _, hs.equateCache.erase_equate id, hs.referenceCache, hs.loud⟩,
    ht.plan⟩

theorem updateEquateRow_blind (e : Equate) :
    Attempt.Blind (changeEquates .update (·.update e) >>= fun u =>
      liftM (cacheEquate e) >>= fun _ => pure u) := by
  refine changeEquates_blind (fun _ => rfl) (fun t rows ht hf => ?_)
    fun _ _ _ => EquateRows.update_of_error
  have hs := ht.sound
  exact ⟨⟨hs.store.update_equate hf _, hs.equateCache.update_equate hf, hs.referenceCache, hs.loud⟩,
    ht.plan⟩

theorem createReferenceRow_blind {addressKey : Int} {a : Address}
    (ha : Address.ofKey? addressKey = some a) (operand : Int) (hash : UInt64) (equate : Key) :
    Attempt.Blind (createReferenceRow addressKey operand hash equate >>= fun r =>
      liftM (cacheReference r) >>= fun _ => pure r) := by
  refine Attempt.blind_write (fun _ => rfl) (fun _ _ => rfl) (fun t t' r ht hact => ?_)
    fun _ _ _ hact => by cases hact
  cases hact
  have hs := ht.sound
  exact ⟨⟨hs.store.create_reference ha operand hash equate _, hs.equateCache,
    hs.referenceCache.create_reference addressKey operand hash equate, hs.loud⟩, ht.plan⟩

theorem eraseReferenceRow_blind (id : Key) :
    Attempt.Blind (changeReferences .erase (fun rows => (.ok (), rows.erase id)) >>= fun u =>
      liftM (uncacheReference id) >>= fun _ => pure u) := by
  refine changeReferences_blind (fun _ => rfl) (fun t rows ht hf => ?_) fun _ _ _ hf => by cases hf
  obtain rfl : t.references.erase id = rows := congrArg Prod.snd hf
  have hs := ht.sound
  exact ⟨⟨hs.store.erase_reference id _, hs.equateCache, hs.referenceCache.erase_reference id,
    hs.loud⟩, ht.plan⟩

theorem updateReferenceRow_blind {r : ReferenceRow} {a : Address}
    (ha : Address.ofKey? r.addressKey = some a) :
    Attempt.Blind (changeReferences .update (·.update r) >>= fun u =>
      liftM (uncacheReference r.id) >>= fun _ => pure u) := by
  refine changeReferences_blind (fun _ => rfl) (fun t rows ht hf => ?_)
    fun _ _ _ => ReferenceRows.update_of_error
  have hs := ht.sound
  exact ⟨⟨hs.store.update_reference ha hf _, hs.equateCache, hs.referenceCache.update_reference hf,
    hs.loud⟩, ht.plan⟩

end Table

end Equates

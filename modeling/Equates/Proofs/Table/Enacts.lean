/-
What an attempt does to a store.

`Attempt.Enacts m s l r` says that on every sound table with the store `s`, whatever
its caches hold, the attempt performs the effects `l` in order and ends with `r`, or
breaks behind some of them.  Attempts that only read enact no effects.

* `Attempt.Enacts.bind` — the effects of attempts are joined end to end;
* `Table.fetchEquate_enacts`, `Table.fetchAt_enacts`, `Table.fetchTo_enacts` — what is
  read is what is stored.
-/
import Equates.Table.Lookup
import Equates.Proofs.Store.View
import Equates.Proofs.Table.Basic

namespace Equates

namespace Attempt

variable {α β : Type}

/-- The attempt performs the effects `l` on `s` and ends with `r`, or breaks behind
some of them. -/
def Enacts (m : Attempt α) (s : Store) (l : List Effect) (r : Except Diagnostic α) : Prop :=
  ∀ t : Table, t.Has s → Attempt.Ends m t (fun u => ∃ l', l' <+: l ∧ u = s.after l') r (s.after l)

namespace Enacts

variable {m : Attempt α} {f : α → Attempt β} {s : Store} {l l' : List Effect} {a : α}
  {d : Diagnostic} {r : Except Diagnostic α} {r' : Except Diagnostic β}

protected theorem pure (s : Store) (a : α) : Attempt.Enacts (pure a) s [] (.ok a) :=
  fun _ ht => Ends.pure ht a

protected theorem refuse (s : Store) (p : Problem) :
    Attempt.Enacts (refuse p : Attempt α) s [] (.error p.diagnostic) :=
  fun _ ht => Ends.refuse ht p

/-- An attempt that is done or undone as a whole. -/
theorem of_ends (h : ∀ t : Table, t.Has s → Attempt.Ends m t (· = s) r (s.after l)) :
    Attempt.Enacts m s l r :=
  fun t ht => (h t ht).mono fun _ hu => ⟨[], List.nil_prefix, hu⟩

/-- Without effects nothing changes, however the attempt ends. -/
theorem ends (h : Attempt.Enacts m s [] r) {t : Table} (ht : t.Has s) {mid : Store → Prop}
    (hs : mid s) : Attempt.Ends m t mid r s := by
  refine (h t ht).mono fun u hu => ?_
  obtain ⟨l', hl', rfl⟩ := hu
  rw [List.prefix_nil.mp hl']
  exact hs

protected theorem bind (hm : Attempt.Enacts m s l (.ok a))
    (hf : Attempt.Enacts (f a) (s.after l) l' r') : Attempt.Enacts (m >>= f) s (l ++ l') r' := by
  intro t ht
  rw [Store.after_append]
  -- If the first part breaks off, so has the whole list; if the second does, the
  -- first part has been performed in full.
  have hm' := (hm t ht).mono fun u hu =>
    hu.imp fun l₁ h => And.intro (h.1.trans (List.prefix_append l l')) h.2
  refine Ends.bind hm' fun t₁ h₁ => ?_
  refine (hf t₁ h₁.toHas).mono fun u hu => ?_
  obtain ⟨l₁, hl₁, rfl⟩ := hu
  exact ⟨l ++ l₁, List.prefix_append_right_inj l |>.mpr hl₁, (s.after_append l l₁).symm⟩

theorem bind_error (hm : Attempt.Enacts m s l (.error d)) :
    Attempt.Enacts (m >>= f) s l (.error d) :=
  fun t ht => Ends.bind_error (hm t ht)

/-- What was read is handed on. -/
theorem bind_read (hm : Attempt.Enacts m s [] (.ok a)) (hf : Attempt.Enacts (f a) s l r') :
    Attempt.Enacts (m >>= f) s l r' :=
  Enacts.bind hm hf

/-- An action that leaves the stored part alone may stand in front. -/
theorem bind_lift {c : Action α} (hc : ∀ t : Table, t.Has s → t.Becomes s (Action.on c t).2)
    (hf : ∀ a, Attempt.Enacts (f a) s l r') : Attempt.Enacts (liftM c >>= f) s l r' :=
  fun t ht => Ends.bind_lift (hc t ht).frame (hf _ _ (hc t ht).toHas)

/-- What was read is handed on to an attempt that is done or undone as a whole. -/
theorem read_bind (hm : Attempt.Enacts m s [] (.ok a)) {t : Table} (ht : t.Has s) {s' : Store}
    (hf : ∀ t₁ : Table, t₁.Has s → Attempt.Ends (f a) t₁ (· = s) r' s') :
    Attempt.Ends (m >>= f) t (· = s) r' s' :=
  Ends.bind (hm.ends ht rfl) fun t₁ h₁ => hf t₁ h₁.toHas

end Enacts

end Attempt

open Attempt

/-! ### Entries of the journal -/

namespace Table

/-- An entry that tells of no change leaves the store alone. -/
theorem Has.entered {t : Table} {s : Store} (h : t.Has s) {e : Entry} (he : e.change? = none) :
    t.Becomes s (Action.on (enter e) t).2 := by
  refine h.becomes_of ⟨rfl, rfl, rfl, rfl⟩ h.store_sound ?_ h.equateCache h.referenceCache
  show Store.mk t.equates t.references ((e :: t.journal).filterMap Entry.change?) = s
  rw [List.filterMap_cons_none he]
  exact h.store

theorem Has.traced {t : Table} {s : Store} (h : t.Has s) (l : TraceLine) :
    t.Becomes s (Action.on (trace l) t).2 :=
  h.entered rfl

theorem Has.reported {t : Table} {s : Store} (h : t.Has s) (d : Diagnostic) :
    t.Becomes s (Action.on (report d) t).2 :=
  h.entered rfl

end Table

namespace Attempt.Enacts

variable {α : Type} {f : Unit → Attempt α} {s : Store} {l : List Effect} {r : Except Diagnostic α}

theorem bind_trace {line : TraceLine} (h : Attempt.Enacts (f ()) s l r) :
    Attempt.Enacts (liftM (trace line) >>= f) s l r :=
  bind_lift (fun _ ht => ht.traced line) fun _ => h

end Attempt.Enacts

namespace Table

/-! ### Lists of keys -/

/-- Reading one key after the other reads what is stored under them. -/
theorem enacts_each {α : Type} (fetch : Key → Attempt (Option α))
    (fetchEach : List Key → Attempt (List α)) {look : Key → Option α} {s : Store}
    (hnil : fetchEach [] = pure [])
    (hcons : ∀ id ids, fetchEach (id :: ids) = do
      let a? ← fetch id
      return a?.toList ++ (← fetchEach ids))
    (hfetch : ∀ id, Attempt.Enacts (fetch id) s [] (.ok (look id))) (ids : List Key) :
    Attempt.Enacts (fetchEach ids) s [] (.ok (ids.filterMap look)) := by
  induction ids with
  | nil =>
    rw [hnil]
    exact Enacts.pure s []
  | cons id ids ih =>
    rw [hcons]
    refine Enacts.bind_read (hfetch id) (Enacts.bind_read ih ?_)
    cases ha : look id with
    | none =>
      rw [List.filterMap_cons_none ha]
      exact Enacts.pure s _
    | some a =>
      rw [List.filterMap_cons_some ha]
      exact Enacts.pure s _

/-! ### Equates -/

theorem fetchEquate_enacts (s : Store) (id : Key) :
    Attempt.Enacts (fetchEquate id) s [] (.ok (s.equates.get? id)) := by
  intro t ht
  -- Whether or not the cache has the record, looking leaves the cache in agreement.
  have hlook : t.Becomes s (Action.on (cachedEquate id) t).2 := by
    refine ht.becomes_of ⟨rfl, rfl, rfl, rfl⟩ ht.store_sound ht.store ?_ ht.referenceCache
    exact ht.equateCache.get_snd id
  rw [fetchEquate]
  refine Ends.bind_lift hlook.frame ?_
  cases hc : (Action.on (cachedEquate id) t).1 with
  | some e =>
    rw [ht.equateCache.get_fst hc]
    exact Ends.pure hlook.toHas (some e)
  | none =>
    refine Ends.bind (queryEquates_ends hlook.toHas ⟨[], List.nil_prefix, rfl⟩ .read none _)
      fun t₂ h₂ => ?_
    cases he : s.equates.get? id with
    | none => exact Ends.pure h₂.toHas none
    | some e =>
      -- The record is cached under its own key, which is the key that was asked for.
      have hid := h₂.store_sound.equates.id_eq he
      refine Ends.bind_lift (c := cacheEquate e) ⟨rfl, rfl, rfl, rfl⟩ (Ends.pure ?_ (some e))
      refine Has.of_store h₂.store_sound h₂.store ?_ h₂.referenceCache h₂.sound.loud
      exact h₂.equateCache.put_same (hid ▸ he)

theorem queryEquates_enacts {α : Type} (s : Store) (call : EquateCall) (silence : α)
    (f : EquateRows → α) :
    Attempt.Enacts (queryEquates call silence f) s [] (.ok (f s.equates)) :=
  fun _ ht => queryEquates_ends ht ⟨[], List.nil_prefix, rfl⟩ call silence f

theorem fetchNamed_enacts (s : Store) (name : String) :
    Attempt.Enacts (fetchNamed name) s [] (.ok ((s.equates.idOf? name).bind s.equates.get?)) := by
  rw [fetchNamed]
  refine Enacts.bind_read (queryEquates_enacts s .idOf none _) ?_
  cases s.equates.idOf? name with
  | none => exact Enacts.pure s none
  | some id => exact fetchEquate_enacts s id

theorem fetchEquates_enacts (s : Store) (ids : List Key) :
    Attempt.Enacts (fetchEquates ids) s [] (.ok (ids.filterMap s.equates.get?)) :=
  enacts_each fetchEquate fetchEquates rfl (fun _ _ => rfl) (fetchEquate_enacts s) ids

theorem fetchAll_enacts (s : Store) :
    Attempt.Enacts fetchAll s []
      (.ok ((s.equates.toList.map Equate.id).filterMap s.equates.get?)) := by
  rw [fetchAll]
  exact Enacts.bind_read (queryEquates_enacts s .list [] _) (fetchEquates_enacts s _)

/-! ### References -/

theorem queryReferences_enacts {α : Type} (s : Store) (call : ReferenceCall) (silence : α)
    (f : ReferenceRows → α) :
    Attempt.Enacts (queryReferences call silence f) s [] (.ok (f s.references)) :=
  fun _ ht => queryReferences_ends ht ⟨[], List.nil_prefix, rfl⟩ call silence f

theorem fetchRow_enacts (s : Store) (id : Key) :
    Attempt.Enacts (fetchRow id) s [] (.ok (s.references.get? id)) := by
  intro t ht
  have hlook : t.Becomes s (Action.on (cachedReference id) t).2 := by
    refine ht.becomes_of ⟨rfl, rfl, rfl, rfl⟩ ht.store_sound ht.store ht.equateCache ?_
    exact ht.referenceCache.get_snd id
  rw [fetchRow]
  refine Ends.bind_lift hlook.frame ?_
  cases hc : (Action.on (cachedReference id) t).1 with
  | some r =>
    rw [ht.referenceCache.get_fst hc]
    exact Ends.pure hlook.toHas (some r)
  | none =>
    refine Ends.bind ((queryReferences_enacts s .read none _).ends hlook.toHas
      ⟨[], List.nil_prefix, rfl⟩) fun t₂ h₂ => ?_
    cases hr : s.references.get? id with
    | none => exact Ends.pure h₂.toHas none
    | some r =>
      have hid := h₂.store_sound.references.id_eq hr
      refine Ends.bind_lift (c := cacheReference r) ⟨rfl, rfl, rfl, rfl⟩ (Ends.pure ?_ (some r))
      refine Has.of_store h₂.store_sound h₂.store h₂.equateCache ?_ h₂.sound.loud
      exact h₂.referenceCache.put_same (hid ▸ hr)

theorem fetchRows_enacts (s : Store) (ids : List Key) :
    Attempt.Enacts (fetchRows ids) s [] (.ok (ids.filterMap s.references.get?)) :=
  enacts_each fetchRow fetchRows rfl (fun _ _ => rfl) (fetchRow_enacts s) ids

theorem fetchReference_enacts (s : Store) (id : Key) :
    Attempt.Enacts (fetchReference id) s [] (.ok (s.reference? id)) := by
  intro t ht
  -- A table with the store is at hand, so the store is sound and its rows decode.
  refine (show Attempt.Enacts (fetchReference id) s [] _ from ?_) t ht
  rw [fetchReference]
  refine Enacts.bind_read (fetchRow_enacts s id) ?_
  rw [Store.reference?]
  cases hr : s.references.get? id with
  | none => exact Enacts.pure s none
  | some row =>
    obtain ⟨r, hd⟩ := ht.store_sound.decode (ht.store_sound.references.mem_of_get? hr)
    dsimp only
    rw [Option.bind_some, hd]
    exact Enacts.pure s (some r)

theorem fetchReferences_enacts (s : Store) (ids : List Key) :
    Attempt.Enacts (fetchReferences ids) s [] (.ok (ids.filterMap s.reference?)) :=
  enacts_each fetchReference fetchReferences rfl (fun _ _ => rfl) (fetchReference_enacts s) ids

theorem keysAt_enacts (s : Store) (a : Address) :
    Attempt.Enacts (keysAt a) s [] (.ok (s.keysAt a)) := by
  rw [keysAt, Store.keysAt]
  cases a.key? with
  | none => exact Enacts.pure s []
  | some k => exact queryReferences_enacts s .keysAt [] _

theorem keysTo_enacts (s : Store) (id : Key) :
    Attempt.Enacts (keysTo id) s [] (.ok (s.references.keysTo id)) :=
  queryReferences_enacts s .keysTo [] _

theorem fetchAt_enacts (s : Store) (a : Address) :
    Attempt.Enacts (fetchAt a) s [] (.ok (s.referencesAt a)) := by
  rw [fetchAt]
  exact Enacts.bind_read (keysAt_enacts s a) (fetchReferences_enacts s _)

theorem fetchTo_enacts (s : Store) (id : Key) :
    Attempt.Enacts (fetchTo id) s [] (.ok (s.referencesTo id)) := by
  rw [fetchTo]
  exact Enacts.bind_read (keysTo_enacts s id) (fetchReferences_enacts s _)

/-! ### Types -/

/-- A type look-up is counted, and changes nothing else. -/
theorem memberName_cases (id : UInt64) (value : Int64) (t : Table) :
    (t.registry = none ∧ Action.on (memberName id value) t = (none, t)) ∨
    ∃ r, t.registry = some r ∧ Action.on (memberName id value) t =
      ((r.find id).1.bind (·.memberName? value), { t with registry := some (r.find id).2 }) := by
  rw [memberName, Action.on]
  dsimp only [modifyGet, MonadStateOf.modifyGet, StateT.modifyGet, StateT.run]
  cases hr : t.registry with
  | none => exact .inl ⟨rfl, rfl⟩
  | some r => exact .inr ⟨r, rfl, rfl⟩

end Table

end Equates

/-
What the elementary writes of a table do to its store.

Each of them touches the rows by one storage call, brings the cache in line and makes
the change known; if the call fails, nothing has happened.  So each enacts a single
effect, or none where it refuses its arguments.
-/
import Equates.Table.Range
import Equates.Proofs.Table.Enacts

namespace Equates

open Attempt

/-! ### Caches behind a write -/

namespace Cache.Agrees

section equates

variable {c : Cache Equate} {rows rows' : EquateRows} {e : Equate}

theorem create_equate (h : c.Agrees rows.get?) {name : String} {value : Int64}
    (hc : rows.create name value = (.ok e, rows')) : (c.put e.id e).Agrees rows'.get? := by
  have hget := EquateRows.get?_create hc
  have hid : e.id = rows.next := by rw [EquateRows.create_equate hc]
  refine h.put ?_ fun k hk => ?_
  · rw [hget, if_pos hid]
  · rw [hget, if_neg (hid ▸ hk)]

theorem update_equate (h : c.Agrees rows.get?) (hu : rows.update e = (.ok (), rows')) :
    (c.put e.id e).Agrees rows'.get? := by
  have hget := EquateRows.get?_update hu
  refine h.put ?_ fun k hk => ?_
  · rw [hget, if_pos rfl]
  · rw [hget, if_neg hk]

theorem erase_equate (h : c.Agrees rows.get?) (id : Key) :
    (c.erase id).Agrees (rows.erase id).get? := by
  refine h.erase fun k hk => ?_
  rw [EquateRows.get?_erase, if_neg hk]

end equates

section references

variable {c : Cache ReferenceRow} {rows rows' : ReferenceRows} {r : ReferenceRow}

theorem create_reference (h : c.Agrees rows.get?) (addressKey operand : Int) (hash : UInt64)
    (equate : Key) :
    (c.put rows.next ⟨rows.next, addressKey, operand, hash, equate⟩).Agrees
      (rows.create addressKey operand hash equate).2.get? := by
  have hget := rows.get?_create addressKey operand hash equate
  refine h.put ?_ fun k hk => ?_
  · rw [hget, if_pos rfl]
  · rw [hget, if_neg hk]

/-- A row that was overwritten is dropped, so that the next look-up reads it again. -/
theorem update_reference (h : c.Agrees rows.get?) (hu : rows.update r = (.ok (), rows')) :
    (c.erase r.id).Agrees rows'.get? := by
  refine h.erase fun k hk => ?_
  rw [ReferenceRows.get?_update hu, if_neg hk]

theorem erase_reference (h : c.Agrees rows.get?) (id : Key) :
    (c.erase id).Agrees (rows.erase id).get? := by
  refine h.erase fun k hk => ?_
  rw [ReferenceRows.get?_erase, if_neg hk]

end references

end Cache.Agrees

namespace Table

/-! ### Equates -/

/-- A fitting equate is stored, or the attempt breaks with nothing done. -/
theorem storeEquate_ends {s : Store} {t : Table} (ht : t.Has s) {name : String} {value : Int64}
    (h : (Effect.define name value).Fits [] s) :
    Attempt.Ends (storeEquate name value) t (· = s) (.ok ⟨s.equates.next, name, value⟩)
      ((Effect.define name value).apply s) := by
  obtain ⟨rows, hc, happ⟩ := Effect.apply_define h
  rw [storeEquate]
  refine (queryEquates_enacts s .hasName false _).read_bind ht fun t₁ h₁ => ?_
  rw [h.1, h.2]
  have hact : ((t₁.equates.create name value).1,
      { t₁ with equates := (t₁.equates.create name value).2 }) =
      (.ok ⟨s.equates.next, name, value⟩, { t₁ with equates := rows }) := by
    rw [h₁.equates, hc]
  -- Past the storage call nothing can fail: the cache and the journal follow.
  refine Ends.call h₁ rfl hact ⟨rfl, rfl, rfl, rfl⟩ ?_
  refine Ends.bind_lift ⟨rfl, rfl, rfl, rfl⟩ (Ends.bind_lift ⟨rfl, rfl, rfl, rfl⟩ ?_)
  refine Ends.pure (Has.of_store (h.sound h₁.store_sound) ?_ ?_ ?_ ?_) _
  · rw [happ, ← h₁.references, ← h₁.changes]
    rfl
  · rw [happ]
    exact h₁.equateCache.create_equate hc
  · rw [happ]
    exact h₁.referenceCache
  · exact h₁.sound.loud

theorem storeEquate_enacts {s : Store} {name : String} {value : Int64}
    (h : (Effect.define name value).Fits [] s) :
    Attempt.Enacts (storeEquate name value) s [.define name value]
      (.ok ⟨s.equates.next, name, value⟩) :=
  Enacts.of_ends fun _ ht => storeEquate_ends ht h

theorem storeEquate_taken {s : Store} {name : String} (value : Int64)
    (hn : s.equates.hasName name = true) :
    Attempt.Enacts (storeEquate name value) s [] (.error (Problem.nameTaken name).diagnostic) := by
  rw [storeEquate]
  refine Enacts.bind_read (queryEquates_enacts s .hasName false _) ?_
  rw [hn]
  exact Enacts.bind_error (Enacts.refuse s _)

theorem storeEquate_invalid {s : Store} {name : String} (value : Int64) {p : Problem}
    (hn : s.equates.hasName name = false) (hv : Name.validate name = .error p) :
    Attempt.Enacts (storeEquate name value) s [] (.error p.diagnostic) := by
  rw [storeEquate, hv]
  refine Enacts.bind_read (queryEquates_enacts s .hasName false _) ?_
  rw [hn]
  exact Enacts.bind_error (Enacts.refuse s p)

/-- A name that is taken or blank is refused. -/
theorem storeEquate_refuses {s : Store} {name : String} {value : Int64}
    (h : ¬ (Effect.define name value).Fits [] s) :
    ∃ d, Attempt.Enacts (storeEquate name value) s [] (.error d) := by
  cases hn : s.equates.hasName name with
  | true => exact ⟨_, storeEquate_taken value hn⟩
  | false =>
    cases hv : Name.validate name with
    | ok _ => exact absurd ⟨hn, hv⟩ h
    | error p => exact ⟨_, storeEquate_invalid value hn hv⟩

theorem eraseEquate_ends {s : Store} {t : Table} (ht : t.Has s) {e : Equate} (he : e ∈ s.equates) :
    Attempt.Ends (eraseEquate e.id) t (· = s) (.ok ()) (s.withoutEquate e) := by
  rw [eraseEquate]
  refine (fetchEquate_enacts s e.id).read_bind ht fun t₁ h₁ => ?_
  rw [EquateRows.mem_def.mp he]
  refine Ends.changeEquates h₁ rfl rfl (Ends.bind_lift ⟨rfl, rfl, rfl, rfl⟩ ?_)
  have hs := h₁.store_sound
  refine Ends.lift (c := notify (.equateRemoved e.name e.value)) ⟨?_, rfl, rfl, rfl, rfl⟩
  refine Has.of_store (hs.erase_equate e.id _) ?_ ?_ ?_ ?_
  · rw [Store.withoutEquate, ← h₁.references, ← h₁.changes]
    rfl
  · exact h₁.equateCache.erase_equate e.id
  · exact h₁.referenceCache
  · exact h₁.sound.loud

/-- A fitting name is given, or the attempt breaks with nothing done. -/
theorem relabel_ends {s : Store} {t : Table} (ht : t.Has s) {e : Equate} {name : String}
    (h : (Effect.relabel e name).Fits [] s) :
    Attempt.Ends (relabel e.id name) t (· = s) (.ok { e with name })
      ((Effect.relabel e name).apply s) := by
  obtain ⟨rows, hu, happ⟩ := Effect.apply_relabel h
  obtain ⟨he, hne, hn, hv⟩ := h
  rw [relabel]
  refine (fetchEquate_enacts s e.id).read_bind ht fun t₁ h₁ => ?_
  rw [EquateRows.mem_def.mp he]
  dsimp only
  rw [if_neg hne, hv]
  refine (queryEquates_enacts s .hasName false _).read_bind h₁ fun t₂ h₂ => ?_
  rw [hn]
  refine Ends.changeEquates h₂ rfl hu ?_
  refine Ends.bind_lift ⟨rfl, rfl, rfl, rfl⟩ (Ends.bind_lift ⟨rfl, rfl, rfl, rfl⟩ ?_)
  have hfits : (Effect.relabel e name).Fits [] s := ⟨he, hne, hn, hv⟩
  refine Ends.pure (Has.of_store (hfits.sound h₂.store_sound) ?_ ?_ ?_ ?_) _
  · rw [happ, ← h₂.references, ← h₂.changes]
    rfl
  · rw [happ]
    exact h₂.equateCache.update_equate hu
  · rw [happ]
    exact h₂.referenceCache
  · exact h₂.sound.loud

theorem relabel_enacts {s : Store} {e : Equate} {name : String}
    (h : (Effect.relabel e name).Fits [] s) :
    Attempt.Enacts (relabel e.id name) s [.relabel e name] (.ok { e with name }) :=
  Enacts.of_ends fun _ ht => relabel_ends ht h

section refusals

variable {s : Store} {id : Key}

theorem relabel_missing (name : String) (he : s.equates.get? id = none) :
    Attempt.Enacts (relabel id name) s [] (.error (Problem.noSuchEquate id).diagnostic) := by
  rw [relabel]
  refine Enacts.bind_read (fetchEquate_enacts s id) ?_
  rw [he]
  exact Enacts.refuse s _

variable {e : Equate} (he : s.equates.get? id = some e)
include he

theorem relabel_own : Attempt.Enacts (relabel id e.name) s [] (.ok e) := by
  rw [relabel]
  refine Enacts.bind_read (fetchEquate_enacts s id) ?_
  rw [he]
  dsimp only
  rw [if_pos rfl]
  exact Enacts.pure s e

variable {name : String} (hne : e.name ≠ name)
include hne

theorem relabel_invalid {p : Problem} (hv : Name.validate name = .error p) :
    Attempt.Enacts (relabel id name) s [] (.error p.diagnostic) := by
  rw [relabel]
  refine Enacts.bind_read (fetchEquate_enacts s id) ?_
  rw [he]
  dsimp only
  rw [if_neg hne, hv]
  exact Enacts.bind_error (Enacts.refuse s p)

theorem relabel_taken (hv : Name.validate name = .ok ()) (hn : s.equates.hasName name = true) :
    Attempt.Enacts (relabel id name) s [] (.error (Problem.nameTaken name).diagnostic) := by
  rw [relabel]
  refine Enacts.bind_read (fetchEquate_enacts s id) ?_
  rw [he]
  dsimp only
  rw [if_neg hne, hv]
  refine Enacts.bind_read (queryEquates_enacts s .hasName false _) ?_
  rw [hn]
  exact Enacts.bind_error (Enacts.refuse s _)

end refusals

/-- Where the new name does not fit, nothing changes. -/
theorem relabel_refuses {s : Store} (hs : s.Sound) {id : Key} {name : String}
    (h : ∀ e ∈ s.equates, e.id = id → ¬ (Effect.relabel e name).Fits [] s) :
    ∃ r, Attempt.Enacts (relabel id name) s [] r := by
  cases he : s.equates.get? id with
  | none => exact ⟨_, relabel_missing name he⟩
  | some e =>
    by_cases hne : e.name = name
    · subst hne
      exact ⟨_, relabel_own he⟩
    · cases hv : Name.validate name with
      | error p => exact ⟨_, relabel_invalid he hne hv⟩
      | ok _ =>
        have hmem := hs.equates.mem_of_get? he
        -- Everything else about the renaming fits, so it is the name that is taken.
        have hn : s.equates.hasName name = true := by
          rw [← Bool.not_eq_false]
          exact fun hn => h e hmem (hs.equates.id_eq he) ⟨hmem, hne, hn, hv⟩
        exact ⟨_, relabel_taken he hne hv hn⟩

/-! ### References -/

theorem eraseReference_ends {s : Store} {t : Table} (ht : t.Has s) (id : Key) :
    Attempt.Ends (eraseReference id) t (· = s) (.ok ())
      { s with references := s.references.erase id } := by
  rw [eraseReference]
  refine Ends.changeReferences ht rfl rfl ?_
  have hs := ht.store_sound
  refine Ends.lift (c := uncacheReference id) ⟨Has.of_store ?_ ?_ ?_ ?_ ?_, rfl, rfl, rfl, rfl⟩
  · exact hs.erase_reference id _
  · rw [← ht.equates, ← ht.changes]
    rfl
  · exact ht.equateCache
  · exact ht.referenceCache.erase_reference id
  · exact ht.sound.loud

theorem detach_enacts (s : Store) (r : Reference) :
    Attempt.Enacts (detach r) s [.detach r] (.ok ()) := by
  refine Enacts.of_ends fun t ht => ?_
  rw [Store.after_cons, Store.after_nil, detach]
  refine (fetchEquate_enacts s r.equate).read_bind ht fun t₁ h₁ => ?_
  refine Ends.bind (eraseReference_ends h₁ r.id) fun t₂ h₂ => ?_
  refine Ends.bind_lift ⟨rfl, rfl, rfl, rfl⟩ (Ends.lift ⟨?_, rfl, rfl, rfl, rfl⟩)
  refine Has.of_store ⟨h₂.store_sound.equates, h₂.store_sound.references, h₂.store_sound.placed⟩
    ?_ h₂.equateCache h₂.referenceCache h₂.sound.loud
  show Store.mk _ _ (Change.referenceRemoved _ :: t₂.journal.filterMap Entry.change?) = _
  rw [h₂.changes]
  show Store.mk t₂.equates t₂.references _ = _
  rw [h₂.equates, h₂.references]
  rfl

theorem prune_enacts (s : Store) (id : Key) :
    Attempt.Enacts (prune id) s [.settle id] (.ok ()) := by
  refine Enacts.of_ends fun t ht => ?_
  rw [Store.after_cons, Store.after_nil, prune]
  refine (keysTo_enacts s id).read_bind ht fun t₁ h₁ => ?_
  -- The equate goes, or it is kept: for want of the equate, or for a reference to it.
  obtain ⟨e, he, hk, happ⟩ | ⟨hkeep, happ⟩ := s.apply_settle id
  · have hid := h₁.store_sound.equates.id_eq he
    have hmem := h₁.store_sound.equates.mem_of_get? he
    rw [happ, hk]
    refine (fetchEquate_enacts s id).read_bind h₁ fun t₂ h₂ => ?_
    rw [he]
    refine Ends.bind (hid ▸ eraseEquate_ends h₂ hmem) fun t₃ h₃ => ?_
    exact Ends.lift (c := trace (.pruned e.name)) (h₃.toHas.traced _)
  · rw [happ]
    by_cases hk : s.references.keysTo id = []
    · have he := hkeep.resolve_right fun h => h hk
      rw [hk]
      refine (fetchEquate_enacts s id).read_bind h₁ fun t₂ h₂ => ?_
      rw [he]
      exact Ends.pure h₂ ()
    · rw [if_neg (by simpa using hk)]
      exact Ends.pure h₁ ()

/-- A reference is stored, or the call fails and nothing is. -/
theorem storeReference_ends {s : Store} {t : Table} (ht : t.Has s) {a : Address} {k : Int}
    (hk : a.key? = some k) (operand : Int) (hash : UInt64) (equate : Key) :
    Attempt.Ends (storeReference a operand hash equate) t (· = s)
      (.ok ⟨s.references.next, a, operand, hash, equate⟩)
      { s with references := (s.references.create k operand hash equate).2 } := by
  have hact : ((.ok (t.references.create k operand hash equate).1,
      { t with references := (t.references.create k operand hash equate).2 }) :
        Except Problem ReferenceRow × Table) =
      (.ok ⟨s.references.next, k, operand, hash, equate⟩,
        { t with references := (s.references.create k operand hash equate).2 }) := by
    rw [ht.references]
    rfl
  rw [storeReference, hk]
  refine Ends.call ht rfl hact ⟨rfl, rfl, rfl, rfl⟩ (Ends.bind_lift ⟨rfl, rfl, rfl, rfl⟩ ?_)
  refine Ends.pure (Has.of_store ?_ ?_ ?_ ?_ ?_) _
  · exact ht.store_sound.create_reference (Address.ofKey?_of_key? hk) operand hash equate _
  · rw [← ht.equates, ← ht.changes]
    rfl
  · exact ht.equateCache
  · exact ht.referenceCache.create_reference k operand hash equate
  · exact ht.sound.loud

/-- A reference is stored together with the change that makes it known. -/
theorem storeReference_bind {α : Type} {s : Store} {e : Equate} {a : Address} {operand : Int}
    {hash : UInt64} {f : Reference → Attempt α} {l : List Effect} {r : Except Diagnostic α}
    (h : (Effect.attach e a operand hash).Fits [] s)
    (hf : Attempt.Enacts (f ⟨s.references.next, a, operand, hash, e.id⟩)
      ((Effect.attach e a operand hash).apply s) l r) :
    Attempt.Enacts (do
      let r ← storeReference a operand hash e.id
      notify (.referenceAdded (r.attachment (some e)))
      f r) s (.attach e a operand hash :: l) r := by
  obtain ⟨k, hk, happ⟩ := Effect.apply_attach h
  intro t ht
  rw [Store.after_cons]
  -- Once the reference is stored, nothing fails before it has been made known.
  refine Ends.bind ((storeReference_ends ht hk operand hash e.id).mono fun u hu =>
    ⟨[], List.nil_prefix, hu⟩) fun t₁ h₁ => Ends.bind_lift ⟨rfl, rfl, rfl, rfl⟩ ?_
  refine (hf _ (Has.of_store (h.sound ht.store_sound) ?_ ?_ ?_ ?_)).mono fun u hu => ?_
  · rw [happ]
    show Store.mk t₁.store.equates t₁.store.references (_ :: t₁.store.changes) = _
    rw [h₁.store]
    rfl
  · rw [happ]
    exact h₁.equateCache
  · rw [happ]
    exact h₁.referenceCache
  · exact h₁.sound.loud
  · obtain ⟨l', hl', rfl⟩ := hu
    exact ⟨_ :: l', List.cons_prefix_cons.mpr ⟨rfl, hl'⟩, rfl⟩

/-! ### Moving -/

theorem moveRow_enacts {s : Store} {source target a : Address} {row : ReferenceRow} {k : Int}
    (hrow : row ∈ s.references) (ha : Address.ofKey? row.addressKey = some a)
    (hk : (translate source target a).key? = some k) :
    Attempt.Enacts (moveRow source target row) s [.rekey row k] (.ok ()) := by
  have h : (Effect.rekey row k).Fits [] s := ⟨hrow, _, Address.ofKey?_of_key? hk⟩
  obtain ⟨rows, hu, happ⟩ := Effect.apply_rekey h
  refine Enacts.of_ends fun t ht => ?_
  rw [Store.after_cons, Store.after_nil, moveRow, ha]
  dsimp only
  rw [hk, Option.getD_some]
  refine Ends.changeReferences ht rfl hu ?_
  refine Ends.lift (c := uncacheReference row.id) ⟨Has.of_store ?_ ?_ ?_ ?_ ?_, rfl, rfl, rfl, rfl⟩
  · exact h.sound ht.store_sound
  · rw [happ, ← ht.equates, ← ht.changes]
    rfl
  · rw [happ]
    exact ht.equateCache
  · rw [happ]
    exact ht.referenceCache.update_reference (r := { row with addressKey := k }) hu
  · exact ht.sound.loud

end Table

end Equates

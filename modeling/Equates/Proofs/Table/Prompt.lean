/-
What reads and writes single equates and slots is prompt.

Most parts are joined by the rule for sequences alone.  Where a part could fail by itself (a
row with a key of no address, a name that is taken behind the check), what was read before
tells that it does not, since the table is sound.

Reads, detachments and removals are never refused: they are prompt whatever refusals are
allowed.
-/
import Equates.Proofs.Table.Halts
import Equates.Proofs.Table.Operations

namespace Equates

open Attempt

namespace Attempt

section joining

variable {α β : Type} {m : Attempt α} {f : α → Attempt β} {n : Nat} {E : Diagnostic → Prop}
  {s s' : Store} {mid : Store → Prop} {r : Except Diagnostic α} {t : Table}

theorem Ends.sound (h : Attempt.Ends m t mid r s) : (Attempt.on m t).2.Sound := by
  obtain ⟨-, hb⟩ | ⟨d, u, -, -, hb, -⟩ := h
  · exact hb.sound
  · exact hb.sound

theorem Prompt.of_tidy {P : Effect → Prop}
    (h : ∀ t : Table, t.Strict → Attempt.Halts n E m t) (hm : Attempt.Tidy P m) :
    Attempt.Prompt n E m :=
  Prompt.of_halts h fun t ht => (hm t ht).sound

theorem Prompt.of_enacts {l : Store → List Effect} {r : Store → Except Diagnostic α}
    (h : ∀ t : Table, t.Strict → Attempt.Halts n E m t)
    (hm : ∀ s, Attempt.Enacts m s (l s) (r s)) : Attempt.Prompt n E m :=
  Prompt.of_halts h fun t ht => (hm t.store t ht.has).sound

/-- What follows on a prompt attempt starts on a strict table. -/
theorem Prompt.bind_halts (hm : Attempt.Prompt n E m) (ht : t.Strict)
    (hf : ∀ a t₁, Attempt.on m t = (.ok a, t₁) → t₁.Strict → Attempt.Halts n E (f a) t₁) :
    Attempt.Halts n E (m >>= f) t :=
  Halts.bind (hm t ht).1 fun a t₁ hrun _ => hf a t₁ hrun (hm.on_ok ht hrun).2

/-- What follows on a read knows what was read. -/
theorem Prompt.read_halts {a : α} (hm : Attempt.Prompt n E m)
    (he : Attempt.Enacts m s [] (.ok a)) (ht : t.Strict) (hs : t.Has s)
    (hf : ∀ t₁ : Table, t₁.Strict → t₁.Has s → Attempt.Halts n E (f a) t₁) :
    Attempt.Halts n E (m >>= f) t := by
  refine hm.bind_halts ht fun b t₁ hrun ht₁ => ?_
  obtain ⟨hr, hb⟩ | ⟨d, u, hr, -⟩ := he t hs
  · rw [hrun] at hr hb
    cases hr
    exact hf t₁ ht₁ hb.toHas
  · rw [hrun] at hr
    cases hr

end joining

/-! ### Storage calls -/

section calls

variable {α : Type} {E : Diagnostic → Prop} {t : Table}

/-- A storage call that would do what it is for halts. -/
theorem storageCall_halts (ht : t.Strict) {call : StorageCall} {silence : Option α}
    {act : Table → Except Problem α × Table} {a : α} {u : Table} (hact : act t = (.ok a, u))
    (hu : t.Adds [] u) : Attempt.Halts 0 E (storageCall call silence act) t := by
  obtain ⟨d, hrun, call', rest, fault, hcalls, hfault, hd⟩ | ⟨b, u', hact', hrun⟩ |
    ⟨p, u', hact', -⟩ := storageCall_cases ht.sound call silence act
  · -- The call that broke is the one that was made here.
    obtain ⟨hrecord, rfl⟩ := List.cons.inj hcalls
    cases hrecord
    have hclass : d.isStorageFailure = true := hd ▸ ht.classified _ _ _ hfault
    refine .inr ⟨d, ?_, ?_⟩
    · exact ⟨congrArg Prod.fst hrun, hclass⟩
    · rw [show Action.on (storageCall call silence act).run t = _ from hrun]
      exact ⟨rfl, ⟨call, [], fault, rfl, List.forall_mem_nil _, hfault, hd⟩, rfl⟩
  · rw [hact] at hact'
    cases hact'
    rw [Attempt.Halts, Action.Halts, show Action.on (storageCall call silence act).run t = _
      from hrun]
    refine .inl ⟨refuses_ok E a, hu.plan, ⟨[⟨call, none⟩], ?_, ?_⟩, hu.reported⟩
    · exact congrArg (List.cons _) hu.calls
    · exact List.forall_mem_singleton.mpr rfl
  · rw [hact] at hact'
    cases hact'

theorem queryEquates_prompt (call : EquateCall) (silence : α) (f : EquateRows → α) :
    Attempt.Prompt 0 E (queryEquates call silence f) :=
  Prompt.of_enacts (fun t ht => storageCall_halts ht rfl (.refl t)) fun s =>
    Table.queryEquates_enacts s call silence f

theorem queryReferences_prompt (call : ReferenceCall) (silence : α) (f : ReferenceRows → α) :
    Attempt.Prompt 0 E (queryReferences call silence f) :=
  Prompt.of_enacts (fun t ht => storageCall_halts ht rfl (.refl t)) fun s =>
    Table.queryReferences_enacts s call silence f

/-- A change of the stored equates that does not fail by itself halts. -/
theorem changeEquates_halts (ht : t.Strict) {call : EquateCall}
    {f : EquateRows → Except Problem Unit × EquateRows} {rows : EquateRows}
    (hf : f t.equates = (.ok (), rows)) : Attempt.Halts 0 E (changeEquates call f) t := by
  have hact : ((f t.equates).1, { t with equates := (f t.equates).2 }) =
      (.ok (), { t with equates := rows }) := by
    rw [hf]
  exact storageCall_halts ht hact ⟨rfl, rfl, rfl⟩

/-- A change of the stored references that does not fail by itself halts. -/
theorem changeReferences_halts (ht : t.Strict) {call : ReferenceCall}
    {f : ReferenceRows → Except Problem Unit × ReferenceRows} {rows : ReferenceRows}
    (hf : f t.references = (.ok (), rows)) : Attempt.Halts 0 E (changeReferences call f) t := by
  have hact : ((f t.references).1, { t with references := (f t.references).2 }) =
      (.ok (), { t with references := rows }) := by
    rw [hf]
  exact storageCall_halts ht hact ⟨rfl, rfl, rfl⟩

end calls

end Attempt

namespace Table

section reads

variable {E : Diagnostic → Prop}

/-! ### Reads -/

/-- Reading one key after the other is prompt if each look-up is. -/
theorem prompt_each {α : Type} (fetch : Key → Attempt (Option α))
    (fetchEach : List Key → Attempt (List α)) (hnil : fetchEach [] = pure [])
    (hcons : ∀ id ids, fetchEach (id :: ids) = do
      let a? ← fetch id
      return a?.toList ++ (← fetchEach ids))
    (hfetch : ∀ id, Attempt.Prompt 0 E (fetch id)) (ids : List Key) :
    Attempt.Prompt 0 E (fetchEach ids) := by
  induction ids with
  | nil =>
    rw [hnil]
    exact Prompt.pure []
  | cons id ids ih =>
    rw [hcons]
    exact Prompt.bind (hfetch id) fun a? => Prompt.bind ih fun l => Prompt.pure _

theorem fetchEquate_prompt (id : Key) : Attempt.Prompt 0 E (fetchEquate id) := by
  refine Prompt.of_enacts (fun t ht => ?_) fun s => fetchEquate_enacts s id
  have hlook : (Action.on (cachedEquate id) t).2.Strict :=
    ⟨⟨ht.sound.store, ht.sound.equateCache.get_snd id, ht.sound.referenceCache, ht.sound.loud⟩,
      ht.classified⟩
  rw [fetchEquate]
  refine Halts.lift_bind ⟨rfl, rfl, rfl⟩ ?_
  cases (Action.on (cachedEquate id) t).1 with
  | some e => exact Halts.pure (some e)
  | none =>
    refine (queryEquates_prompt .read none _).bind_halts hlook fun row t₂ _ _ => ?_
    cases row with
    | none => exact Halts.pure none
    | some e => exact Halts.lift_bind (c := cacheEquate e) ⟨rfl, rfl, rfl⟩ (Halts.pure (some e))

theorem fetchRow_prompt (id : Key) : Attempt.Prompt 0 E (fetchRow id) := by
  refine Prompt.of_enacts (fun t ht => ?_) fun s => fetchRow_enacts s id
  have hlook : (Action.on (cachedReference id) t).2.Strict :=
    ⟨⟨ht.sound.store, ht.sound.equateCache, ht.sound.referenceCache.get_snd id, ht.sound.loud⟩,
      ht.classified⟩
  rw [fetchRow]
  refine Halts.lift_bind ⟨rfl, rfl, rfl⟩ ?_
  cases (Action.on (cachedReference id) t).1 with
  | some r => exact Halts.pure (some r)
  | none =>
    refine (queryReferences_prompt .read none _).bind_halts hlook fun row t₂ _ _ => ?_
    cases row with
    | none => exact Halts.pure none
    | some r =>
      exact Halts.lift_bind (c := cacheReference r) ⟨rfl, rfl, rfl⟩ (Halts.pure (some r))

theorem fetchNamed_prompt (name : String) : Attempt.Prompt 0 E (fetchNamed name) := by
  rw [fetchNamed]
  refine Prompt.bind (queryEquates_prompt .idOf none _) fun id? => ?_
  cases id? with
  | none => exact Prompt.pure none
  | some id => exact fetchEquate_prompt id

theorem fetchEquates_prompt (ids : List Key) : Attempt.Prompt 0 E (fetchEquates ids) :=
  prompt_each fetchEquate fetchEquates rfl (fun _ _ => rfl) fetchEquate_prompt ids

theorem fetchAll_prompt : Attempt.Prompt 0 E fetchAll := by
  rw [fetchAll]
  exact Prompt.bind (queryEquates_prompt .list [] _) fun rows => fetchEquates_prompt _

theorem fetchWithValue_prompt (value : Int64) : Attempt.Prompt 0 E (fetchWithValue value) := by
  rw [fetchWithValue]
  exact Prompt.bind fetchAll_prompt fun l => Prompt.pure _

theorem fetchRows_prompt (ids : List Key) : Attempt.Prompt 0 E (fetchRows ids) :=
  prompt_each fetchRow fetchRows rfl (fun _ _ => rfl) fetchRow_prompt ids

/-- Every stored row can be decoded, so that no look-up is refused. -/
theorem fetchReference_prompt (id : Key) : Attempt.Prompt 0 E (fetchReference id) := by
  refine Prompt.of_enacts (fun t ht => ?_) fun s => fetchReference_enacts s id
  rw [fetchReference]
  refine (fetchRow_prompt id).read_halts (fetchRow_enacts t.store id) ht ht.sound.has
    fun t₁ _ _ => ?_
  cases hr : t.store.references.get? id with
  | none => exact Halts.pure none
  | some row =>
    obtain ⟨r, hd⟩ := ht.sound.store.decode (ht.sound.store.references.mem_of_get? hr)
    dsimp only
    rw [hd]
    exact Halts.pure (some r)

theorem fetchReferences_prompt (ids : List Key) : Attempt.Prompt 0 E (fetchReferences ids) :=
  prompt_each fetchReference fetchReferences rfl (fun _ _ => rfl) fetchReference_prompt ids

theorem keysAt_prompt (a : Address) : Attempt.Prompt 0 E (keysAt a) := by
  rw [keysAt]
  cases a.key? with
  | none => exact Prompt.pure []
  | some k => exact queryReferences_prompt .keysAt [] _

theorem keysTo_prompt (id : Key) : Attempt.Prompt 0 E (keysTo id) :=
  queryReferences_prompt .keysTo [] _

theorem fetchAt_prompt (a : Address) : Attempt.Prompt 0 E (fetchAt a) := by
  rw [fetchAt]
  exact Prompt.bind (keysAt_prompt a) fun ids => fetchReferences_prompt ids

theorem fetchTo_prompt (id : Key) : Attempt.Prompt 0 E (fetchTo id) := by
  rw [fetchTo]
  exact Prompt.bind (keysTo_prompt id) fun ids => fetchReferences_prompt ids

theorem fetchEquatesAt_prompt (a : Address) (operand : Option Int) :
    Attempt.Prompt 0 E (fetchEquatesAt a operand) := by
  rw [fetchEquatesAt]
  exact Prompt.bind (fetchAt_prompt a) fun refs => fetchEquates_prompt _

end reads

/-! ### Equates -/

theorem isRefusal_of_validate {name : String} {p : Problem} (h : Name.validate name = .error p) :
    p.diagnostic.IsRefusal := by
  rw [Name.validate] at h
  split at h
  · cases h
    rfl
  · split at h
    · cases h
      rfl
    · cases h

theorem storeEquate_prompt (name : String) (value : Int64) :
    Attempt.Prompt 0 Diagnostic.IsRefusal (storeEquate name value) := by
  refine Prompt.of_tidy (fun t ht => ?_) (storeEquate_tidy name value)
  rw [storeEquate]
  refine (queryEquates_prompt .hasName false _).read_halts
    (queryEquates_enacts t.store .hasName false _) ht ht.sound.has fun t₁ ht₁ h₁ => ?_
  cases hn : t.store.equates.hasName name with
  | true => exact Halts.refuse_bind _ _ rfl
  | false =>
    cases hv : Name.validate name with
    | error p => exact .inl ⟨refuses_error (isRefusal_of_validate hv), .refl t₁⟩
    | ok _ =>
      have hfits : (Effect.define name value).Fits [] t.store := ⟨hn, hv⟩
      obtain ⟨rows, hc, -⟩ := Effect.apply_define hfits
      have hact : ((t₁.equates.create name value).1,
          { t₁ with equates := (t₁.equates.create name value).2 }) =
            (.ok ⟨t.store.equates.next, name, value⟩, { t₁ with equates := rows }) := by
        rw [h₁.equates, hc]
      refine Halts.bind (storageCall_halts ht₁ hact ⟨rfl, rfl, rfl⟩) fun e t₂ _ _ => ?_
      exact Halts.lift_bind ⟨rfl, rfl, rfl⟩ (Halts.lift_bind ⟨rfl, rfl, rfl⟩ (Halts.pure e))

section erasure

variable {E : Diagnostic → Prop}

theorem eraseEquate_halts {t : Table} (ht : t.Strict) (id : Key) :
    Attempt.Halts 0 E (eraseEquate id) t := by
  rw [eraseEquate]
  refine (fetchEquate_prompt id).bind_halts ht fun e? t₁ _ ht₁ => ?_
  cases e? with
  | none => exact Halts.pure ()
  | some e =>
    refine Halts.bind (changeEquates_halts ht₁ rfl) fun _ t₂ _ _ => ?_
    refine Halts.lift_bind ⟨rfl, rfl, rfl⟩ ?_
    exact Halts.lift ⟨rfl, rfl, rfl⟩

theorem prune_prompt (id : Key) : Attempt.Prompt 0 E (prune id) := by
  refine Prompt.of_enacts (fun t ht => ?_) fun s => prune_enacts s id
  rw [prune]
  refine (keysTo_prompt id).bind_halts ht fun ids t₁ _ ht₁ => ?_
  split
  · refine (fetchEquate_prompt id).bind_halts ht₁ fun e? t₂ _ ht₂ => ?_
    cases e? with
    | none => exact Halts.pure ()
    | some e =>
      refine Halts.bind (eraseEquate_halts ht₂ id) fun _ t₃ _ _ => ?_
      exact Halts.lift ⟨rfl, rfl, rfl⟩
  · exact Halts.pure ()

theorem pruneAll_prompt (ids : List Key) : Attempt.Prompt 0 E (pruneAll ids) := by
  induction ids with
  | nil => exact Prompt.pure ()
  | cons id ids ih =>
    rw [pruneAll]
    exact Prompt.bind (prune_prompt id) fun _ => ih

end erasure

theorem relabel_prompt (id : Key) (name : String) :
    Attempt.Prompt 0 Diagnostic.IsRefusal (relabel id name) := by
  refine Prompt.of_tidy (fun t ht => ?_) (relabel_tidy id name)
  rw [relabel]
  refine (fetchEquate_prompt id).read_halts (fetchEquate_enacts t.store id) ht ht.sound.has
    fun t₁ ht₁ h₁ => ?_
  cases he : t.store.equates.get? id with
  | none => exact Halts.refuse rfl
  | some e =>
    have hmem := ht.sound.store.equates.mem_of_get? he
    dsimp only
    by_cases hne : e.name = name
    · rw [if_pos hne]
      exact Halts.pure e
    · rw [if_neg hne]
      cases hv : Name.validate name with
      | error p => exact .inl ⟨refuses_error (isRefusal_of_validate hv), .refl t₁⟩
      | ok _ =>
        refine (queryEquates_prompt .hasName false _).read_halts
          (queryEquates_enacts t.store .hasName false _) ht₁ h₁ fun t₂ ht₂ h₂ => ?_
        cases hn : t.store.equates.hasName name with
        | true => exact Halts.refuse_bind _ _ rfl
        | false =>
          have hfits : (Effect.relabel e name).Fits [] t.store := ⟨hmem, hne, hn, hv⟩
          obtain ⟨rows, hu, -⟩ := Effect.apply_relabel hfits
          rw [← h₂.equates] at hu
          refine Halts.bind (changeEquates_halts ht₂ hu) fun _ t₃ _ _ => ?_
          exact Halts.lift_bind ⟨rfl, rfl, rfl⟩
            (Halts.lift_bind ⟨rfl, rfl, rfl⟩ (Halts.pure _))

/-! ### References -/

section slots

variable {E : Diagnostic → Prop}

theorem eraseReference_halts {t : Table} (ht : t.Strict) (id : Key) :
    Attempt.Halts 0 E (eraseReference id) t := by
  rw [eraseReference]
  refine Halts.bind (changeReferences_halts ht rfl) fun _ t₁ _ _ => ?_
  exact Halts.lift ⟨rfl, rfl, rfl⟩

theorem detach_prompt (r : Reference) : Attempt.Prompt 0 E (detach r) := by
  refine Prompt.of_enacts (fun t ht => ?_) fun s => detach_enacts s r
  rw [detach]
  refine (fetchEquate_prompt r.equate).bind_halts ht fun e? t₁ _ ht₁ => ?_
  refine Halts.bind (eraseReference_halts ht₁ r.id) fun _ t₂ _ _ => ?_
  refine Halts.lift_bind ⟨rfl, rfl, rfl⟩ ?_
  exact Halts.lift ⟨rfl, rfl, rfl⟩

theorem detachAll_prompt (refs : List Reference) : Attempt.Prompt 0 E (detachAll refs) := by
  induction refs with
  | nil => exact Prompt.pure ()
  | cons r refs ih =>
    rw [detachAll]
    exact Prompt.bind (detach_prompt r) fun _ => ih

end slots

theorem storeReference_prompt (a : Address) (operand : Int) (hash : UInt64) (equate : Key) :
    Attempt.Prompt 0 Diagnostic.IsRefusal (storeReference a operand hash equate) := by
  cases hk : a.key? with
  | none =>
    rw [storeReference, hk]
    exact Prompt.refuse rfl
  | some k =>
    refine Prompt.of_halts (fun t ht => ?_) fun t ht =>
      (storeReference_ends ht.has hk operand hash equate).sound
    rw [storeReference, hk]
    refine Halts.bind (storageCall_halts ht rfl ⟨rfl, rfl, rfl⟩) fun r t₁ _ _ => ?_
    exact Halts.lift_bind ⟨rfl, rfl, rfl⟩ (Halts.pure _)

/-! ### Slots -/

theorem fillSlot_prompt (id : Key) (a : Address) (operand : Int) (hash : UInt64) :
    Attempt.Prompt 0 Diagnostic.IsRefusal (fillSlot id a operand hash) := by
  rw [fillSlot]
  split
  · refine Prompt.bind (fetchEquate_prompt id) fun e? => ?_
    cases e? with
    | none => exact Prompt.refuse rfl
    | some e =>
      dsimp only
      split
      · refine Prompt.bind (fetchAt_prompt a) fun refs => ?_
        refine Prompt.bind (detachAll_prompt _) fun _ => ?_
        refine Prompt.bind (storeReference_prompt a operand hash id) fun r => ?_
        refine Prompt.bind (Prompt.lift (Action.reports_notify _)) fun _ => ?_
        refine Prompt.bind (Prompt.lift (Action.reports_trace _)) fun _ => ?_
        exact Prompt.bind (pruneAll_prompt _) fun _ => Prompt.pure r
      · exact Prompt.refuse_bind _ _ rfl
  · exact Prompt.refuse_bind _ _ rfl

section removal

variable {E : Diagnostic → Prop}

theorem emptySlot_prompt (id : Key) (test : Reference → Bool) :
    Attempt.Prompt 0 E (emptySlot id test) := by
  rw [emptySlot]
  refine Prompt.bind (fetchTo_prompt id) fun refs => ?_
  cases refs.find? test with
  | none => exact Prompt.pure false
  | some r =>
    refine Prompt.bind (detach_prompt r) fun _ => ?_
    exact Prompt.bind (prune_prompt id) fun _ => Prompt.pure true

theorem eraseNamed_prompt (name : String) : Attempt.Prompt 0 E (eraseNamed name) := by
  refine Prompt.of_tidy (fun t ht => ?_) (eraseNamed_tidy name)
  rw [eraseNamed]
  refine (fetchNamed_prompt name).bind_halts ht fun e? t₁ _ ht₁ => ?_
  cases e? with
  | none => exact Halts.pure false
  | some e =>
    refine (fetchTo_prompt e.id).bind_halts ht₁ fun refs t₂ _ ht₂ => ?_
    refine (detachAll_prompt refs).bind_halts ht₂ fun _ t₃ _ ht₃ => ?_
    refine Halts.bind (eraseEquate_halts ht₃ e.id) fun _ t₄ _ _ => ?_
    exact Halts.lift_bind ⟨rfl, rfl, rfl⟩ (Halts.pure true)

end removal

theorem obtain_prompt (name : String) (value : Int64) :
    Attempt.Prompt 0 Diagnostic.IsRefusal (obtain name value) := by
  rw [Table.obtain]
  refine Prompt.bind (fetchNamed_prompt name) fun e? => ?_
  cases e? with
  | some e => exact Prompt.pure e
  | none =>
    refine Prompt.bind (storeEquate_prompt name value) fun e => ?_
    exact Prompt.bind (Prompt.lift (Action.reports_trace _)) fun _ => Prompt.pure e

theorem define_prompt (name : String) (value : Int64) :
    Attempt.Prompt 1 Diagnostic.IsRefusal (define name value) := by
  rw [define]
  refine Prompt.bind (storeEquate_prompt name value).reportingFailure fun e => ?_
  exact Prompt.bind (Prompt.lift (Action.reports_trace _)) fun _ => Prompt.pure e

theorem rename_prompt (id : Key) (name : String) :
    Attempt.Prompt 1 Diagnostic.IsRefusal (rename id name) := by
  rw [rename]
  refine Prompt.bind ((Prompt.reportingAll (fetchEquate_prompt id)).mono fun _ => False.elim)
    fun e? => ?_
  refine Prompt.bind (relabel_prompt id name).reportingFailure fun e => ?_
  cases e? with
  | none => exact Prompt.pure e
  | some old =>
    dsimp only
    split
    · exact Prompt.bind (Prompt.lift (Action.reports_trace _)) fun _ => Prompt.pure e
    · exact Prompt.pure e

theorem bindOperand_prompt (b : Binding) :
    Attempt.Prompt 0 Diagnostic.IsRefusal (bindOperand b) := by
  rw [bindOperand]
  refine Prompt.bind (obtain_prompt b.name b.value) fun e => ?_
  exact Prompt.bind (fillSlot_prompt e.id b.address b.operand 0) fun _ => Prompt.pure ()

end Table

end Equates

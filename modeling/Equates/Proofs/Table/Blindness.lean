/-
No operation can tell twins apart.

Every operation of a table is made of storage calls, cache steps, entries of the journal
and polls.  All of these are blind, and so are their sequences, their loops and their
handlers of diagnostics.  The cursor and the walk end because each step leaves fewer
keys, so their blindness is an induction on what is left.

* `Table.annotate_blind` — a scan asks its own copy of the registry, so the registries of
  twins are followed through the scan as well;
* `Request.run_blind` — every request answers the same on twins, and leaves twins.
-/
import Equates.Proofs.Table.Operations
import Equates.Proofs.Table.Twin
import Equates.Table.Request

namespace Equates

open Attempt

namespace Attempt.Blind

variable {α : Type} {m : Attempt α}

theorem orElseReport (hm : Attempt.Blind m) (fallback : α) :
    Action.Blind (m.orElseReport fallback) := by
  rw [Attempt.orElseReport]
  refine Action.Blind.bind hm fun r => ?_
  cases r with
  | ok a => exact Action.Blind.pure a
  | error d => exact Action.Blind.bind (blind_enter _) fun _ => Action.Blind.pure fallback

theorem reportingFailure (hm : Attempt.Blind m) : Attempt.Blind m.reportingFailure := by
  rw [Attempt.reportingFailure]
  refine Blind.tryCatch hm fun d => ?_
  cases d.isStorageFailure with
  | true => exact Blind.bind (Blind.lift (blind_enter _)) fun _ => Blind.throw d
  | false => exact Blind.throw d

theorem answer (hm : Attempt.Blind m) (f : α → Answer) : Action.Blind (m.answer f) := by
  rw [Attempt.answer]
  refine Action.Blind.bind hm fun r => ?_
  cases r with
  | ok a => exact Action.Blind.pure _
  | error d => exact Action.Blind.pure _

/-- Reading one key after the other. -/
theorem each (fetch : Key → Attempt (Option α)) (fetchEach : List Key → Attempt (List α))
    (hnil : fetchEach [] = pure [])
    (hcons : ∀ id ids, fetchEach (id :: ids) = do
      let a? ← fetch id
      return a?.toList ++ (← fetchEach ids))
    (hfetch : ∀ id, Attempt.Blind (fetch id)) (ids : List Key) :
    Attempt.Blind (fetchEach ids) := by
  induction ids with
  | nil =>
    rw [hnil]
    exact Blind.pure []
  | cons id ids ih =>
    rw [hcons]
    exact Blind.bind (hfetch id) fun _ => Blind.bind ih fun _ => Blind.pure _

end Attempt.Blind

namespace Table

/-! ### Equates -/

theorem fetchNamed_blind (name : String) : Attempt.Blind (fetchNamed name) := by
  rw [fetchNamed]
  refine Blind.bind (queryEquates_blind .idOf none _) fun id? => ?_
  cases id? with
  | none => exact Blind.pure none
  | some id => exact fetchEquate_blind id

theorem fetchEquates_blind (ids : List Key) : Attempt.Blind (fetchEquates ids) :=
  Blind.each fetchEquate fetchEquates rfl (fun _ _ => rfl) fetchEquate_blind ids

theorem fetchAll_blind : Attempt.Blind fetchAll := by
  rw [fetchAll]
  exact Blind.bind (queryEquates_blind .list [] _) fun rows => fetchEquates_blind _

theorem fetchWithValue_blind (value : Int64) : Attempt.Blind (fetchWithValue value) := by
  rw [fetchWithValue]
  exact Blind.bind fetchAll_blind fun _ => Blind.pure _

theorem storeEquate_blind (name : String) (value : Int64) :
    Attempt.Blind (storeEquate name value) := by
  rw [storeEquate]
  refine Blind.bind (queryEquates_blind .hasName false _) fun taken => ?_
  cases taken with
  | true => exact Blind.refuse _
  | false =>
    cases Name.validate name with
    | error p => exact Blind.refuse p
    | ok _ =>
      refine Blind.through (createRow_blind name value) fun e => ?_
      exact Blind.bind (Blind.lift (blind_enter _)) fun _ => Blind.pure e

theorem eraseEquate_blind (id : Key) : Attempt.Blind (eraseEquate id) := by
  rw [eraseEquate]
  refine Blind.bind (fetchEquate_blind id) fun e? => ?_
  cases e? with
  | none => exact Blind.pure ()
  | some e => exact Blind.through (eraseEquateRow_blind id) fun _ => Blind.lift (blind_enter _)

theorem relabel_blind (id : Key) (name : String) : Attempt.Blind (relabel id name) := by
  rw [relabel]
  refine Blind.bind (fetchEquate_blind id) fun e? => ?_
  cases e? with
  | none => exact Blind.refuse _
  | some e =>
    dsimp only
    split
    · exact Blind.pure e
    · cases Name.validate name with
      | error p => exact Blind.refuse p
      | ok _ =>
        refine Blind.bind (queryEquates_blind .hasName false _) fun taken => ?_
        cases taken with
        | true => exact Blind.refuse _
        | false =>
          refine Blind.through (updateEquateRow_blind { e with name }) fun _ => ?_
          exact Blind.bind (Blind.lift (blind_enter _)) fun _ => Blind.pure _

/-! ### References -/

theorem fetchReference_blind (id : Key) : Attempt.Blind (fetchReference id) := by
  rw [fetchReference]
  refine Blind.bind (fetchRow_blind id) fun r? => ?_
  cases r? with
  | none => exact Blind.pure none
  | some r =>
    dsimp only
    cases r.decode with
    | ok reference => exact Blind.pure _
    | error p => exact Blind.refuse p

theorem fetchReferences_blind (ids : List Key) : Attempt.Blind (fetchReferences ids) :=
  Blind.each fetchReference fetchReferences rfl (fun _ _ => rfl) fetchReference_blind ids

theorem fetchRows_blind (ids : List Key) : Attempt.Blind (fetchRows ids) :=
  Blind.each fetchRow fetchRows rfl (fun _ _ => rfl) fetchRow_blind ids

theorem keysAt_blind (a : Address) : Attempt.Blind (keysAt a) := by
  rw [keysAt]
  cases a.key? with
  | none => exact Blind.pure []
  | some k => exact queryReferences_blind .keysAt [] _

theorem keysTo_blind (id : Key) : Attempt.Blind (keysTo id) :=
  queryReferences_blind .keysTo [] _

theorem fetchAt_blind (a : Address) : Attempt.Blind (fetchAt a) := by
  rw [fetchAt]
  exact Blind.bind (keysAt_blind a) fetchReferences_blind

theorem fetchTo_blind (id : Key) : Attempt.Blind (fetchTo id) := by
  rw [fetchTo]
  exact Blind.bind (keysTo_blind id) fetchReferences_blind

theorem storeReference_blind (a : Address) (operand : Int) (hash : UInt64) (equate : Key) :
    Attempt.Blind (storeReference a operand hash equate) := by
  rw [storeReference]
  cases hk : a.key? with
  | none => exact Blind.refuse _
  | some k =>
    have ha := Address.ofKey?_of_key? hk
    exact Blind.through (createReferenceRow_blind ha operand hash equate) fun _ => Blind.pure _

theorem eraseReference_blind (id : Key) : Attempt.Blind (eraseReference id) :=
  eraseReferenceRow_blind id

/-! ### Slots -/

theorem detach_blind (r : Reference) : Attempt.Blind (detach r) := by
  rw [detach]
  refine Blind.bind (fetchEquate_blind r.equate) fun e => ?_
  refine Blind.bind (eraseReference_blind r.id) fun _ => ?_
  exact Blind.bind (Blind.lift (blind_enter _)) fun _ => Blind.lift (blind_enter _)

theorem detachAll_blind (refs : List Reference) : Attempt.Blind (detachAll refs) := by
  induction refs with
  | nil => exact Blind.pure ()
  | cons r refs ih =>
    rw [detachAll]
    exact Blind.bind (detach_blind r) fun _ => ih

theorem prune_blind (id : Key) : Attempt.Blind (prune id) := by
  rw [prune]
  refine Blind.bind (keysTo_blind id) fun keys => ?_
  cases keys.isEmpty with
  | false => exact Blind.pure ()
  | true =>
    refine Blind.bind (fetchEquate_blind id) fun e? => ?_
    cases e? with
    | none => exact Blind.pure ()
    | some e => exact Blind.bind (eraseEquate_blind id) fun _ => Blind.lift (blind_enter _)

theorem pruneAll_blind (ids : List Key) : Attempt.Blind (pruneAll ids) := by
  induction ids with
  | nil => exact Blind.pure ()
  | cons id ids ih =>
    rw [pruneAll]
    exact Blind.bind (prune_blind id) fun _ => ih

theorem fillSlot_blind (id : Key) (a : Address) (operand : Int) (hash : UInt64) :
    Attempt.Blind (fillSlot id a operand hash) := by
  rw [fillSlot]
  split
  · refine Blind.bind (fetchEquate_blind id) fun e? => ?_
    cases e? with
    | none => exact Blind.refuse _
    | some e =>
      dsimp only
      split
      · refine Blind.bind (fetchAt_blind a) fun refs => ?_
        refine Blind.bind (detachAll_blind _) fun _ => ?_
        refine Blind.bind (storeReference_blind a operand hash id) fun r => ?_
        refine Blind.bind (Blind.lift (blind_enter _)) fun _ => ?_
        refine Blind.bind (Blind.lift (blind_enter _)) fun _ => ?_
        exact Blind.bind (pruneAll_blind _) fun _ => Blind.pure r
      · exact Blind.refuse _
  · exact Blind.refuse _

theorem emptySlot_blind (id : Key) (test : Reference → Bool) :
    Attempt.Blind (emptySlot id test) := by
  rw [emptySlot]
  refine Blind.bind (fetchTo_blind id) fun refs => ?_
  cases refs.find? test with
  | none => exact Blind.pure false
  | some r =>
    exact Blind.bind (detach_blind r) fun _ => Blind.bind (prune_blind id) fun _ => Blind.pure true

/-! ### Single equates -/

theorem define_blind (name : String) (value : Int64) : Attempt.Blind (define name value) := by
  rw [define]
  refine Blind.bind (storeEquate_blind name value).reportingFailure fun e => ?_
  exact Blind.bind (Blind.lift (blind_enter _)) fun _ => Blind.pure e

theorem obtain_blind (name : String) (value : Int64) : Attempt.Blind (obtain name value) := by
  rw [obtain]
  refine Blind.bind (fetchNamed_blind name) fun e? => ?_
  cases e? with
  | some e => exact Blind.pure e
  | none =>
    refine Blind.bind (storeEquate_blind name value) fun e => ?_
    exact Blind.bind (Blind.lift (blind_enter _)) fun _ => Blind.pure e

theorem eraseNamed_blind (name : String) : Attempt.Blind (eraseNamed name) := by
  rw [eraseNamed]
  refine Blind.bind (fetchNamed_blind name) fun e? => ?_
  cases e? with
  | none => exact Blind.pure false
  | some e =>
    refine Blind.bind (fetchTo_blind e.id) fun refs => ?_
    refine Blind.bind (detachAll_blind refs) fun _ => ?_
    refine Blind.bind (eraseEquate_blind e.id) fun _ => ?_
    exact Blind.bind (Blind.lift (blind_enter _)) fun _ => Blind.pure true

theorem reportingAll_blind {α : Type} {m : Attempt α} (hm : Attempt.Blind m) :
    Attempt.Blind (reportingAll m) := by
  rw [reportingAll]
  refine Blind.tryCatch hm fun d => ?_
  exact Blind.bind (Blind.lift (blind_enter _)) fun _ => Blind.throw d

theorem rename_blind (id : Key) (name : String) : Attempt.Blind (rename id name) := by
  rw [rename]
  refine Blind.bind (reportingAll_blind (fetchEquate_blind id)) fun before => ?_
  refine Blind.bind (relabel_blind id name).reportingFailure fun e => ?_
  cases before with
  | none => exact Blind.pure e
  | some old =>
    dsimp only
    split
    · exact Blind.bind (Blind.lift (blind_enter _)) fun _ => Blind.pure e
    · exact Blind.pure e

theorem dropCaches_blind : Action.Blind dropCaches := by
  rw [dropCaches]
  exact Action.Blind.bind blind_dropEquateCache fun _ => blind_dropReferenceCache

theorem fetchEquatesAt_blind (a : Address) (operand : Option Int) :
    Attempt.Blind (fetchEquatesAt a operand) := by
  rw [fetchEquatesAt]
  exact Blind.bind (fetchAt_blind a) fun _ => fetchEquates_blind _

theorem label_blind (name : String) (value : Int64) : Action.Blind (label name value) := by
  rw [label]
  split
  · split
    · exact Action.Blind.bind (blind_memberName _ value) fun _ => Action.Blind.pure _
    · exact Action.Blind.pure _
  · exact Action.Blind.pure _

end Table

/-! ### Cursors and walks -/

theorem Cursor.next_blind (c : Cursor) : Action.Blind (next c) := by
  induction c with
  | nil => exact Action.Blind.pure _
  | cons w rest ih =>
    rw [next]
    split
    · exact ih
    · have hseek : Action.Blind (seek w).run := queryReferences_blind .firstAddress none _
      refine Action.Blind.bind hseek fun r => ?_
      rcases r with d | _ | k
      · exact Action.Blind.pure _
      · exact ih
      · dsimp only
        split
        · exact Action.Blind.pure _
        · exact Action.Blind.pure _

/-- The visitors of a blind cursor are blind; each visits what is left after a step. -/
theorem Cursor.gather_blind {α : Type} {visit : Address → Attempt (List α)}
    (hvisit : ∀ a, Attempt.Blind (visit a)) (c : Cursor) : Attempt.Blind (gather visit c) := by
  induction hn : c.size using Nat.strong_induction_on generalizing c with
  | _ n ih =>
    subst hn
    rw [gather_eq]
    refine Blind.bind (Blind.lift blind_poll) fun stop => ?_
    cases stop with
    | true => exact Blind.pure none
    | false =>
      refine Blind.bind_of (Blind.lift (next_blind c)) fun t _ p hp => ?_
      -- Twins narrow the cursor alike, so they go on with one and the same rest.
      obtain ⟨r, c'⟩ := p
      obtain d | _ | a := r
      · exact Blind.throw d
      · exact Blind.pure _
      · have hnext : (Action.on (next c) t).1 = (.ok (some a), c') := Except.ok.inj hp
        have hlt : c'.size < c.size := size_next_lt (t := t) (Prod.ext hnext rfl)
        refine Blind.bind (hvisit a) fun found => ?_
        exact Blind.bind (ih _ hlt c' rfl) fun _ => Blind.pure _

theorem Walk.next_blind (w : Walk) : Action.Blind w.next := by
  rw [Walk.next]
  split
  · exact Action.Blind.pure _
  · refine Action.Blind.bind (Cursor.next_blind w.cursor) fun p => ?_
    obtain ⟨d | _ | a, c⟩ := p
    · exact Action.Blind.bind (blind_enter _) fun _ => Action.Blind.pure _
    · exact Action.Blind.pure _
    · exact Action.Blind.pure _

theorem Walk.drain_blind (w : Walk) : Action.Blind w.drain := by
  induction hn : w.cursor.size using Nat.strong_induction_on generalizing w with
  | _ n ih =>
    subst hn
    rw [drain_eq]
    refine Action.Blind.bind_of w.next_blind fun t => ?_
    rcases hp : (Action.on w.next t).1 with ⟨_ | a, w'⟩
    · exact Action.Blind.pure _
    · have hlt : w'.cursor.size < w.cursor.size := size_next_lt (t := t) (Prod.ext hp rfl)
      exact Action.Blind.bind (ih _ hlt w' rfl) fun _ => Action.Blind.pure _

namespace Table

/-! ### Ranges -/

theorem removeEach_blind (total done : Nat) (refs : List Reference) :
    Action.Blind (removeEach total done refs) := by
  induction refs generalizing done with
  | nil =>
    rw [removeEach]
    exact Action.Blind.bind (blind_advanceMonitor _ _) fun _ => Action.Blind.pure _
  | cons r refs ih =>
    rw [removeEach]
    refine Action.Blind.bind blind_poll fun stop => ?_
    cases stop with
    | true => exact Action.Blind.pure _
    | false =>
      refine Action.Blind.bind (blind_advanceMonitor _ _) fun _ => ?_
      refine Action.Blind.bind (detach_blind r) fun res => ?_
      cases res with
      | error d => exact Action.Blind.pure _
      | ok _ =>
        refine Action.Blind.bind (prune_blind r.equate) fun res => ?_
        cases res with
        | error d => exact Action.Blind.pure _
        | ok _ => exact ih (done + 1)

theorem clearWindow_blind (w : KeyWindow) : Action.Blind (clearWindow w) := by
  rw [clearWindow]
  refine Action.Blind.bind (blind_tellMonitor _) fun _ => ?_
  refine Action.Blind.bind (Cursor.gather_blind fetchAt_blind [w]) fun r => ?_
  obtain d | _ | doomed := r
  · exact Action.Blind.pure _
  · exact Action.Blind.pure _
  · exact removeEach_blind _ 0 doomed

theorem clear_blind (first last : Address) : Action.Blind (clear first last) := by
  rw [clear]
  cases KeyWindow.between? first last with
  | none => exact Action.Blind.pure _
  | some w =>
    refine Action.Blind.bind (clearWindow_blind w) fun p => ?_
    obtain ⟨removed, d | outcome⟩ := p
    · refine Action.Blind.bind (blind_enter _) fun _ => ?_
      exact Action.Blind.bind (blind_enter _) fun _ => Action.Blind.pure _
    · exact Action.Blind.bind (blind_enter _) fun _ => Action.Blind.pure _

section moving

variable {source target : Address} {length : UInt64}

/-- The new key is that of an address, which soundness asks of a row. -/
theorem moveRow_blind {r : ReferenceRow} {a : Address} {k : Int}
    (ha : Address.ofKey? r.addressKey = some a) (hk : (translate source target a).key? = some k) :
    Attempt.Blind (moveRow source target r) := by
  rw [moveRow, ha]
  dsimp only
  rw [hk, Option.getD_some]
  exact updateReferenceRow_blind (r := { r with addressKey := k }) (Address.ofKey?_of_key? hk)

theorem moveEach_blind (total done : Nat) {rows : List ReferenceRow}
    (hrows : ∀ r ∈ rows, ∃ a k, Address.ofKey? r.addressKey = some a ∧
      (translate source target a).key? = some k) :
    Attempt.Blind (moveEach source target total done rows) := by
  induction rows generalizing done with
  | nil =>
    rw [moveEach]
    exact Blind.bind (Blind.lift (blind_advanceMonitor _ _)) fun _ => Blind.pure _
  | cons r rows ih =>
    obtain ⟨⟨a, k, ha, hk⟩, hrows⟩ := List.forall_mem_cons.mp hrows
    rw [moveEach]
    refine Blind.bind (Blind.lift blind_poll) fun stop => ?_
    cases stop with
    | true => exact Blind.pure _
    | false =>
      refine Blind.bind (Blind.lift (blind_advanceMonitor _ _)) fun _ => ?_
      exact Blind.bind (moveRow_blind ha hk) fun _ => ih (done + 1) hrows

theorem checkDestination_blind (target : Address) (length : UInt64) :
    Attempt.Blind (checkDestination target length) := by
  rw [checkDestination]
  split
  · exact Blind.refuse _
  · split
    · exact Blind.pure ()
    · exact Blind.refuse _

theorem moveWindow_blind (hl : length ≠ 0) (hfit : ¬ lastOffset - target.offset < length - 1)
    (hlast : (lastOf target length).Mappable) {w : KeyWindow}
    (hw : KeyWindow.between? source (lastOf source length) = some w) :
    Attempt.Blind (moveWindow source target w) := by
  rw [moveWindow]
  refine Blind.bind (Blind.lift (blind_tellMonitor _)) fun _ => ?_
  have hvisit : ∀ a, Attempt.Blind (do fetchRows (← keysAt a)) :=
    fun a => Blind.bind (keysAt_blind a) fetchRows_blind
  refine Blind.bind_of (Cursor.gather_blind hvisit [w]) fun t ht rows? hrows => ?_
  cases rows? with
  | none => exact Blind.pure _
  | some rows =>
    -- The rows stand in the window, so their new addresses have keys.
    obtain ⟨-, hr⟩ := Cursor.gather_on (visitRows_enacts t.store) ht.sound.has [w]
    rw [hrows] at hr
    obtain ⟨hr, -⟩ | ⟨hr, -⟩ | ⟨d, hr, -⟩ := hr
    · cases hr
    · cases hr
      refine moveEach_blind _ 0 fun r hr => ?_
      obtain ⟨-, a, ha, hin⟩ := between_of_mem_rows ht.sound.store hw hr
      obtain ⟨k, hk⟩ := exists_key?_translate hl hfit hlast hin
      exact ⟨a, k, ha, hk⟩
    · cases hr

theorem relocate_blind (source target : Address) (length : UInt64) :
    Attempt.Blind (relocate source target length) := by
  rw [relocate]
  split
  · exact Blind.pure _
  · next hl =>
    refine Blind.bind_of (checkDestination_blind target length) fun t _ u hok => ?_
    obtain ⟨hfit, hlast⟩ := (checkDestination_on target length t).2 u hok
    refine Blind.bind (Blind.lift blind_dropReferenceCache) fun _ => ?_
    cases hw : KeyWindow.between? source (lastOf source length) with
    | none => exact Blind.pure _
    | some w => exact moveWindow_blind hl hfit hlast hw

end moving

theorem move_blind (source target : Address) (length : UInt64) :
    Attempt.Blind (move source target length) := by
  rw [move]
  refine Blind.bind (Blind.lift blind_dropEquateCache) fun _ => ?_
  refine Blind.bind (Blind.tryCatch (relocate_blind source target length) fun d => ?_) fun o => ?_
  · cases d.isStorageFailure with
    | true => exact Blind.bind (Blind.lift (blind_enter _)) fun _ => Blind.pure _
    | false => exact Blind.throw d
  · exact Blind.bind (Blind.lift (blind_enter _)) fun _ => Blind.pure o

/-! ### Annotation -/

theorem bindOperand_blind (b : Binding) : Attempt.Blind (bindOperand b) := by
  rw [bindOperand]
  refine Blind.bind (obtain_blind b.name b.value) fun e => ?_
  exact Blind.bind (fillSlot_blind e.id b.address b.operand 0) fun _ => Blind.pure ()

/-- What a scan leaves behind, put together again. -/
theorem twin_of_alike {s₁ s₂ : Scan Table} (h : Scan.Alike Twin s₁ s₂) :
    Twin { s₁.client with monitor := s₁.monitor, registry := some s₁.registry }
      { s₂.client with monitor := s₂.monitor, registry := some s₂.registry } := by
  obtain ⟨hleft, hright, hbare⟩ := h.client
  -- The scan hands back its own monitor and registry, not those of its client.
  have hset : ∀ s : Scan Table,
      { s.client with monitor := s.monitor, registry := some s.registry }.bare =
        { s.client.bare with monitor := s.monitor, registry := some s.registry.uncounted } :=
    fun _ => rfl
  refine ⟨?_, ?_, ?_⟩
  · exact hleft.of_rows rfl rfl hleft.sound.equateCache hleft.sound.referenceCache rfl
  · exact hright.of_rows rfl rfl hright.sound.equateCache hright.sound.referenceCache rfl
  · rw [hset, hset, hbare, h.monitor, h.registry]

theorem Twin.scanTable {t₁ t₂ : Table} (h : t₁.Twin t₂) {r₁ r₂ : TypeRegistry}
    (hr : r₁.uncounted = r₂.uncounted) (listing : Listing) (set : AddressSet) (type : EnumType)
    (parts : Bool) :
    Match (Attempt.on (liftM (scanTable listing r₁ set type parts)) t₁)
      (Attempt.on (liftM (scanTable listing r₂ set type parts)) t₂) := by
  have hbind : ∀ (r₁ r₂ : TypeRegistry) b (c₁ c₂ : Table), r₁.uncounted = r₂.uncounted →
      c₁.Twin c₂ → ((bindOperand b).run.run c₁).1 = ((bindOperand b).run.run c₂).1 ∧
        ((bindOperand b).run.run c₁).2.Twin ((bindOperand b).run.run c₂).2 := by
    intro _ _ b c₁ c₂ _ hc
    obtain ⟨ha, hb⟩ := bindOperand_blind b c₁ c₂ hc
    exact ⟨ha, hb⟩
  obtain ⟨hres, hs⟩ := Scan.run_blind hbind listing set type parts
    { monitor := t₁.monitor, registry := r₁, client := t₁ }
    { monitor := t₂.monitor, registry := r₂, client := t₂ } ⟨h.monitor, hr, h, rfl, rfl, rfl⟩
  have hanswer := congrArg₂ Prod.mk hres (congrArg₂ Prod.mk hs.visited hs.bound)
  exact ⟨congrArg Except.ok hanswer, twin_of_alike hs⟩

theorem annotate_blind (set : AddressSet) (type : EnumType) (parts : Bool) :
    Attempt.Blind (annotate set type parts) := by
  intro t₁ t₂ h
  have hregistry := h.registry
  -- The table is read as a whole, caches included; only its listing, its registry and
  -- its monitor are used.
  rw [annotate]
  show Match (Attempt.on (get >>= _) t₁) (Attempt.on (get >>= _) t₂)
  rw [Attempt.on_get_bind, Attempt.on_get_bind, h.listing]
  cases t₂.listing with
  | none => exact Blind.refuse _ t₁ t₂ h
  | some listing =>
    -- The registries of twins differ at most in how often they were asked.
    cases hr₁ : t₁.registry with
    | none =>
      rw [hr₁] at hregistry
      rw [Option.map_eq_none_iff.mp hregistry.symm]
      exact Blind.refuse _ t₁ t₂ h
    | some r₁ =>
      rw [hr₁] at hregistry
      obtain ⟨r₂, hr₂, hr⟩ := Option.map_eq_some_iff.mp hregistry.symm
      rw [hr₂]
      dsimp only
      split
      · refine Blind.match_bind_of (h.scanTable hr.symm listing set type parts) fun p _ => ?_
        obtain ⟨d | outcome, visited, bound⟩ := p
        · dsimp only
          cases d.isStorageFailure with
          | true =>
            refine Blind.bind (Blind.lift (blind_enter _)) fun _ => ?_
            exact Blind.bind (Blind.lift (blind_enter _)) fun _ => Blind.pure _
          | false => exact Blind.throw d
        · exact Blind.bind (Blind.lift (blind_enter _)) fun _ => Blind.pure _
      · exact Blind.refuse _ t₁ t₂ h

end Table

/-! ### Requests -/

/-- A request answers the same on twins, and leaves twins behind. -/
theorem Request.run_blind (q : Request) : Action.Blind q.run := by
  cases q with
  | define name value => exact (Table.define_blind name value).answer .equate
  | ensure name value => exact (Table.obtain_blind name value).reportingFailure.answer .equate
  | equateNamed name => exact ((Table.fetchNamed_blind name).orElseReport none).map _
  | equateWithId id => exact ((Table.fetchEquate_blind id).orElseReport none).map _
  | equateAt a operand value =>
    refine Action.Blind.map ?_ _
    refine Action.Blind.bind ?_ fun _ => Action.Blind.pure _
    exact (Table.fetchEquatesAt_blind a operand).orElseReport []
  | equatesAt a operand => exact ((Table.fetchEquatesAt_blind a operand).orElseReport []).map _
  | allEquates => exact (Table.fetchAll_blind.orElseReport []).map _
  | equatesWithValue value => exact ((Table.fetchWithValue_blind value).orElseReport []).map _
  | referencesAt a => exact ((Table.fetchAt_blind a).orElseReport []).map _
  | referencesTo id => exact ((Table.fetchTo_blind id).orElseReport []).map _
  | countReferences id => exact (((Table.keysTo_blind id).map _).orElseReport 0).map _
  | step walk => exact Action.Blind.bind walk.next_blind fun _ => Action.Blind.pure _
  | drain walk => exact Action.Blind.bind walk.drain_blind fun _ => Action.Blind.pure _
  | attach id a operand hash =>
    exact (Table.fillSlot_blind id a operand hash).reportingFailure.answer .reference
  | detachOperand id a operand => exact ((Table.emptySlot_blind id _).orElseReport false).map _
  | detachHash id a hash => exact ((Table.emptySlot_blind id _).orElseReport false).map _
  | remove name => exact ((Table.eraseNamed_blind name).orElseReport false).map _
  | rename id name => exact (Table.rename_blind id name).answer .equate
  | clear first last => exact (Table.clear_blind first last).map _
  | move source target length => exact (Table.move_blind source target length).answer .outcome
  | annotate set type parts => exact (Table.annotate_blind set type parts).answer .outcome
  | dropCaches => exact Action.Blind.bind Table.dropCaches_blind fun _ => Action.Blind.pure _
  | label name value => exact (Table.label_blind name value).map _

end Equates

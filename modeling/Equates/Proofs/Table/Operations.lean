/-
What the operations of a table do to its store.

Every operation is tidy: the queries and the walks perform no effects, the removal of an
equate detaches and discards, a renaming relabels, a move rekeys references of its
source window (`Effect.Shifts`), and all others define, attach, detach and settle
(`Effect.Plain`).  `Request.Allows` says so for requests, and `Request.run_settles` is the
one theorem about all of them.
-/
import Equates.Table.Request
import Equates.Proofs.Address.Window
import Equates.Proofs.Scan
import Equates.Proofs.Table.Settles
import Equates.Proofs.Table.Slot

namespace Equates

open Attempt

/-- The effects of the operations on slots. -/
def Effect.Plain : Effect → Prop
  | define .. | attach .. | detach _ | settle _ => True
  | _ => False

/-- The effects of the removal of an equate. -/
def Effect.Removes : Effect → Prop
  | detach _ | discard _ => True
  | _ => False

/-- The effect of a renaming. -/
def Effect.Renames : Effect → Prop
  | relabel .. => True
  | _ => False

/-- The effects of a move: a reference that stood at one of the `length` addresses from
`source` on in the store `s` goes as far behind `target`. -/
def Effect.Shifts (s : Store) (source target : Address) (length : UInt64) : Effect → Prop
  | rekey row k => row ∈ s.references ∧ ∃ (a b : Address) (d : Nat),
      Address.ofKey? row.addressKey = some a ∧
      b.key? = some k ∧ d < length.toNat ∧
      (a.space = source.space ∧ a.offset.toNat = source.offset.toNat + d) ∧
      (b.space = target.space ∧ b.offset.toNat = target.offset.toNat + d)
  | _ => False

namespace Table

/-! ### Queries -/

section queries

variable {P : Effect → Prop}

theorem equateNamed_tidy (name : String) : Action.Tidy P (equateNamed name) :=
  (Tidy.of_read fun s => fetchNamed_enacts s name).orElseReport none

theorem equateWithId_tidy (id : Key) : Action.Tidy P (equateWithId id) :=
  (Tidy.of_read fun s => fetchEquate_enacts s id).orElseReport none

theorem fetchEquatesAt_tidy (a : Address) (operand : Option Int) :
    Attempt.Tidy P (fetchEquatesAt a operand) := by
  rw [fetchEquatesAt]
  refine Tidy.bind (Tidy.of_read fun s => fetchAt_enacts s a) fun refs => ?_
  exact Tidy.of_read fun s => fetchEquates_enacts s _

theorem equatesAt_tidy (a : Address) (operand : Option Int) :
    Action.Tidy P (equatesAt a operand) :=
  (fetchEquatesAt_tidy a operand).orElseReport []

theorem allEquates_tidy : Action.Tidy P allEquates :=
  (Tidy.of_read fetchAll_enacts).orElseReport []

theorem equatesWithValue_tidy (value : Int64) : Action.Tidy P (equatesWithValue value) := by
  refine Tidy.orElseReport ?_ []
  rw [fetchWithValue]
  exact Tidy.bind (Tidy.of_read fetchAll_enacts) fun l => Tidy.pure _

theorem referencesAt_tidy (a : Address) : Action.Tidy P (referencesAt a) :=
  (Tidy.of_read fun s => fetchAt_enacts s a).orElseReport []

theorem referencesTo_tidy (id : Key) : Action.Tidy P (referencesTo id) :=
  (Tidy.of_read fun s => fetchTo_enacts s id).orElseReport []

theorem countReferences_tidy (id : Key) : Action.Tidy P (countReferences id) := by
  refine Tidy.orElseReport ?_ 0
  rw [map_eq_pure_bind]
  exact Tidy.bind (Tidy.of_read fun s => keysTo_enacts s id) fun l => Tidy.pure _

theorem memberName_tidy (id : UInt64) (value : Int64) : Action.Tidy P (memberName id value) := by
  refine .of_keeps fun t ht => ?_
  obtain ⟨-, hon⟩ | ⟨r, -, hon⟩ := memberName_cases id value t
  · rw [hon]
    exact ht.has.becomes.keeps
  · rw [hon]
    exact ht.keeps_of_same rfl ht.equateCache ht.referenceCache rfl

theorem label_tidy (name : String) (value : Int64) : Action.Tidy P (label name value) := by
  rw [label]
  split
  · split
    · exact Action.Tidy.bind (memberName_tidy _ _) fun _ => Action.Tidy.pure _
    · exact Action.Tidy.pure _
  · exact Action.Tidy.pure _

end queries

/-! ### Equates and slots -/

theorem storeEquate_tidy (name : String) (value : Int64) :
    Attempt.Tidy Effect.Plain (storeEquate name value) := by
  refine Tidy.of_enacts fun s _ => ?_
  by_cases h : (Effect.define name value).Fits [] s
  · exact ⟨_, _, storeEquate_enacts h, Store.clears_singleton h rfl,
      List.forall_mem_singleton.mpr trivial⟩
  · obtain ⟨d, hd⟩ := storeEquate_refuses h
    exact ⟨[], _, hd, s.clears_nil, List.forall_mem_nil _⟩

theorem fetchNamed_tidy {P : Effect → Prop} (name : String) : Attempt.Tidy P (fetchNamed name) :=
  Tidy.of_read fun s => fetchNamed_enacts s name

theorem obtain_tidy (name : String) (value : Int64) :
    Attempt.Tidy Effect.Plain (obtain name value) := by
  rw [Table.obtain]
  refine Tidy.bind (fetchNamed_tidy name) fun e? => ?_
  -- The name is taken, or a row of that name is created.
  cases e? with
  | some e => exact Tidy.pure e
  | none =>
    refine Tidy.bind (storeEquate_tidy name value) fun e => ?_
    exact Tidy.bind (Tidy.lift (tidy_trace _)) fun _ => Tidy.pure e

theorem plain_of_mem_filling {s : Store} {e : Equate} {a : Address} {operand : Int}
    {hash : UInt64} {x : Effect} (hx : x ∈ s.filling e a operand hash) : x.Plain := by
  rw [Store.filling, List.mem_append, List.mem_cons, List.mem_map, List.mem_map] at hx
  obtain ⟨r, -, rfl⟩ | rfl | ⟨id, -, rfl⟩ := hx
  · trivial
  · trivial
  · trivial

theorem fillSlot_tidy (id : Key) (a : Address) (operand : Int) (hash : UInt64) :
    Attempt.Tidy Effect.Plain (fillSlot id a operand hash) := by
  refine Tidy.of_enacts fun s hs => ?_
  by_cases h : (0 ≤ operand ∧ operand ≤ maxOperand) ∧ (s.equates.get? id).isSome ∧ a.Mappable
  · obtain ⟨hop, he, ha⟩ := h
    obtain ⟨e, he⟩ := Option.isSome_iff_exists.mp he
    obtain rfl := hs.equates.id_eq he
    exact ⟨_, _, fillSlot_enacts hs he ha hop hash, s.clears_filling hs he ha hop hash,
      fun x hx => plain_of_mem_filling hx⟩
  · obtain ⟨p, -, hd⟩ := fillSlot_refuses h
    exact ⟨[], _, hd, s.clears_nil, List.forall_mem_nil _⟩

theorem plain_detach_settle (r : Reference) (id : Key) :
    ∀ x ∈ [Effect.detach r, .settle id], x.Plain :=
  List.forall_mem_cons.mpr ⟨trivial, List.forall_mem_singleton.mpr trivial⟩

theorem emptySlot_tidy (id : Key) (test : Reference → Bool) :
    Attempt.Tidy Effect.Plain (emptySlot id test) := by
  refine Tidy.of_enacts fun s hs => ?_
  -- At most one reference goes, and only with the debt it leaves settled.
  have hm := emptySlot_enacts s id test
  cases hf : (s.referencesTo id).find? test with
  | none =>
    rw [hf] at hm
    exact ⟨[], _, hm, s.clears_nil, List.forall_mem_nil _⟩
  | some r =>
    rw [hf] at hm
    obtain ⟨hr, rfl⟩ := hs.mem_referencesTo.mp (List.mem_of_find?_eq_some hf)
    exact ⟨_, _, hm, Store.clears_detach_settle hr, plain_detach_settle r r.equate⟩

theorem define_tidy (name : String) (value : Int64) :
    Attempt.Tidy Effect.Plain (define name value) := by
  rw [define]
  refine Tidy.bind (storeEquate_tidy name value).reportingFailure fun e => ?_
  exact Tidy.bind (Tidy.lift (tidy_trace _)) fun _ => Tidy.pure e

theorem bindOperand_tidy (b : Binding) : Attempt.Tidy Effect.Plain (bindOperand b) := by
  rw [bindOperand]
  refine Tidy.bind (obtain_tidy b.name b.value) fun e => ?_
  exact Tidy.bind (fillSlot_tidy e.id b.address b.operand 0) fun _ => Tidy.pure ()

/-! ### Removal and renaming of an equate -/

theorem eraseNamed_tidy (name : String) : Attempt.Tidy Effect.Removes (eraseNamed name) := by
  refine Tidy.of_enacts fun s hs => ?_
  cases h : (s.equates.idOf? name).bind s.equates.get? with
  | none =>
    exact ⟨[], _, eraseNamed_missing h, s.clears_nil, List.forall_mem_nil _⟩
  | some e =>
    obtain ⟨hmem, -⟩ := hs.equates.named_iff.mp h
    have hdetach : ∀ x ∈ (s.referencesTo e.id).map Effect.detach, x.Removes :=
      List.forall_mem_map.mpr fun _ _ => trivial
    exact ⟨_, _, eraseNamed_enacts hmem h, Store.clears_dissolve hs hmem,
      List.forall_mem_append.mpr ⟨hdetach, List.forall_mem_singleton.mpr trivial⟩⟩

theorem relabel_tidy (id : Key) (name : String) :
    Attempt.Tidy Effect.Renames (relabel id name) := by
  refine Tidy.of_enacts fun s hs => ?_
  by_cases h : ∃ e ∈ s.equates, e.id = id ∧ (Effect.relabel e name).Fits [] s
  · obtain ⟨e, -, rfl, h⟩ := h
    exact ⟨_, _, relabel_enacts h, Store.clears_singleton h rfl,
      List.forall_mem_singleton.mpr trivial⟩
  · obtain ⟨r, hr⟩ := relabel_refuses hs fun e he hid hfits => h ⟨e, he, hid, hfits⟩
    exact ⟨[], r, hr, s.clears_nil, List.forall_mem_nil _⟩

theorem reportingAll_tidy {α : Type} {P : Effect → Prop} {m : Attempt α}
    (hm : Attempt.Tidy P m) : Attempt.Tidy P (reportingAll m) := by
  rw [reportingAll]
  refine Tidy.tryCatch hm fun d => ?_
  exact Tidy.bind (Tidy.lift (tidy_report d)) fun _ => Tidy.throw d

theorem rename_tidy (id : Key) (name : String) :
    Attempt.Tidy Effect.Renames (rename id name) := by
  rw [rename]
  refine Tidy.bind (reportingAll_tidy (Tidy.of_read fun s => fetchEquate_enacts s id)) fun e? => ?_
  refine Tidy.bind (relabel_tidy id name).reportingFailure fun e => ?_
  cases e? with
  | none => exact Tidy.pure e
  | some old =>
    dsimp only
    split
    · exact Tidy.bind (Tidy.lift (tidy_trace _)) fun _ => Tidy.pure e
    · exact Tidy.pure e

/-! ### Clearing -/

/-- The references that stand in a window. -/
theorem refers_of_mem_window {s : Store} (hs : s.Sound) {w : KeyWindow} {r : Reference}
    (hr : r ∈ (s.addressesAlong [w]).flatMap s.referencesAt) : s.Refers r := by
  obtain ⟨a, -, hr⟩ := List.mem_flatMap.mp hr
  exact (hs.mem_referencesAt.mp hr).1

/-- No reference stands in a window twice. -/
theorem nodup_references_window {s : Store} (hs : s.Sound) (w : KeyWindow) :
    ((s.addressesAlong [w]).flatMap s.referencesAt).Pairwise (·.id ≠ ·.id) := by
  refine List.pairwise_flatMap.mpr ⟨fun a _ => ?_, ?_⟩
  · exact (hs.referencesAt_sorted a).imp fun h => ne_of_lt h
  · -- One reference stands at one address only.
    refine (s.nodup_addressesAlong w).imp fun hne r hr r' hr' hid => hne ?_
    have hr := hs.mem_referencesAt.mp hr
    have hr' := hs.mem_referencesAt.mp hr'
    rw [← hr.2, ← hr'.2, hs.eq_of_id_eq hr.1 hr'.1 hid]

/-- A reference that is detached, with its debt settled, leaves the others alone. -/
theorem refers_after_removal {s : Store} {r r' : Reference} (hr' : s.Refers r')
    (hne : r'.id ≠ r.id) : (s.after [.detach r, .settle r.equate]).Refers r' := by
  rw [Store.after_cons, Store.after_cons, Store.after_nil, Store.Refers,
    Store.references_apply_settle]
  exact Store.refers_withoutReference.mpr ⟨hr', hne⟩

/-- A step of a clearing goes through, or it breaks in one of its two parts. -/
theorem removal_cases {s : Store} {r : Reference} (hr : s.Refers r) {t : Table} (ht : t.Has s) :
    (∃ d t₁, Attempt.on (detach r) t = (.error d, t₁) ∧ t.Settles Effect.Plain t₁) ∨
    (∃ d t₁ t₂, Attempt.on (detach r) t = (.ok (), t₁) ∧
      Attempt.on (prune r.equate) t₁ = (.error d, t₂) ∧ t.Settles Effect.Plain t₂) ∨
    ∃ t₁ t₂, Attempt.on (detach r) t = (.ok (), t₁) ∧
      Attempt.on (prune r.equate) t₁ = (.ok (), t₂) ∧ t.Settles Effect.Plain t₂ ∧
      t₂.Has (s.after [.detach r, .settle r.equate]) := by
  have hm : Attempt.Enacts (detach r >>= fun _ => prune r.equate) s
      [.detach r, .settle r.equate] (.ok ()) :=
    Enacts.bind (detach_enacts s r) (prune_enacts _ r.equate)
  have hends := hm t ht
  have hstep : t.Settles Effect.Plain (Attempt.on (detach r >>= fun _ => prune r.equate) t).2 := by
    rw [← ht.store] at hm hr
    exact Settles.of_enacts hm ht.sound (Store.clears_detach_settle hr) (plain_detach_settle r _)
  rw [Ends, on_bind] at hends
  rw [on_bind] at hstep
  rcases hd : Attempt.on (detach r) t with ⟨d | _, t₁⟩
  · rw [hd] at hstep
    exact .inl ⟨d, t₁, rfl, hstep⟩
  · rw [hd] at hstep hends
    dsimp only at hstep hends
    rcases hp : Attempt.on (prune r.equate) t₁ with ⟨d | _, t₂⟩
    · rw [hp] at hstep
      exact .inr (.inl ⟨d, t₁, t₂, rfl, hp, hstep⟩)
    · rw [hp] at hstep hends
      obtain ⟨-, hb⟩ | ⟨d, u, hd, -⟩ := hends
      · exact .inr (.inr ⟨t₁, t₂, rfl, hp, hstep, hb.toHas⟩)
      · cases hd

theorem removeEach_settles {t : Table} (ht : t.Sound) (total done : Nat) {refs : List Reference}
    (hrefs : ∀ r ∈ refs, t.store.Refers r) (hnodup : refs.Pairwise (·.id ≠ ·.id)) :
    t.Settles Effect.Plain (Action.on (removeEach total done refs) t).2 := by
  induction refs generalizing t done with
  | nil =>
    rw [removeEach]
    exact Action.Tidy.bind (tidy_advanceMonitor total total) (fun _ => Action.Tidy.pure _) t ht
  -- The induction carries that the references still to come are stored, and that
  -- none comes twice: the one removed here is not among them.
  | cons r rest ih =>
    obtain ⟨hne, hnodup⟩ := List.pairwise_cons.mp hnodup
    rw [removeEach, Action.on_bind]
    have hpoll := ht.has.polled
    cases (Action.on poll t).1 with
    | true => exact .of_keeps hpoll
    | false =>
      rw [if_neg Bool.false_ne_true, Action.on_bind]
      have hkeeps := hpoll.trans (hpoll.toHas.advanced done total)
      generalize (Action.on (advanceMonitor done total) (Action.on poll t).2).2 = t₁ at hkeeps
      have hto : t.Settles Effect.Plain t₁ := .of_keeps hkeeps
      have hr := hrefs r List.mem_cons_self
      rw [Action.on_bind, show Action.on (detach r).run t₁ = Attempt.on (detach r) t₁ from rfl]
      obtain ⟨d, t₂, hd, hs⟩ | ⟨d, t₂, t₃, hd, hp, hs⟩ | ⟨t₂, t₃, hd, hp, hs, hhas⟩ :=
        removal_cases hr hkeeps.toHas
      · rw [hd]
        exact hto.trans hs
      · rw [hd, Action.on_bind, show Action.on (prune r.equate).run t₂ = _ from hp]
        exact hto.trans hs
      · rw [hd, Action.on_bind, show Action.on (prune r.equate).run t₂ = _ from hp]
        refine (hto.trans hs).trans (ih hs.sound (done + 1) (fun r' hr' => ?_) hnodup)
        rw [hhas.store]
        exact refers_after_removal (hrefs r' (List.mem_cons_of_mem r hr')) (hne r' hr').symm

theorem clearWindow_tidy (w : KeyWindow) : Action.Tidy Effect.Plain (clearWindow w) := by
  rw [clearWindow]
  refine Action.Tidy.bind (tidy_tellMonitor _) fun _ t ht => ?_
  rw [Action.on_bind, show Action.on (Cursor.gather fetchAt [w]).run t =
    Attempt.on (Cursor.gather fetchAt [w]) t from rfl]
  obtain ⟨hk, hr⟩ := Cursor.gather_on (fetchAt_enacts t.store) ht.has [w]
  have hto : t.Settles Effect.Plain (Attempt.on (Cursor.gather fetchAt [w]) t).2 := .of_keeps hk
  obtain ⟨hr, -⟩ | ⟨hr, -⟩ | ⟨d, hr, -⟩ := hr
  · rw [hr]
    exact hto
  · rw [hr]
    refine hto.trans (removeEach_settles hk.sound _ 0 ?_ ?_)
    · rw [hk.store]
      exact fun r hr => refers_of_mem_window ht.store hr
    · exact nodup_references_window ht.store w
  · rw [hr]
    exact hto

theorem clear_tidy (first last : Address) : Action.Tidy Effect.Plain (clear first last) := by
  rw [clear]
  cases KeyWindow.between? first last with
  | none => exact Action.Tidy.pure _
  | some w =>
    refine Action.Tidy.bind (clearWindow_tidy w) fun p => ?_
    obtain ⟨removed, d | outcome⟩ := p
    · refine Action.Tidy.bind (tidy_report d) fun _ => ?_
      exact Action.Tidy.bind (tidy_trace _) fun _ => Action.Tidy.pure _
    · exact Action.Tidy.bind (tidy_trace _) fun _ => Action.Tidy.pure _

/-! ### Moving -/

/-- The rows at an address. -/
def rowsAt (s : Store) (a : Address) : List ReferenceRow :=
  (s.keysAt a).filterMap s.references.get?

theorem mem_rowsAt {s : Store} (hs : s.Sound) {a : Address} {row : ReferenceRow} :
    row ∈ rowsAt s a ↔ row ∈ s.references ∧ a.key? = some row.addressKey := by
  rw [rowsAt, List.mem_filterMap]
  constructor
  · rintro ⟨k, hk, hrow⟩
    obtain ⟨row', hrow', ha⟩ := (Store.mem_keysAt hs).mp hk
    obtain rfl := Option.some.inj (hrow.symm.trans hrow')
    exact ⟨hs.references.mem_of_get? hrow, ha⟩
  · rintro ⟨hrow, ha⟩
    exact ⟨row.id, (Store.mem_keysAt hs).mpr ⟨row, hrow, ha⟩, hrow⟩

/-- No row stands in a window twice. -/
theorem nodup_rows_window {s : Store} (hs : s.Sound) (w : KeyWindow) :
    ((s.addressesAlong [w]).flatMap (rowsAt s)).Pairwise (·.id ≠ ·.id) := by
  refine List.pairwise_flatMap.mpr ⟨fun a _ => ?_, ?_⟩
  · refine (s.keysAt_sorted a).filterMap _ fun k k' hlt row hrow row' hrow' => ?_
    rw [hs.references.id_eq hrow, hs.references.id_eq hrow']
    exact ne_of_lt hlt
  · -- One row stands at one address only.
    refine (s.nodup_addressesAlong w).imp fun hne row hrow row' hrow' hid => hne ?_
    obtain ⟨hrow, ha⟩ := (mem_rowsAt hs).mp hrow
    obtain ⟨hrow', ha'⟩ := (mem_rowsAt hs).mp hrow'
    rw [ReferenceRows.mem_def, hid] at hrow
    obtain rfl := Option.some.inj (hrow.symm.trans hrow')
    exact Address.key?_inj ha ha'

/-- The rows in the window between two addresses stand between them. -/
theorem between_of_mem_rows {s : Store} (hs : s.Sound) {first last : Address} {w : KeyWindow}
    (hw : KeyWindow.between? first last = some w) {row : ReferenceRow}
    (hrow : row ∈ (s.addressesAlong [w]).flatMap (rowsAt s)) :
    row ∈ s.references ∧
      ∃ a, Address.ofKey? row.addressKey = some a ∧ first ≤ a ∧ a ≤ last := by
  obtain ⟨a, ha, hrow⟩ := List.mem_flatMap.mp hrow
  obtain ⟨hmem, hk⟩ := (mem_rowsAt hs).mp hrow
  obtain ⟨k, hk', -, w', hw', hkw⟩ := (Store.mem_addressesAlong hs).mp ha
  obtain rfl := List.mem_singleton.mp hw'
  exact ⟨hmem, a, Address.ofKey?_of_key? hk, (KeyWindow.mem_between? hw hk').mp hkw⟩

/-- The window of a move: `length` addresses, or what is left of the space. -/
theorem between_lastOf_iff {source a : Address} {length : UInt64} (hl : length ≠ 0) :
    source ≤ a ∧ a ≤ lastOf source length ↔
      a.space = source.space ∧ source.offset.toNat ≤ a.offset.toNat ∧
        a.offset.toNat ≤ min (source.offset.toNat + length.toNat - 1) (2 ^ 64 - 1) := by
  have hlength : 0 < length.toNat := Nat.pos_of_ne_zero fun h => hl (UInt64.toNat_inj.mp h)
  have hmax : lastOffset.toNat = 2 ^ 64 - 1 := rfl
  have hsource := source.offset.toNat_lt
  have ha := a.offset.toNat_lt
  have hlen := length.toNat_lt
  rw [Address.le_iff, Address.le_iff, ← UInt16.toNat_inj, lastOf]
  -- The end of the source is cut off at the end of its space, or it is not.
  split
  · next h =>
    rw [UInt64.lt_iff_toNat_lt, UInt64.toNat_sub, UInt64.toNat_sub, hmax, UInt64.toNat_one] at h
    dsimp only
    omega
  · next h =>
    rw [UInt64.lt_iff_toNat_lt, UInt64.toNat_sub, UInt64.toNat_sub, hmax, UInt64.toNat_one] at h
    dsimp only
    rw [UInt64.toNat_add, UInt64.toNat_sub, UInt64.toNat_one]
    omega

/-- What stands at a distance behind the source goes as far behind the target. -/
theorem translate_distance {source target a : Address} {length : UInt64} (hl : length ≠ 0)
    (hfit : ¬ lastOffset - target.offset < length - 1) (hfirst : source ≤ a)
    (hlast : a ≤ lastOf source length) :
    ∃ d < length.toNat, a.space = source.space ∧ a.offset.toNat = source.offset.toNat + d ∧
      (translate source target a).space = target.space ∧
      (translate source target a).offset.toNat = target.offset.toNat + d := by
  obtain ⟨hspace, hle, hlt⟩ := (between_lastOf_iff hl).mp ⟨hfirst, hlast⟩
  have hlength : 0 < length.toNat := Nat.pos_of_ne_zero fun h => hl (UInt64.toNat_inj.mp h)
  have hmax : lastOffset.toNat = 2 ^ 64 - 1 := rfl
  have hsource := source.offset.toNat_lt
  have htarget := target.offset.toNat_lt
  have ha := a.offset.toNat_lt
  have hlen := length.toNat_lt
  rw [UInt64.lt_iff_toNat_lt, UInt64.toNat_sub, UInt64.toNat_sub, hmax, UInt64.toNat_one] at hfit
  refine ⟨a.offset.toNat - source.offset.toNat, by omega, hspace, by omega, rfl, ?_⟩
  rw [translate]
  dsimp only
  rw [UInt64.toNat_add, UInt64.toNat_sub]
  omega

/-- Whatever a move brings to its destination has a key there. -/
theorem mappable_translate {source target a : Address} {length : UInt64} (hl : length ≠ 0)
    (hfit : ¬ lastOffset - target.offset < length - 1) (hlast : (lastOf target length).Mappable)
    (hin : source ≤ a ∧ a ≤ lastOf source length) : (translate source target a).Mappable := by
  obtain ⟨d, hd, -, -, hspace, hoffset⟩ := translate_distance hl hfit hin.1 hin.2
  rw [lastOf, if_neg hfit] at hlast
  obtain ⟨hlastSpace, hlastOffset⟩ := hlast
  refine ⟨hspace ▸ hlastSpace, ?_⟩
  have hlength : 0 < length.toNat := Nat.pos_of_ne_zero fun h => hl (UInt64.toNat_inj.mp h)
  have hmax : lastOffset.toNat = 2 ^ 64 - 1 := rfl
  have htarget := target.offset.toNat_lt
  have hlen := length.toNat_lt
  -- The destination does not wrap, so no offset in it exceeds the last one.
  rw [UInt64.lt_iff_toNat_lt, UInt64.toNat_sub, UInt64.toNat_sub, hmax, UInt64.toNat_one] at hfit
  dsimp only at hlastOffset
  rw [UInt64.toNat_add, UInt64.toNat_sub, UInt64.toNat_one] at hlastOffset
  omega

theorem exists_key?_translate {source target a : Address} {length : UInt64} (hl : length ≠ 0)
    (hfit : ¬ lastOffset - target.offset < length - 1) (hlast : (lastOf target length).Mappable)
    (hin : source ≤ a ∧ a ≤ lastOf source length) :
    ∃ k, (translate source target a).key? = some k :=
  Option.isSome_iff_exists.mp
    (Address.key?_isSome_iff.mpr (mappable_translate hl hfit hlast hin))

section moving

variable {source target : Address} {length : UInt64} {s : Store}

/-- A step of a move rekeys its row, or it breaks off. -/
theorem moveRow_cases {t : Table} (ht : t.Sound) {row : ReferenceRow}
    (hrow : row ∈ t.store.references) (hs : row ∈ s.references) (hl : length ≠ 0)
    (hfit : ¬ lastOffset - target.offset < length - 1) (hlast : (lastOf target length).Mappable)
    {a : Address} (ha : Address.ofKey? row.addressKey = some a) (hin : source ≤ a ∧ a ≤ lastOf source length) :
    t.Settles (Effect.Shifts s source target length) (Attempt.on (moveRow source target row) t).2 ∧
      ((∃ d, (Attempt.on (moveRow source target row) t).1 = .error d) ∨
        ∀ row' ∈ t.store.references, row'.id ≠ row.id →
          row' ∈ (Attempt.on (moveRow source target row) t).2.store.references) := by
  obtain ⟨k, hk⟩ := exists_key?_translate hl hfit hlast hin
  have hm := moveRow_enacts (s := t.store) hrow ha hk
  have hfits : (Effect.rekey row k).Fits [] t.store := ⟨hrow, _, Address.ofKey?_of_key? hk⟩
  refine ⟨Settles.of_enacts hm ht (Store.clears_singleton hfits rfl) fun x hx => ?_, ?_⟩
  · obtain rfl := List.mem_singleton.mp hx
    obtain ⟨d, hd, hspace, hoffset, hto⟩ := translate_distance hl hfit hin.1 hin.2
    exact ⟨hs, a, _, d, ha, hk, hd, ⟨hspace, hoffset⟩, hto⟩
  · obtain ⟨-, hb⟩ | ⟨d, u, hr, -⟩ := hm t ht.has
    · refine .inr fun row' hrow' hne => ?_
      rw [hb.store, Store.after_cons, Store.after_nil, ReferenceRows.mem_def,
        Effect.get?_apply_rekey hfits, if_neg hne]
      exact hrow'
    · exact .inl ⟨d, hr⟩

theorem moveEach_settles (hl : length ≠ 0) (hfit : ¬ lastOffset - target.offset < length - 1)
    (hlast : (lastOf target length).Mappable) {t : Table} (ht : t.Sound) (total done : Nat) {rows : List ReferenceRow}
    (hrows : ∀ row ∈ rows, row ∈ t.store.references ∧ row ∈ s.references ∧
      ∃ a, Address.ofKey? row.addressKey = some a ∧ source ≤ a ∧ a ≤ lastOf source length)
    (hnodup : rows.Pairwise (·.id ≠ ·.id)) :
    t.Settles (Effect.Shifts s source target length)
      (Attempt.on (moveEach source target total done rows) t).2 := by
  induction rows generalizing t done with
  | nil =>
    rw [moveEach]
    exact Tidy.bind (Tidy.lift (tidy_advanceMonitor total total)) (fun _ => Tidy.pure _) t ht
  -- The rows still to come stand where they stood in `s`, since no row comes twice;
  -- so the address that each step translates is the one from before the move.
  | cons row rest ih =>
    obtain ⟨hne, hnodup⟩ := List.pairwise_cons.mp hnodup
    rw [moveEach, on_lift_bind]
    have hpoll := ht.has.polled
    cases (Action.on poll t).1 with
    | true => exact .of_keeps hpoll
    | false =>
      rw [if_neg Bool.false_ne_true, on_lift_bind]
      have hkeeps := hpoll.trans (hpoll.toHas.advanced done total)
      generalize (Action.on (advanceMonitor done total) (Action.on poll t).2).2 = t₁ at hkeeps
      have hto : t.Settles (Effect.Shifts s source target length) t₁ := .of_keeps hkeeps
      obtain ⟨hrow, hs, a, ha, hin⟩ := hrows row List.mem_cons_self
      rw [← hkeeps.store] at hrow
      obtain ⟨hstep, hrest⟩ := moveRow_cases hkeeps.sound hrow hs hl hfit hlast ha hin
      rw [on_bind]
      rcases hrun : Attempt.on (moveRow source target row) t₁ with ⟨d | _, t₂⟩
      · rw [hrun] at hstep
        exact hto.trans hstep
      · rw [hrun] at hstep hrest
        have hrest := hrest.resolve_left (by rintro ⟨d, ⟨⟩⟩)
        refine (hto.trans hstep).trans (ih hstep.sound (done + 1) (fun row' hrow' => ?_) hnodup)
        obtain ⟨hmem, hs', hplace⟩ := hrows row' (List.mem_cons_of_mem row hrow')
        rw [← hkeeps.store] at hmem
        exact ⟨hrest row' hmem (hne row' hrow').symm, hs', hplace⟩

theorem visitRows_enacts (s : Store) (a : Address) :
    Attempt.Enacts (do fetchRows (← keysAt a)) s [] (.ok (rowsAt s a)) :=
  Enacts.bind_read (keysAt_enacts s a) (fetchRows_enacts s _)

theorem moveWindow_settles (hl : length ≠ 0) (hfit : ¬ lastOffset - target.offset < length - 1)
    (hlast : (lastOf target length).Mappable) {t : Table} (ht : t.Has s) {w : KeyWindow}
    (hw : KeyWindow.between? source (lastOf source length) = some w) :
    t.Settles (Effect.Shifts s source target length)
      (Attempt.on (moveWindow source target w) t).2 := by
  obtain rfl := ht.store
  rw [moveWindow, on_lift_bind]
  have htell : t.Keeps t.store (Action.on (tellMonitor "Moving equate references") t).2 :=
    ht.sound.keeps_of_same rfl ht.equateCache ht.referenceCache rfl
  generalize (Action.on (tellMonitor "Moving equate references") t).2 = t₁ at htell
  rw [on_bind]
  obtain ⟨hk, hr⟩ := Cursor.gather_on (visitRows_enacts t.store) htell.toHas [w]
  have hto : t.Settles (Effect.Shifts t.store source target length)
      (Attempt.on (Cursor.gather (fun a => do fetchRows (← keysAt a)) [w]) t₁).2 :=
    .of_keeps (htell.trans hk)
  rcases hrun : Attempt.on (Cursor.gather (fun a => do fetchRows (← keysAt a)) [w]) t₁ with ⟨r, t₂⟩
  rw [hrun] at hk hr hto
  obtain ⟨hr, -⟩ | ⟨hr, -⟩ | ⟨d, hr, -⟩ := hr
  · obtain rfl : r = _ := hr
    exact hto
  · obtain rfl : r = _ := hr
    refine hto.trans (moveEach_settles hl hfit hlast hk.sound _ 0 (fun row hrow => ?_) ?_)
    · obtain ⟨hmem, hplace⟩ := between_of_mem_rows ht.store_sound hw hrow
      exact ⟨hk.store ▸ hmem, hmem, hplace⟩
    · exact nodup_rows_window ht.store_sound w
  · obtain rfl : r = _ := hr
    exact hto

/-- Looking at the destination changes nothing, and one that wraps or that has an end without a
key is refused. -/
theorem checkDestination_on (target : Address) (length : UInt64) (t : Table) :
    (Attempt.on (checkDestination target length) t).2 = t ∧
      ∀ u, (Attempt.on (checkDestination target length) t).1 = .ok u →
        ¬ lastOffset - target.offset < length - 1 ∧ (lastOf target length).Mappable := by
  rw [checkDestination]
  split
  · exact ⟨rfl, fun u hu => by cases hu⟩
  · next hfit =>
    split
    · next hm => exact ⟨rfl, fun _ _ => ⟨hfit, hm.2⟩⟩
    · exact ⟨rfl, fun u hu => by cases hu⟩

theorem relocate_settles {t : Table} (ht : t.Has s) :
    t.Settles (Effect.Shifts s source target length)
      (Attempt.on (relocate source target length) t).2 := by
  by_cases hl : length = 0
  · rw [relocate, if_pos hl]
    exact .refl ht.sound
  · rw [relocate, if_neg hl]
    obtain ⟨hsame, hchecked⟩ := checkDestination_on target length t
    refine Tidy.bind_settles_of (hsame.symm ▸ .refl ht.sound) fun _ hok => ?_
    rw [hsame]
    have hdrop : t.Settles (Effect.Shifts s source target length)
        (Action.on dropReferenceCache t).2 := tidy_dropReferenceCache t ht.sound
    refine Tidy.bind_settles_of (m := liftM dropReferenceCache) hdrop fun _ _ => ?_
    cases hw : KeyWindow.between? source (lastOf source length) with
    | none => exact .refl hdrop.sound
    | some w =>
      obtain ⟨hfit, hlast⟩ := hchecked _ hok
      exact moveWindow_settles hl hfit hlast ⟨hdrop.sound, ht.store⟩ hw

theorem move_settles {t : Table} (ht : t.Has s) :
    t.Settles (Effect.Shifts s source target length)
      (Attempt.on (move source target length) t).2 := by
  have hdrop : t.Settles (Effect.Shifts s source target length)
      (Action.on dropEquateCache t).2 := tidy_dropEquateCache t ht.sound
  have hstep : (Action.on dropEquateCache t).2.Settles (Effect.Shifts s source target length)
      (Attempt.on (relocate source target length) (Action.on dropEquateCache t).2).2 :=
    relocate_settles ⟨hdrop.sound, ht.store⟩
  rw [move, on_lift_bind]
  refine hdrop.trans (Tidy.bind_settles (Tidy.tryCatch_settles hstep fun d => ?_) fun outcome => ?_)
  · cases hd : d.isStorageFailure with
    | true => exact Tidy.bind (Tidy.lift (tidy_report d)) fun _ => Tidy.pure _
    | false => exact Tidy.throw_bind d _
  · exact Tidy.bind (Tidy.lift (tidy_trace _)) fun _ => Tidy.pure outcome

end moving

/-! ### Annotation -/

theorem scanTable_tidy (listing : Listing) (registry : TypeRegistry) (set : AddressSet)
    (type : EnumType) (parts : Bool) :
    Action.Tidy Effect.Plain (scanTable listing registry set type parts) := by
  intro t ht
  have hbind : ∀ (_ : TypeRegistry) b (c : Table), c.Sound →
      c.Settles Effect.Plain ((bindOperand b).run.run c).2 := fun _ b => bindOperand_tidy b
  -- The scan only ever touches the table by binding operands, one after the other.
  have hleads := Scan.run_leads (R := fun c c' => c.Sound → c.Settles Effect.Plain c')
    (fun _ hc => .refl hc) (fun _ _ _ h h' hc => (h hc).trans (h' (h hc).sound)) hbind
    listing set type parts { monitor := t.monitor, registry, client := t } ht
  refine hleads.trans (.of_keeps ?_)
  have hs := hleads.sound
  exact hs.keeps_of_same rfl hs.equateCache hs.referenceCache rfl

theorem annotate_tidy (set : AddressSet) (type : EnumType) (parts : Bool) :
    Attempt.Tidy Effect.Plain (annotate set type parts) := by
  rw [annotate]
  refine Tidy.bind (m := get) (fun _ ht => .refl ht) fun t => ?_
  split
  · next listing registry _ =>
    dsimp only
    split
    · refine Tidy.bind (Tidy.lift (scanTable_tidy listing registry set type parts)) fun p => ?_
      obtain ⟨d | outcome, visited, bound⟩ := p
      · dsimp only
        split
        · refine Tidy.bind (Tidy.lift (tidy_report d)) fun _ => ?_
          exact Tidy.bind (Tidy.lift (tidy_trace _)) fun _ => Tidy.pure _
        · exact Tidy.throw_bind d _
      · exact Tidy.bind (Tidy.lift (tidy_trace _)) fun _ => Tidy.pure _
    · exact Tidy.throw_bind _ _
  · exact Tidy.refuse _

end Table

/-! ### Requests -/

/-- The effects that a request may perform on a table with the store `s`. -/
def Request.Allows (s : Store) : Request → Effect → Prop
  | remove _ => Effect.Removes
  | rename .. => Effect.Renames
  | move source target length => Effect.Shifts s source target length
  | _ => Effect.Plain

/-- What an attempt with this result answers. -/
def Attempt.reply {α : Type} (f : α → Answer) : Except Diagnostic α → Answer
  | .ok a => f a
  | .error d => .failed d

theorem Attempt.on_answer {α : Type} (m : Attempt α) (f : α → Answer) (t : Table) :
    Action.on (m.answer f) t = (Attempt.reply f (Attempt.on m t).1, (Attempt.on m t).2) := by
  rw [Attempt.answer, Action.on_bind, Attempt.on]
  cases (Action.on m.run t).1 with
  | ok a => rfl
  | error d => rfl

/-- What has not failed in storage is not reported. -/
theorem Attempt.on_reportingFailure {α : Type} {m : Attempt α} {t : Table}
    (h : ∀ d, (Attempt.on m t).1 = .error d → d.isStorageFailure = false) :
    Attempt.on m.reportingFailure t = Attempt.on m t := by
  rw [Attempt.reportingFailure, on_tryCatch]
  rcases hrun : Attempt.on m t with ⟨d | a, t'⟩
  · dsimp only
    rw [h d (congrArg Prod.fst hrun)]
    rfl
  · rfl

/-- Where no storage call fails, the result is answered. -/
theorem Attempt.Enacts.on_orElseReport {α : Type} {m : Attempt α} {s : Store} {l : List Effect}
    {a : α} (hm : Attempt.Enacts m s l (.ok a)) {t : Table} (ht : t.Has s) (hp : t.plan = .none)
    (fallback : α) : (Action.on (m.orElseReport fallback) t).1 = a ∧
      t.Becomes (s.after l) (Action.on (m.orElseReport fallback) t).2 := by
  obtain ⟨hr, hb⟩ := (hm t ht).run hp
  rw [Attempt.orElseReport, Action.on_bind, show (Action.on m.run t).1 = .ok a from hr]
  exact ⟨rfl, hb⟩

theorem Attempt.Tidy.answer {α : Type} {P : Effect → Prop} {m : Attempt α}
    (hm : Attempt.Tidy P m) (f : α → Answer) : Action.Tidy P (m.answer f) := by
  intro t ht
  rw [Attempt.on_answer]
  exact hm t ht

/-- A request performs effects of its kinds in order; where no storage call fails, it
leaves no debt. -/
theorem Request.run_settles (q : Request) {t : Table} (ht : t.Sound) :
    t.Settles (q.Allows t.store) (Action.on q.run t).2 := by
  cases q with
  | define name value => exact (Table.define_tidy name value).answer .equate t ht
  | ensure name value => exact (Table.obtain_tidy name value).reportingFailure.answer .equate t ht
  | equateNamed name => exact Table.equateNamed_tidy name t ht
  | equateWithId id => exact Table.equateWithId_tidy id t ht
  | equateAt a operand value =>
    exact (Action.Tidy.bind (Table.equatesAt_tidy a operand) fun l => Action.Tidy.pure _) t ht
  | equatesAt a operand => exact Table.equatesAt_tidy a operand t ht
  | allEquates => exact Table.allEquates_tidy t ht
  | equatesWithValue value => exact Table.equatesWithValue_tidy value t ht
  | referencesAt a => exact Table.referencesAt_tidy a t ht
  | referencesTo id => exact Table.referencesTo_tidy id t ht
  | countReferences id => exact Table.countReferences_tidy id t ht
  | step walk => exact .of_keeps (walk.next_keeps ht.has)
  | drain walk => exact .of_keeps (walk.drain_keeps ht.has)
  | attach id a operand hash =>
    exact (Table.fillSlot_tidy id a operand hash).reportingFailure.answer .reference t ht
  | detachOperand id a operand => exact (Table.emptySlot_tidy id _).orElseReport false t ht
  | detachHash id a hash => exact (Table.emptySlot_tidy id _).orElseReport false t ht
  | remove name => exact (Table.eraseNamed_tidy name).orElseReport false t ht
  | rename id name => exact (Table.rename_tidy id name).answer .equate t ht
  | clear first last => exact Table.clear_tidy first last t ht
  | move source target length =>
    have h : t.Settles (Effect.Shifts t.store source target length)
        (Attempt.on (Table.move source target length) t).2 := Table.move_settles ht.has
    show t.Settles _ (Action.on (Attempt.answer _ _) t).2
    rw [Attempt.on_answer]
    exact h
  | annotate set type parts => exact (Table.annotate_tidy set type parts).answer .outcome t ht
  | dropCaches =>
    exact (Action.Tidy.bind (Action.Tidy.bind tidy_dropEquateCache fun _ => tidy_dropReferenceCache)
      fun _ => Action.Tidy.pure _) t ht
  | label name value => exact Table.label_tidy name value t ht

end Equates

/-
Refusals: an operation on a single record that does not succeed leaves no trace.

Such an operation checks and reads before it writes, and a storage call may fail at every one
of these points; then nothing has been written.  An attempt is all or nothing
(`Attempt.AllOrNothing`) if the store and what the table works with are as before wherever it
ends with a diagnostic of the given kinds.  The caches need not be as before: reads have filled
them, and a move empties them before it looks at its destination.  But they cannot be seen
(`Table.Peer`), so nothing that comes later can tell.

* `Attempt.AllOrNothing.read_bind`, `Attempt.AllOrNothing.bind_total` — reads may stand in
  front, and what always succeeds may follow;
* `Request.Aborts` — the diagnostics that tell of an operation without a trace;
* `Session.failed_leaves_no_trace` — behind every session, for every pattern of storage
  failures.
-/
import Equates.Proofs.Failures
import Equates.Proofs.Invisibility

namespace Equates

open Attempt

namespace Attempt

variable {α β : Type}

/-- Where the attempt ends with a diagnostic in `E`, nothing has been done. -/
def AllOrNothing (E : Diagnostic → Prop) (m : Attempt α) : Prop :=
  ∀ t : Table, t.Strict → ∀ d, (Attempt.on m t).1 = .error d → E d →
    t.Becomes t.store (Attempt.on m t).2

/-- The attempt leaves the store and what the table works with alone, however it ends. -/
def Reads (m : Attempt α) : Prop :=
  ∀ t : Table, t.Sound → t.Becomes t.store (Attempt.on m t).2

/-- The handler ends with no other diagnostic than it was given, and it stores nothing. -/
def PassesOn (handler : Diagnostic → Attempt α) : Prop :=
  (∀ d t d', (Attempt.on (handler d) t).1 = .error d' → d' = d) ∧ ∀ d, (handler d).Reads

section rules

variable {m : Attempt α} {f : α → Attempt β} {E : Diagnostic → Prop} {t t' : Table} {s : Store}
  {r : Except Diagnostic α}

theorem Ends.unchanged (h : Attempt.Ends m t (· = s) r s) :
    t.Becomes s (Attempt.on m t).2 := by
  obtain ⟨-, hb⟩ | ⟨d, u, -, rfl, hb, -⟩ := h
  · exact hb
  · exact hb

theorem Enacts.unchanged (hm : Attempt.Enacts m s [] r) (ht : t.Has s) :
    t.Becomes s (Attempt.on m t).2 := by
  have hends : Attempt.Ends m t (· = s) r s := hm.ends ht rfl
  exact hends.unchanged

theorem Reads.of_enacts (h : ∀ s : Store, ∃ r, Attempt.Enacts m s [] r) : Attempt.Reads m := by
  intro t ht
  obtain ⟨r, hm⟩ := h t.store
  exact hm.unchanged ht.has

theorem Table.Strict.of_becomes (ht : t.Strict) (h : t.Becomes s t') : t'.Strict :=
  ⟨h.sound, h.frame.plan ▸ ht.classified⟩

namespace AllOrNothing

/-- An attempt that goes through, or breaks with nothing done. -/
theorem of_ends (h : ∀ t : Table, t.Sound →
    (∃ a s, Attempt.Ends m t (· = t.store) (.ok a) s) ∨ ∃ r, Attempt.Enacts m t.store [] r) :
    Attempt.AllOrNothing E m := by
  intro t ht d hd _
  obtain ⟨a, s, ⟨hr, -⟩ | ⟨d', u, -, rfl, hb, -⟩⟩ | ⟨r, hm⟩ := h t ht.sound
  · rw [hr] at hd
    cases hd
  · exact hb
  · exact hm.unchanged ht.sound.has

/-- An attempt that goes through or breaks may have done a part; but then a storage call has
failed. -/
theorem of_enacts (hE : ∀ d, E d → d.IsRefusal) (h : ∀ s : Store, s.Sound →
    (∃ l a, Attempt.Enacts m s l (.ok a)) ∨ ∃ r, Attempt.Enacts m s [] r) :
    Attempt.AllOrNothing E m := by
  intro t ht d hd hEd
  obtain ⟨l, a, hm⟩ | ⟨r, hm⟩ := h t.store ht.sound.store
  · obtain ⟨hr, -⟩ | ⟨d', u, hr, -, hb, call, rest, fault, -, hfault, rfl⟩ := hm t ht.sound.has
    · rw [hr] at hd
      cases hd
    · rw [hr] at hd
      cases hd
      rw [hb.frame.plan] at hfault
      exact absurd (ht.classified _ _ _ hfault) (by rw [hE _ hEd]; exact Bool.false_ne_true)
  · exact hm.unchanged ht.sound.has

/-- What follows on a read may rely on the result being one that it has. -/
theorem read_bind_of (hm : Attempt.Reads m)
    (hf : ∀ t a, (Attempt.on m t).1 = .ok a → Attempt.AllOrNothing E (f a)) :
    Attempt.AllOrNothing E (m >>= f) := by
  intro t ht d hd hEd
  have hb := hm t ht.sound
  have hfa := hf t
  rw [on_bind] at hd ⊢
  rcases hrun : Attempt.on m t with ⟨d' | a, t₁⟩
  · rw [hrun] at hb
    exact hb
  · rw [hrun] at hb hd hfa
    have hb' := hfa a rfl t₁ (Table.Strict.of_becomes ht hb) d hd hEd
    rw [hb.store] at hb'
    exact hb.frame.becomes hb'

/-- What was read before changes nothing about what follows. -/
theorem read_bind (hm : Attempt.Reads m) (hf : ∀ a, Attempt.AllOrNothing E (f a)) :
    Attempt.AllOrNothing E (m >>= f) :=
  read_bind_of hm fun _ a _ => hf a

/-- What always succeeds may follow. -/
theorem bind_total (hm : Attempt.AllOrNothing E m)
    (hf : ∀ a t, ∃ b, (Attempt.on (f a) t).1 = .ok b) : Attempt.AllOrNothing E (m >>= f) := by
  intro t ht d hd hEd
  have hmt := hm t ht
  rw [on_bind] at hd ⊢
  rcases hrun : Attempt.on m t with ⟨d' | a, t₁⟩
  · rw [hrun] at hd hmt
    cases hd
    exact hmt d rfl hEd
  · obtain ⟨b, hb⟩ := hf a t₁
    rw [hrun] at hd
    rw [show (Attempt.on (f a) t₁).1 = .error d from hd] at hb
    cases hb

theorem tryCatch {handler : Diagnostic → Attempt α} (hm : Attempt.AllOrNothing E m)
    (hh : Attempt.PassesOn handler) : Attempt.AllOrNothing E (tryCatch m handler) := by
  intro t ht d hd hEd
  have hmt := hm t ht
  rw [on_tryCatch] at hd ⊢
  rcases hrun : Attempt.on m t with ⟨d' | a, t₁⟩
  · rw [hrun] at hd hmt
    obtain rfl := hh.1 d' t₁ d hd
    have hb := hmt d rfl hEd
    have hb' := hh.2 d t₁ hb.sound
    rw [hb.store] at hb'
    exact hb.frame.becomes hb'
  · rw [hrun] at hd
    cases hd

theorem reportingFailure (hm : Attempt.AllOrNothing E m) :
    Attempt.AllOrNothing E m.reportingFailure := by
  refine hm.tryCatch ⟨fun d t d' hd => ?_, fun d t ht => ?_⟩
  · dsimp only at hd
    split at hd
    · cases hd
      rfl
    · cases hd
      rfl
  · dsimp only
    split
    · exact ht.has.reported d
    · exact ht.has.becomes

end AllOrNothing

theorem Reads.reportingAll (hm : Attempt.Reads m) : Attempt.Reads (Table.reportingAll m) := by
  intro t ht
  have hb := hm t ht
  rw [Table.reportingAll, on_tryCatch]
  rcases hrun : Attempt.on m t with ⟨d | a, t₁⟩
  · rw [hrun] at hb
    exact hb.frame.becomes (hb.toHas.reported d)
  · rw [hrun] at hb
    exact hb

end rules

end Attempt

/-! ### Operations on a single record -/

namespace Table

variable {E : Diagnostic → Prop}

theorem storeEquate_allOrNothing (name : String) (value : Int64) :
    Attempt.AllOrNothing E (storeEquate name value) := by
  refine .of_ends fun t ht => ?_
  by_cases h : (Effect.define name value).Fits [] t.store
  · exact .inl ⟨_, _, storeEquate_ends ht.has h⟩
  · obtain ⟨d, hd⟩ := storeEquate_refuses h
    exact .inr ⟨_, hd⟩

theorem relabel_allOrNothing (id : Key) (name : String) :
    Attempt.AllOrNothing E (relabel id name) := by
  refine .of_ends fun t ht => ?_
  by_cases h : ∃ e ∈ t.store.equates, e.id = id ∧ (Effect.relabel e name).Fits [] t.store
  · obtain ⟨e, -, rfl, h⟩ := h
    exact .inl ⟨_, _, relabel_ends ht.has h⟩
  · exact .inr (relabel_refuses ht.store fun e he hid hfits => h ⟨e, he, hid, hfits⟩)

theorem fillSlot_allOrNothing (hE : ∀ d, E d → d.IsRefusal) (id : Key) (a : Address)
    (operand : Int) (hash : UInt64) : Attempt.AllOrNothing E (fillSlot id a operand hash) := by
  refine .of_enacts hE fun s hs => ?_
  by_cases h : (0 ≤ operand ∧ operand ≤ maxOperand) ∧ (s.equates.get? id).isSome ∧ a.Mappable
  · obtain ⟨hop, he, ha⟩ := h
    obtain ⟨e, he⟩ := Option.isSome_iff_exists.mp he
    obtain rfl := hs.equates.id_eq he
    exact .inl ⟨_, _, fillSlot_enacts hs he ha hop hash⟩
  · obtain ⟨p, -, hd⟩ := fillSlot_refuses h
    exact .inr ⟨_, hd⟩

theorem define_allOrNothing (name : String) (value : Int64) :
    Attempt.AllOrNothing E (define name value) := by
  rw [define]
  exact (storeEquate_allOrNothing name value).reportingFailure.bind_total fun e t => ⟨e, rfl⟩

theorem obtain_allOrNothing (name : String) (value : Int64) :
    Attempt.AllOrNothing E (obtain name value) := by
  rw [Table.obtain]
  refine .read_bind (.of_enacts fun s => ⟨_, fetchNamed_enacts s name⟩) fun e? => ?_
  cases e? with
  | some e => exact .of_ends fun t ht => .inl ⟨e, _, Ends.pure ht.has e⟩
  | none => exact (storeEquate_allOrNothing name value).bind_total fun e t => ⟨e, rfl⟩

theorem rename_allOrNothing (id : Key) (name : String) :
    Attempt.AllOrNothing E (rename id name) := by
  rw [rename]
  have hread : Attempt.Reads (fetchEquate id) := .of_enacts fun s => ⟨_, fetchEquate_enacts s id⟩
  refine .read_bind hread.reportingAll fun e? => ?_
  refine (relabel_allOrNothing id name).reportingFailure.bind_total fun e t => ⟨e, ?_⟩
  cases e? with
  | none => rfl
  | some old =>
    dsimp only
    split
    · rfl
    · rfl

/-! ### Moves -/

theorem checkDestination_reads (target : Address) (length : UInt64) :
    Attempt.Reads (checkDestination target length) := by
  intro t ht
  rw [(checkDestination_on target length t).1]
  exact ht.has.becomes

/-- A move is refused for its destination only, before it goes through any record. -/
theorem relocate_allOrNothing (hE : ∀ d, E d → d.IsRefusal) (source target : Address)
    (length : UInt64) : Attempt.AllOrNothing E (relocate source target length) := by
  rw [relocate]
  split
  · exact .of_ends fun t ht => .inl ⟨_, _, Ends.pure ht.has _⟩
  · next hl =>
    refine .read_bind_of (checkDestination_reads target length) fun t u hok t₁ ht₁ d hd hEd => ?_
    -- Behind the check nothing is refused: what was found in the source fits.
    obtain ⟨-, hchecked⟩ := checkDestination_on target length t
    rw [on_lift_bind] at hd
    have hdrop : (Action.on dropReferenceCache t₁).2.Strict :=
      ⟨(Action.reports_dropReferenceCache t₁).2.2 ht₁.sound, ht₁.classified⟩
    generalize (Action.on dropReferenceCache t₁).2 = t₂ at hd hdrop
    cases hw : KeyWindow.between? source (lastOf source length) with
    | none =>
      rw [hw] at hd
      cases hd
    | some w =>
      rw [hw] at hd
      have hmove : Action.Halts 0 (Concludes fun _ => False) BreaksWith
          (moveWindow source target w).run t₂ :=
        moveWindow_halts hl (hchecked u hok).1 (hchecked u hok).2 hdrop hw
      obtain ⟨⟨hr, -⟩, -⟩ | ⟨d', ⟨hr, hclass⟩, -⟩ := hmove
      · exact (hr d hd).elim
      · cases hd.symm.trans hr
        rw [hE d hEd] at hclass
        cases hclass

theorem move_allOrNothing (hE : ∀ d, E d → d.IsRefusal) (source target : Address)
    (length : UInt64) : Attempt.AllOrNothing E (move source target length) := by
  rw [move]
  have hdrop : Attempt.Reads (liftM dropEquateCache) := fun t ht =>
    ⟨⟨⟨ht.store, t.equateCache.agrees_clear _, ht.referenceCache, ht.loud⟩, rfl⟩,
      ⟨rfl, rfl, rfl, rfl⟩⟩
  refine .read_bind hdrop fun _ => ?_
  refine .bind_total (.tryCatch (relocate_allOrNothing hE source target length) ?_) fun o t =>
    ⟨o, rfl⟩
  refine ⟨fun d t d' hd => ?_, fun d t ht => ?_⟩
  · dsimp only at hd
    split at hd
    · cases hd
    · cases hd
      rfl
  · dsimp only
    split
    · exact ht.has.reported d
    · exact ht.has.becomes

end Table

/-! ### Requests -/

/-- The diagnostics with which the request ends only where it has done nothing. -/
def Request.Aborts : Request → Diagnostic → Prop
  | define .., _ | ensure .., _ | rename .., _ => True
  | attach .., d | move .., d => d.code = .invalidArgument
  | _, _ => False

/-- An attempt that is all or nothing, as it answers. -/
theorem Attempt.AllOrNothing.answer {α : Type} {E : Diagnostic → Prop} {m : Attempt α}
    (hm : Attempt.AllOrNothing E m) {f : α → Answer} (hf : ∀ a d, f a ≠ .failed d) {t : Table}
    (ht : t.Strict) {d : Diagnostic} (hd : (Action.on (m.answer f) t).1 = .failed d) (hEd : E d) :
    t.Becomes t.store (Action.on (m.answer f) t).2 := by
  rw [Attempt.on_answer] at hd ⊢
  have hmt := hm t ht
  rcases hrun : Attempt.on m t with ⟨d' | a, t₁⟩
  · rw [hrun] at hd hmt
    cases hd
    exact hmt d rfl hEd
  · rw [hrun] at hd
    exact absurd hd (hf a d)

theorem Request.becomes_of_aborts {q : Request} {t : Table} (ht : t.Strict) {d : Diagnostic}
    (hd : (Action.on q.run t).1 = .failed d) (hq : q.Aborts d) :
    t.Becomes t.store (Action.on q.run t).2 := by
  have hcode : ∀ d : Diagnostic, d.code = .invalidArgument → d.IsRefusal := by
    intro d hd
    rw [Diagnostic.IsRefusal, Diagnostic.isStorageFailure, hd]
    rfl
  cases q with
  | define name value =>
    exact (Table.define_allOrNothing name value).answer (fun _ _ => Answer.noConfusion) ht hd hq
  | ensure name value =>
    have h := (Table.obtain_allOrNothing (E := fun _ => True) name value).reportingFailure
    exact h.answer (fun _ _ => Answer.noConfusion) ht hd hq
  | rename id name =>
    exact (Table.rename_allOrNothing id name).answer (fun _ _ => Answer.noConfusion) ht hd hq
  | attach id a operand hash =>
    have h := (Table.fillSlot_allOrNothing hcode id a operand hash).reportingFailure
    exact h.answer (fun _ _ => Answer.noConfusion) ht hd hq
  | move source target length =>
    exact (Table.move_allOrNothing hcode source target length).answer
      (fun _ _ => Answer.noConfusion) ht hd hq
  | _ => exact hq.elim

/-! ### Sessions -/

namespace Table

/-- A sound table is ready once every storage call goes through. -/
theorem Sound.ready_none {t : Table} (ht : t.Sound) : Table.Ready { t with plan := .none } :=
  ⟨ht.equip FaultPlan.loud_none t.listing t.registry, rfl⟩

/-- A table that has become another one by reading only is a peer of it, once every storage
call goes through. -/
theorem Becomes.peer_none {t t' : Table} (ht : t.Sound) (h : t.Becomes t.store t') :
    Table.Peer { t' with plan := .none } { t with plan := .none } := by
  have he : t'.equates = t.equates := h.equates
  have hr : t'.references = t.references := h.references
  refine ⟨h.sound.ready_none, ht.ready_none, ?_⟩
  simp only [Table.idle, Table.bare, he, hr, h.frame.listing, h.frame.registry]

/-- What a step starts with is its own. -/
theorem Ready.peer_start {t : Table} (ht : t.Ready) (x : Step) : (x.start t).Peer t :=
  ⟨ht.start x, ht, rfl⟩

end Table

namespace Session

/-- Peers stay peers when the same steps are carried out on both. -/
theorem peer_play_both {t₁ t₂ : Table} (h : t₁.Peer t₂) (l : List Step) :
    (play t₁ l).Peer (play t₂ l) := by
  induction l generalizing t₁ t₂ with
  | nil => exact h
  | cons x l ih => exact ih (x.shown_eq h).2

/-- Behind every session, and whichever storage calls fail from then on with the diagnostic
of a storage failure: if a step on a single record ends with a diagnostic with which it aborts,
both tables are as they were and no change was made known, and whatever is carried out later
without failures answers as if the step had never been made. -/
theorem failed_leaves_no_trace {t : Table} (ht : Reached t) {plan : FaultPlan}
    (hloud : plan.Loud) (hclassified : plan.Classified) {x : Step} {d : Diagnostic}
    (hd : x.answer { t with plan } = .failed d) (hx : x.request.Aborts d) :
    (x.behind { t with plan }).equates = t.equates ∧
      (x.behind { t with plan }).references = t.references ∧
      x.changes { t with plan } = [] ∧
      ∀ (l : List Step) (y : Step),
        y.answer (play { x.behind { t with plan } with plan := .none } l) =
          y.answer (play { t with plan := .none } l) := by
  have hs := ht.sound
  have hplanned : Table.Sound { t with plan } :=
    hs.equip hloud t.listing t.registry
  have hstrict : Table.Strict (x.start { t with plan }) :=
    ⟨x.sound_start hplanned, hclassified⟩
  have hb : (x.start { t with plan }).Becomes _ (x.behind { t with plan }) :=
    Request.becomes_of_aborts hstrict hd hx
  refine ⟨hb.equates, hb.references, congrArg List.reverse hb.changes, fun l y => ?_⟩
  -- Only the caches and the calls may differ, and what the step itself was shown.
  have hpeer : Table.Peer { x.behind { t with plan } with plan := .none }
      { t with plan := .none } :=
    (hb.peer_none hstrict.sound).trans (hs.ready_none.peer_start x)
  exact congrArg Step.Shown.answer (y.shown_eq (peer_play_both hpeer l)).1

/-- No name is ever overwritten. -/
def failingRenaming : FaultPlan := fun _ call =>
  if call = .equates .update then some { diagnostic := .error .storageFailure "no update" }
  else none

/-- A renaming that storage refuses, behind which the equate is cached. -/
def refusedRenaming : Step := ⟨{}, .rename 1 "three"⟩

theorem failed_leaves_no_trace_refusedRenaming :
    Reached oneUsed ∧ failingRenaming.Loud ∧ failingRenaming.Classified ∧
      refusedRenaming.answer { oneUsed with plan := failingRenaming } =
        .failed (.error .storageFailure "no update") ∧
      refusedRenaming.changes { oneUsed with plan := failingRenaming } = [] ∧
      Step.answer ⟨{}, .equateNamed "three"⟩
          { refusedRenaming.behind { oneUsed with plan := failingRenaming } with plan := .none } =
        .equate? none := by
  have ht : Reached oneUsed := ⟨.none, FaultPlan.loud_none, 1, 0, none, none, _, rfl⟩
  have hloud : failingRenaming.Loud := FaultPlan.loud_ite _ _
  have hclassified : failingRenaming.Classified := FaultPlan.classified_ite _ rfl
  have hanswer : refusedRenaming.answer { oneUsed with plan := failingRenaming } =
      .failed (.error .storageFailure "no update") := by
    decide +kernel
  obtain ⟨-, -, hchanges, hlater⟩ :=
    failed_leaves_no_trace ht hloud hclassified hanswer trivial
  refine ⟨ht, hloud, hclassified, hanswer, hchanges, ?_⟩
  rw [show ({ refusedRenaming.behind { oneUsed with plan := failingRenaming } with
    plan := .none } : Table) = play _ [] from rfl, hlater]
  decide +kernel

end Session

end Equates

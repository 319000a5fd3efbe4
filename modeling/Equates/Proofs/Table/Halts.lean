/-
Operations that halt at the first storage call that fails.

Between two tables storage calls may have been made and failures may have been reported.
`Table.Flows t t'` says that all these calls went through and nothing was reported;
`Table.Stops t d n t'` that the last of the calls failed, as planned and with the
diagnostic `d`, that no other did, and that just `d` was reported, `n` times.

An action halts (`Action.Halts`) if from a given table on it does one or the other, with an
answer to match.  An attempt that halts breaks off with the diagnostic of the failing call,
and its own refusals come without a failing call.  An operation is prompt
(`Action.Prompt`, `Attempt.Prompt`) if it halts on every sound table whose faults are
storage failures.

* `Action.Halts.bind`, `Action.Prompt.bind` — the one rule that all others come from: what
  follows on a failing call makes no further call, and may report the failure;
* `Attempt.Prompt.orElseReport`, `Attempt.Prompt.reportingFailure` — a failure that was not
  reported yet is reported at the border of the table.
-/
import Equates.Table.Edit
import Equates.Proofs.Table.Settles

namespace Equates

open Attempt

/-- Every fault is a storage failure. -/
def FaultPlan.Classified (plan : FaultPlan) : Prop :=
  ∀ calls call fault, plan calls call = some fault → fault.diagnostic.isStorageFailure

theorem FaultPlan.classified_none : FaultPlan.none.Classified := by
  intro calls call fault h
  cases h

/-- A plan that fails some calls with one diagnostic. -/
theorem FaultPlan.classified_ite (p : List CallRecord → StorageCall → Prop)
    [∀ calls call, Decidable (p calls call)] {d : Diagnostic} (hd : d.isStorageFailure = true) :
    FaultPlan.Classified fun calls call =>
      if p calls call then some { diagnostic := d } else Option.none := by
  intro calls call fault h
  dsimp only at h
  split at h
  · cases h
    exact hd
  · cases h

namespace Table

/-- The failures that were handed to the error handler, newest first. -/
def reported (t : Table) : List Diagnostic :=
  t.journal.filterMap Entry.failure?

/-- The table is sound, and whatever fails on it is a storage failure. -/
structure Strict (t : Table) : Prop where
  sound : t.Sound
  classified : t.plan.Classified

/-- No storage call was made, and just the diagnostics `l` were reported. -/
structure Adds (l : List Diagnostic) (t t' : Table) : Prop where
  plan : t'.plan = t.plan
  calls : t'.calls = t.calls
  reported : t'.reported = l ++ t.reported

/-- Every storage call went through, and nothing was reported. -/
structure Flows (t t' : Table) : Prop where
  plan : t'.plan = t.plan
  calls : ∃ made : List CallRecord, t'.calls = made ++ t.calls ∧ ∀ c ∈ made, c.failure = none
  reported : t'.reported = t.reported

/-- The last storage call, and no other, failed as planned with the diagnostic `d`, which
was reported `n` times. -/
structure Stops (t : Table) (d : Diagnostic) (n : Nat) (t' : Table) : Prop where
  plan : t'.plan = t.plan
  calls : ∃ (call : StorageCall) (made : List CallRecord) (fault : Fault),
    t'.calls = ⟨call, some d⟩ :: (made ++ t.calls) ∧ (∀ c ∈ made, c.failure = none) ∧
      t.plan (made ++ t.calls) call = some fault ∧ fault.diagnostic = d
  reported : t'.reported = List.replicate n d ++ t.reported

variable {t t₁ t₂ : Table} {d : Diagnostic} {n : Nat} {l l' : List Diagnostic}

theorem Adds.refl (t : Table) : t.Adds [] t := ⟨rfl, rfl, rfl⟩

theorem Adds.trans (h : t.Adds l t₁) (h' : t₁.Adds l' t₂) : t.Adds (l' ++ l) t₂ where
  plan := h'.plan.trans h.plan
  calls := h'.calls.trans h.calls
  reported := by rw [h'.reported, h.reported, List.append_assoc]

theorem Adds.flows (h : t.Adds [] t₁) : t.Flows t₁ :=
  ⟨h.plan, ⟨[], h.calls, List.forall_mem_nil _⟩, h.reported⟩

theorem Flows.refl (t : Table) : t.Flows t := (Adds.refl t).flows

theorem Flows.trans (h : t.Flows t₁) (h' : t₁.Flows t₂) : t.Flows t₂ := by
  obtain ⟨made, hcalls, hmade⟩ := h.calls
  obtain ⟨made', hcalls', hmade'⟩ := h'.calls
  refine ⟨h'.plan.trans h.plan, ⟨made' ++ made, ?_, ?_⟩, h'.reported.trans h.reported⟩
  · rw [hcalls', hcalls, List.append_assoc]
  · exact List.forall_mem_append.mpr ⟨hmade', hmade⟩

/-- A failing call may come behind calls that went through. -/
theorem Flows.stops (h : t.Flows t₁) (h' : t₁.Stops d n t₂) : t.Stops d n t₂ := by
  obtain ⟨made, hcalls, hmade⟩ := h.calls
  obtain ⟨call, made', fault, hcalls', hmade', hfault, hd⟩ := h'.calls
  rw [hcalls, ← List.append_assoc] at hcalls' hfault
  rw [h.plan] at hfault
  refine ⟨h'.plan.trans h.plan, ⟨call, made' ++ made, fault, hcalls', ?_, hfault, hd⟩, ?_⟩
  · exact List.forall_mem_append.mpr ⟨hmade', hmade⟩
  · rw [h'.reported, h.reported]

/-- Behind the failing call the failure may be reported. -/
theorem Stops.adds {j : Nat} (h : t.Stops d n t₁) (h' : t₁.Adds (List.replicate j d) t₂) :
    t.Stops d (n + j) t₂ where
  plan := h'.plan.trans h.plan
  calls := h'.calls ▸ h.calls
  reported := by
    rw [h'.reported, h.reported, ← List.append_assoc, List.replicate_append_replicate, add_comm]

/-- Where no fault is planned, no operation stops. -/
theorem not_stops_of_none (ht : t.plan = .none) : ¬ t.Stops d n t₁ := by
  intro h
  obtain ⟨call, made, fault, -, -, hfault, -⟩ := h.calls
  rw [ht] at hfault
  cases hfault

end Table

/-! ### Actions -/

namespace Action

variable {α β : Type}

/-- From `t` on the action makes no failing call and has an answer in `good`, or its last
call fails with a diagnostic `d`, which it has reported `n` times, and then its answer is in
`lost d`. -/
def Halts (n : Nat) (good : α → Prop) (lost : Diagnostic → α → Prop) (m : Action α) (t : Table) :
    Prop :=
  (good (Action.on m t).1 ∧ t.Flows (Action.on m t).2) ∨
    ∃ d, lost d (Action.on m t).1 ∧ t.Stops d n (Action.on m t).2

/-- On strict tables the action halts and leaves them strict. -/
def Prompt (n : Nat) (good : α → Prop) (lost : Diagnostic → α → Prop) (m : Action α) : Prop :=
  ∀ t : Table, t.Strict → Action.Halts n good lost m t ∧ (Action.on m t).2.Strict

/-- The action makes no storage call, reports the diagnostics `l` and has an answer in
`good`. -/
def Reports (l : List Diagnostic) (good : α → Prop) (m : Action α) : Prop :=
  ∀ t : Table, good (Action.on m t).1 ∧ t.Adds l (Action.on m t).2 ∧
    (t.Sound → (Action.on m t).2.Sound)

section rules

variable {m : Action α} {f : α → Action β} {n k j : Nat} {l l' : List Diagnostic}
  {good good' : α → Prop} {lost lost' : Diagnostic → α → Prop} {goodβ : β → Prop}
  {lostβ : Diagnostic → β → Prop} {t : Table}

theorem Halts.mono (h : Action.Halts n good lost m t) (hgood : ∀ a, good a → good' a)
    (hlost : ∀ d a, lost d a → lost' d a) : Action.Halts n good' lost' m t := by
  rcases h with ⟨ha, hf⟩ | ⟨d, ha, hs⟩
  · exact .inl ⟨hgood _ ha, hf⟩
  · exact .inr ⟨d, hlost d _ ha, hs⟩

/-- If all calls of the first part go through, the second part has to halt; if one fails,
the second part makes no further call, reports the failure `j` times and passes it on. -/
theorem Halts.bind (hm : Action.Halts k good lost m t)
    (hgood : good (Action.on m t).1 → t.Flows (Action.on m t).2 →
      Action.Halts (k + j) goodβ lostβ (f (Action.on m t).1) (Action.on m t).2)
    (hlost : ∀ d, lost d (Action.on m t).1 →
      Action.Reports (List.replicate j d) (lostβ d) (f (Action.on m t).1)) :
    Action.Halts (k + j) goodβ lostβ (m >>= f) t := by
  rw [Halts, Action.on_bind]
  obtain ⟨ha, hf⟩ | ⟨d, ha, hs⟩ := hm
  · exact Or.imp (And.imp_right hf.trans) (Exists.imp fun _ => And.imp_right hf.stops)
      (hgood ha hf)
  · obtain ⟨hb, hadds, -⟩ := hlost d ha (Action.on m t).2
    exact .inr ⟨d, hb, hs.adds hadds⟩

/-- A step without storage calls may stand in front. -/
theorem Halts.after (hm : t.Adds [] (Action.on m t).2)
    (hf : Action.Halts n goodβ lostβ (f (Action.on m t).1) (Action.on m t).2) :
    Action.Halts n goodβ lostβ (m >>= f) t := by
  rw [Halts, Action.on_bind]
  exact Or.imp (And.imp_right hm.flows.trans)
    (Exists.imp fun _ => And.imp_right hm.flows.stops) hf

protected theorem Prompt.bind (hm : Action.Prompt k good lost m)
    (hgood : ∀ a, good a → Action.Prompt (k + j) goodβ lostβ (f a))
    (hlost : ∀ d a, lost d a → Action.Reports (List.replicate j d) (lostβ d) (f a)) :
    Action.Prompt (k + j) goodβ lostβ (m >>= f) := by
  intro t ht
  obtain ⟨hm, hs⟩ := hm t ht
  refine ⟨hm.bind (fun ha _ => (hgood _ ha _ hs).1) fun d ha => hlost d _ ha, ?_⟩
  rw [Action.on_bind]
  obtain ⟨ha, -⟩ | ⟨d, ha, -⟩ := hm
  · exact (hgood _ ha _ hs).2
  · obtain ⟨-, hadds, hsound⟩ := hlost d _ ha (Action.on m t).2
    exact ⟨hsound hs.sound, hadds.plan ▸ hs.classified⟩

/-- An action that reports nothing halts. -/
theorem Reports.halts (h : Action.Reports [] good m) : Action.Halts n good lost m t :=
  .inl ⟨(h t).1, (h t).2.1.flows⟩

theorem Reports.prompt (h : Action.Reports [] good m) : Action.Prompt n good lost m :=
  fun t ht => ⟨h.halts, (h t).2.2 ht.sound, (h t).2.1.plan ▸ ht.classified⟩

/-- A step without storage calls may stand in front. -/
theorem Prompt.after (hm : Action.Reports [] good m)
    (hf : ∀ a, good a → Action.Prompt n goodβ lostβ (f a)) :
    Action.Prompt n goodβ lostβ (m >>= f) := by
  have hprompt : Action.Prompt n good (fun _ _ => False) m := hm.prompt
  exact Prompt.bind (j := 0) hprompt hf fun _ _ => False.elim

protected theorem Reports.pure {a : α} (ha : good a) : Action.Reports [] good (pure a) :=
  fun t => ⟨ha, .refl t, id⟩

protected theorem Reports.bind (hm : Action.Reports l good m)
    (hf : ∀ a, good a → Action.Reports l' goodβ (f a)) :
    Action.Reports (l' ++ l) goodβ (m >>= f) := by
  intro t
  obtain ⟨ha, hadds, hs⟩ := hm t
  obtain ⟨hb, hadds', hs'⟩ := hf _ ha (Action.on m t).2
  exact ⟨hb, hadds.trans hadds', hs' ∘ hs⟩

protected theorem Prompt.pure {a : α} (ha : good a) : Action.Prompt n good lost (pure a) :=
  (Reports.pure ha).prompt

end rules

/-! ### Steps without storage calls -/

/-- An entry that is no failure. -/
theorem reports_enter {e : Entry} (he : e.failure? = none) :
    Action.Reports [] (fun _ => True) (enter e) :=
  fun _ => ⟨trivial, ⟨rfl, rfl, List.filterMap_cons_none he⟩, fun h =>
    ⟨⟨h.store.equates, h.store.references, h.store.placed⟩, h.equateCache, h.referenceCache,
      h.loud⟩⟩

theorem reports_trace (line : TraceLine) : Action.Reports [] (fun _ => True) (trace line) :=
  reports_enter rfl

theorem reports_notify (c : Change) : Action.Reports [] (fun _ => True) (notify c) :=
  reports_enter rfl

theorem reports_report (d : Diagnostic) : Action.Reports [d] (fun _ => True) (report d) :=
  fun _ => ⟨trivial, ⟨rfl, rfl, rfl⟩, fun h => (h.has.reported d).sound⟩

theorem reports_poll : Action.Reports [] (fun _ => True) poll :=
  fun _ => ⟨trivial, ⟨rfl, rfl, rfl⟩, fun h => h.has.polled.sound⟩

theorem reports_advanceMonitor (done total : Nat) :
    Action.Reports [] (fun _ => True) (advanceMonitor done total) :=
  fun _ => ⟨trivial, ⟨rfl, rfl, rfl⟩, fun h => (h.has.advanced done total).sound⟩

theorem reports_tellMonitor (message : String) :
    Action.Reports [] (fun _ => True) (tellMonitor message) :=
  fun _ => ⟨trivial, ⟨rfl, rfl, rfl⟩, fun h => ⟨h.store, h.equateCache, h.referenceCache, h.loud⟩⟩

theorem reports_dropEquateCache : Action.Reports [] (fun _ => True) Table.dropEquateCache :=
  fun t => ⟨trivial, ⟨rfl, rfl, rfl⟩, fun h =>
    ⟨h.store, t.equateCache.agrees_clear _, h.referenceCache, h.loud⟩⟩

theorem reports_dropReferenceCache : Action.Reports [] (fun _ => True) Table.dropReferenceCache :=
  fun t => ⟨trivial, ⟨rfl, rfl, rfl⟩, fun h =>
    ⟨h.store, h.equateCache, t.referenceCache.agrees_clear _, h.loud⟩⟩

theorem reports_memberName (id : UInt64) (value : Int64) :
    Action.Reports [] (fun _ => True) (Table.memberName id value) := by
  intro t
  obtain ⟨-, hon⟩ | ⟨r, -, hon⟩ := Table.memberName_cases id value t
  · rw [hon]
    exact ⟨trivial, .refl t, fun h => h⟩
  · rw [hon]
    exact ⟨trivial, ⟨rfl, rfl, rfl⟩, fun h =>
      ⟨h.store, h.equateCache, h.referenceCache, h.loud⟩⟩

end Action

/-! ### Attempts -/

/-- The diagnostic does not speak of a failing storage call. -/
def Diagnostic.IsRefusal (d : Diagnostic) : Prop :=
  d.isStorageFailure = false

namespace Attempt

variable {α β : Type}

/-- If the attempt ends with a diagnostic, this is in `E`. -/
def Refuses (E : Diagnostic → Prop) (r : Except Diagnostic α) : Prop :=
  ∀ d, r = .error d → E d

/-- The attempt ends with the diagnostic of a failing call. -/
def BreaksWith (d : Diagnostic) (r : Except Diagnostic α) : Prop :=
  r = .error d ∧ d.isStorageFailure = true

/-- From `t` on the attempt halts; if no call fails, it is refused at most with diagnostics
in `E`. -/
def Halts (n : Nat) (E : Diagnostic → Prop) (m : Attempt α) (t : Table) : Prop :=
  Action.Halts n (Refuses E) BreaksWith m.run t

/-- On strict tables the attempt halts and leaves them strict. -/
def Prompt (n : Nat) (E : Diagnostic → Prop) (m : Attempt α) : Prop :=
  Action.Prompt n (Refuses E) BreaksWith m.run

theorem run_lift_bind (c : Action α) (f : α → Attempt β) :
    (liftM c >>= f).run = c >>= fun a => (f a).run :=
  ExceptT.run_bind_lift c f

theorem refuses_ok (E : Diagnostic → Prop) (a : α) : Refuses E (.ok a) :=
  fun _ h => by cases h

theorem refuses_error {E : Diagnostic → Prop} {d : Diagnostic} (h : E d) :
    Refuses E (.error d : Except Diagnostic α) := by
  rintro _ ⟨⟩
  exact h

section rules

variable {m : Attempt α} {f : α → Attempt β} {n k j : Nat} {E E' : Diagnostic → Prop}
  {good : Except Diagnostic β → Prop} {t : Table}

/-- What follows on an attempt starts where its calls have gone through. -/
theorem Halts.run_bind (hm : Attempt.Halts n E m t)
    (hf : ∀ a t₁, Attempt.on m t = (.ok a, t₁) → t.Flows t₁ →
      Action.Halts n good BreaksWith (f a).run t₁)
    (hE : ∀ d, E d → good (.error d)) : Action.Halts n good BreaksWith (m >>= f).run t := by
  rw [ExceptT.run_bind]
  refine Action.Halts.bind (j := 0) hm (fun ha hflows => ?_) fun d hd => ?_
  · rcases hrun : Action.on m.run t with ⟨d | a, t₁⟩
    · rw [hrun] at ha
      exact .inl ⟨hE d (ha d rfl), .refl t₁⟩
    · rw [hrun] at hflows
      exact hf a t₁ hrun hflows
  · rw [hd.1]
    exact Action.Reports.pure ⟨rfl, hd.2⟩

theorem Prompt.run_bind (hm : Attempt.Prompt n E m)
    (hf : ∀ a, Action.Prompt n good BreaksWith (f a).run)
    (hE : ∀ d, E d → good (.error d)) : Action.Prompt n good BreaksWith (m >>= f).run := by
  rw [ExceptT.run_bind]
  refine Action.Prompt.bind (j := 0) hm (fun r hr => ?_) fun d r hd => ?_
  · cases r with
    | ok a => exact hf a
    | error d => exact Action.Prompt.pure (hE d (hr d rfl))
  · rw [hd.1]
    exact Action.Reports.pure ⟨rfl, hd.2⟩

/-- An attempt that comes to its end has made no failing call. -/
theorem Prompt.on_ok (hm : Attempt.Prompt n E m) (ht : t.Strict) {a : α} {t₁ : Table}
    (hrun : Attempt.on m t = (.ok a, t₁)) : t.Flows t₁ ∧ t₁.Strict := by
  obtain ⟨hhalts, hs⟩ := hm t ht
  rw [Action.Halts] at hhalts
  rw [show Action.on m.run t = _ from hrun] at hhalts hs
  obtain ⟨-, hf⟩ | ⟨d, ⟨⟨⟩, -⟩, -⟩ := hhalts
  exact ⟨hf, hs⟩

/-- An attempt that ends with a diagnostic was refused or has made a failing call. -/
theorem Prompt.on_error (hm : Attempt.Prompt n E m) (ht : t.Strict) {d : Diagnostic} {t₁ : Table}
    (hrun : Attempt.on m t = (.error d, t₁)) :
    (E d ∧ t.Flows t₁ ∨ d.isStorageFailure = true ∧ t.Stops d n t₁) ∧ t₁.Strict := by
  obtain ⟨hhalts, hs⟩ := hm t ht
  rw [Action.Halts] at hhalts
  rw [show Action.on m.run t = _ from hrun] at hhalts hs
  obtain ⟨hr, hf⟩ | ⟨d', ⟨⟨⟩, hclass⟩, hstops⟩ := hhalts
  · exact ⟨.inl ⟨hr d rfl, hf⟩, hs⟩
  · exact ⟨.inr ⟨hclass, hstops⟩, hs⟩

/-- What goes on with the result of an attempt that is never refused. -/
theorem Prompt.elim {goodβ : β → Prop} {lostβ : Diagnostic → β → Prop}
    {g : Except Diagnostic α → Action β} (hm : Attempt.Prompt k (fun _ => False) m)
    (hok : ∀ a, Action.Prompt (k + j) goodβ lostβ (g (.ok a)))
    (herror : ∀ d, d.isStorageFailure = true →
      Action.Reports (List.replicate j d) (lostβ d) (g (.error d))) :
    Action.Prompt (k + j) goodβ lostβ (m.run >>= g) := by
  refine Action.Prompt.bind hm (fun r hr => ?_) fun d r hd => ?_
  · cases r with
    | ok a => exact hok a
    | error d => exact (hr d rfl).elim
  · rw [hd.1]
    exact herror d hd.2

protected theorem Halts.pure (a : α) : Attempt.Halts n E (pure a) t :=
  .inl ⟨refuses_ok E a, .refl t⟩

protected theorem Halts.bind (hm : Attempt.Halts n E m t)
    (hf : ∀ a t₁, Attempt.on m t = (.ok a, t₁) → t.Flows t₁ → Attempt.Halts n E (f a) t₁) :
    Attempt.Halts n E (m >>= f) t :=
  Halts.run_bind hm hf fun _ => refuses_error

/-- A refusal makes no storage call. -/
protected theorem Halts.refuse {p : Problem} (h : E p.diagnostic) :
    Attempt.Halts n E (refuse p : Attempt α) t :=
  .inl ⟨refuses_error h, .refl t⟩

/-- What stands behind a refusal is never reached. -/
theorem Halts.refuse_bind (p : Problem) (f : α → Attempt β) (h : E p.diagnostic) :
    Attempt.Halts n E (Equates.refuse p >>= f) t :=
  .inl ⟨refuses_error h, .refl t⟩

/-- A step without storage calls. -/
theorem Halts.lift {c : Action α} (hc : t.Adds [] (Action.on c t).2) :
    Attempt.Halts n E (liftM c) t :=
  .inl ⟨refuses_ok E _, hc.flows⟩

/-- A step without storage calls may stand in front. -/
theorem Halts.lift_bind {c : Action α} (hc : t.Adds [] (Action.on c t).2)
    (hf : Attempt.Halts n E (f (Action.on c t).1) (Action.on c t).2) :
    Attempt.Halts n E (liftM c >>= f) t := by
  rw [Attempt.Halts, run_lift_bind]
  exact Action.Halts.after hc hf

theorem Halts.mono (h : Attempt.Halts n E m t) (hE : ∀ d, E d → E' d) :
    Attempt.Halts n E' m t :=
  Action.Halts.mono h (fun _ ha d hd => hE d (ha d hd)) fun _ _ => id

/-- An attempt that halts keeps the plan, so it is enough to see that it keeps the table
sound. -/
theorem Prompt.of_halts (h : ∀ t : Table, t.Strict → Attempt.Halts n E m t)
    (hs : ∀ t : Table, t.Sound → (Attempt.on m t).2.Sound) : Attempt.Prompt n E m := by
  intro t ht
  have hplan : (Attempt.on m t).2.plan = t.plan := by
    obtain ⟨-, hf⟩ | ⟨d, -, hs⟩ := h t ht
    · exact hf.plan
    · exact hs.plan
  exact ⟨h t ht, hs t ht.sound, hplan ▸ ht.classified⟩

protected theorem Prompt.pure (a : α) : Attempt.Prompt n E (pure a) :=
  Action.Prompt.pure (refuses_ok E a)

protected theorem Prompt.throw {d : Diagnostic} (h : E d) :
    Attempt.Prompt n E (throw d : Attempt α) :=
  Action.Prompt.pure (refuses_error h)

protected theorem Prompt.refuse {p : Problem} (h : E p.diagnostic) :
    Attempt.Prompt n E (refuse p : Attempt α) :=
  Prompt.throw h

/-- What stands behind a refusal is never reached. -/
theorem Prompt.refuse_bind (p : Problem) (f : α → Attempt β) (h : E p.diagnostic) :
    Attempt.Prompt n E (Equates.refuse p >>= f) :=
  Action.Prompt.pure (refuses_error h)

protected theorem Prompt.bind (hm : Attempt.Prompt n E m) (hf : ∀ a, Attempt.Prompt n E (f a)) :
    Attempt.Prompt n E (m >>= f) :=
  Prompt.run_bind hm hf fun _ => refuses_error

/-- A step without storage calls. -/
protected theorem Prompt.lift {c : Action α} {good : α → Prop} (hc : Action.Reports [] good c) :
    Attempt.Prompt n E (liftM c) := by
  refine Action.Reports.prompt (m := (liftM c : Attempt α).run) fun t => ?_
  exact ⟨refuses_ok E _, (hc t).2⟩

theorem Prompt.mono (h : Attempt.Prompt n E m) (hE : ∀ d, E d → E' d) : Attempt.Prompt n E' m :=
  fun t ht => ⟨Halts.mono (h t ht).1 hE, (h t ht).2⟩

end rules

/-! ### Diagnostics at the border of the table -/

section handlers

variable {m : Attempt α} {n k j : Nat} {E : Diagnostic → Prop}
  {good₀ good : Except Diagnostic α → Prop} {lost : Diagnostic → Except Diagnostic α → Prop}

/-- A handler goes on behind a refusal, and closes the attempt behind a failing call. -/
theorem Prompt.run_tryCatch {handler : Diagnostic → Attempt α}
    (hm : Action.Prompt k good₀ BreaksWith m.run) (hok : ∀ a, good₀ (.ok a) → good (.ok a))
    (hE : ∀ d, good₀ (.error d) → Action.Prompt (k + j) good lost (handler d).run)
    (hlost : ∀ d, d.isStorageFailure = true →
      Action.Reports (List.replicate j d) (lost d) (handler d).run) :
    Action.Prompt (k + j) good lost (tryCatch m handler).run := by
  rw [ExceptT.run_tryCatch]
  refine Action.Prompt.bind hm (fun r hr => ?_) fun d r hd => ?_
  · cases r with
    | ok a => exact Action.Prompt.pure (hok a hr)
    | error d => exact hE d hr
  · rw [hd.1]
    exact hlost d hd.2

theorem Prompt.reportingFailure (hm : Attempt.Prompt 0 Diagnostic.IsRefusal m) :
    Attempt.Prompt 1 Diagnostic.IsRefusal m.reportingFailure := by
  rw [Attempt.reportingFailure]
  refine Prompt.run_tryCatch (j := 1) hm (fun a => id) (fun d hd => ?_) fun d hd => ?_
  · rw [show d.isStorageFailure = false from hd d rfl]
    exact Action.Prompt.pure hd
  · rw [hd]
    exact (Action.reports_report d).bind fun _ _ => .pure ⟨rfl, hd⟩

/-- An attempt that is never refused reports just the failing call. -/
theorem Prompt.reportingAll (hm : Attempt.Prompt 0 (fun _ => False) m) :
    Attempt.Prompt 1 (fun _ => False) (Table.reportingAll m) := by
  rw [Table.reportingAll]
  refine Prompt.run_tryCatch (j := 1) hm (fun a => id) (fun d hd => ?_) fun d hd => ?_
  · exact (hd d rfl).elim
  · exact (Action.reports_report d).bind fun _ _ => .pure ⟨rfl, hd⟩

theorem Prompt.orElseReport (hm : Attempt.Prompt 0 (fun _ => False) m) (fallback : α) :
    Action.Prompt 1 (fun _ => True) (fun _ a => a = fallback) (m.orElseReport fallback) := by
  rw [Attempt.orElseReport]
  refine Prompt.elim (j := 1) hm (fun _ => Action.Prompt.pure trivial) fun d _ => ?_
  exact (Action.reports_report d).bind fun _ _ => .pure rfl

end handlers

end Attempt

end Equates

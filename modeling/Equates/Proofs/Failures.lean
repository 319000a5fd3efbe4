/-
Failures: where a storage call fails, the operation stops and says so once.

A step that meets a failing call makes no further one (`Step.outcome`), hands the diagnostic
of that call to the error handler once, and answers as its request does on failures
(`Request.Degraded`).  A step without a failing call reports nothing, whatever it answers.
This is the one theorem about all requests (`Request.run_prompt`), read on the steps of a
session.

* `Session.failure_routed_once` — behind every session, for every step and every pattern of
  storage failures;
* `Session.undisturbed_never_fails` — where no fault is planned, no call fails by itself: no
  row is missing where one is overwritten, no name is taken where one is stored, and no
  address key is read that is not one of an address.
-/
import Equates.Proofs.Coherence
import Equates.Proofs.Pruning
import Equates.Proofs.Table.Requests

namespace Equates

namespace Step

/-- The failures that the step hands to the error handler, oldest first. -/
def failures (x : Step) (t : Table) : List Diagnostic :=
  (x.behind t).journal.failures

theorem strict_start {t : Table} (ht : t.Strict) (x : Step) : (x.start t).Strict :=
  ⟨x.sound_start ht.sound, ht.classified⟩

theorem failures_eq (x : Step) (t : Table) : x.failures t = (x.behind t).reported.reverse :=
  rfl

/-- A step goes through, or stops at the one storage call that fails. -/
theorem outcome {t : Table} (ht : t.Strict) (x : Step) :
    ∃ made : List CallRecord, (x.behind t).calls = made ++ t.calls ∧
      ((∀ c ∈ made, c.failure = none) ∧ x.failures t = [] ∧
          (x.answer t).reportsFailure = false ∨
        ∃ call d rest, made = ⟨call, some d⟩ :: rest ∧ (∀ c ∈ rest, c.failure = none) ∧
          x.failures t = [d] ∧ x.request.Degraded d (x.answer t)) := by
  rw [failures_eq]
  obtain ⟨ha, hflows⟩ | ⟨d, ha, hstops⟩ := (x.request.run_prompt _ (x.strict_start ht)).1
  · obtain ⟨made, hcalls, hmade⟩ := hflows.calls
    have hreported : (x.behind t).reported = [] := hflows.reported
    refine ⟨made, hcalls, .inl ⟨hmade, ?_, ha⟩⟩
    rw [hreported]
    rfl
  · obtain ⟨call, rest, fault, hcalls, hrest, -, -⟩ := hstops.calls
    have hreported : (x.behind t).reported = [d] := hstops.reported
    refine ⟨⟨call, some d⟩ :: rest, hcalls, .inr ⟨call, d, rest, rfl, hrest, ?_, ha⟩⟩
    rw [hreported]
    rfl

section undisturbed

variable {t : Table} (ht : t.Sound) (hplan : t.plan = .none) (x : Step)
include ht hplan

/-- Where no fault is planned, a step goes through. -/
theorem outcome_of_none :
    (x.start t).Flows (x.behind t) ∧ (x.answer t).reportsFailure = false := by
  have hstrict : t.Strict := ⟨ht, hplan ▸ FaultPlan.classified_none⟩
  obtain ⟨ha, hflows⟩ | ⟨d, -, hstops⟩ := (x.request.run_prompt _ (x.strict_start hstrict)).1
  · exact ⟨hflows, ha⟩
  · exact absurd hstops (Table.not_stops_of_none hplan)

theorem calls_of_none (hcalls : ∀ c ∈ t.calls, c.failure = none) :
    ∀ c ∈ (x.behind t).calls, c.failure = none := by
  obtain ⟨made, hmade, hnone⟩ := (x.outcome_of_none ht hplan).1.calls
  rw [hmade]
  exact List.forall_mem_append.mpr ⟨hnone, hcalls⟩

end undisturbed

end Step

/-! ### Storage that fails -/

namespace Session

/-- The table behind a session, whichever storage calls failed openly. -/
def Reached (t : Table) : Prop :=
  ∃ plan : FaultPlan, plan.Loud ∧ ∃ equates references listing registry l,
    t = play (Table.opened equates references plan listing registry) l

theorem Reached.sound {t : Table} (h : Reached t) : t.Sound := by
  obtain ⟨plan, hplan, equates, references, listing, registry, l, rfl⟩ := h
  exact Session.sound (Table.sound_opened hplan equates references listing registry) l

/-- Behind every session, and whichever storage calls fail from then on with the diagnostic
of a storage failure: if a call of a step fails, it is the last one that the step makes, its
diagnostic is the only one that is reported, and the answer is the one for failures; if none
fails, nothing is reported and the answer does not speak of failures. -/
theorem failure_routed_once {t : Table} (ht : Reached t) {plan : FaultPlan} (hloud : plan.Loud)
    (hclassified : plan.Classified) (x : Step) :
    ∃ made : List CallRecord, (x.behind { t with plan }).calls = made ++ t.calls ∧
      (∀ c ∈ made, ∀ d, c.failure = some d →
        (∃ rest, made = c :: rest ∧ ∀ c' ∈ rest, c'.failure = none) ∧
          x.failures { t with plan } = [d] ∧
          x.request.Degraded d (x.answer { t with plan })) ∧
      ((∀ c ∈ made, c.failure = none) →
        x.failures { t with plan } = [] ∧
          (x.answer { t with plan }).reportsFailure = false) := by
  have hs := ht.sound
  have hstrict : Table.Strict { t with plan } :=
    ⟨⟨hs.store, hs.equateCache, hs.referenceCache, hloud⟩, hclassified⟩
  obtain ⟨made, hcalls, ⟨hmade, hok⟩ | ⟨call, d, rest, rfl, hrest, hfailed⟩⟩ :=
    x.outcome hstrict
  · refine ⟨made, hcalls, fun c hc d hd => ?_, fun _ => hok⟩
    rw [hmade c hc] at hd
    cases hd
  · refine ⟨_, hcalls, fun c hc d' hd => ?_, fun hnone => ?_⟩
    · -- Only the newest call failed.
      obtain rfl | hc := List.mem_cons.mp hc
      · cases hd
        exact ⟨⟨rest, rfl, hrest⟩, hfailed⟩
      · rw [hrest c hc] at hd
        cases hd
    · have hlast := hnone _ List.mem_cons_self
      cases hlast

/-- No reference row is ever removed. -/
def failingDetachment : FaultPlan := fun _ call =>
  if call = .references .erase then some { diagnostic := .error .storageFailure "no removal" }
  else none

/-- A range is cleared that has a reference. -/
def clearing : Step := ⟨{}, .clear ⟨0, 0⟩ ⟨0, 32⟩⟩

theorem failure_routed_once_clearing :
    Reached oneUsed ∧ failingDetachment.Loud ∧ failingDetachment.Classified ∧
      clearing.failures { oneUsed with plan := failingDetachment } =
        [.error .storageFailure "no removal"] ∧
      clearing.answer { oneUsed with plan := failingDetachment } = .outcome .storageFailed := by
  have ht : Reached oneUsed := ⟨.none, FaultPlan.loud_none, 1, 0, none, none, _, rfl⟩
  have hloud : failingDetachment.Loud := FaultPlan.loud_ite _ _
  have hclassified : failingDetachment.Classified := FaultPlan.classified_ite _ rfl
  have hmore : oneUsed.calls.length <
      (clearing.behind { oneUsed with plan := failingDetachment }).calls.length := by
    decide +kernel
  have hlast : (clearing.behind { oneUsed with plan := failingDetachment }).calls.head? =
      some ⟨.references .erase, some (.error .storageFailure "no removal")⟩ := by
    decide +kernel
  obtain ⟨made, hcalls, hfailed, -⟩ := failure_routed_once ht hloud hclassified clearing
  rw [hcalls] at hmore hlast
  cases made with
  | nil => exact absurd hmore (lt_irrefl _)
  | cons c rest =>
    obtain rfl : c = ⟨.references .erase, some (.error .storageFailure "no removal")⟩ :=
      Option.some.inj hlast
    obtain ⟨-, hreported, hanswer⟩ := hfailed _ List.mem_cons_self _ rfl
    exact ⟨ht, hloud, hclassified, hreported, hanswer⟩

end Session

/-! ### Storage that does not fail -/

/-- Every stored address key is one of an address, the indices list just the stored rows, and
the caches hold what is stored. -/
structure Table.Consistent (t : Table) : Prop where
  placed : ∀ {id : Key} {row : ReferenceRow}, t.references.get? id = some row →
    ∃ a, Address.ofKey? row.addressKey = some a
  named : ∀ {name : String} {id : Key},
    t.equates.idOf? name = some id ↔ ∃ e, t.equates.get? id = some e ∧ e.name = name
  addressed : ∀ {k : Int} {id : Key}, id ∈ t.references.keysAt k ↔
    ∃ row, t.references.get? id = some row ∧ row.addressKey = k
  used : ∀ {equate id : Key}, id ∈ t.references.keysTo equate ↔
    ∃ row, t.references.get? id = some row ∧ row.equate = equate
  cached : t.Coherent

theorem Table.Sound.consistent {t : Table} (ht : t.Sound) : t.Consistent where
  placed h := ht.store.placed _ (ht.store.references.mem_of_get? h)
  named := ht.store.equates.idOf?_iff
  addressed := ht.store.references.mem_keysAt
  used := ht.store.references.mem_keysTo
  cached := ht.coherent

namespace Session

theorem calls_play {t : Table} (ht : t.Sound) (hplan : t.plan = .none)
    (hcalls : ∀ c ∈ t.calls, c.failure = none) (l : List Step) :
    ∀ c ∈ (play t l).calls, c.failure = none := by
  induction l generalizing t with
  | nil => exact hcalls
  | cons x l ih =>
    have hx := x.settles ht
    exact ih hx.sound (hx.plan.trans hplan) (x.calls_of_none ht hplan hcalls)

theorem Undisturbed.calls {t : Table} (ht : Undisturbed t) : ∀ c ∈ t.calls, c.failure = none := by
  obtain ⟨equates, references, listing, registry, l, rfl⟩ := ht
  exact calls_play (Table.sound_opened FaultPlan.loud_none _ _ _ _) rfl (List.forall_mem_nil _) l

/-- In a session in which no fault is planned, no step answers with a storage failure or
reports one.  No call fails, so that no row is overwritten that is not there and no name is
stored twice; and a key of no address would be reported as a storage failure. -/
theorem undisturbed_never_fails {t : Table} (ht : Undisturbed t) (x : Step) :
    (x.answer t).reportsFailure = false ∧ x.failures t = [] ∧
      (∀ c ∈ (x.behind t).calls, c.failure = none) ∧ (x.behind t).Consistent := by
  obtain ⟨hflows, hanswer⟩ := x.outcome_of_none ht.sound ht.plan
  have hreported : (x.behind t).reported = [] := hflows.reported
  refine ⟨hanswer, ?_, x.calls_of_none ht.sound ht.plan ht.calls,
    (x.settles ht.sound).sound.consistent⟩
  rw [Step.failures_eq, hreported]
  rfl

/-- Two operands next to each other. -/
def neighbours : Table :=
  play (Table.opened 1 0 .none none none)
    [⟨{}, .define "one" 1⟩, ⟨{}, .attach 1 ⟨0, 16⟩ 0 0⟩, ⟨{}, .attach 1 ⟨0, 17⟩ 0 0⟩]

/-- One is moved onto the other. -/
def overlaying : Step := ⟨{}, .move ⟨0, 16⟩ ⟨0, 17⟩ 1⟩

theorem undisturbed_never_fails_overlaying :
    Undisturbed neighbours ∧
      overlaying.answer neighbours = .outcome .completed ∧
      (overlaying.behind neighbours).references.keysAt 17 = [1, 2] ∧
      overlaying.failures neighbours = [] ∧
      (∃ row, (overlaying.behind neighbours).references.get? 1 = some row ∧
        row.addressKey = 17) ∧
      ∃ row, (overlaying.behind neighbours).references.get? 2 = some row ∧
        row.addressKey = 17 := by
  have ht : Undisturbed neighbours := ⟨1, 0, none, none, _, rfl⟩
  have hanswer : overlaying.answer neighbours = .outcome .completed := by decide +kernel
  have hkeys : (overlaying.behind neighbours).references.keysAt 17 = [1, 2] := by decide +kernel
  obtain ⟨-, hnone, -, hconsistent⟩ := undisturbed_never_fails ht overlaying
  have hplaced : ∀ id ∈ [1, 2], ∃ row,
      (overlaying.behind neighbours).references.get? id = some row ∧ row.addressKey = 17 := by
    intro id hid
    rw [← hkeys] at hid
    exact hconsistent.addressed.mp hid
  exact ⟨ht, hanswer, hkeys, hnone, hplaced 1 (by decide), hplaced 2 (by decide)⟩

end Session

end Equates

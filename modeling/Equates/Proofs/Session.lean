/-
Sessions: operations carried out one after the other.

A `Step` is a request under a monitor of its own; it starts with an empty journal, so
that what is made known during the step can be told apart.  A session is a list of steps
from an empty table on, with caches of any capacities and any plan of failing storage
calls (`Table.opened`).

* `Step.settles` — a step performs effects of its request's kinds in order;
* `Session.sound` — every table of a session is sound, if failing calls fail openly;
* `Table.Settles.preserves` — what every single effect preserves, a step preserves.
-/
import Equates.Proofs.Table.Operations

namespace Equates

/-- An operation under a monitor. -/
structure Step where
  monitor : Monitor
  request : Request

/-- An empty table with its caches, its storage and what it works with. -/
def Table.opened (equates references : Nat) (plan : FaultPlan) (listing : Option Listing)
    (registry : Option TypeRegistry) : Table :=
  { Table.withCaches equates references with plan, listing, registry }

namespace Step

/-- The table that the step starts on. -/
def start (x : Step) (t : Table) : Table :=
  { t with monitor := x.monitor, journal := [] }

/-- The answer of the step. -/
def answer (x : Step) (t : Table) : Answer :=
  (Action.on x.request.run (x.start t)).1

/-- The table behind the step. -/
def behind (x : Step) (t : Table) : Table :=
  (Action.on x.request.run (x.start t)).2

/-- The changes that the step makes known, oldest first. -/
def changes (x : Step) (t : Table) : List Change :=
  (x.behind t).journal.changes

end Step

namespace Session

/-- The table behind the steps. -/
def play (t : Table) : List Step → Table
  | [] => t
  | x :: rest => play (x.behind t) rest

end Session

namespace Table

theorem sound_opened {plan : FaultPlan} (hplan : plan.Loud) (equates references : Nat)
    (listing : Option Listing) (registry : Option TypeRegistry) :
    (Table.opened equates references plan listing registry).Sound where
  store := ⟨EquateRows.sound_empty, ReferenceRows.sound_empty, fun r hr => by
    have hr : ReferenceRows.get? {} r.id = some r := hr
    rw [ReferenceRows.get?_empty] at hr
    cases hr⟩
  equateCache := Cache.agrees_empty equates _
  referenceCache := Cache.agrees_empty references _
  loud := hplan

/-- What every effect of the kinds `P` preserves, an operation of these kinds preserves. -/
theorem Settles.preserves {P : Effect → Prop} {t t' : Table} (h : t.Settles P t') (ht : t.Sound)
    {I : Store → Prop}
    (hI : ∀ {owed : List Key} {s : Store} {x : Effect}, s.Sound → x.Fits owed s → P x → I s →
      I (x.apply s))
    (hstart : I t.store) : I t'.store := by
  obtain ⟨l, hk, hl, -, hP⟩ := h
  rw [hk.store]
  exact hl.preserves (I := fun _ => I) ht.store hP hI hstart

/-- Where no storage call fails, an operation comes to its end with nothing owed. -/
theorem Settles.accounts {P : Effect → Prop} {t t' : Table} (h : t.Settles P t') (ht : t.Sound)
    (hp : t.plan = .none) {I : List Key → Store → Prop}
    (hI : ∀ {owed : List Key} {s : Store} {x : Effect}, s.Sound → x.Fits owed s → P x →
      I owed s → I (x.owe owed) (x.apply s))
    (hstart : I [] t.store) : I [] t'.store := by
  obtain ⟨l, hk, hl, hd, hP⟩ := h
  rw [hk.store, ← hd hp]
  exact hl.preserves ht.store hP hI hstart

end Table

namespace Step

theorem sound_start {t : Table} (ht : t.Sound) (x : Step) : (x.start t).Sound :=
  ⟨⟨ht.store.equates, ht.store.references, ht.store.placed⟩, ht.equateCache, ht.referenceCache,
    ht.loud⟩

theorem settles {t : Table} (ht : t.Sound) (x : Step) :
    (x.start t).Settles (x.request.Allows (x.start t).store) (x.behind t) :=
  x.request.run_settles (x.sound_start ht)

end Step

namespace Session

theorem sound {t : Table} (ht : t.Sound) (l : List Step) : (play t l).Sound := by
  induction l generalizing t with
  | nil => exact ht
  | cons x l ih => exact ih (x.settles ht).sound

theorem plan {t : Table} (ht : t.Sound) (l : List Step) : (play t l).plan = t.plan := by
  induction l generalizing t with
  | nil => rfl
  | cons x l ih => exact (ih (x.settles ht).sound).trans (x.settles ht).plan

end Session

end Equates

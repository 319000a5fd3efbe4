/-
The caches cannot be seen.

Two sessions with caches of different capacities carry out the same steps, and one of
them looks things up or drops its caches in between, as often as it likes.  As long as no
storage call fails, every common step shows the same in both: its answer, everything it
makes known, what its monitor was asked and told, and the rows behind it.

The relation behind this is `Table.Peer`: the tables are the same but for their caches,
their calls, the number of their type look-ups, and what belongs to the running step
only.  A look-up leads from a table to a peer of it (`Request.peer_of_quiet`); a common
step starts on twins when it starts on peers, and leaves twins
(`Request.run_blind`).

* `Session.caches_invisible` — what the common steps show does not depend on the caches.
-/
import Equates.Proofs.Session
import Equates.Proofs.Table.Blindness

namespace Equates

open Attempt

namespace Table

/-- The bare table between two steps. -/
def idle (t : Table) : Table :=
  { t.bare with monitor := {}, journal := [] }

/-- Both tables are ready, and between two steps they are the same when they are bare. -/
structure Peer (t₁ t₂ : Table) : Prop where
  left : t₁.Ready
  right : t₂.Ready
  idle : t₁.idle = t₂.idle

theorem Peer.trans {t₁ t₂ t₃ : Table} (h : t₁.Peer t₂) (h' : t₂.Peer t₃) : t₁.Peer t₃ :=
  ⟨h.left, h'.right, h.idle.trans h'.idle⟩

theorem Ready.peer {t : Table} (ht : t.Ready) : t.Peer t :=
  ⟨ht, ht, rfl⟩

theorem Twin.peer {t₁ t₂ : Table} (h : t₁.Twin t₂) : t₁.Peer t₂ := by
  refine ⟨h.left, h.right, ?_⟩
  rw [Table.idle, Table.idle, h.bare]

/-- Reading leads to a peer. -/
theorem Becomes.peer {t t' : Table} (ht : t.Ready) (h : t.Becomes t.store t') : t.Peer t' := by
  refine ⟨ht, ⟨h.sound, h.frame.plan.trans ht.plan⟩, ?_⟩
  have he : t'.equates = t.equates := h.equates
  have hr : t'.references = t.references := h.references
  simp only [Table.idle, Table.bare, he, hr, h.frame.listing, h.frame.registry, h.frame.plan]

theorem Ready.start {t : Table} (ht : t.Ready) (x : Step) : (x.start t).Ready :=
  ⟨x.sound_start ht.sound, ht.plan⟩

/-- A step starts on twins when it starts on peers. -/
theorem Peer.start {t₁ t₂ : Table} (h : t₁.Peer t₂) (x : Step) :
    (x.start t₁).Twin (x.start t₂) := by
  have hbare : ∀ t : Table, (x.start t).bare = { t.idle with monitor := x.monitor } :=
    fun _ => rfl
  refine ⟨h.left.start x, h.right.start x, ?_⟩
  rw [hbare, hbare, h.idle]

/-! ### Look-ups -/

section lookups

variable {t : Table} (ht : t.Ready)
include ht

/-- A look-up finds what is stored, so there is nothing to report. -/
theorem Ready.peer_orElseReport {α : Type} {m : Attempt α}
    (hm : ∃ a, Attempt.Enacts m t.store [] (.ok a)) (fallback : α) :
    t.Peer (Action.on (m.orElseReport fallback) t).2 := by
  obtain ⟨a, hm⟩ := hm
  -- The look-up goes through, so the fallback is never needed.
  obtain ⟨hr, hb⟩ := (hm t ht.sound.has).run ht.plan
  rw [Attempt.orElseReport, Action.on_bind, show (Action.on m.run t).1 = .ok a from hr]
  exact Becomes.peer ht hb

theorem Ready.peer_equatesAt (a : Address) (operand : Option Int) :
    t.Peer (Action.on (equatesAt a operand) t).2 := by
  refine ht.peer_orElseReport ?_ []
  rw [fetchEquatesAt]
  exact ⟨_, Enacts.bind_read (fetchAt_enacts _ a) (fetchEquates_enacts _ _)⟩

theorem Ready.peer_equatesWithValue (value : Int64) :
    t.Peer (Action.on (equatesWithValue value) t).2 := by
  refine ht.peer_orElseReport ?_ []
  rw [fetchWithValue]
  exact ⟨_, Enacts.bind_read (fetchAll_enacts _) (Enacts.pure _ _)⟩

theorem Ready.peer_countReferences (id : Key) :
    t.Peer (Action.on (countReferences id) t).2 := by
  refine ht.peer_orElseReport ?_ 0
  rw [map_eq_pure_bind]
  exact ⟨_, Enacts.bind_read (keysTo_enacts _ id) (Enacts.pure _ _)⟩

theorem Ready.peer_label (name : String) (value : Int64) :
    t.Peer (Action.on (label name value) t).2 := by
  have hmember : ∀ id, t.Peer (Action.on (memberName id value) t).2 := by
    intro id
    obtain ⟨-, hready, hbare⟩ := ht.on_memberName id value
    refine ⟨ht, hready, ?_⟩
    rw [Table.idle, Table.idle, hbare]
  rw [label]
  split
  · split
    · exact hmember _
    · exact ht.peer
  · exact ht.peer

theorem Ready.peer_dropCaches : t.Peer (Action.on dropCaches t).2 :=
  ⟨ht, ht.of_rows rfl rfl (t.equateCache.agrees_clear _) (t.referenceCache.agrees_clear _) rfl, rfl⟩

end lookups

end Table

/-- The request looks something up, or drops the caches. -/
def Request.isQuiet : Request → Bool
  | equateNamed _ | equateWithId _ | equateAt .. | equatesAt .. | allEquates
  | equatesWithValue _ | referencesAt _ | referencesTo _ | countReferences _ | label ..
  | dropCaches => true
  | _ => false

theorem Request.peer_of_quiet {q : Request} (hq : q.isQuiet) {t : Table} (ht : t.Ready) :
    t.Peer (Action.on q.run t).2 := by
  cases q with
  | equateNamed name => exact ht.peer_orElseReport ⟨_, Table.fetchNamed_enacts _ name⟩ none
  | equateWithId id => exact ht.peer_orElseReport ⟨_, Table.fetchEquate_enacts _ id⟩ none
  | equateAt a operand value => exact ht.peer_equatesAt a operand
  | equatesAt a operand => exact ht.peer_equatesAt a operand
  | allEquates => exact ht.peer_orElseReport ⟨_, Table.fetchAll_enacts _⟩ []
  | equatesWithValue value => exact ht.peer_equatesWithValue value
  | referencesAt a => exact ht.peer_orElseReport ⟨_, Table.fetchAt_enacts _ a⟩ []
  | referencesTo id => exact ht.peer_orElseReport ⟨_, Table.fetchTo_enacts _ id⟩ []
  | countReferences id => exact ht.peer_countReferences id
  | label name value => exact ht.peer_label name value
  | dropCaches => exact ht.peer_dropCaches
  | _ => cases hq

/-! ### Sessions -/

/-- What a step shows: its answer, what it makes known, the monitor and the rows
behind it. -/
structure Step.Shown where
  answer : Answer
  journal : Journal
  monitor : Monitor
  equates : EquateRows
  references : ReferenceRows

def Step.shown (x : Step) (t : Table) : Step.Shown where
  answer := x.answer t
  journal := (x.behind t).journal
  monitor := (x.behind t).monitor
  equates := (x.behind t).equates
  references := (x.behind t).references

/-- On peers a step shows the same, and it leaves peers behind. -/
theorem Step.shown_eq {t₁ t₂ : Table} (h : t₁.Peer t₂) (x : Step) :
    x.shown t₁ = x.shown t₂ ∧ (x.behind t₁).Peer (x.behind t₂) := by
  obtain ⟨hanswer, hbehind⟩ := x.request.run_blind _ _ (h.start x)
  have hb : (x.behind t₁).Twin (x.behind t₂) := hbehind
  refine ⟨?_, hb.peer⟩
  rw [Step.shown, Step.shown, hb.journal, hb.monitor, hb.equates, hb.references, Step.answer,
    Step.answer, hanswer]

namespace Session

/-- What the steps show; before each, the steps beside it are carried out unseen. -/
def shown (t : Table) : List (List Step × Step) → List Step.Shown
  | [] => []
  | (unseen, x) :: rest => x.shown (play t unseen) :: shown (x.behind (play t unseen)) rest

theorem peer_play {t : Table} (ht : t.Ready) {l : List Step}
    (hl : ∀ x ∈ l, x.request.isQuiet) : t.Peer (play t l) := by
  induction l generalizing t with
  | nil => exact ht.peer
  | cons x l ih =>
    have hx : t.Peer (x.behind t) := by
      -- The monitor and the journal of the step are its own.
      have hstart : t.Peer (x.start t) := ⟨ht, ht.start x, rfl⟩
      exact hstart.trans (Request.peer_of_quiet (hl x List.mem_cons_self) (ht.start x))
    exact hx.trans (ih hx.right fun y hy => hl y (List.mem_cons_of_mem x hy))

theorem shown_eq {t₁ t₂ : Table} (h : t₁.Peer t₂) {l : List (List Step × Step)}
    (hl : ∀ p ∈ l, ∀ x ∈ p.1, x.request.isQuiet) :
    shown t₁ (l.map fun p => ([], p.2)) = shown t₂ l := by
  induction l generalizing t₁ t₂ with
  | nil => rfl
  | cons p l ih =>
    obtain ⟨unseen, x⟩ := p
    -- The steps that are not shown lead to a peer; from there on both sessions go on
    -- alike, and the induction starts anew from the tables behind the common step.
    have hquiet := peer_play h.right (hl _ List.mem_cons_self)
    obtain ⟨hx, hbehind⟩ := x.shown_eq (h.trans hquiet)
    rw [List.map_cons, shown, shown]
    exact congrArg₂ List.cons hx (ih hbehind fun q hq => hl q (List.mem_cons_of_mem _ hq))

/-- Two sessions on empty tables whose caches have any capacities carry out the same
steps, and no storage call fails.  One of them may look things up and drop its caches
before each step.  Then every step shows the same in both. -/
theorem caches_invisible (equates references equates' references' : Nat)
    (listing : Option Listing) (registry : Option TypeRegistry) {l : List (List Step × Step)}
    (hl : ∀ p ∈ l, ∀ x ∈ p.1, x.request.isQuiet) :
    shown (Table.opened equates references .none listing registry)
        (l.map fun p => ([], p.2)) =
      shown (Table.opened equates' references' .none listing registry) l := by
  have hready : ∀ m n, (Table.opened m n .none listing registry).Ready := fun m n =>
    ⟨Table.sound_opened FaultPlan.loud_none m n listing registry, rfl⟩
  exact shown_eq ⟨hready equates references, hready equates' references', rfl⟩ hl

/-- A reference whose equate is renamed and which is moved, under observation. -/
def observed : List (List Step × Step) :=
  [([], ⟨{}, .define "one" 1⟩),
    ([⟨{}, .equateWithId 1⟩, ⟨{}, .dropCaches⟩], ⟨{}, .attach 1 ⟨0, 16⟩ 0 0⟩),
    ([⟨{}, .referencesTo 1⟩, ⟨{}, .allEquates⟩], ⟨{}, .rename 1 "two"⟩),
    ([⟨{}, .label "two" 1⟩, ⟨{}, .referencesAt ⟨0, 16⟩⟩], ⟨{}, .move ⟨0, 16⟩ ⟨0, 32⟩ 1⟩),
    ([⟨{}, .countReferences 1⟩], ⟨{}, .equatesAt ⟨0, 32⟩ none⟩)]

theorem caches_invisible_observed :
    (∀ p ∈ observed, ∀ x ∈ p.1, x.request.isQuiet) ∧
      shown (Table.opened 0 0 .none none none) (observed.map fun p => ([], p.2)) =
        shown (Table.opened 3 2 .none none none) observed ∧
      (shown (Table.opened 3 2 .none none none) observed).getLast?.map Step.Shown.answer =
        some (.equates [⟨1, "two", 1⟩]) := by
  have hl : ∀ p ∈ observed, ∀ x ∈ p.1, x.request.isQuiet := by decide
  exact ⟨hl, caches_invisible 0 0 3 2 none none hl, by decide +kernel⟩

end Session

end Equates

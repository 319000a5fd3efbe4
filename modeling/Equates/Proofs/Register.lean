/-
The stored references are a register.

A `Register` is a finite map from keys to addresses, operands, hashes and equates, kept as the
list of its references in the order of their keys, together with the keys that it has handed
out.  `Register.serve` says what each operation on references answers and what it makes of the
map, without rows, address keys, indices or a cache.

* `Register.Proper` — keys are unique, none is handed out twice, and every address is mappable;
  every operation keeps a register so (`Register.Proper.serve`);
* `ReferenceRequest.serves` — one operation on a table answers as the register does;
* `ReferenceRequest.answers_eq_register` — so does every list of operations on an empty table,
  whatever the capacities of its caches.
-/
import Equates.Proofs.Relocation

namespace Equates

open Attempt

/-! ### Operations on references alone -/

inductive ReferenceRequest where
  | store (address : Address) (operand : Int) (hash : UInt64) (equate : Key)
  | erase (id : Key)
  | withId (id : Key)
  | keysAt (address : Address)
  | keysTo (equate : Key)
  | referencesAt (address : Address)
  | referencesTo (equate : Key)
  | move (monitor : Monitor) (source target : Address) (length : UInt64)
  | dropCache
deriving DecidableEq, Repr

inductive ReferenceAnswer where
  | done
  | reference (r : Reference)
  | reference? (r : Option Reference)
  | keys (l : List Key)
  | references (l : List Reference)
  | outcome (o : Outcome)
deriving DecidableEq, Repr

/-- Places the table under the monitor. -/
def Table.watch (monitor : Monitor) : Action Unit :=
  modify fun t => { t with monitor }

namespace ReferenceRequest

/-- Carries out the operation. -/
def run : ReferenceRequest → Attempt ReferenceAnswer
  | store a operand hash equate => do
    return .reference (← Table.storeReference a operand hash equate)
  | erase id => do
    Table.eraseReference id
    return .done
  | withId id => do
    return .reference? (← Table.fetchReference id)
  | keysAt a => do
    return .keys (← Table.keysAt a)
  | keysTo equate => do
    return .keys (← Table.keysTo equate)
  | referencesAt a => do
    return .references (← Table.fetchAt a)
  | referencesTo equate => do
    return .references (← Table.fetchTo equate)
  | move monitor source target length => do
    Table.watch monitor
    return .outcome (← Table.relocate source target length)
  | dropCache => do
    Table.dropReferenceCache
    return .done

/-- The answer of the operation, or the diagnostic that it ends with. -/
def answer (t : Table) (q : ReferenceRequest) : Except Diagnostic ReferenceAnswer :=
  (Attempt.on q.run t).1

/-- The answers of the operations, carried out in order. -/
def answers (t : Table) : List ReferenceRequest → List (Except Diagnostic ReferenceAnswer)
  | [] => []
  | q :: l => q.answer t :: answers (Attempt.on q.run t).2 l

/-- The table behind the operations. -/
def behind (t : Table) : List ReferenceRequest → Table
  | [] => t
  | q :: l => behind (Attempt.on q.run t).2 l

/-- The operation lists the reference. -/
def Lists (t : Table) (q : ReferenceRequest) (r : Reference) : Prop :=
  ∃ l, q.answer t = .ok (.references l) ∧ r ∈ l

end ReferenceRequest

/-! ### Registers -/

structure Register where
  /-- In the order of their keys. -/
  entries : List Reference := []
  /-- The keys handed out so far, newest first. -/
  issued : List Key := []
deriving DecidableEq, Repr

namespace Register

/-- The key of the next new entry. -/
def next (d : Register) : Key :=
  d.issued.headD 0 + 1

/-- Why nothing may be moved to the `length` addresses from `target` on. -/
def objection? (target : Address) (length : UInt64) : Option Problem :=
  if 2 ^ 64 ≤ target.offset.toNat + (length.toNat - 1) then some .destinationWraps
  else if target.Mappable ∧ Address.Mappable ⟨target.space, target.offset + (length - 1)⟩ then none
  else some (.destinationUnmappable target)

theorem code_of_objection? {target : Address} {length : UInt64} {p : Problem}
    (h : objection? target length = some p) : p.code = .invalidArgument := by
  rw [objection?] at h
  split at h
  · cases h
    rfl
  · split at h
    · cases h
    · cases h
      rfl

/-- The answer of an operation, and the register behind it.  A move that its monitor stops has
dealt with the first references of its window, by address and by key. -/
def serve (d : Register) : ReferenceRequest → Except Diagnostic ReferenceAnswer × Register
  | .store a operand hash equate =>
    if a.Mappable then
      let r : Reference := ⟨d.next, a, operand, hash, equate⟩
      (.ok (.reference r), ⟨d.entries ++ [r], d.next :: d.issued⟩)
    else (.error (Problem.unmappable a).diagnostic, d)
  | .erase id => (.ok .done, { d with entries := d.entries.filter (·.id ≠ id) })
  | .withId id => (.ok (.reference? (d.entries.find? (·.id = id))), d)
  | .keysAt a => (.ok (.keys ((d.entries.filter (·.address = a)).map Reference.id)), d)
  | .keysTo equate => (.ok (.keys ((d.entries.filter (·.equate = equate)).map Reference.id)), d)
  | .referencesAt a => (.ok (.references (d.entries.filter (·.address = a))), d)
  | .referencesTo equate => (.ok (.references (d.entries.filter (·.equate = equate))), d)
  | .move monitor source target length =>
    if length = 0 then (.ok (.outcome .completed), d)
    else
      match objection? target length with
      | some p => (.error p.diagnostic, d)
      | none =>
        let ahead := d.entries.filter (·.InWindow source length)
        let n := (Reference.places ahead).length
        let moved := (Reference.inOrder ahead).take (monitor.reach n ahead.length)
        (.ok (.outcome (.ofWhole (¬ source.Mappable ∨ monitor.Finishes n ahead.length))),
          { d with entries := d.entries.map fun r =>
              if r ∈ moved then r.relocated source target else r })
  | .dropCache => (.ok .done, d)

/-- An operation that is refused has been given arguments that no operation may have, and leaves
the register as it is. -/
theorem serve_error {d : Register} {q : ReferenceRequest} {x : Diagnostic}
    (h : (d.serve q).1 = .error x) : x.code = .invalidArgument ∧ (d.serve q).2 = d := by
  cases q with
  | store a operand hash equate =>
    rw [serve] at h ⊢
    split at h
    · cases h
    · next ha =>
      rw [if_neg ha]
      cases h
      exact ⟨rfl, rfl⟩
  | move monitor source target length =>
    rw [serve] at h ⊢
    split at h
    · cases h
    · next hlength =>
      rw [if_neg hlength]
      cases ho : objection? target length with
      | none =>
        rw [ho] at h
        cases h
      | some p =>
        rw [ho] at h
        cases h
        exact ⟨code_of_objection? ho, rfl⟩
  | _ => cases h

/-- The answers to a list of operations, and the register behind them. -/
def serveAll (d : Register) :
    List ReferenceRequest → List (Except Diagnostic ReferenceAnswer) × Register
  | [] => ([], d)
  | q :: l => ((d.serve q).1 :: ((d.serve q).2.serveAll l).1, ((d.serve q).2.serveAll l).2)

/-! ### What a register keeps to -/

/-- Keys ascend, also in the order in which they were handed out, so that a new one is greater
than all before it; and every address is mappable. -/
structure Proper (d : Register) : Prop where
  sorted : d.entries.Pairwise (·.id < ·.id)
  issued : ∀ r ∈ d.entries, r.id ∈ d.issued
  fresh : d.issued.Pairwise (· > ·)
  mappable : ∀ r ∈ d.entries, r.address.Mappable

theorem proper_empty : Proper {} where
  sorted := List.Pairwise.nil
  issued := List.forall_mem_nil _
  fresh := List.Pairwise.nil
  mappable := List.forall_mem_nil _

/-- The next key is greater than all keys handed out before. -/
theorem Proper.lt_next {d : Register} (h : d.Proper) {k : Key} (hk : k ∈ d.issued) :
    k < d.next :=
  lt_newest_add_one h.fresh hk

/-- Entries may go. -/
theorem Proper.filter {d : Register} (h : d.Proper) (p : Reference → Bool) :
    Proper { d with entries := d.entries.filter p } where
  sorted := h.sorted.filter p
  issued := fun r hr => h.issued r (List.mem_filter.mp hr).1
  fresh := h.fresh
  mappable := fun r hr => h.mappable r (List.mem_filter.mp hr).1

/-- Entries may change in all but their keys, as long as their addresses stay mappable. -/
theorem Proper.map {d : Register} (h : d.Proper) {f : Reference → Reference}
    (hid : ∀ r, (f r).id = r.id) (hf : ∀ r ∈ d.entries, (f r).address.Mappable) :
    Proper { d with entries := d.entries.map f } where
  sorted := by
    rw [List.pairwise_map]
    simpa only [hid] using h.sorted
  issued := List.forall_mem_map.mpr fun r hr => (hid r).symm ▸ h.issued r hr
  fresh := h.fresh
  mappable := List.forall_mem_map.mpr hf

theorem objection?_eq_none {target : Address} {length : UInt64} (hlength : length ≠ 0)
    (h : objection? target length = none) :
    target.offset.toNat + (length.toNat - 1) < 2 ^ 64 ∧ target.Mappable ∧
      (Table.lastOf target length).Mappable := by
  rw [objection?] at h
  split at h
  · cases h
  · next hwraps =>
    have hfit := Nat.lt_of_not_le hwraps
    split at h
    · next hm => exact ⟨hfit, hm.1, Table.lastOf_eq hlength hfit ▸ hm.2⟩
    · cases h

theorem Proper.serve {d : Register} (h : d.Proper) (q : ReferenceRequest) :
    (d.serve q).2.Proper := by
  cases q with
  | store a operand hash equate =>
    rw [Register.serve]
    split
    · next ha =>
      refine ⟨?_, ?_, ?_, ?_⟩
      · refine List.pairwise_append.mpr ⟨h.sorted, List.pairwise_singleton _ _, ?_⟩
        intro r hr r' hr'
        obtain rfl := List.mem_singleton.mp hr'
        exact h.lt_next (h.issued r hr)
      · refine List.forall_mem_append.mpr ⟨fun r hr => ?_, ?_⟩
        · exact List.mem_cons_of_mem _ (h.issued r hr)
        · exact List.forall_mem_singleton.mpr List.mem_cons_self
      · exact List.pairwise_cons.mpr ⟨fun k hk => h.lt_next hk, h.fresh⟩
      · exact List.forall_mem_append.mpr ⟨h.mappable, List.forall_mem_singleton.mpr ha⟩
    · exact h
  | erase id => exact h.filter _
  | move monitor source target length =>
    rw [Register.serve]
    split
    · exact h
    · next hlength =>
      split
      · exact h
      · next ho =>
        obtain ⟨hfit, -, hlast⟩ := objection?_eq_none hlength ho
        refine h.map (fun r => ?_) fun r hr => ?_
        · split
          · rfl
          · rfl
        · split
          · next hmoved =>
            have hin := (List.mem_filter.mp
              (Reference.mem_inOrder.mp (List.mem_of_mem_take hmoved))).2
            exact (Reference.relocated_address hlength hfit hlast (of_decide_eq_true hin)).1
          · exact h.mappable r hr
  | _ => exact h

theorem Proper.serveAll {d : Register} (h : d.Proper) (l : List ReferenceRequest) :
    (d.serveAll l).2.Proper := by
  induction l generalizing d with
  | nil => exact h
  | cons q l ih => exact ih (h.serve q)

/-! ### The stored references as a register -/

/-- The stored rows stand for the entries, and the same key is next. -/
structure Represents (d : Register) (rows : ReferenceRows) : Prop where
  entries : rows.StandFor d.entries
  next : d.next = rows.next

theorem represents_empty : Represents {} {} :=
  ⟨rfl, rfl⟩

end Register

/-- From `t` on the attempt gives the answer, and leaves a sound table with the register. -/
structure Attempt.Records (m : Attempt ReferenceAnswer) (t : Table)
    (p : Except Diagnostic ReferenceAnswer × Register) : Prop where
  answer : (Attempt.on m t).1 = p.1
  sound : (Attempt.on m t).2.Sound
  plan : (Attempt.on m t).2.plan = .none
  represents : p.2.Represents (Attempt.on m t).2.references

section records

variable {m : Attempt ReferenceAnswer} {t t' : Table} {r : Except Diagnostic ReferenceAnswer}
  {d : Register}

theorem Attempt.records_of_on (hrun : Attempt.on m t = (r, t')) (ht : t'.Sound)
    (hp : t'.plan = .none) (hd : d.Represents t'.references) : m.Records t (r, d) := by
  obtain ⟨rfl, rfl⟩ : (Attempt.on m t).1 = r ∧ (Attempt.on m t).2 = t' := by
    rw [hrun]
    exact ⟨rfl, rfl⟩
  exact ⟨rfl, ht, hp, hd⟩

theorem Attempt.Ends.returns {α β : Type} {m : Attempt α} {a : α} {mid : Store → Prop} {s : Store}
    (h : Attempt.Ends m t mid (.ok a) s) (f : α → β) :
    Attempt.Ends (m >>= fun a => pure (f a)) t mid (.ok (f a)) s :=
  Ends.bind h fun _ h₁ => Ends.pure h₁.toHas (f a)

/-- Where no storage call fails, an attempt records what it ends with. -/
theorem Attempt.Ends.records {mid : Store → Prop} {s : Store} (h : Attempt.Ends m t mid r s)
    (hp : t.plan = .none) (hd : d.Represents s.references) : m.Records t (r, d) := by
  obtain ⟨hr, hb⟩ := h.run hp
  exact ⟨hr, hb.sound, hb.frame.plan.trans hp, hb.references ▸ hd⟩

end records

namespace ReferenceRequest

/-- A move is refused for the reason that the register has. -/
theorem relocate_refused {source target : Address} {length : UInt64} (hlength : length ≠ 0)
    {p : Problem} (h : Register.objection? target length = some p) (t : Table) :
    Attempt.on (Table.relocate source target length) t = (.error p.diagnostic, t) := by
  rw [Register.objection?] at h
  split at h
  · next hwraps =>
    obtain rfl := Option.some.inj h
    refine Table.relocate_wraps hlength (not_not.mp fun hfit => ?_) t
    exact Nat.not_lt_of_le hwraps ((Table.fits_iff hlength).mp hfit)
  · next hwraps =>
    have hfit := Nat.lt_of_not_le hwraps
    split at h
    · cases h
    · next hm =>
      obtain rfl := Option.some.inj h
      rw [← Table.lastOf_eq hlength hfit] at hm
      exact Table.relocate_unmappable hlength ((Table.fits_iff hlength).mpr hfit) hm t

section serves

variable {t : Table} (ht : t.Sound) (hp : t.plan = .none) {d : Register}
  (hd : d.Represents t.references)
include ht hp hd

/-- What is read is answered. -/
theorem reads {α : Type} {m : Attempt α} {a : α} (hm : Attempt.Enacts m t.store [] (.ok a))
    (f : α → ReferenceAnswer) :
    Attempt.Records (m >>= fun a => pure (f a)) t (.ok (f a), d) :=
  ((hm t ht.has).returns f).records hp hd

theorem store_serves (a : Address) (operand : Int) (hash : UInt64) (equate : Key) :
    (store a operand hash equate).run.Records t (d.serve (store a operand hash equate)) := by
  rw [Register.serve]
  split
  · next ha =>
    obtain ⟨k, hk⟩ := Option.isSome_iff_exists.mp (Address.key?_isSome_iff.mpr ha)
    rw [hd.next]
    have hstore := Table.storeReference_ends ht.has hk operand hash equate
    exact (hstore.returns ReferenceAnswer.reference).records hp
      ⟨ht.store.standFor_create hd.entries hk operand hash equate, rfl⟩
  · next ha =>
    have hk : a.key? = none := if_neg ha
    have hm : Attempt.Enacts (store a operand hash equate).run t.store []
        (.error (Problem.unmappable a).diagnostic) := by
      rw [run, Table.storeReference, hk]
      exact Enacts.bind_error (Enacts.refuse _ _)
    exact (hm t ht.has).records hp hd

theorem move_serves (monitor : Monitor) (source target : Address) (length : UInt64) :
    (move monitor source target length).run.Records t
      (d.serve (move monitor source target length)) := by
  have hwatched : Table.Sound { t with monitor } :=
    ⟨ht.store, ht.equateCache, ht.referenceCache, ht.loud⟩
  have hon : ∀ {r : Except Diagnostic Outcome} {t' : Table},
      Attempt.on (Table.relocate source target length) { t with monitor } = (r, t') →
      Attempt.on (move monitor source target length).run t = (r.map .outcome, t') := by
    intro r t' hrun
    rw [run, on_lift_bind]
    cases r with
    | ok o => exact on_bind_ok hrun _
    | error p => exact on_bind_error hrun _
  rw [Register.serve]
  split
  · next hlength =>
    subst hlength
    exact records_of_on (hon (Table.relocate_zero _)) hwatched hp hd
  · next hlength =>
    split
    · next p ho =>
      exact records_of_on (hon (relocate_refused hlength ho _)) hwatched hp hd
    · next ho =>
      obtain ⟨hfit, hm⟩ := Register.objection?_eq_none hlength ho
      rcases hrun : Attempt.on (Table.relocate source target length) { t with monitor } with
        ⟨r, t'⟩
      have hmoves : Table.Relocates { t with monitor } source target length d.entries (r, t') := by
        rw [← hrun]
        exact Table.relocate_run hlength ((Table.fits_iff hlength).mpr hfit) hm hwatched hp
          hd.entries
      have houtcome := hmoves.outcome_eq hlength
      have hstand := hmoves.standFor hlength hwatched hd.entries
      obtain ⟨s', hk, -, hnext, -⟩ := hmoves.keeps
      obtain rfl : r = .ok _ := houtcome
      exact records_of_on (hon hrun) hk.sound (hk.plan.trans hp)
        ⟨hstand, hd.next.trans (hnext.symm.trans (congrArg _ hk.references.symm))⟩

/-- An operation on references answers as the register does. -/
theorem serves (q : ReferenceRequest) : q.run.Records t (d.serve q) := by
  have hs := ht.store
  have hl : t.store.references.StandFor d.entries := hd.entries
  cases q with
  | store a operand hash equate => exact store_serves ht hp hd a operand hash equate
  | erase id =>
    have herase := Table.eraseReference_ends ht.has id
    refine (herase.returns fun _ => ReferenceAnswer.done).records hp
      ⟨hs.standFor_erase hl id, ?_⟩
    exact hd.next.trans (t.references.next_erase id).symm
  | withId id =>
    rw [Register.serve, ← hs.reference?_eq hl]
    exact reads ht hp hd (Table.fetchReference_enacts t.store id) .reference?
  | keysAt a =>
    rw [Register.serve, ← hs.keysAt_eq hl]
    exact reads ht hp hd (Table.keysAt_enacts t.store a) .keys
  | keysTo equate =>
    rw [Register.serve, ← hs.keysTo_eq hl]
    exact reads ht hp hd (Table.keysTo_enacts t.store equate) .keys
  | referencesAt a =>
    rw [Register.serve, ← hs.referencesAt_eq hl]
    exact reads ht hp hd (Table.fetchAt_enacts t.store a) .references
  | referencesTo equate =>
    rw [Register.serve, ← hs.referencesTo_eq hl]
    exact reads ht hp hd (Table.fetchTo_enacts t.store equate) .references
  | move monitor source target length => exact move_serves ht hp hd monitor source target length
  | dropCache =>
    exact ⟨rfl, ⟨ht.store, ht.equateCache, t.referenceCache.agrees_clear _, ht.loud⟩, hp, hd⟩

/-- Operations carried out in order answer as the register does, and leave it behind. -/
theorem serves_all (l : List ReferenceRequest) :
    answers t l = (d.serveAll l).1 ∧ (behind t l).Sound ∧ (behind t l).plan = .none ∧
      (d.serveAll l).2.Represents (behind t l).references := by
  induction l generalizing t d with
  | nil => exact ⟨rfl, ht, hp, hd⟩
  | cons q l ih =>
    obtain ⟨ha, hsound, hplan, hrepresents⟩ := serves ht hp hd q
    obtain ⟨hrest, hbehind⟩ := ih hsound hplan hrepresents
    refine ⟨?_, hbehind⟩
    rw [answers, Register.serveAll, answer, ha, hrest]

/-- Both views list the entries, each at its address and at its equate. -/
theorem mem_entries_iff (r : Reference) :
    (r ∈ d.entries ↔ ∃ a, (referencesAt a).Lists t r) ∧
      (r ∈ d.entries ↔ ∃ id, (referencesTo id).Lists t r) := by
  have hat : ∀ a, (referencesAt a).answer t = _ := fun a => (serves ht hp hd _).answer
  have hto : ∀ id, (referencesTo id).answer t = _ := fun id => (serves ht hp hd _).answer
  simp [Lists, hat, hto, Register.serve]

end serves

/-- On an empty table whose caches have any capacities, and where no storage call fails, the
operations on references answer as a register does that starts empty.  Behind them the register
is proper: a new key is greater than all keys handed out before; an operation that is refused is
refused for its arguments, and changes nothing; and the listings by address and by equate both
list just the entries. -/
theorem answers_eq_register (equates references : Nat) (l : List ReferenceRequest) :
    let t := Table.withCaches equates references
    let d := (Register.serveAll {} l).2
    answers t l = (Register.serveAll {} l).1 ∧ d.Proper ∧
      (∀ q x, q.answer (behind t l) = .error x →
        x.code = .invalidArgument ∧ (d.serve q).2 = d) ∧
      ∀ r, (r ∈ d.entries ↔ ∃ a, (referencesAt a).Lists (behind t l) r) ∧
        (r ∈ d.entries ↔ ∃ id, (referencesTo id).Lists (behind t l) r) := by
  intro t d
  have ht : t.Sound := Table.sound_opened FaultPlan.loud_none equates references none none
  obtain ⟨hanswers, hsound, hplan, hrepresents⟩ := serves_all ht rfl Register.represents_empty l
  refine ⟨hanswers, Register.proper_empty.serveAll l, fun q x hx => ?_,
    mem_entries_iff hsound hplan hrepresents⟩
  exact Register.serve_error ((serves hsound hplan hrepresents q).answer.symm.trans hx)

/-- A move that is stopped behind two places, their end and one reference has moved the one with
the lesser address. -/
example : answers (Table.withCaches 1 1) [.store ⟨0, 17⟩ 0 0 5, .store ⟨0, 16⟩ 0 0 5,
    .move { allowance := some 4 } ⟨0, 16⟩ ⟨1, 0⟩ 2, .referencesTo 5] =
      [.ok (.reference ⟨1, ⟨0, 17⟩, 0, 0, 5⟩), .ok (.reference ⟨2, ⟨0, 16⟩, 0, 0, 5⟩),
        .ok (.outcome .cancelled),
        .ok (.references [⟨1, ⟨0, 17⟩, 0, 0, 5⟩, ⟨2, ⟨1, 0⟩, 0, 0, 5⟩])] := by
  decide +kernel

end ReferenceRequest

end Equates

/-
Coherence: the record caches hold what is stored.

A coherent table (`Table.Coherent`) has, for every key that one of its caches holds, just
the record that is stored under this key, and finds it there.  A cache may lag behind
storage only by holding less.  Every write goes to storage first and touches its cache only
where the call went through, so nothing depends on which calls fail:
`Session.caches_coherent` holds behind every session, also where a renaming was refused by
storage or a move broke off between two records, some of them moved and some of them not.
-/
import Equates.Proofs.Session

namespace Equates

/-- Every record in a cache is the stored record of the key that it is cached under, and the
caches find their records by these keys. -/
structure Table.Coherent (t : Table) : Prop where
  equateIndex : t.equateCache.Linked
  referenceIndex : t.referenceCache.Linked
  equates : ∀ {k : Key} {e : Equate}, (k, e) ∈ t.equateCache.entries →
    e.id = k ∧ t.equates.get? k = some e
  references : ∀ {k : Key} {r : ReferenceRow}, (k, r) ∈ t.referenceCache.entries →
    r.id = k ∧ t.references.get? k = some r

theorem Table.Sound.coherent {t : Table} (ht : t.Sound) : t.Coherent where
  equateIndex := ht.equateCache.linked
  referenceIndex := ht.referenceCache.linked
  equates h :=
    have hget := ht.equateCache.mem _ h
    ⟨ht.store.equates.id_eq hget, hget⟩
  references h :=
    have hget := ht.referenceCache.mem _ h
    ⟨ht.store.references.id_eq hget, hget⟩

namespace Session

/-- Behind every session, whatever the capacities of the caches and whichever storage calls
fail openly, the caches hold what is stored. -/
theorem caches_coherent {plan : FaultPlan} (hplan : plan.Loud) (equates references : Nat)
    (listing : Option Listing) (registry : Option TypeRegistry) (l : List Step) :
    (play (Table.opened equates references plan listing registry) l).Coherent :=
  (sound (Table.sound_opened hplan equates references listing registry) l).coherent

/-- No equate is ever overwritten, and only one reference is. -/
def failingOverwrite : FaultPlan := fun calls call =>
  if call = .equates .update ∨
      call = .references .update ∧ calls.any (fun c => c.call = .references .update) then
    some { diagnostic := .error .storageFailure "no update" }
  else none

theorem loud_failingOverwrite : failingOverwrite.Loud :=
  FaultPlan.loud_ite _ _

/-- A renaming that fails, and a move that breaks off between two references. -/
def brokenOverwrites : List Step :=
  [⟨{}, .define "one" 1⟩, ⟨{}, .attach 1 ⟨0, 16⟩ 0 0⟩, ⟨{}, .attach 1 ⟨0, 17⟩ 0 0⟩,
    ⟨{}, .move ⟨0, 16⟩ ⟨0, 18⟩ 2⟩, ⟨{}, .rename 1 "two"⟩]

/-- The table behind that session. -/
def halfMoved : Table :=
  play (Table.opened 4 4 failingOverwrite none none) brokenOverwrites

/-- The equate is cached under its old name, and the reference that was not reached at its
old place. -/
theorem caches_coherent_halfMoved :
    failingOverwrite.Loud ∧ halfMoved.references.get? 1 = some ⟨1, 18, 0, 0, 1⟩ ∧
      (2, ⟨2, 17, 0, 0, 1⟩) ∈ halfMoved.referenceCache.entries ∧
      halfMoved.references.get? 2 = some ⟨2, 17, 0, 0, 1⟩ ∧
      (1, ⟨1, "one", 1⟩) ∈ halfMoved.equateCache.entries ∧
      halfMoved.equates.get? 1 = some ⟨1, "one", 1⟩ := by
  have hmoved : halfMoved.references.get? 1 = some ⟨1, 18, 0, 0, 1⟩ := by decide +kernel
  have hplaced : (2, ⟨2, 17, 0, 0, 1⟩) ∈ halfMoved.referenceCache.entries := by decide +kernel
  have hnamed : (1, ⟨1, "one", 1⟩) ∈ halfMoved.equateCache.entries := by decide +kernel
  have h : halfMoved.Coherent :=
    caches_coherent loud_failingOverwrite 4 4 none none brokenOverwrites
  exact ⟨loud_failingOverwrite, hmoved, hplaced, (h.references hplaced).2, hnamed,
    (h.equates hnamed).2⟩

end Session

end Equates

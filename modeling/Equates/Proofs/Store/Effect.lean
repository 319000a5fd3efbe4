/-
Effects: the elementary changes of what a table has stored.

A `Store` is the stored part of a table together with the changes that were made
known of it.  Every operation of a table, however it ends, performs a list of
effects one after the other (`Store.after`).  `Effect.Fits` says when an effect is in
order, and `Store.Lawful` that each effect of a list is in order in its turn.

An equate that loses a reference is owed a look: whether it has another one.  The
ledger of such debts is a list of equate keys, which `Effect.owe` keeps: a detached
reference enters its equate, and settling the debt, attaching a new reference or
discarding the equate takes it out again.  An operation that runs to its end leaves no
debt.

* `Effect.Fits.sound`, `Store.Sound.after` — sound stores stay sound;
* `Store.lawful_append` — lists of effects are joined end to end.
-/
import Equates.Table.Slot
import Equates.Proofs.Address.Key
import Equates.Proofs.Rows.Equate
import Equates.Proofs.Rows.Reference

namespace Equates

/-- What is stored, and the changes that were made known, newest first. -/
structure Store where
  equates : EquateRows
  references : ReferenceRows
  changes : List Change

def Table.store (t : Table) : Store where
  equates := t.equates
  references := t.references
  changes := t.journal.filterMap Entry.change?

/-- The slot that the row occupies. -/
def ReferenceRow.slot (r : ReferenceRow) : Slot :=
  .of r.operand r.hash

inductive Effect where
  /-- A new equate is stored. -/
  | define (name : String) (value : Int64)
  /-- The equate `e` gets a new name. -/
  | relabel (e : Equate) (name : String)
  /-- The equate `e` goes. -/
  | discard (e : Equate)
  /-- The equate `id` goes if it has no reference. -/
  | settle (id : Key)
  /-- A new reference to the equate `e` is stored. -/
  | attach (e : Equate) (address : Address) (operand : Int) (hash : UInt64)
  /-- The reference `r` goes. -/
  | detach (r : Reference)
  /-- The reference `r` moves to the address with the given key. -/
  | rekey (r : ReferenceRow) (key : Int)

namespace Store

/-- The rows are well formed, and every reference stands at an address. -/
structure Sound (s : Store) : Prop where
  equates : s.equates.Sound
  references : s.references.Sound
  placed : ∀ r ∈ s.references, ∃ a, Address.ofKey? r.addressKey = some a

/-- The store without the equate `e`. -/
def withoutEquate (s : Store) (e : Equate) : Store :=
  { s with
    equates := s.equates.erase e.id
    changes := .equateRemoved e.name e.value :: s.changes }

/-- The store without the reference `r`. -/
def withoutReference (s : Store) (r : Reference) : Store :=
  { s with
    references := s.references.erase r.id
    changes := .referenceRemoved (r.attachment (s.equates.get? r.equate)) :: s.changes }

/-- The store with a new reference to the equate `e` at the address `a` with key `k`. -/
def withReference (s : Store) (e : Equate) (a : Address) (k operand : Int) (hash : UInt64) :
    Store :=
  { s with
    references := (s.references.create k operand hash e.id).2
    changes := .referenceAdded ⟨e.name, e.value, a, operand, hash⟩ :: s.changes }

end Store

namespace Effect

/-- What the effect makes of a store; where it does not fit it does nothing. -/
def apply (s : Store) : Effect → Store
  | define name value =>
    match s.equates.create name value with
    | (.ok _, rows) =>
      { s with equates := rows, changes := .equateAdded name value :: s.changes }
    | (.error _, _) => s
  | relabel e name =>
    match s.equates.update { e with name } with
    | (.ok (), rows) =>
      { s with equates := rows, changes := .equateRenamed e.name name :: s.changes }
    | (.error _, _) => s
  | discard e => s.withoutEquate e
  | settle id =>
    if s.references.keysTo id = [] then
      match s.equates.get? id with
      | some e => s.withoutEquate e
      | none => s
    else s
  | attach e a operand hash =>
    match a.key? with
    | some k => s.withReference e a k operand hash
    | none => s
  | detach r => s.withoutReference r
  | rekey r key =>
    match s.references.update { r with addressKey := key } with
    | (.ok (), rows) => { s with references := rows }
    | (.error _, _) => s

/-- The debts behind the effect.  A key that is owed twice stands twice. -/
def owe (owed : List Key) : Effect → List Key
  | detach r => r.equate :: owed
  | attach e _ _ _ => owed.filter (· ≠ e.id)
  | settle id => owed.erase id
  | discard e => owed.filter (· ≠ e.id)
  | _ => owed

/-- The effect is in order where `owed` is owed. -/
def Fits (owed : List Key) (s : Store) : Effect → Prop
  | define name _ => s.equates.hasName name = false ∧ Name.validate name = .ok ()
  | relabel e name =>
    e ∈ s.equates ∧ e.name ≠ name ∧ s.equates.hasName name = false ∧ Name.validate name = .ok ()
  | discard e => e ∈ s.equates ∧ ∀ r ∈ s.references, r.equate ≠ e.id
  | settle id => id ∈ owed
  | attach e a operand hash =>
    e ∈ s.equates ∧ a.Mappable ∧ (0 ≤ operand ∧ operand ≤ Table.maxOperand) ∧
      ∀ r ∈ s.references, a.key? = some r.addressKey → r.slot ≠ .of operand hash
  | detach r => ∃ row ∈ s.references, row.decode = .ok r
  | rekey r key => r ∈ s.references ∧ ∃ a, Address.ofKey? key = some a

end Effect

namespace Store

/-- The store behind a list of effects. -/
def after (s : Store) (l : List Effect) : Store :=
  l.foldl Effect.apply s

/-- Each effect of the list is in order in its turn. -/
def Lawful : List Key → Store → List Effect → Prop
  | _, _, [] => True
  | owed, s, x :: l => x.Fits owed s ∧ Lawful (x.owe owed) (x.apply s) l

/-- The debts behind a list of effects. -/
def debts (owed : List Key) (l : List Effect) : List Key :=
  l.foldl Effect.owe owed

@[simp] theorem after_nil (s : Store) : s.after [] = s := rfl

@[simp] theorem after_cons (s : Store) (x : Effect) (l : List Effect) :
    s.after (x :: l) = (x.apply s).after l := rfl

theorem after_append (s : Store) (l l' : List Effect) :
    s.after (l ++ l') = (s.after l).after l' :=
  List.foldl_append

@[simp] theorem debts_nil (owed : List Key) : debts owed [] = owed := rfl

@[simp] theorem debts_cons (owed : List Key) (x : Effect) (l : List Effect) :
    debts owed (x :: l) = debts (x.owe owed) l := rfl

theorem debts_append (owed : List Key) (l l' : List Effect) :
    debts owed (l ++ l') = debts (debts owed l) l' :=
  List.foldl_append

@[simp] theorem lawful_nil (owed : List Key) (s : Store) : Lawful owed s [] := trivial

@[simp] theorem lawful_cons {owed : List Key} {s : Store} {x : Effect} {l : List Effect} :
    Lawful owed s (x :: l) ↔ x.Fits owed s ∧ Lawful (x.owe owed) (x.apply s) l := Iff.rfl

theorem lawful_append {owed : List Key} {s : Store} {l l' : List Effect} :
    Lawful owed s (l ++ l') ↔ Lawful owed s l ∧ Lawful (debts owed l) (s.after l) l' := by
  induction l generalizing owed s with
  | nil => simp
  | cons x l ih =>
    rw [List.cons_append, lawful_cons, lawful_cons, ih, and_assoc]
    rfl

theorem Lawful.of_prefix {owed : List Key} {s : Store} {l l' : List Effect}
    (h : Lawful owed s l') (hl : l <+: l') : Lawful owed s l := by
  obtain ⟨rest, rfl⟩ := hl
  exact (lawful_append.mp h).1

/-! ### What an effect does to the rows -/

theorem mem_references_withReference {s : Store} (h : s.Sound) (e : Equate) (a : Address)
    (k operand : Int) (hash : UInt64) {r : ReferenceRow} :
    r ∈ (s.withReference e a k operand hash).references ↔
      r = ⟨s.references.next, k, operand, hash, e.id⟩ ∨ r ∈ s.references :=
  ReferenceRows.mem_create k operand hash e.id h.references

theorem mem_references_withoutReference {s : Store} (r : Reference) {r' : ReferenceRow} :
    r' ∈ (s.withoutReference r).references ↔ r' ∈ s.references ∧ r'.id ≠ r.id :=
  ReferenceRows.mem_erase

theorem get?_withoutEquate (s : Store) (e : Equate) (k : Key) :
    (s.withoutEquate e).equates.get? k = if k = e.id then none else s.equates.get? k :=
  EquateRows.get?_erase _ _ _

/-! ### Sound stores behind a write -/

namespace Sound

variable {s : Store}

theorem create_equate (hs : s.Sound) {name : String} {value : Int64} {e : Equate}
    {rows : EquateRows} (hc : s.equates.create name value = (.ok e, rows)) (l : List Change) :
    (Store.mk rows s.references l).Sound :=
  ⟨hs.equates.create hc, hs.references, hs.placed⟩

theorem update_equate (hs : s.Sound) {e : Equate} {rows : EquateRows}
    (hu : s.equates.update e = (.ok (), rows)) (l : List Change) :
    (Store.mk rows s.references l).Sound :=
  ⟨hs.equates.update hu, hs.references, hs.placed⟩

theorem erase_equate (hs : s.Sound) (id : Key) (l : List Change) :
    (Store.mk (s.equates.erase id) s.references l).Sound :=
  ⟨hs.equates.erase id, hs.references, hs.placed⟩

theorem create_reference (hs : s.Sound) {k : Int} {a : Address} (ha : Address.ofKey? k = some a)
    (operand : Int) (hash : UInt64) (equate : Key) (l : List Change) :
    (Store.mk s.equates (s.references.create k operand hash equate).2 l).Sound := by
  refine ⟨hs.equates, hs.references.create k operand hash equate, fun r hr => ?_⟩
  rw [ReferenceRows.mem_def, ReferenceRows.get?_create] at hr
  split at hr
  · cases hr
    exact ⟨a, ha⟩
  · exact hs.placed r hr

theorem update_reference (hs : s.Sound) {r : ReferenceRow} {a : Address}
    (ha : Address.ofKey? r.addressKey = some a) {rows : ReferenceRows}
    (hu : s.references.update r = (.ok (), rows)) (l : List Change) :
    (Store.mk s.equates rows l).Sound := by
  refine ⟨hs.equates, hs.references.update hu, fun r' hr' => ?_⟩
  rw [ReferenceRows.mem_def, ReferenceRows.get?_update hu] at hr'
  split at hr'
  · cases hr'
    exact ⟨a, ha⟩
  · exact hs.placed r' hr'

theorem erase_reference (hs : s.Sound) (id : Key) (l : List Change) :
    (Store.mk s.equates (s.references.erase id) l).Sound :=
  ⟨hs.equates, hs.references.erase id, fun r hr => hs.placed r (ReferenceRows.mem_erase.mp hr).1⟩

end Sound

/-- Settling a debt removes an equate without references, or nothing. -/
theorem apply_settle (s : Store) (id : Key) :
    (∃ e, s.equates.get? id = some e ∧ s.references.keysTo id = [] ∧
      (Effect.settle id).apply s = s.withoutEquate e) ∨
    ((s.equates.get? id = none ∨ s.references.keysTo id ≠ []) ∧
      (Effect.settle id).apply s = s) := by
  by_cases hk : s.references.keysTo id = []
  · cases he : s.equates.get? id with
    | some e => exact .inl ⟨e, rfl, hk, by simp [Effect.apply, hk, he]⟩
    | none => exact .inr ⟨.inl rfl, by simp [Effect.apply, hk, he]⟩
  · exact .inr ⟨.inr hk, by simp [Effect.apply, hk]⟩

theorem references_apply_settle (s : Store) (id : Key) :
    ((Effect.settle id).apply s).references = s.references := by
  obtain ⟨e, -, -, happ⟩ | ⟨-, happ⟩ := s.apply_settle id
  · rw [happ]
    rfl
  · rw [happ]

end Store

namespace Effect

open Store

/-- A fitting attachment stores a reference. -/
theorem apply_attach {owed : List Key} {s : Store} {e : Equate} {a : Address} {operand : Int}
    {hash : UInt64} (h : (attach e a operand hash).Fits owed s) :
    ∃ k, a.key? = some k ∧
      (attach e a operand hash).apply s = s.withReference e a k operand hash := by
  obtain ⟨k, hk⟩ := Option.isSome_iff_exists.mp (Address.key?_isSome_iff.mpr h.2.1)
  exact ⟨k, hk, by simp [apply, hk]⟩

/-- A fitting definition stores an equate. -/
theorem apply_define {owed : List Key} {s : Store} {name : String} {value : Int64}
    (h : (define name value).Fits owed s) :
    ∃ rows, s.equates.create name value = (.ok ⟨s.equates.next, name, value⟩, rows) ∧
      (define name value).apply s =
        { s with equates := rows, changes := .equateAdded name value :: s.changes } := by
  have hc := EquateRows.create_ok value h.1
  exact ⟨_, hc, by simp [apply, hc]⟩

/-- A fitting renaming overwrites an equate. -/
theorem apply_relabel {owed : List Key} {s : Store} {e : Equate} {name : String}
    (h : (relabel e name).Fits owed s) :
    ∃ rows, s.equates.update { e with name } = (.ok (), rows) ∧
      (relabel e name).apply s =
        { s with equates := rows, changes := .equateRenamed e.name name :: s.changes } := by
  have hu := EquateRows.update_ok h.1 h.2.1 h.2.2.1
  exact ⟨_, hu, by simp [apply, hu]⟩

/-- A fitting move overwrites a reference. -/
theorem apply_rekey {owed : List Key} {s : Store} {r : ReferenceRow} {key : Int}
    (h : (rekey r key).Fits owed s) :
    ∃ rows, s.references.update { r with addressKey := key } = (.ok (), rows) ∧
      (rekey r key).apply s = { s with references := rows } := by
  have hr : s.references.get? r.id = some r := h.1
  have hu : s.references.update { r with addressKey := key } = (.ok (), _) :=
    ReferenceRows.update_ok hr
  exact ⟨_, hu, by simp [apply, hu]⟩

/-- After a fitting move the row stands at its new place, and all others where they were. -/
theorem get?_apply_rekey {owed : List Key} {s : Store} {r : ReferenceRow} {key : Int}
    (h : (rekey r key).Fits owed s) (id : Key) :
    ((rekey r key).apply s).references.get? id =
      if id = r.id then some { r with addressKey := key } else s.references.get? id := by
  obtain ⟨rows, hu, happ⟩ := apply_rekey h
  rw [happ]
  exact ReferenceRows.get?_update hu id

/-- Sound stores stay sound. -/
theorem Fits.sound {owed : List Key} {s : Store} {x : Effect} (h : x.Fits owed s)
    (hs : s.Sound) : (x.apply s).Sound := by
  cases x with
  | define name value =>
    obtain ⟨rows, hc, happ⟩ := apply_define h
    rw [happ]
    exact hs.create_equate hc _
  | relabel e name =>
    obtain ⟨rows, hu, happ⟩ := apply_relabel h
    rw [happ]
    exact hs.update_equate hu _
  | discard e => exact hs.erase_equate e.id _
  | settle id =>
    obtain ⟨e, -, -, happ⟩ | ⟨-, happ⟩ := s.apply_settle id
    · rw [happ]
      exact hs.erase_equate e.id _
    · rw [happ]
      exact hs
  | attach e a operand hash =>
    obtain ⟨k, hk, happ⟩ := apply_attach h
    rw [happ]
    exact hs.create_reference (Address.ofKey?_of_key? hk) operand hash e.id _
  | detach r => exact hs.erase_reference r.id _
  | rekey r key =>
    obtain ⟨rows, hu, happ⟩ := apply_rekey h
    obtain ⟨-, a, ha⟩ := h
    rw [happ]
    exact hs.update_reference ha hu _

end Effect

namespace Store

/-- What every effect of the kinds `P` keeps up, a lawful list of them keeps up. -/
theorem Lawful.preserves {P : Effect → Prop} {I : List Key → Store → Prop} {owed : List Key}
    {s : Store} {l : List Effect} (hl : Lawful owed s l) (hs : s.Sound) (hP : ∀ x ∈ l, P x)
    (hI : ∀ {owed : List Key} {s : Store} {x : Effect}, s.Sound → x.Fits owed s → P x →
      I owed s → I (x.owe owed) (x.apply s))
    (h : I owed s) : I (debts owed l) (s.after l) := by
  induction l generalizing owed s with
  | nil => exact h
  | cons x l ih =>
    -- Soundness is carried along: the invariant may rely on it at every effect.
    have hx := hP x List.mem_cons_self
    exact ih hl.2 (hl.1.sound hs) (fun y hy => hP y (List.mem_cons_of_mem x hy)) (hI hs hl.1 hx h)

theorem Lawful.sound {owed : List Key} {s : Store} {l : List Effect} (hl : Lawful owed s l)
    (hs : s.Sound) : (s.after l).Sound :=
  hl.preserves (P := fun _ => True) (I := fun _ => Sound) hs (fun _ _ => trivial)
    (fun hs hx _ _ => hx.sound hs) hs

end Store

end Equates

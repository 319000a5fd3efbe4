/-
The stored equates are a dictionary.

A `Dictionary` is a finite map from keys to names and values, kept as the list of its entries
in the order of their keys, together with the keys that it has handed out.
`Dictionary.serve` says what each operation on equates answers and what it makes of the map,
without rows, an index of names or a cache.

* `Dictionary.Proper` — keys and names are unique, no name is blank, and no key is handed out
  twice; every operation keeps a dictionary so (`Dictionary.Proper.serve`);
* `EquateRequest.serves` — one operation on a table answers as the dictionary does;
* `EquateRequest.answers_eq_dictionary` — so does every list of operations on an empty table,
  whatever the capacities of its caches.
-/
import Equates.Table.Request
import Equates.Proofs.Name.Validity
import Equates.Proofs.Session

namespace Equates

open Attempt

/-! ### Operations on equates alone -/

inductive EquateRequest where
  | define (name : String) (value : Int64)
  | named (name : String)
  | withId (id : Key)
  | withValue (value : Int64)
  | all
  | erase (id : Key)
  | relabel (id : Key) (name : String)
  | dropCache
deriving DecidableEq, Repr

namespace EquateRequest

/-- Carries out the operation. -/
def run : EquateRequest → Action Answer
  | define name value => (Table.storeEquate name value).answer .equate
  | named name => (Table.fetchNamed name).answer .equate?
  | withId id => (Table.fetchEquate id).answer .equate?
  | withValue value => (Table.fetchWithValue value).answer .equates
  | all => Table.fetchAll.answer .equates
  | erase id => (Table.eraseEquate id).answer fun _ => .done
  | relabel id name => (Table.relabel id name).answer .equate
  | dropCache => do
    Table.dropEquateCache
    return .done

/-- The answers of the operations, carried out in order. -/
def answers (t : Table) : List EquateRequest → List Answer
  | [] => []
  | q :: l => (Action.on q.run t).1 :: answers (Action.on q.run t).2 l

end EquateRequest

/-! ### Dictionaries -/

structure Dictionary where
  /-- In the order of their keys. -/
  entries : List Equate := []
  /-- The keys handed out so far, newest first. -/
  issued : List Key := []
deriving DecidableEq, Repr

namespace Dictionary

/-- The key of the next new entry. -/
def next (d : Dictionary) : Key :=
  d.issued.headD 0 + 1

/-- The name is taken. -/
def Has (d : Dictionary) (name : String) : Prop :=
  ∃ e ∈ d.entries, e.name = name

instance (d : Dictionary) (name : String) : Decidable (d.Has name) :=
  inferInstanceAs (Decidable (∃ e ∈ d.entries, e.name = name))

/-- Why no entry may have the name: it has no byte that is not a blank. -/
def objection? (name : String) : Option Problem :=
  if (Name.bytes name).isEmpty then some .emptyName
  else if (Name.bytes name).all Name.isBlankByte then some .blankName
  else none

/-- The answer of an operation, and the dictionary behind it. -/
def serve (d : Dictionary) : EquateRequest → Answer × Dictionary
  | .define name value =>
    if d.Has name then (.failed (Problem.nameTaken name).diagnostic, d)
    else
      match objection? name with
      | some p => (.failed p.diagnostic, d)
      | none =>
        let e : Equate := ⟨d.next, name, value⟩
        (.equate e, ⟨d.entries ++ [e], d.next :: d.issued⟩)
  | .named name => (.equate? (d.entries.find? (·.name = name)), d)
  | .withId id => (.equate? (d.entries.find? (·.id = id)), d)
  | .withValue value => (.equates (d.entries.filter (·.value = value)), d)
  | .all => (.equates d.entries, d)
  | .erase id => (.done, { d with entries := d.entries.filter (·.id ≠ id) })
  | .relabel id name =>
    match d.entries.find? (·.id = id) with
    | none => (.failed (Problem.noSuchEquate id).diagnostic, d)
    | some e =>
      if e.name = name then (.equate e, d)
      else
        match objection? name with
        | some p => (.failed p.diagnostic, d)
        | none =>
          if d.Has name then (.failed (Problem.nameTaken name).diagnostic, d)
          else
            (.equate { e with name }, { d with
              entries := d.entries.map fun e' => if e'.id = id then { e with name } else e' })
  | .dropCache => (.done, d)

/-- The answers to a list of operations, and the dictionary behind them. -/
def serveAll (d : Dictionary) : List EquateRequest → List Answer × Dictionary
  | [] => ([], d)
  | q :: l => ((d.serve q).1 :: ((d.serve q).2.serveAll l).1, ((d.serve q).2.serveAll l).2)

/-! ### What a dictionary keeps to -/

/-- Keys ascend, also in the order in which they were handed out, so that a new one is greater
than all before it; names are unique, and none is blank. -/
structure Proper (d : Dictionary) : Prop where
  sorted : d.entries.Pairwise (·.id < ·.id)
  issued : ∀ e ∈ d.entries, e.id ∈ d.issued
  fresh : d.issued.Pairwise (· > ·)
  distinct : d.entries.Pairwise (·.name ≠ ·.name)
  visible : ∀ e ∈ d.entries, ∃ b ∈ Name.bytes e.name, Name.isBlankByte b = false

theorem proper_empty : Proper {} where
  sorted := List.Pairwise.nil
  issued := List.forall_mem_nil _
  fresh := List.Pairwise.nil
  distinct := List.Pairwise.nil
  visible := List.forall_mem_nil _

/-- The next key is greater than all keys handed out before. -/
theorem Proper.lt_next {d : Dictionary} (h : d.Proper) {k : Key} (hk : k ∈ d.issued) :
    k < d.next :=
  lt_newest_add_one h.fresh hk

theorem visible_of_objection? {name : String} (h : objection? name = none) :
    ∃ b ∈ Name.bytes name, Name.isBlankByte b = false := by
  rw [objection?] at h
  split at h
  · cases h
  · split at h
    · cases h
    · next hb => simpa using hb

/-- The name of one entry is changed into one that no entry has. -/
theorem Proper.relabel {d : Dictionary} (h : d.Proper) (e : Equate) {name : String}
    (hname : objection? name = none) (hfree : ¬ d.Has name) :
    Proper { d with
      entries := d.entries.map fun e' => if e'.id = e.id then { e with name } else e' } := by
  have hid : ∀ e' : Equate, (if e'.id = e.id then { e with name } else e').id = e'.id := by
    intro e'
    split
    · next h => exact h.symm
    · rfl
  refine ⟨?_, ?_, h.fresh, ?_, ?_⟩
  · rw [List.pairwise_map]
    simpa only [hid] using h.sorted
  · refine List.forall_mem_map.mpr fun e' he' => ?_
    rw [hid]
    exact h.issued e' he'
  · rw [List.pairwise_map]
    refine (h.distinct.and h.sorted).imp_of_mem fun {e₁ e₂} h₁ h₂ hne => ?_
    -- At most one of two entries gets the new name, which the other one does not have.
    split
    · next heq₁ =>
      rw [if_neg (heq₁ ▸ ne_of_gt hne.2)]
      exact fun hn => hfree ⟨e₂, h₂, hn.symm⟩
    · split
      · exact fun hn => hfree ⟨e₁, h₁, hn⟩
      · exact hne.1
  · refine List.forall_mem_map.mpr fun e' he' => ?_
    split
    · exact visible_of_objection? hname
    · exact h.visible e' he'

theorem Proper.serve {d : Dictionary} (h : d.Proper) (q : EquateRequest) :
    (d.serve q).2.Proper := by
  cases q with
  | define name value =>
    rw [Dictionary.serve]
    split
    · exact h
    · next hfree =>
      split
      · exact h
      · next hname =>
        refine ⟨?_, ?_, ?_, ?_, ?_⟩
        · refine List.pairwise_append.mpr ⟨h.sorted, List.pairwise_singleton _ _, ?_⟩
          intro e he e' he'
          obtain rfl := List.mem_singleton.mp he'
          exact h.lt_next (h.issued e he)
        · refine List.forall_mem_append.mpr ⟨fun e he => ?_, ?_⟩
          · exact List.mem_cons_of_mem _ (h.issued e he)
          · exact List.forall_mem_singleton.mpr List.mem_cons_self
        · exact List.pairwise_cons.mpr ⟨fun k hk => h.lt_next hk, h.fresh⟩
        · refine List.pairwise_append.mpr ⟨h.distinct, List.pairwise_singleton _ _, ?_⟩
          intro e he e' he' hn
          obtain rfl := List.mem_singleton.mp he'
          exact hfree ⟨e, he, hn⟩
        · refine List.forall_mem_append.mpr ⟨h.visible, ?_⟩
          exact List.forall_mem_singleton.mpr (visible_of_objection? hname)
  | erase id =>
    exact ⟨h.sorted.filter _, fun e he => h.issued e (List.mem_filter.mp he).1, h.fresh,
      h.distinct.filter _, fun e he => h.visible e (List.mem_filter.mp he).1⟩
  | relabel id name =>
    rw [Dictionary.serve]
    split
    · exact h
    · next e he =>
      split
      · exact h
      · split
        · exact h
        · next hname =>
          split
          · exact h
          · next hfree =>
            obtain rfl : e.id = id := by simpa using List.find?_some he
            exact h.relabel e hname hfree
  | _ => exact h

theorem Proper.serveAll {d : Dictionary} (h : d.Proper) (l : List EquateRequest) :
    (d.serveAll l).2.Proper := by
  induction l generalizing d with
  | nil => exact h
  | cons q l ih => exact ih (h.serve q)

/-! ### The stored equates as a dictionary -/

/-- The stored rows are the entries, and the same key is next. -/
structure Represents (d : Dictionary) (rows : EquateRows) : Prop where
  entries : d.entries = rows.toList
  next : d.next = rows.next

theorem represents_empty : Represents {} {} :=
  ⟨rfl, rfl⟩

/-- A name is refused for the reason that the dictionary has. -/
theorem validate_eq (name : String) : Name.validate name =
    match objection? name with
    | some p => .error p
    | none => .ok () := by
  simp only [Name.validate, objection?, List.isEmpty_iff, List.all_eq_true,
    Name.bytes_eq_nil_iff, Name.blank_iff_bytes]
  split
  · rfl
  · split
    · rfl
    · rfl

namespace Represents

variable {d : Dictionary} {rows rows' : EquateRows} (hd : d.Represents rows) (hs : rows.Sound)
include hd hs

theorem has_iff {name : String} : d.Has name ↔ rows.hasName name = true := by
  rw [hs.hasName_iff, Has, hd.entries]
  simp only [hs.mem_toList]

theorem hasName_eq_false {name : String} (h : ¬ d.Has name) : rows.hasName name = false := by
  simpa using mt (hd.has_iff hs).mpr h

theorem find?_id (id : Key) : d.entries.find? (·.id = id) = rows.get? id := by
  rw [hd.entries, hs.find?_id]

theorem create {name : String} {value : Int64} {e : Equate}
    (hc : rows.create name value = (.ok e, rows')) :
    Represents ⟨d.entries ++ [⟨d.next, name, value⟩], d.next :: d.issued⟩ rows' := by
  have he : e = ⟨d.next, name, value⟩ := by rw [hd.next, EquateRows.create_equate hc]
  refine ⟨?_, ?_⟩
  · rw [hs.toList_create hc, ← he, hd.entries]
  · rw [EquateRows.next_create hc, ← hd.next]
    rfl

theorem update {e : Equate} (hu : rows.update e = (.ok (), rows')) :
    Represents { d with entries := d.entries.map fun e' => if e'.id = e.id then e else e' }
      rows' := by
  refine ⟨?_, ?_⟩
  · rw [hs.toList_update hu, ← hd.entries]
  · rw [EquateRows.next_update hu, ← hd.next]
    rfl

theorem erase (id : Key) :
    Represents { d with entries := d.entries.filter (·.id ≠ id) } (rows.erase id) := by
  refine ⟨?_, ?_⟩
  · rw [hs.toList_erase, ← hd.entries]
  · rw [EquateRows.next_erase, ← hd.next]
    rfl

end Represents

end Dictionary

/-- From `t` on the action gives the answer, and leaves a sound table with the dictionary. -/
structure Action.Serves (c : Action Answer) (t : Table) (p : Answer × Dictionary) : Prop where
  answer : (Action.on c t).1 = p.1
  sound : (Action.on c t).2.Sound
  plan : (Action.on c t).2.plan = .none
  represents : p.2.Represents (Action.on c t).2.equates

/-- Where no storage call fails, an attempt serves with what it enacts. -/
theorem Attempt.Enacts.serves {α : Type} {m : Attempt α} {s : Store} {l : List Effect}
    {r : Except Diagnostic α} (hm : Attempt.Enacts m s l r) {t : Table} (ht : t.Has s)
    (hp : t.plan = .none) {f : α → Answer} {d : Dictionary}
    (hd : d.Represents (s.after l).equates) : (m.answer f).Serves t (Attempt.reply f r, d) := by
  obtain ⟨hr, hb⟩ := (hm t ht).run hp
  have hon : Action.on (m.answer f) t = (Attempt.reply f r, (Attempt.on m t).2) := by
    rw [Attempt.on_answer, hr]
  refine ⟨congrArg Prod.fst hon, ?_, ?_, ?_⟩
  · rw [hon]
    exact hb.sound
  · rw [hon]
    exact hb.frame.plan.trans hp
  · rw [hon]
    exact hb.equates ▸ hd

namespace EquateRequest

section serves

variable {t : Table} (ht : t.Sound) (hp : t.plan = .none) {d : Dictionary}
  (hd : d.Represents t.equates)
include ht hp hd

theorem define_serves (name : String) (value : Int64) :
    (define name value).run.Serves t (d.serve (define name value)) := by
  have hrows : t.equates.Sound := ht.store.equates
  rw [Dictionary.serve]
  split
  · next hhas =>
    exact (Table.storeEquate_taken value ((hd.has_iff hrows).mp hhas)).serves ht.has hp hd
  · next hhas =>
    have hn := hd.hasName_eq_false hrows hhas
    have hv := Dictionary.validate_eq name
    cases ho : Dictionary.objection? name with
    | some p =>
      rw [ho] at hv
      exact (Table.storeEquate_invalid (s := t.store) value hn hv).serves ht.has hp hd
    | none =>
      rw [ho] at hv
      have hfits : (Effect.define name value).Fits [] t.store := ⟨hn, hv⟩
      obtain ⟨rows, hc, happ⟩ := Effect.apply_define hfits
      have hserves := (Table.storeEquate_enacts hfits).serves ht.has hp (f := .equate)
        (d := ⟨d.entries ++ [⟨d.next, name, value⟩], d.next :: d.issued⟩) ?_
      · rw [Attempt.reply, ← show d.next = t.store.equates.next from hd.next] at hserves
        exact hserves
      · rw [Store.after_cons, Store.after_nil, happ]
        exact hd.create hrows hc

theorem erase_serves (id : Key) : (erase id).run.Serves t (d.serve (erase id)) := by
  have hrows : t.equates.Sound := ht.store.equates
  have herase := hd.erase hrows id
  cases he : t.equates.get? id with
  | none =>
    have hm : Attempt.Enacts (Table.eraseEquate id) t.store [] (.ok ()) := by
      rw [Table.eraseEquate]
      refine Enacts.bind_read (Table.fetchEquate_enacts t.store id) ?_
      rw [show t.store.equates.get? id = none from he]
      exact Enacts.pure _ ()
    -- There is nothing to remove.
    rw [EquateRows.erase, he] at herase
    exact hm.serves ht.has hp herase
  | some e =>
    obtain rfl := hrows.id_eq he
    exact (Table.eraseEquate_enacts (s := t.store) he).serves ht.has hp herase

theorem relabel_serves (id : Key) (name : String) :
    (relabel id name).run.Serves t (d.serve (relabel id name)) := by
  have hrows : t.equates.Sound := ht.store.equates
  rw [Dictionary.serve, hd.find?_id hrows]
  cases he : t.equates.get? id with
  | none => exact (Table.relabel_missing (s := t.store) name he).serves ht.has hp hd
  | some e =>
    obtain rfl := hrows.id_eq he
    dsimp only
    split
    · next hown =>
      subst hown
      exact (Table.relabel_own (s := t.store) he).serves ht.has hp hd
    · next hne =>
      have hv := Dictionary.validate_eq name
      cases ho : Dictionary.objection? name with
      | some p =>
        rw [ho] at hv
        exact (Table.relabel_invalid (s := t.store) he hne hv).serves ht.has hp hd
      | none =>
        rw [ho] at hv
        dsimp only
        split
        · next hhas =>
          have hn := (hd.has_iff hrows).mp hhas
          exact (Table.relabel_taken (s := t.store) he hne hv hn).serves ht.has hp hd
        · next hhas =>
          have hn := hd.hasName_eq_false hrows hhas
          have hfits : (Effect.relabel e name).Fits [] t.store := ⟨he, hne, hn, hv⟩
          obtain ⟨rows, hu, happ⟩ := Effect.apply_relabel hfits
          refine (Table.relabel_enacts hfits).serves ht.has hp ?_
          rw [Store.after_cons, Store.after_nil, happ]
          exact hd.update hrows (e := { e with name }) hu

/-- An operation on equates answers as the dictionary does. -/
theorem serves (q : EquateRequest) : q.run.Serves t (d.serve q) := by
  have hrows : t.equates.Sound := ht.store.equates
  have hall : Attempt.Enacts Table.fetchAll t.store [] (.ok d.entries) := by
    rw [hd.entries, ← hrows.filterMap_toList]
    exact Table.fetchAll_enacts t.store
  cases q with
  | define name value => exact define_serves ht hp hd name value
  | named name =>
    have hm := Table.fetchNamed_enacts t.store name
    rw [show (t.store.equates.idOf? name).bind t.store.equates.get? = _ from
      (hrows.find?_name name).symm, ← hd.entries] at hm
    exact hm.serves ht.has hp hd
  | withId id =>
    have hm := Table.fetchEquate_enacts t.store id
    rw [show t.store.equates.get? id = _ from (hd.find?_id hrows id).symm] at hm
    exact hm.serves ht.has hp hd
  | withValue value =>
    have hm : Attempt.Enacts (Table.fetchWithValue value) t.store []
        (.ok (d.entries.filter (·.value = value))) := by
      rw [Table.fetchWithValue]
      exact Enacts.bind_read hall (Enacts.pure _ _)
    exact hm.serves ht.has hp hd
  | all => exact hall.serves ht.has hp hd
  | erase id => exact erase_serves ht hp hd id
  | relabel id name => exact relabel_serves ht hp hd id name
  | dropCache =>
    exact ⟨rfl, ⟨ht.store, t.equateCache.agrees_clear _, ht.referenceCache, ht.loud⟩, hp, hd⟩

theorem answers_eq (l : List EquateRequest) : answers t l = (d.serveAll l).1 := by
  induction l generalizing t d with
  | nil => rfl
  | cons q l ih =>
    obtain ⟨ha, hsound, hplan, hrepresents⟩ := serves ht hp hd q
    rw [answers, Dictionary.serveAll, ha, ih hsound hplan hrepresents]

end serves

/-- On an empty table whose caches have any capacities, and where no storage call fails, the
operations on equates answer as a dictionary does that starts empty.  Behind them the
dictionary is proper: names are unique and none is blank, and a new key is greater than all keys
handed out before. -/
theorem answers_eq_dictionary (equates references : Nat) (l : List EquateRequest) :
    answers (Table.withCaches equates references) l = (Dictionary.serveAll {} l).1 ∧
      (Dictionary.serveAll {} l).2.Proper := by
  have hsound : (Table.withCaches equates references).Sound :=
    Table.sound_opened FaultPlan.loud_none equates references none none
  exact ⟨answers_eq hsound rfl Dictionary.represents_empty l,
    Dictionary.proper_empty.serveAll l⟩

end EquateRequest

end Equates

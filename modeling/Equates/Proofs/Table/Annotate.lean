/-
What an annotation does to a table, binding by binding.

Where no storage call fails, a binding that fits is carried out (`Table.bindOperand_run`); one that
does not is refused, and by then its equate has been stored (`Table.bindOperand_refused`).  So a
list of bindings is carried out up to the first one that does not fit (`Table.carry_refused`).  An
annotation submits the bindings of one list in order, so that its answer, its rows and its registry
are those of this list (`Table.annotate_submits`).
-/
import Equates.Proofs.Bindings
import Equates.Proofs.Name.Validity
import Equates.Proofs.Submission

namespace Equates

open Attempt

theorem Problem.isStorageFailure_diagnostic {p : Problem} (h : p.code = .invalidArgument) :
    p.diagnostic.isStorageFailure = false := by
  rw [Diagnostic.isStorageFailure, show p.diagnostic.code = .invalidArgument from h]
  rfl

/-- Derived names are accepted. -/
theorem Scan.validate_of_mem_bindings {type : EnumType} {parts : Bool} {l : List Instruction}
    {b : Binding} (hb : b ∈ bindings type parts l) : Name.validate b.name = .ok () := by
  obtain ⟨insn, -, o, i, -, v, -, -, rfl⟩ := mem_bindings.mp hb
  exact DerivedName.validate_text _

namespace Table

/-- Binds an operand, and tells what came of it. -/
def submission (b : Binding) : StateM Table (Except Diagnostic Unit) :=
  (bindOperand b).run

/-- A binding that does not fit is refused behind the look for its equate. -/
theorem bindOperand_refuses {s : Store} (hs : s.Sound) {b : Binding}
    (hname : Name.validate b.name = .ok ()) (hb : ¬ b.Fits) :
    ∃ (p : Problem) (e : Equate) (l : List Effect), p.code = .invalidArgument ∧
      Attempt.Enacts (bindOperand b) s l (.error p.diagnostic) ∧
      s.Obtains b.name b.value e (s.after l) := by
  obtain ⟨e, l, hm, hobtains⟩ := obtain_enacts hs hname b.value
  have hunfit : ¬ ((0 ≤ (b.operand : Int) ∧ (b.operand : Int) ≤ maxOperand) ∧
      ((s.after l).equates.get? e.id).isSome ∧ b.address.Mappable) :=
    fun ⟨⟨_, hoperand⟩, _, haddress⟩ => hb ⟨haddress, hoperand, hname⟩
  obtain ⟨p, hcode, hfill⟩ := @fillSlot_refuses (s.after l) e.id b.address b.operand 0 hunfit
  refine ⟨p, e, l, hcode, ?_, hobtains⟩
  rw [bindOperand, ← List.append_nil l]
  exact Enacts.bind hm (Enacts.bind_error hfill)

section run

variable {t : Table} (ht : t.Sound) (hp : t.plan = .none) {b : Binding}
include ht hp

/-- Where no storage call fails, a binding that fits is carried out. -/
theorem bindOperand_run (hb : b.Fits) : ∃ t' s', (submission b).run t = (.ok (), t') ∧
    t.Becomes s' t' ∧ t.store.Bound [b] s' := by
  obtain ⟨l, hm, hbound⟩ := bindOperand_enacts ht.store hb
  obtain ⟨hr, hb⟩ := (hm t ht.has).run hp
  exact ⟨(Attempt.on (bindOperand b) t).2, _, Prod.ext hr rfl, hb, hbound⟩

/-- One that does not fit leaves no more than its equate behind. -/
theorem bindOperand_refused (hname : Name.validate b.name = .ok ()) (hb : ¬ b.Fits) :
    ∃ (p : Problem) (e : Equate) (t' : Table) (s' : Store), p.code = .invalidArgument ∧
      (submission b).run t = (.error p.diagnostic, t') ∧ t.Becomes s' t' ∧
      t.store.Obtains b.name b.value e s' := by
  obtain ⟨p, e, l, hcode, hm, hobtains⟩ := bindOperand_refuses ht.store hname hb
  obtain ⟨hr, hb⟩ := (hm t ht.has).run hp
  exact ⟨p, e, (Attempt.on (bindOperand b) t).2, _, hcode, Prod.ext hr rfl, hb, hobtains⟩

/-- Bindings that fit are carried out one after the other. -/
theorem carry_bound {l : List Binding} (hl : ∀ b ∈ l, b.Fits) :
    ∃ t', Scan.carry submission l t = (.ok (), t') ∧ (t'.Sound ∧ t'.plan = .none) ∧
      t.Frame t' ∧ t.store.Bound l t'.store := by
  let R (l : List Binding) (c c' : Table) : Prop := c.Frame c' ∧ c.store.Bound l c'.store
  have hnil : ∀ c, R [] c c := fun c => ⟨Frame.refl c, .refl c.store⟩
  have htrans : ∀ {l l' a b c}, (a.Sound ∧ a.plan = .none) → R l a b → R l' b c →
      R (l ++ l') a c :=
    fun ha h h' => ⟨h.1.trans h'.1, h.2.trans h'.2 ha.1.store⟩
  refine Scan.carry_of_forall hnil htrans (fun {b c} hb hc => ?_) hl ⟨ht, hp⟩
  obtain ⟨t', s', hrun, hbecomes, hbound⟩ := bindOperand_run hc.1 hc.2 hb
  rw [← hbecomes.store] at hbound
  exact ⟨t', hrun, ⟨hbecomes.sound, hbecomes.frame.plan.trans hc.2⟩, hbecomes.frame, hbound⟩

/-- The bindings before the first one that does not fit are carried out; of that one no more than
the look for its equate is. -/
theorem carry_refused {fit : List Binding} (hfit : ∀ b' ∈ fit, b'.Fits)
    (hname : Name.validate b.name = .ok ()) (hb : ¬ b.Fits) (rest : List Binding) :
    ∃ (p : Problem) (e : Equate) (mid : Store) (t' : Table), p.code = .invalidArgument ∧
      Scan.carry submission (fit ++ b :: rest) t = (.error p.diagnostic, t') ∧
      mid.Sound ∧ t.store.Bound fit mid ∧ mid.Obtains b.name b.value e t'.store := by
  obtain ⟨t₁, hcarry, ⟨ht₁, hp₁⟩, -, hbound⟩ := carry_bound ht hp hfit
  obtain ⟨p, e, t', s', hcode, hrun, hbecomes, hobtains⟩ := bindOperand_refused ht₁ hp₁ hname hb
  refine ⟨p, e, t₁.store, t', hcode, ?_, ht₁.store, hbound, hbecomes.store ▸ hobtains⟩
  rw [Scan.carry_append, hcarry]
  dsimp only
  rw [Scan.carry, hrun]

end run

/-- An annotation ends as the submission of its bindings does; beside the rows it leaves the
registry behind in which the type has been resolved. -/
theorem annotate_submits {t : Table} {listing : Listing} {registry : TypeRegistry}
    (hlisting : t.listing = some listing) (hregistry : t.registry = some registry)
    (set : AddressSet) {type : EnumType} (hlength : 1 ≤ type.length ∧ type.length ≤ 8)
    (parts : Bool) :
    ∃ done outcome, Scan.Visits t.monitor (listing.within set) done outcome ∧
      let l := Scan.bindings { type with id := (registry.resolve type).1.id } parts done
      let p := Scan.carry submission l t
      (∀ d, p.1 = .error d → d.isStorageFailure = false) →
        let u := Attempt.on (annotate set type parts) t
        u.1 = p.1.map (fun _ => outcome) ∧ u.2.store = p.2.store ∧ u.2.listing = p.2.listing ∧
          u.2.registry = some (if l = [] then registry else (registry.resolve type).2) := by
  let s : Scan Table := { monitor := t.monitor, registry, client := t }
  obtain ⟨done, outcome, s', hv, hon, hs', -⟩ :=
    Scan.run_submits (fun _ => submission) listing set type parts s
  refine ⟨done, outcome, hv, ?_⟩
  intro l p hrefusal u
  have hclient : s'.client = p.2 := hs'.client
  have hregistry' : s'.registry = if l = [] then registry else (registry.resolve type).2 :=
    hs'.registry
  have hscan : Action.on (scanTable listing registry set type parts) t =
      ((p.1.map fun _ => outcome, s'.visited, s'.bound),
        { s'.client with monitor := s'.monitor, registry := some s'.registry }) :=
    congrArg (fun p : Except Diagnostic Outcome × Scan Table =>
      ((p.1, p.2.visited, p.2.bound),
        { p.2.client with monitor := p.2.monitor, registry := some p.2.registry })) hon
  have hu : u = Attempt.on (annotate set type parts) t := rfl
  rw [annotate, on_get_bind, hlisting, hregistry] at hu
  dsimp only at hu
  rw [if_pos hlength, on_lift_bind, hscan] at hu
  rw [hu, ← hclient, ← hregistry']
  cases hr : p.1 with
  | ok _ => exact ⟨rfl, rfl, rfl, rfl⟩
  | error d =>
    have hnot : ¬ d.isStorageFailure = true := by rw [hrefusal d hr]; decide
    dsimp only [Except.map]
    rw [if_neg hnot]
    exact ⟨rfl, rfl, rfl, rfl⟩

end Table

end Equates

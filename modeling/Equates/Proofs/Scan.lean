/-
What a scan does to its client.

A scan touches the client only through its bindings, and stops at the first one that ends
with a diagnostic.  So what every binding does to the client, a run of a scan does to it:
whatever relation is kept by every binding that goes through is kept by a run that goes
through, and a run that ends with a diagnostic is cut off at the binding it comes from
(`Scan.run_leaves`).  In particular a relation that every binding keeps, however it ends,
is kept by every run (`Scan.run_leads`).

Two scans that start alike (`Scan.Alike`) stay alike if related clients give the same
answer to every binding (`Scan.run_blind`): if they do not look how often the registry was
asked before, the scan does not see it.
-/
import Equates.Scan
import Mathlib.Algebra.Order.Ring.Int
import Mathlib.Tactic.Common

namespace Equates

namespace TypeRegistry

/-- The registry without the number of its look-ups. -/
def uncounted (r : TypeRegistry) : TypeRegistry :=
  { r with finds := 0 }

/-- How often a registry was asked does not matter to how a type is resolved. -/
theorem resolve_congr {r₁ r₂ : TypeRegistry} (h : r₁.uncounted = r₂.uncounted) (type : EnumType) :
    (r₁.resolve type).1 = (r₂.resolve type).1 ∧
      (r₁.resolve type).2.uncounted = (r₂.resolve type).2.uncounted := by
  -- Resolving reads the types and the shift, and only adds to the count.
  have huncounted : ∀ r : TypeRegistry, (r.resolve type).1 = (r.uncounted.resolve type).1 ∧
      (r.resolve type).2.uncounted = (r.uncounted.resolve type).2.uncounted := by
    intro r
    rw [resolve, resolve, find, find]
    dsimp only [uncounted]
    cases r.types[type.id]? with
    | some known => exact ⟨rfl, rfl⟩
    | none =>
      dsimp only
      rw [add, add]
      dsimp only
      cases r.types[type.id + r.idShift]? with
      | some known => exact ⟨rfl, rfl⟩
      | none => exact ⟨rfl, rfl⟩
  obtain ⟨h₁, h₁'⟩ := huncounted r₁
  obtain ⟨h₂, h₂'⟩ := huncounted r₂
  exact ⟨h₁.trans (h ▸ h₂.symm), h₁'.trans (h ▸ h₂'.symm)⟩

end TypeRegistry

namespace Scan

variable {σ α β : Type}

/-- The result of a scan step from `s`, and the scan behind it. -/
def on (m : ScanM σ α) (s : Scan σ) : Except Diagnostic α × Scan σ :=
  m.run.run s

theorem on_bind (m : ScanM σ α) (f : α → ScanM σ β) (s : Scan σ) :
    on (m >>= f) s =
      match on m s with
      | (.ok a, s') => on (f a) s'
      | (.error d, s') => (.error d, s') := by
  rw [on, ExceptT.run_bind, StateT.run_bind]
  show (_ : Id _) = _
  rcases h : on m s with ⟨_ | _, s'⟩
  · rw [show m.run.run s = on m s from rfl, h]
    rfl
  · rw [show m.run.run s = on m s from rfl, h]
    rfl

/-- The step relates the client before and behind it. -/
def Leads (R : σ → σ → Prop) (m : ScanM σ α) : Prop :=
  ∀ s, R s.client (on m s).2.client

variable {R : σ → σ → Prop}

/-- The step ends with a result in `Q` and relates the client before and behind it by `G`,
or it ends with a diagnostic and relates them by `B`. -/
def Leaves (Q : α → Prop) (G : σ → σ → Prop) (B : Diagnostic → σ → σ → Prop) (m : ScanM σ α) :
    Prop :=
  ∀ s, match on m s with
    | (.ok a, s') => Q a ∧ G s.client s'.client
    | (.error d, s') => B d s.client s'.client

/-- What relates the client by `R` either way leads by `R`. -/
theorem Leaves.leads {Q : α → Prop} {m : ScanM σ α} (h : Leaves Q R (fun _ => R) m) :
    Leads R m := by
  intro s
  have hs := h s
  rcases hrun : on m s with ⟨d | a, s'⟩
  · rw [hrun] at hs
    exact hs
  · rw [hrun] at hs
    exact hs.2

/-- A step that leaves the client alone. -/
theorem leaves_of_ok {Q : α → Prop} {G : σ → σ → Prop} {B : Diagnostic → σ → σ → Prop}
    (hrefl : ∀ c, G c c) {m : ScanM σ α}
    (h : ∀ s, ∃ a s', on m s = (.ok a, s') ∧ s'.client = s.client ∧ Q a) : Leaves Q G B m := by
  intro s
  obtain ⟨a, s', hrun, hc, ha⟩ := h s
  rw [hrun]
  exact ⟨ha, hc ▸ hrefl s.client⟩

/-- The first part of a sequence may have any result. -/
theorem Leaves.bind {Q : β → Prop} {G : σ → σ → Prop} {B : Diagnostic → σ → σ → Prop}
    (htrans : ∀ a b c, G a b → G b c → G a c) (hbreak : ∀ d a b c, G a b → B d b c → B d a c)
    {m : ScanM σ α} {f : α → ScanM σ β} (hm : Leaves (fun _ => True) G B m)
    (hf : ∀ a, Leaves Q G B (f a)) :
    Leaves Q G B (m >>= f) := by
  intro s
  rw [on_bind]
  have hm' := hm s
  rcases hrun : on m s with ⟨d | a, s'⟩
  · rw [hrun] at hm'
    exact hm'
  · rw [hrun] at hm'
    have hf' := hf a s'
    dsimp only
    rcases hrun' : on (f a) s' with ⟨d | b, s''⟩
    · rw [hrun'] at hf'
      exact hbreak d _ _ _ hm'.2 hf'
    · rw [hrun'] at hf'
      exact ⟨hf'.1, htrans _ _ _ hm'.2 hf'.2⟩

/-- The type is resolved at the first request only. -/
theorem register_cases (type : EnumType) (s : Scan σ) :
    (∃ known, s.registered = some known ∧ on (register type) s = (.ok known, s)) ∨
    s.registered = none ∧ on (register type) s = (.ok (s.registry.resolve type).1, { s with
      registry := (s.registry.resolve type).2
      registered := some (s.registry.resolve type).1 }) := by
  have hget : ∀ f : Scan σ → ScanM σ EnumType, on (get >>= f) s = on (f s) s := fun _ => rfl
  rw [register, hget]
  cases hr : s.registered with
  | some known => exact .inl ⟨known, rfl, rfl⟩
  | none => exact .inr ⟨rfl, rfl⟩

section bindings

variable {G : σ → σ → Prop} {B : Diagnostic → σ → σ → Prop}
  {bind : TypeRegistry → Binding → StateM σ (Except Diagnostic Unit)} (hrefl : ∀ c, G c c)
  (htrans : ∀ a b c, G a b → G b c → G a c) (hbreak : ∀ d a b c, G a b → B d b c → B d a c)
  (hbind : ∀ r b c, match (bind r b).run c with
    | (.ok _, c') => G c c'
    | (.error d, c') => B d c c')

include hrefl in
theorem register_leaves (type : EnumType) : Leaves (fun _ => True) G B (register type) := by
  refine leaves_of_ok hrefl fun s => ?_
  obtain ⟨known, -, hon⟩ | ⟨-, hon⟩ := register_cases type s
  · exact ⟨_, _, hon, rfl, trivial⟩
  · exact ⟨_, _, hon, rfl, trivial⟩

include hbind in
theorem submit_leaves (b : Binding) : Leaves (fun _ => True) G B (submit bind b) := by
  intro s
  have hb := hbind s.registry b s.client
  rcases hrun : (bind s.registry b).run s.client with ⟨d | u, c⟩
  · rw [hrun] at hb
    rw [show on (submit bind b) s = (.error d, { s with client := c }) from
      congrArg (fun p : Except Diagnostic Unit × σ => (p.1, { s with client := p.2 })) hrun]
    exact hb
  · rw [hrun] at hb
    rw [show on (submit bind b) s = (.ok u, { s with client := c }) from
      congrArg (fun p : Except Diagnostic Unit × σ => (p.1, { s with client := p.2 })) hrun]
    exact ⟨trivial, hb⟩

include hrefl htrans hbreak hbind

theorem bindScalar_leaves (type : EnumType) (a : Address) (operand : Nat) (v : Scalar) :
    Leaves (fun _ => True) G B (bindScalar bind type a operand v) := by
  rw [bindScalar]
  -- Of the three parts of a binding only the middle one is the client's.
  refine Leaves.bind htrans hbreak (register_leaves hrefl type) fun known => ?_
  refine Leaves.bind htrans hbreak (submit_leaves hbind _) fun _ => ?_
  exact leaves_of_ok hrefl fun s => ⟨(), _, rfl, rfl, trivial⟩

theorem bindScalars_leaves (type : EnumType) (a : Address) (l : List (Nat × Scalar)) :
    Leaves (fun _ => True) G B (bindScalars bind type a l) := by
  induction l with
  | nil => exact leaves_of_ok hrefl fun s => ⟨(), s, rfl, rfl, trivial⟩
  | cons p l ih =>
    obtain ⟨i, v⟩ := p
    rw [bindScalars]
    exact Leaves.bind htrans hbreak
      (bindScalar_leaves hrefl htrans hbreak hbind type a i v) fun _ => ih

theorem visit_leaves (type : EnumType) (parts : Bool) (l : List Instruction) :
    Leaves (· ≠ .storageFailed) G B (visit bind type parts l) := by
  induction l with
  | nil => exact leaves_of_ok hrefl fun s => ⟨.completed, s, rfl, rfl, Outcome.noConfusion⟩
  | cons insn l ih =>
    rw [visit]
    refine Leaves.bind htrans hbreak
      (leaves_of_ok hrefl fun s => ⟨_, _, rfl, rfl, trivial⟩) fun stop => ?_
    cases stop with
    | true => exact leaves_of_ok hrefl fun s => ⟨.cancelled, s, rfl, rfl, Outcome.noConfusion⟩
    | false =>
      refine Leaves.bind htrans hbreak
        (leaves_of_ok hrefl fun s => ⟨(), _, rfl, rfl, trivial⟩) fun _ => ?_
      exact Leaves.bind htrans hbreak
        (bindScalars_leaves hrefl htrans hbreak hbind type insn.address _) fun _ => ih

/-- A run of a scan stops at the first binding that ends with a diagnostic. -/
theorem run_leaves (listing : Listing) (set : AddressSet) (type : EnumType) (parts : Bool) :
    Leaves (· ≠ .storageFailed) G B (run bind listing set type parts) := by
  rw [run]
  refine Leaves.bind htrans hbreak
    (leaves_of_ok hrefl fun s => ⟨(), _, rfl, rfl, trivial⟩) fun _ => ?_
  exact visit_leaves hrefl htrans hbreak hbind type parts _

end bindings

/-- A run of a scan leads by what every binding leads by. -/
theorem run_leads {bind : TypeRegistry → Binding → StateM σ (Except Diagnostic Unit)}
    (hrefl : ∀ c, R c c) (htrans : ∀ a b c, R a b → R b c → R a c)
    (hbind : ∀ r b c, R c ((bind r b).run c).2)
    (listing : Listing) (set : AddressSet) (type : EnumType) (parts : Bool) :
    Leads R (run bind listing set type parts) := by
  refine (run_leaves hrefl htrans (fun _ => htrans) (fun r b c => ?_) listing set type parts).leads
  have hb := hbind r b c
  rcases hrun : (bind r b).run c with ⟨d | u, c'⟩
  · rw [hrun] at hb
    exact hb
  · rw [hrun] at hb
    exact hb

/-! ### Two scans side by side -/

/-- The scans stand at the same place, with registries that were asked more or less often
and with related clients. -/
structure Alike (R : σ → σ → Prop) (s₁ s₂ : Scan σ) : Prop where
  monitor : s₁.monitor = s₂.monitor
  registry : s₁.registry.uncounted = s₂.registry.uncounted
  client : R s₁.client s₂.client
  registered : s₁.registered = s₂.registered
  visited : s₁.visited = s₂.visited
  bound : s₁.bound = s₂.bound

/-- On scans that are alike the step has the same result, and it leaves them alike. -/
def Blind (R : σ → σ → Prop) (m : ScanM σ α) : Prop :=
  ∀ s₁ s₂, Alike R s₁ s₂ → (on m s₁).1 = (on m s₂).1 ∧ Alike R (on m s₁).2 (on m s₂).2

protected theorem Blind.pure (a : α) : Blind R (pure a : ScanM σ α) :=
  fun _ _ h => ⟨rfl, h⟩

protected theorem Blind.bind {m : ScanM σ α} {f : α → ScanM σ β} (hm : Blind R m)
    (hf : ∀ a, Blind R (f a)) : Blind R (m >>= f) := by
  intro s₁ s₂ h
  rw [on_bind, on_bind]
  obtain ⟨hr, hs⟩ := hm s₁ s₂ h
  rcases hrun₁ : on m s₁ with ⟨r₁, u₁⟩
  rcases hrun₂ : on m s₂ with ⟨r₂, u₂⟩
  rw [hrun₁, hrun₂] at hr hs
  obtain rfl : r₁ = r₂ := hr
  cases r₁ with
  | ok a => exact hf a u₁ u₂ hs
  | error d => exact ⟨rfl, hs⟩

theorem register_blind (type : EnumType) : Blind R (register type) := by
  intro s₁ s₂ h
  obtain ⟨known₁, hr₁, hon₁⟩ | ⟨hr₁, hon₁⟩ := register_cases type s₁
  · obtain ⟨known₂, hr₂, hon₂⟩ | ⟨hr₂, hon₂⟩ := register_cases type s₂
    · -- Both have resolved the type already, or neither has.
      have hknown : some known₁ = some known₂ := by rw [← hr₁, ← hr₂, h.registered]
      rw [hon₁, hon₂, Option.some.inj hknown]
      exact ⟨rfl, h⟩
    · rw [h.registered, hr₂] at hr₁
      cases hr₁
  · obtain ⟨known₂, hr₂, hon₂⟩ | ⟨hr₂, hon₂⟩ := register_cases type s₂
    · rw [h.registered, hr₂] at hr₁
      cases hr₁
    · obtain ⟨hk, hreg⟩ := TypeRegistry.resolve_congr h.registry type
      rw [hon₁, hon₂]
      exact ⟨congrArg Except.ok hk, h.monitor, hreg, h.client, congrArg some hk, h.visited, h.bound⟩

theorem stopRequested_blind : Blind R stopRequested := by
  intro s₁ s₂ h
  refine ⟨?_, ?_, h.registry, h.client, h.registered, h.visited, h.bound⟩
  · show Except.ok s₁.monitor.poll.1 = Except.ok s₂.monitor.poll.1
    rw [h.monitor]
  · show s₁.monitor.poll.2 = s₂.monitor.poll.2
    rw [h.monitor]

section bindings

variable {bind : TypeRegistry → Binding → StateM σ (Except Diagnostic Unit)}
  (hbind : ∀ (r₁ r₂ : TypeRegistry) b c₁ c₂, r₁.uncounted = r₂.uncounted → R c₁ c₂ →
    ((bind r₁ b).run c₁).1 = ((bind r₂ b).run c₂).1 ∧
      R ((bind r₁ b).run c₁).2 ((bind r₂ b).run c₂).2)
include hbind

theorem bindScalar_blind (type : EnumType) (a : Address) (operand : Nat) (v : Scalar) :
    Blind R (bindScalar bind type a operand v) := by
  rw [bindScalar]
  refine Blind.bind (register_blind type) fun known => Blind.bind ?_ fun _ => ?_
  · intro s₁ s₂ h
    obtain ⟨hr, hc⟩ := hbind s₁.registry s₂.registry
      ⟨(DerivedName.mk known.id v.value).text, v.value, a, operand⟩ s₁.client s₂.client
      h.registry h.client
    exact ⟨hr, h.monitor, h.registry, hc, h.registered, h.visited, h.bound⟩
  · intro s₁ s₂ h
    exact ⟨rfl, h.monitor, h.registry, h.client, h.registered, h.visited,
      congrArg (· + 1) h.bound⟩

theorem bindScalars_blind (type : EnumType) (a : Address) (l : List (Nat × Scalar)) :
    Blind R (bindScalars bind type a l) := by
  induction l with
  | nil => exact Blind.pure ()
  | cons p l ih =>
    obtain ⟨i, v⟩ := p
    rw [bindScalars]
    exact Blind.bind (bindScalar_blind hbind type a i v) fun _ => ih

theorem visit_blind (type : EnumType) (parts : Bool) (l : List Instruction) :
    Blind R (visit bind type parts l) := by
  induction l with
  | nil => exact Blind.pure _
  | cons insn l ih =>
    rw [visit]
    refine Blind.bind stopRequested_blind fun stop => ?_
    cases stop with
    | true => exact Blind.pure _
    | false =>
      refine Blind.bind (fun s₁ s₂ h => ?_) fun _ => ?_
      · exact ⟨rfl, h.monitor, h.registry, h.client, h.registered, congrArg (· + 1) h.visited,
          h.bound⟩
      · exact Blind.bind (bindScalars_blind hbind type insn.address _) fun _ => ih

/-- A run of a scan. -/
theorem run_blind (listing : Listing) (set : AddressSet) (type : EnumType) (parts : Bool) :
    Blind R (run bind listing set type parts) := by
  rw [run]
  refine Blind.bind (fun s₁ s₂ h => ?_) fun _ => visit_blind hbind type parts _
  have hm : s₁.monitor.tell "Applying enum equates" = s₂.monitor.tell "Applying enum equates" := by
    rw [h.monitor]
  exact ⟨rfl, hm, h.registry, h.client, h.registered, h.visited, h.bound⟩

end bindings

end Scan

end Equates

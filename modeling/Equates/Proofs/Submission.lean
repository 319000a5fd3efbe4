/-
A scan submits its bindings in order, up to the first one that fails.

Whatever the client makes of the bindings, a run of a scan is the run of one list of them: those of
the instructions that come before the first poll that asks to stop, under the identity that the
registry gives to the type (`Scan.run_submits`).  The run ends where one of them fails; the
instructions behind are not visited then, but what would have come of them does not matter either.
All of them are submitted under one registry, the one behind the registration of the type.  So what
holds of all runs of lists (`Scan.carry`) holds of all scans.
-/
import Equates.Proofs.Visits

namespace Equates.Scan

/-! ### Submitting bindings -/

section carrying

variable {σ : Type} (bind : Binding → StateM σ (Except Diagnostic Unit))

/-- Carries the bindings out in order, up to the first one that fails. -/
def carry : List Binding → σ → Except Diagnostic Unit × σ
  | [], c => (.ok (), c)
  | b :: l, c =>
    match (bind b).run c with
    | (.ok _, c') => carry l c'
    | (.error d, c') => (.error d, c')

theorem carry_append (l l' : List Binding) (c : σ) :
    carry bind (l ++ l') c =
      match carry bind l c with
      | (.ok _, c') => carry bind l' c'
      | (.error d, c') => (.error d, c') := by
  induction l generalizing c with
  | nil => rfl
  | cons b l ih =>
    rw [List.cons_append, carry, carry]
    rcases (bind b).run c with ⟨d | u, c'⟩
    · rfl
    · exact ih c'

/-- What fails has been submitted. -/
theorem ne_nil_of_carry {l : List Binding} {c c' : σ} {d : Diagnostic}
    (h : carry bind l c = (.error d, c')) : l ≠ [] := by
  rintro rfl
  cases h

section relation

variable {bind} {I : σ → Prop} {R : List Binding → σ → σ → Prop} {P : Binding → Prop}
  (hnil : ∀ c, R [] c c)
  (htrans : ∀ {l l' a b c}, I a → R l a b → R l' b c → R (l ++ l') a c)
  (hbind : ∀ {b c}, P b → I c → ∃ c', (bind b).run c = (.ok (), c') ∧ I c' ∧ R [b] c c')
include hnil htrans hbind

/-- Where each of the bindings goes through, all of them do. -/
theorem carry_of_forall {l : List Binding} (hP : ∀ b ∈ l, P b) {c : σ} (hI : I c) :
    ∃ c', carry bind l c = (.ok (), c') ∧ I c' ∧ R l c c' := by
  induction l generalizing c with
  | nil => exact ⟨c, rfl, hI, hnil c⟩
  | cons b l ih =>
    obtain ⟨hb, hl⟩ := List.forall_mem_cons.mp hP
    obtain ⟨c₁, hrun, hI₁, hR⟩ := hbind hb hI
    obtain ⟨c', hcarry, hI', hR'⟩ := ih hl hI₁
    refine ⟨c', ?_, hI', htrans hI hR hR'⟩
    rw [carry, hrun]
    exact hcarry

end relation

end carrying

/-! ### Running a scan -/

variable {σ : Type} (bind : TypeRegistry → Binding → StateM σ (Except Diagnostic Unit))

/-- The registered form of the type, and the registry behind its registration. -/
def resolved (type : EnumType) (s : Scan σ) : EnumType × TypeRegistry :=
  match s.registered with
  | some known => (known, s.registry)
  | none => s.registry.resolve type

/-- The type under the identity that its registered form has. -/
def named (type : EnumType) (s : Scan σ) : EnumType :=
  { type with id := (s.resolved type).1.id }

theorem on_register (type : EnumType) (s : Scan σ) :
    on (register type) s = (.ok (s.resolved type).1, { s with
      registry := (s.resolved type).2
      registered := some (s.resolved type).1 }) := by
  obtain ⟨known, hr, hon⟩ | ⟨hr, hon⟩ := register_cases type s
  · have hresolved : s.resolved type = (known, s.registry) := by rw [resolved, hr]
    rw [hon, hresolved, ← hr]
  · rw [hon, resolved, hr]

/-- Carries the bindings out with the registry behind the registration of the type. -/
def carried (type : EnumType) (l : List Binding) (s : Scan σ) : Except Diagnostic Unit × σ :=
  carry (bind (s.resolved type).2) l s.client

/-- `s'` is the scan `s` behind the bindings `l`, of which those up to the first one that failed
were carried out. -/
structure Submitted (type : EnumType) (l : List Binding) (s s' : Scan σ) : Prop where
  client : s'.client = (carried bind type l s).2
  resolved : s'.resolved type = s.resolved type
  registry : s'.registry = if l = [] then s.registry else (s.resolved type).2
  bound : (carried bind type l s).1 = .ok () → s'.bound = s.bound + l.length

namespace Submitted

variable {bind} {type : EnumType} {l l' : List Binding} {s s₁ s' : Scan σ}

theorem refl (s : Scan σ) : Submitted bind type [] s s :=
  ⟨rfl, rfl, (if_pos rfl).symm, fun _ => rfl⟩

theorem named_eq (h : Submitted bind type l s s') : s'.named type = s.named type := by
  rw [named, named, h.resolved]

theorem carried_eq (h : Submitted bind type l s s') {r : Except Diagnostic Unit}
    (hr : (carried bind type l s).1 = r) : carried bind type l s = (r, s'.client) :=
  Prod.ext hr h.client.symm

/-- Behind bindings that went through, the others are carried out with the same registry. -/
theorem carried_append (h : Submitted bind type l s s₁)
    (hok : (carried bind type l s).1 = .ok ()) (l' : List Binding) :
    carried bind type (l ++ l') s = carried bind type l' s₁ := by
  have heq := h.carried_eq hok
  rw [carried] at heq
  rw [carried, carried, carry_append, heq, h.resolved]

/-- Behind one that failed, no more are carried out. -/
theorem carried_append_of_error {d : Diagnostic} (h : Submitted bind type l s s')
    (hd : (carried bind type l s).1 = .error d) (l' : List Binding) :
    carried bind type (l ++ l') s = (.error d, s'.client) := by
  have heq := h.carried_eq hd
  rw [carried] at heq
  rw [carried, carry_append, heq]

/-- The first bindings went through. -/
theorem trans (h : Submitted bind type l s s₁) (hok : (carried bind type l s).1 = .ok ())
    (h' : Submitted bind type l' s₁ s') : Submitted bind type (l ++ l') s s' := by
  have hcarried := h.carried_append hok l'
  refine ⟨?_, h'.resolved.trans h.resolved, ?_, fun hok' => ?_⟩
  · rw [hcarried, h'.client]
  · rw [h'.registry, h.registry, h.resolved]
    by_cases hnil : l' = []
    · rw [if_pos hnil, hnil, List.append_nil]
    · rw [if_neg hnil, if_neg fun happ => hnil (List.append_eq_nil_iff.mp happ).2]
  · rw [hcarried] at hok'
    rw [h'.bound hok', h.bound hok, List.length_append, Nat.add_assoc]

/-- One of the first bindings failed, and those behind them were not submitted. -/
theorem append {d : Diagnostic} (h : Submitted bind type l s s')
    (hd : (carried bind type l s).1 = .error d) (l' : List Binding) :
    Submitted bind type (l ++ l') s s' := by
  have hne := ne_nil_of_carry (bind (s.resolved type).2) (h.carried_eq hd)
  have hcarried := h.carried_append_of_error hd l'
  refine ⟨?_, h.resolved, ?_, fun hok => ?_⟩
  · rw [hcarried]
  · rw [h.registry, if_neg hne, if_neg fun happ => hne (List.append_eq_nil_iff.mp happ).1]
  · rw [hcarried] at hok
    cases hok

end Submitted

theorem bindScalar_submits (type : EnumType) (a : Address) (i : Nat) (v : Scalar) (s : Scan σ) :
    ∃ s', on (bindScalar bind type a i v) s =
        ((carried bind type [binding (s.named type) a i v] s).1, s') ∧
      Submitted bind type [binding (s.named type) a i v] s s' ∧
      s'.monitor = s.monitor ∧ s'.visited = s.visited := by
  let b := binding (s.named type) a i v
  let act := (bind (s.resolved type).2 b).run s.client
  have hsubmit : on (submit bind ⟨(DerivedName.mk (s.resolved type).1.id v.value).text, v.value,
        a, i⟩) { s with
          registry := (s.resolved type).2
          registered := some (s.resolved type).1 } =
      (act.1, { s with
        client := act.2
        registry := (s.resolved type).2
        registered := some (s.resolved type).1 }) := rfl
  rw [bindScalar, on_bind, on_register]
  dsimp only
  rw [on_bind, hsubmit]
  change ∃ s', _ = ((carried bind type [b] s).1, s') ∧ Submitted bind type [b] s s' ∧ _
  cases hrun : act with
  | mk r c =>
    have hcarried : carried bind type [b] s = (r, c) := by
      rw [carried, carry, show (bind (s.resolved type).2 b).run s.client = (r, c) from hrun]
      cases r with
      | error d => rfl
      | ok u => rfl
    rw [hcarried]
    cases r with
    | error d =>
      refine ⟨_, rfl, ⟨by rw [hcarried], rfl, rfl, fun hok => ?_⟩, rfl, rfl⟩
      rw [hcarried] at hok
      cases hok
    | ok u => exact ⟨_, rfl, ⟨by rw [hcarried], rfl, rfl, fun _ => rfl⟩, rfl, rfl⟩

theorem bindScalars_submits (type : EnumType) (a : Address) (l : List (Nat × Scalar))
    (s : Scan σ) :
    ∃ s', on (bindScalars bind type a l) s =
        ((carried bind type (bindingsAt (s.named type) a l) s).1, s') ∧
      Submitted bind type (bindingsAt (s.named type) a l) s s' ∧
      s'.monitor = s.monitor ∧ s'.visited = s.visited := by
  induction l generalizing s with
  | nil => exact ⟨s, rfl, .refl s, rfl, rfl⟩
  | cons p l ih =>
    obtain ⟨i, v⟩ := p
    obtain ⟨s₁, hon, hs₁, hm, hv⟩ := bindScalar_submits bind type a i v s
    have hcons : bindingsAt (s.named type) a ((i, v) :: l) =
        [binding (s.named type) a i v] ++ bindingsAt (s.named type) a l := rfl
    rw [bindScalars, on_bind, hon, hcons]
    cases hr : (carried bind type [binding (s.named type) a i v] s).1 with
    | error d =>
      refine ⟨s₁, ?_, hs₁.append hr _, hm, hv⟩
      rw [hs₁.carried_append_of_error hr]
    | ok u =>
      obtain ⟨s', hon', hs', hm', hv'⟩ := ih s₁
      rw [hs₁.named_eq] at hon' hs'
      refine ⟨s', ?_, hs₁.trans hr hs', hm'.trans hm, hv'.trans hv⟩
      rw [hs₁.carried_append hr]
      exact hon'

/-- A visit submits the bindings of the instructions up to the first poll that asks to stop. -/
theorem visit_submits (type : EnumType) (parts : Bool) (l : List Instruction) (s : Scan σ) :
    ∃ done outcome s', Visits s.monitor l done outcome ∧
      on (visit bind type parts l) s =
        ((carried bind type (bindings (s.named type) parts done) s).1.map fun _ => outcome, s') ∧
      Submitted bind type (bindings (s.named type) parts done) s s' ∧
      ((carried bind type (bindings (s.named type) parts done) s).1 = .ok () →
        s'.visited = s.visited + done.length) := by
  induction l generalizing s with
  | nil =>
    refine ⟨[], .completed, s, ⟨?_, .inl ⟨rfl, rfl⟩⟩, rfl, .refl s, fun _ => rfl⟩
    exact fun n hn => absurd hn (Nat.not_lt_zero n)
  | cons insn l ih =>
    have hpoll : on stopRequested s = (.ok s.monitor.poll.1,
      { s with monitor := s.monitor.poll.2 }) := rfl
    rw [visit, on_bind, hpoll]
    dsimp only
    cases hstop : s.monitor.poll.1 with
    | true =>
      refine ⟨[], .cancelled, _, ⟨?_, ?_⟩, rfl, ⟨rfl, rfl, rfl, fun _ => rfl⟩, fun _ => rfl⟩
      · exact fun n hn => absurd hn (Nat.not_lt_zero n)
      · exact .inr ⟨rfl, hstop, insn, l, rfl⟩
    | false =>
      let s₀ : Scan σ := { s with monitor := s.monitor.poll.2, visited := s.visited + 1 }
      let first := bindingsAt (s.named type) insn.address (matching type parts insn)
      have hfirst : ∃ s₁, on (bindScalars bind type insn.address (matching type parts insn)) s₀ =
          ((carried bind type first s).1, s₁) ∧ Submitted bind type first s s₁ ∧
            s₁.monitor = s.monitor.poll.2 ∧ s₁.visited = s.visited + 1 := by
        obtain ⟨s₁, hon, hs₁, hm, hv⟩ := bindScalars_submits bind type insn.address
          (matching type parts insn) s₀
        exact ⟨s₁, hon, ⟨hs₁.client, hs₁.resolved, hs₁.registry, hs₁.bound⟩, hm, hv⟩
      obtain ⟨s₁, hon, hs₁, hm, hvisited⟩ := hfirst
      have hmodify : ∀ f : Unit → ScanM σ Outcome,
          on (modify (fun s => { s with visited := s.visited + 1 }) >>= f)
            { s with monitor := s.monitor.poll.2 } = on (f ()) s₀ := fun _ => rfl
      have hrest : ∀ done, bindings (s.named type) parts (insn :: done) =
          first ++ bindings (s.named type) parts done := fun _ => rfl
      rw [if_neg Bool.false_ne_true, hmodify, on_bind, hon]
      cases hr : (carried bind type first s).1 with
      | error d =>
        -- Whichever instructions would have come, they are not visited.
        obtain ⟨done, outcome, hv⟩ := exists_visits s.monitor.poll.2 l
        have hfailed : carried bind type (bindings (s.named type) parts (insn :: done)) s =
            (.error d, s₁.client) := by rw [hrest, hs₁.carried_append_of_error hr]
        refine ⟨insn :: done, outcome, s₁, hv.cons hstop insn, ?_, hs₁.append hr _, fun hok => ?_⟩
        · rw [hfailed]
          rfl
        · rw [hfailed] at hok
          cases hok
      | ok u =>
        obtain ⟨done, outcome, s', hv, hon', hs', hvisited'⟩ := ih s₁
        rw [hm] at hv
        rw [hs₁.named_eq] at hon' hs' hvisited'
        have hpassed : carried bind type (bindings (s.named type) parts (insn :: done)) s =
            carried bind type (bindings (s.named type) parts done) s₁ := by
          rw [hrest, hs₁.carried_append hr]
        refine ⟨insn :: done, outcome, s', hv.cons hstop insn, ?_, hs₁.trans hr hs', fun hok => ?_⟩
        · rw [hpassed]
          exact hon'
        · rw [hpassed] at hok
          rw [hvisited' hok, hvisited, List.length_cons, Nat.add_assoc, Nat.add_comm 1]

/-- A run submits the bindings of the instructions in the set up to the first poll that asks to
stop. -/
theorem run_submits (listing : Listing) (set : AddressSet) (type : EnumType) (parts : Bool)
    (s : Scan σ) :
    ∃ done outcome s', Visits s.monitor (listing.within set) done outcome ∧
      on (run bind listing set type parts) s =
        ((carried bind type (bindings (s.named type) parts done) s).1.map fun _ => outcome, s') ∧
      Submitted bind type (bindings (s.named type) parts done) s s' ∧
      ((carried bind type (bindings (s.named type) parts done) s).1 = .ok () →
        s'.visited = s.visited + done.length) := by
  obtain ⟨done, outcome, s', hv, hon, hs', hvisited⟩ := visit_submits bind type parts
    (listing.within set) { s with monitor := s.monitor.tell "Applying enum equates" }
  -- What the monitor is told does not matter to its polls.
  exact ⟨done, outcome, s', visits_tell.mp hv, hon,
    ⟨hs'.client, hs'.resolved, hs'.registry, hs'.bound⟩, hvisited⟩

end Equates.Scan

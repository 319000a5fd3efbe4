/-
The calls that a scan makes of its client.

The matches of a scan are the scalars of the type in the instructions that it visits, ordered by
address, operand and part (`Scan.Lists`).  The scan calls its client on them one after the other, up
to the first call that fails; the type is in the registry by the first call, the registry is asked
for nothing between the calls or behind them, and nothing that the client does changes what becomes
of it (`Scan.run_calls`).

The calls are seen through a client that keeps a record of them beside its own state, each with the
registry that it finds (`Scan.recording`).
-/
import Equates.Proofs.Submission
import Mathlib.Data.List.Sort

namespace Equates

/-! ### Matches and their order -/

theorem sorted_zipIdx {α : Type} (l : List α) : l.zipIdx.Pairwise (·.2 < ·.2) := by
  rw [← List.pairwise_map, List.zipIdx_map_snd]
  exact List.pairwise_lt_range' 1

/-- The scalars of an operand as `Operand.scalars` lists them, each with the index of its part. -/
def Operand.found (parts : Bool) (o : Operand) : List (Nat × Scalar) :=
  if parts then o.parts.zipIdx.filterMap fun p => p.1.scalar?.map (p.2, ·)
  else o.scalar?.toList.map (0, ·)

theorem OperandPart.scalar?_eq_some {p : OperandPart} {s : Scalar} :
    p.scalar? = some s ↔ p = .scalar s := by
  cases p with
  | scalar s' => simp [OperandPart.scalar?]
  | text token => simp [OperandPart.scalar?]

namespace Operand

theorem map_found (parts : Bool) (o : Operand) :
    (o.found parts).map Prod.snd = o.scalars parts := by
  cases parts with
  | false => simp [found, scalars]
  | true =>
    have hsnd : (fun p : OperandPart × Nat => (p.1.scalar?.map (p.2, ·)).map Prod.snd) =
        OperandPart.scalar? ∘ Prod.fst := by
      funext p
      simp [Option.map_map, Function.comp_def]
    rw [found, scalars, if_pos rfl, if_pos rfl, List.map_filterMap, hsnd, ← List.filterMap_map,
      List.zipIdx_map_fst]

theorem mem_found {parts : Bool} {o : Operand} {k : Nat} {s : Scalar} :
    (k, s) ∈ o.found parts ↔
      if parts then o.parts[k]? = some (.scalar s) else o.scalar? = some s ∧ k = 0 := by
  cases parts with
  | false => simp [found, eq_comm, and_comm]
  | true =>
    simp only [found, if_true, List.mem_filterMap, Prod.exists, List.mem_zipIdx_iff_getElem?,
      Option.map_eq_some_iff, OperandPart.scalar?_eq_some, Prod.mk.injEq]
    constructor
    · rintro ⟨p, k', hp, s', rfl, rfl, rfl⟩
      exact hp
    · intro h
      exact ⟨_, k, h, s, rfl, rfl, rfl⟩

theorem sorted_found (parts : Bool) (o : Operand) :
    (o.found parts).Pairwise (·.1 < ·.1) := by
  cases parts with
  | false =>
    rw [found, if_neg Bool.false_ne_true]
    cases o.scalar? with
    | none => exact .nil
    | some s => exact List.pairwise_singleton _ _
  | true =>
    rw [found, if_pos rfl, List.pairwise_filterMap]
    refine (sorted_zipIdx o.parts).imp fun hlt q hq q' hq' => ?_
    obtain ⟨s, -, rfl⟩ := Option.map_eq_some_iff.mp hq
    obtain ⟨s', -, rfl⟩ := Option.map_eq_some_iff.mp hq'
    exact hlt

end Operand

namespace Scan

/-- A scalar and where it stands: in a part of an operand of the instruction at an address. -/
structure Occurrence where
  address : Address
  operand : Nat
  part : Nat
  scalar : Scalar

namespace Occurrence

/-- By address, then by operand, then by part. -/
def Before (o o' : Occurrence) : Prop :=
  o.address < o'.address ∨ o.address = o'.address ∧
    (o.operand < o'.operand ∨ o.operand = o'.operand ∧ o.part < o'.part)

/-- The scalar is a part of an operand of the instruction, or without `parts` an operand as a
whole. -/
def StandsIn (parts : Bool) (insn : Instruction) (o : Occurrence) : Prop :=
  o.address = insn.address ∧ ∃ operand, insn.operands[o.operand]? = some operand ∧
    if parts then operand.parts[o.part]? = some (.scalar o.scalar)
    else operand.scalar? = some o.scalar ∧ o.part = 0

/-- The derived name and the value, to be bound at the operand. -/
def binding (type : EnumType) (o : Occurrence) : Binding :=
  ⟨(DerivedName.mk type.id o.scalar.value).text, o.scalar.value, o.address, o.operand⟩

instance : Std.Irrefl Before where
  irrefl o h := by
    obtain h | ⟨-, h | ⟨-, h⟩⟩ := h
    · exact Address.ne_of_lt h rfl
    · exact Nat.lt_irrefl _ h
    · exact Nat.lt_irrefl _ h

instance : Std.Antisymm Before where
  antisymm o o' h h' := by
    obtain h | ⟨heq, h⟩ := h
    · obtain h' | ⟨heq', -⟩ := h'
      · exact absurd rfl (Address.ne_of_lt (Address.lt_of_lt_of_le h (Address.le_of_lt h')))
      · exact absurd heq'.symm (Address.ne_of_lt h)
    · obtain h' | ⟨-, h'⟩ := h'
      · exact absurd heq.symm (Address.ne_of_lt h')
      · omega

end Occurrence

/-- The list of the scalars in the instructions that match the type, in their order. -/
structure Lists (type : EnumType) (parts : Bool) (insns : List Instruction)
    (l : List Occurrence) : Prop where
  sorted : l.Pairwise Occurrence.Before
  mem_iff : ∀ o, o ∈ l ↔ type.Matches o.scalar ∧ ∃ insn ∈ insns, o.StandsIn parts insn

/-- The matching scalars of the operands, instruction by instruction. -/
def occurrences (type : EnumType) (parts : Bool) (insns : List Instruction) : List Occurrence :=
  insns.flatMap fun insn => insn.operands.zipIdx.flatMap fun p =>
    ((p.1.found parts).filter fun q => type.Matches q.2).map fun q =>
      ⟨insn.address, p.2, q.1, q.2⟩

theorem mem_occurrences {type : EnumType} {parts : Bool} {insns : List Instruction}
    {o : Occurrence} : o ∈ occurrences type parts insns ↔
      type.Matches o.scalar ∧ ∃ insn ∈ insns, o.StandsIn parts insn := by
  obtain ⟨a, i, k, s⟩ := o
  simp only [occurrences, Occurrence.StandsIn, List.mem_flatMap, List.mem_map, List.mem_filter,
    Prod.exists, List.mem_zipIdx_iff_getElem?, Operand.mem_found, decide_eq_true_iff,
    Occurrence.mk.injEq]
  constructor
  · rintro ⟨insn, hinsn, operand, i', hoperand, k', s', ⟨hs, hmatch⟩, rfl, rfl, rfl, rfl⟩
    exact ⟨hmatch, insn, hinsn, rfl, operand, hoperand, hs⟩
  · rintro ⟨hmatch, insn, hinsn, rfl, operand, hoperand, hs⟩
    exact ⟨insn, hinsn, operand, i, hoperand, k, s, ⟨hs, hmatch⟩, rfl, rfl, rfl, rfl⟩

theorem sorted_occurrences (type : EnumType) (parts : Bool) {insns : List Instruction}
    (h : insns.Pairwise (·.address < ·.address)) :
    (occurrences type parts insns).Pairwise Occurrence.Before := by
  rw [occurrences, List.pairwise_flatMap]
  constructor
  · intro insn _
    rw [List.pairwise_flatMap]
    constructor
    · intro p _
      rw [List.pairwise_map]
      exact ((Operand.sorted_found parts p.1).filter _).imp fun hlt => .inr ⟨rfl, .inr ⟨rfl, hlt⟩⟩
    · refine (sorted_zipIdx insn.operands).imp fun hlt o ho o' ho' => ?_
      obtain ⟨q, -, rfl⟩ := List.mem_map.mp ho
      obtain ⟨q', -, rfl⟩ := List.mem_map.mp ho'
      exact .inr ⟨rfl, .inl hlt⟩
  · refine h.imp fun {insn insn'} hlt o ho o' ho' => ?_
    obtain ⟨p, -, ho⟩ := List.mem_flatMap.mp ho
    obtain ⟨p', -, ho'⟩ := List.mem_flatMap.mp ho'
    obtain ⟨q, -, rfl⟩ := List.mem_map.mp ho
    obtain ⟨q', -, rfl⟩ := List.mem_map.mp ho'
    exact .inl hlt

/-- There is one such list. -/
theorem lists_iff {type : EnumType} {parts : Bool} {insns : List Instruction}
    (h : insns.Pairwise (·.address < ·.address)) {l : List Occurrence} :
    Lists type parts insns l ↔ l = occurrences type parts insns := by
  constructor
  · intro hl
    exact hl.sorted.eq_of_mem_iff (sorted_occurrences type parts h) fun o =>
      (hl.mem_iff o).trans mem_occurrences.symm
  · rintro rfl
    exact ⟨sorted_occurrences type parts h, fun _ => mem_occurrences⟩

theorem map_binding_occurrences (type : EnumType) (parts : Bool) (insns : List Instruction) :
    (occurrences type parts insns).map (·.binding type) = bindings type parts insns := by
  rw [bindings, occurrences, List.map_flatMap]
  refine congrArg (List.flatMap · _) (funext fun insn => ?_)
  rw [bindingsAt_matching, List.map_flatMap]
  refine congrArg (List.flatMap · _) (funext fun p => ?_)
  rw [← Operand.map_found, List.filter_map, List.map_map, List.map_map]
  rfl

/-! ### Calls and their record -/

/-- A call of a client, the registry as it stands then, and the answer. -/
structure Call where
  binding : Binding
  registry : TypeRegistry
  answer : Except Diagnostic Unit

variable {σ : Type} (bind : TypeRegistry → Binding → StateM σ (Except Diagnostic Unit))

/-- The client with a record of its calls, the latest one last. -/
def recording (r : TypeRegistry) (b : Binding) :
    StateM (σ × List Call) (Except Diagnostic Unit) := fun (c, record) =>
  let (answer, c') := (bind r b).run c
  (answer, c', record ++ [⟨b, r, answer⟩])

/-- The calls of the client when it carries the bindings out. -/
def calls (r : TypeRegistry) : List Binding → σ → List Call
  | [], _ => []
  | b :: l, c =>
    match (bind r b).run c with
    | (.ok u, c') => ⟨b, r, .ok u⟩ :: calls r l c'
    | (.error d, _) => [⟨b, r, .error d⟩]

section calls

variable (r : TypeRegistry)

/-- Beside the record, recording changes nothing. -/
theorem carry_recording (l : List Binding) (c : σ) (record : List Call) :
    carry (recording bind r) l (c, record) =
      ((carry (bind r) l c).1, (carry (bind r) l c).2, record ++ calls bind r l c) := by
  induction l generalizing c record with
  | nil => rw [carry, carry, calls, List.append_nil]
  | cons b l ih =>
    have hrun : (recording bind r b).run (c, record) = (((bind r b).run c).1,
        ((bind r b).run c).2, record ++ [⟨b, r, ((bind r b).run c).1⟩]) := rfl
    rw [carry, carry, calls, hrun]
    rcases (bind r b).run c with ⟨d | u, c'⟩
    · rfl
    · dsimp only
      rw [ih, List.append_assoc, List.singleton_append]

/-- The bindings of the calls make up a first part of the list. -/
theorem calls_prefix (l : List Binding) (c : σ) :
    (calls bind r l c).map Call.binding <+: l := by
  induction l generalizing c with
  | nil => exact List.prefix_rfl
  | cons b l ih =>
    rw [calls]
    rcases (bind r b).run c with ⟨d | u, c'⟩
    · exact List.prefix_append [b] l
    · exact (List.prefix_cons_inj b).mpr (ih c')

theorem registry_of_mem_calls (l : List Binding) (c : σ) :
    ∀ call ∈ calls bind r l c, call.registry = r := by
  induction l generalizing c with
  | nil => exact List.forall_mem_nil _
  | cons b l ih =>
    rw [calls]
    rcases (bind r b).run c with ⟨d | u, c'⟩
    · exact List.forall_mem_singleton.mpr rfl
    · exact List.forall_mem_cons.mpr ⟨rfl, ih c'⟩

/-- All of the bindings have been called for and have gone through, or the last call has failed. -/
theorem calls_ended (l : List Binding) (c : σ) :
    ((calls bind r l c).map Call.binding = l ∧
        (∀ call ∈ calls bind r l c, call.answer = .ok ()) ∧ (carry (bind r) l c).1 = .ok ()) ∨
      ∃ before last d, calls bind r l c = before ++ [last] ∧
        (∀ call ∈ before, call.answer = .ok ()) ∧ last.answer = .error d ∧
        (carry (bind r) l c).1 = .error d := by
  induction l generalizing c with
  | nil => exact .inl ⟨rfl, List.forall_mem_nil _, rfl⟩
  | cons b l ih =>
    rw [calls, carry]
    rcases (bind r b).run c with ⟨d | u, c'⟩
    · exact .inr ⟨[], ⟨b, r, .error d⟩, d, rfl, List.forall_mem_nil _, rfl, rfl⟩
    · obtain ⟨hmap, hok, hr⟩ | ⟨before, last, d, heq, hok, hlast, hr⟩ := ih c'
      · refine .inl ⟨?_, List.forall_mem_cons.mpr ⟨rfl, hok⟩, hr⟩
        rw [List.map_cons, hmap]
      · refine .inr ⟨⟨b, r, .ok u⟩ :: before, last, d, ?_,
          List.forall_mem_cons.mpr ⟨rfl, hok⟩, hlast, hr⟩
        dsimp only
        rw [heq, List.cons_append]

theorem calls_eq_nil {l : List Binding} {c : σ} : calls bind r l c = [] ↔ l = [] := by
  cases l with
  | nil => exact iff_of_true rfl rfl
  | cons b l =>
    rw [calls]
    rcases (bind r b).run c with ⟨d | u, c'⟩
    · exact iff_of_false (List.cons_ne_nil _ _) (List.cons_ne_nil _ _)
    · exact iff_of_false (List.cons_ne_nil _ _) (List.cons_ne_nil _ _)

end calls

/-! ### Runs -/

/-- As far as the scan polls it, the monitor lets `p` polls pass. -/
theorem Visits.eq_take {m : Monitor} {l done : List Instruction} {outcome : Outcome}
    (h : Visits m l done outcome) {p : Nat} (hp : ∀ i < l.length, m.asks i = decide (p ≤ i)) :
    done = l.take p ∧ outcome = if p < l.length then .cancelled else .completed := by
  have hle : done.length ≤ p := by
    by_contra hlt
    have hlt : p < done.length := Nat.lt_of_not_le hlt
    have hpass := h.passed p hlt
    rw [hp p (Nat.lt_of_lt_of_le hlt h.sublist.length_le)] at hpass
    exact of_decide_eq_false hpass (Nat.le_refl p)
  obtain ⟨rfl, rfl⟩ | ⟨rfl, hask, insn, rest, rfl⟩ := h.ended
  · exact ⟨(List.take_of_length_le hle).symm, (if_neg (Nat.not_lt.mpr hle)).symm⟩
  · have hlt : done.length < (done ++ insn :: rest).length := by simp
    rw [hp _ hlt] at hask
    obtain rfl := Nat.le_antisymm (of_decide_eq_true hask) hle
    exact ⟨List.take_left.symm, (if_pos hlt).symm⟩

/-- The end of a scan of `n` instructions that has made the calls, where `found` are the matches in
those that the monitor lets it visit and `r` is the registry that it started with.  Every call
finds the registry as it is in the end, so all that becomes of it does so before the first one. -/
structure Served (type : EnumType) (p n : Nat) (r : TypeRegistry) (found : List Occurrence)
    (calls : List Call) (answer : Except Diagnostic Outcome) (s : Scan σ) : Prop where
  inOrder : calls.map Call.binding <+: found.map (·.binding type)
  ended :
    (calls.map Call.binding = found.map (·.binding type) ∧
      (∀ call ∈ calls, call.answer = .ok ()) ∧
      answer = .ok (if p < n then .cancelled else .completed) ∧
      s.bound = calls.length ∧ s.visited = min p n) ∨
    ∃ before last d, calls = before ++ [last] ∧ (∀ call ∈ before, call.answer = .ok ()) ∧
      last.answer = .error d ∧ answer = .error d
  settled : ∀ call ∈ calls, call.registry = s.registry
  unasked : calls = [] → s.registry = r
  asked : calls ≠ [] → s.registry.finds = r.finds + 1
  known : type.id ∈ r.types → s.registry.types = r.types ∧ s.registry.adds = r.adds
  added : calls ≠ [] → type.id ∉ r.types →
    s.registry.types = r.types.insert type.id type ∧ s.registry.adds = r.adds + 1

section run

variable {listing : Listing} {set : AddressSet} {m : Monitor} {p : Nat}
  (hp : ∀ i < (listing.within set).length, m.asks i = decide (p ≤ i))
  {r : TypeRegistry} (hr : r.Faithful) (type : EnumType) (parts : Bool) (c : σ)
include hp hr

/-- A scan carries the bindings of the instructions out that the monitor lets it visit. -/
theorem run_carries :
    let l := bindings type parts ((listing.within set).take p)
    let r' := (r.resolve type).2
    ∃ s', on (run bind listing set type parts) { monitor := m, registry := r, client := c } =
        ((carry (bind r') l c).1.map fun _ =>
          if p < (listing.within set).length then .cancelled else .completed, s') ∧
      s'.client = (carry (bind r') l c).2 ∧
      s'.registry = (if l = [] then r else r') ∧
      ((carry (bind r') l c).1 = .ok () →
        s'.bound = l.length ∧ s'.visited = min p (listing.within set).length) := by
  intro l r'
  let s : Scan σ := { monitor := m, registry := r, client := c }
  have hnamed : s.named type = type := hr.named_eq type
  obtain ⟨done, outcome, s', hv, hon, hs', hvisited⟩ := run_submits bind listing set type parts s
  obtain ⟨rfl, rfl⟩ := hv.eq_take hp
  rw [hnamed] at hon hs' hvisited
  refine ⟨s', hon, hs'.client, hs'.registry, fun hok => ⟨?_, ?_⟩⟩
  · exact (hs'.bound hok).trans (Nat.zero_add _)
  · rw [hvisited hok, List.length_take]
    exact Nat.zero_add _

theorem run_served :
    let insns := (listing.within set).take p
    let u := on (run bind listing set type parts) { monitor := m, registry := r, client := c }
    Served type p (listing.within set).length r (occurrences type parts insns)
      (calls bind (r.resolve type).2 (bindings type parts insns) c) u.1 u.2 := by
  intro insns u
  let l := bindings type parts insns
  let r' := (r.resolve type).2
  have hl : (occurrences type parts insns).map (·.binding type) = l :=
    map_binding_occurrences type parts insns
  obtain ⟨s', hrun, -, hregistry, hcounts⟩ := run_carries bind hp hr type parts c
  have hu : u = (_, s') := hrun
  have hbehind (h : calls bind r' l c ≠ []) : s'.registry = r' := by
    rw [hregistry, if_neg fun hnil => h ((calls_eq_nil bind r').mpr hnil)]
  rw [hu]
  refine ⟨?_, ?_, fun call hcall => ?_, fun h => ?_, fun hcalls => ?_, fun h => ?_,
    fun hcalls h => ?_⟩
  · rw [hl]
    exact calls_prefix bind r' l c
  · rw [hl]
    obtain ⟨hmap, hok, hcarry⟩ | ⟨before, last, d, heq, hok, hlast, hcarry⟩ :=
      calls_ended bind r' l c
    · obtain ⟨hbound, hvisited⟩ := hcounts hcarry
      have hlength : (calls bind r' l c).length = l.length := by
        rw [← List.length_map Call.binding, hmap]
      refine .inl ⟨hmap, hok, ?_, hbound.trans hlength.symm, hvisited⟩
      rw [hcarry]
      rfl
    · refine .inr ⟨before, last, d, heq, hok, hlast, ?_⟩
      rw [hcarry]
      rfl
  · rw [hbehind (List.ne_nil_of_mem hcall)]
    exact registry_of_mem_calls bind r' l c call hcall
  · rw [hregistry, if_pos ((calls_eq_nil bind r').mp h)]
  · rw [hbehind hcalls]
    exact TypeRegistry.finds_resolve r type
  · rw [hregistry]
    split
    · exact ⟨rfl, rfl⟩
    · rw [TypeRegistry.resolve_of_known (Std.ExtTreeMap.getElem?_eq_some_getElem h)]
      exact ⟨rfl, rfl⟩
  · have hr' : r' = _ :=
      congrArg Prod.snd (hr.resolve_of_unknown (Std.ExtTreeMap.getElem?_eq_none h))
    rw [hbehind hcalls, hr']
    exact ⟨rfl, rfl⟩

/-- The record of the calls is what they are said to be, and keeping it changes nothing else. -/
theorem run_recording :
    let u := on (run bind listing set type parts) { monitor := m, registry := r, client := c }
    let v := on (run (recording bind) listing set type parts)
      { monitor := m, registry := r, client := (c, []) }
    v.1 = u.1 ∧ v.2.client = (u.2.client,
      calls bind (r.resolve type).2 (bindings type parts ((listing.within set).take p)) c) := by
  obtain ⟨s', hu, huclient, -⟩ := run_carries bind hp hr type parts c
  obtain ⟨s'', hv, hvclient, -⟩ := run_carries (recording bind) hp hr type parts (c, [])
  rw [carry_recording, List.nil_append] at hv hvclient
  rw [hu, hv]
  exact ⟨rfl, hvclient.trans (Prod.ext huclient.symm rfl)⟩

/-- Whatever the client does, the registry ends up the same. -/
theorem registry_run (bind' : TypeRegistry → Binding → StateM σ (Except Diagnostic Unit)) :
    (on (run bind' listing set type parts)
        { monitor := m, registry := r, client := c }).2.registry =
      (on (run bind listing set type parts)
        { monitor := m, registry := r, client := c }).2.registry := by
  obtain ⟨s', hu, -, hregistry, -⟩ := run_carries bind hp hr type parts c
  obtain ⟨s'', hu', -, hregistry', -⟩ := run_carries bind' hp hr type parts c
  rw [hu, hu']
  exact hregistry'.trans hregistry.symm

/-- For every client that may fail on any call: a scan calls it on exactly the matches of the
instructions that the monitor lets it visit, in order, up to the first call that fails. -/
theorem run_calls (hsorted : (listing.within set).Pairwise (·.address < ·.address)) :
    ∃ found calls, (∀ l, Lists type parts ((listing.within set).take p) l ↔ l = found) ∧
      let u := on (run bind listing set type parts) { monitor := m, registry := r, client := c }
      let v := on (run (recording bind) listing set type parts)
        { monitor := m, registry := r, client := (c, []) }
      Served type p (listing.within set).length r found calls u.1 u.2 ∧
      (v.1 = u.1 ∧ v.2.client = (u.2.client, calls)) ∧
      -- No other client would leave another registry, one that fails at once included.
      ∀ bind' : TypeRegistry → Binding → StateM σ (Except Diagnostic Unit),
        (on (run bind' listing set type parts)
          { monitor := m, registry := r, client := c }).2.registry = u.2.registry :=
  ⟨_, _, fun _ => lists_iff (hsorted.sublist (List.take_sublist p _)),
    run_served bind hp hr type parts c, run_recording bind hp hr type parts c,
    registry_run bind hp hr type parts c⟩

end run

def twoOrFive : EnumType := ⟨7, "TwoOrFive", 1, [⟨"Two", 2⟩, ⟨"Five", 5⟩]⟩

/-- An unsigned byte in a part of an operand. -/
def bytePart (n : UInt64) : OperandPart := .scalar (.truncate 8 n false)

/-- Scalars of the type and other ones, mixed with text. -/
def mixed : Listing where
  instructions := [
    ⟨⟨0, 16⟩, [.compound [.text "[", bytePart 5, .text "+", bytePart 2, .text "]"],
      .compound [bytePart 3], .compound [.text "#", bytePart 5]]⟩,
    ⟨⟨0, 20⟩, [.compound [bytePart 2]]⟩, ⟨⟨0, 24⟩, [.compound [bytePart 5]]⟩]

def lowAddresses : AddressSet := ⟨[⟨⟨0, 0⟩, ⟨0, 32⟩⟩]⟩

/-- Counts its calls and refuses the third one. -/
def refuseThird (_ : TypeRegistry) (_ : Binding) : StateM Nat (Except Diagnostic Unit) := fun n =>
  (if n = 2 then .error (.error .invalidArgument "third") else .ok (), n + 1)

/-- The client fails before the monitor stops the scan. -/
theorem run_calls_mixed :
    let m : Monitor := { allowance := some 2 }
    (∀ i < (mixed.within lowAddresses).length, m.asks i = decide (2 ≤ i)) ∧
      TypeRegistry.Faithful {} ∧
      (mixed.within lowAddresses).Pairwise (·.address < ·.address) ∧
      ∃ found calls, Lists twoOrFive true ((mixed.within lowAddresses).take 2) found ∧
        found.length = 4 ∧
        calls.map Call.binding =
          [⟨"dtID:7:5", 5, ⟨0, 16⟩, 0⟩, ⟨"dtID:7:2", 2, ⟨0, 16⟩, 0⟩, ⟨"dtID:7:5", 5, ⟨0, 16⟩, 2⟩] ∧
        let u := on (run refuseThird mixed lowAddresses twoOrFive true)
          { monitor := m, registry := {}, client := 0 }
        u.1 = .error (.error .invalidArgument "third") ∧
          Served twoOrFive 2 3 {} found calls u.1 u.2 ∧ u.2.registry.adds = 1 ∧
          ∀ call ∈ calls, call.registry.adds = 1 := by
  intro m
  have hp : ∀ i < (mixed.within lowAddresses).length, m.asks i = decide (2 ≤ i) := by decide
  have hr : TypeRegistry.Faithful {} := ⟨fun h => by simp at h, rfl⟩
  have hsorted : (mixed.within lowAddresses).Pairwise (·.address < ·.address) := by decide
  have hlength : (mixed.within lowAddresses).length = 3 := by decide
  obtain ⟨found, calls, hfound, hserved, ⟨-, hclient⟩, -⟩ :=
    run_calls refuseThird hp hr twoOrFive true 0 hsorted
  have hlists := (hfound found).mpr rfl
  obtain rfl := (lists_iff (hsorted.sublist (List.take_sublist 2 _))).mp hlists
  have hbindings : ((on (run (recording refuseThird) mixed lowAddresses twoOrFive true)
      { monitor := m, registry := {}, client := (0, []) }).2.client.2).map Call.binding =
      [⟨"dtID:7:5", 5, ⟨0, 16⟩, 0⟩, ⟨"dtID:7:2", 2, ⟨0, 16⟩, 0⟩, ⟨"dtID:7:5", 5, ⟨0, 16⟩, 2⟩] := by
    decide +kernel
  rw [hclient] at hbindings
  rw [hlength] at hserved
  have hcalls : calls ≠ [] := by
    rintro rfl
    cases hbindings
  refine ⟨hp, hr, hsorted, _, calls, hlists, by decide +kernel, hbindings, by decide +kernel,
    hserved, ?_⟩
  have hadds := (hserved.added hcalls Std.ExtTreeMap.not_mem_empty).2
  exact ⟨hadds, fun call hcall => hserved.settled call hcall ▸ hadds⟩

end Scan

end Equates

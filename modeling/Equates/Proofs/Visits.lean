/-
How far a scan comes, and which bindings it hands out.

A scan goes through the instructions of the address set in order up to the first poll of its
monitor that asks to stop (`Scan.Visits`).  Its bindings are the matching scalars of these
instructions, in order, under names that carry the identity of the type (`Scan.bindings`).

For the operand `i` of an instruction the last of its bindings stands for the last of its matching
scalars (`Scan.last?_bindings`), since no other operand has the same address and index.
-/
import Equates.Proofs.Address.Window
import Equates.Proofs.Monitor
import Equates.Proofs.Scan
import Mathlib.Data.List.Sigma

namespace Equates

namespace TypeRegistry

/-- Types stand under their own identity, and one that is added is stored under its own. -/
structure Faithful (r : TypeRegistry) : Prop where
  own : ∀ {id : UInt64} {known : EnumType}, r.types[id]? = some known → known.id = id
  unshifted : r.idShift = 0

variable {r : TypeRegistry}

/-- A type that is stored under its identity is found there. -/
theorem resolve_of_known {type known : EnumType} (h : r.types[type.id]? = some known) :
    r.resolve type = (known, { r with finds := r.finds + 1 }) := by
  rw [resolve, find, h]

/-- A type that is not is stored as it is. -/
theorem Faithful.resolve_of_unknown (h : r.Faithful) {type : EnumType}
    (hnone : r.types[type.id]? = none) :
    r.resolve type = (type, { r with
      finds := r.finds + 1
      adds := r.adds + 1
      types := r.types.insert type.id type }) := by
  have hshifted : type.id + r.idShift = type.id := by rw [h.unshifted, UInt64.add_zero]
  rw [resolve, find, hnone]
  dsimp only
  rw [add]
  dsimp only
  rw [hshifted, hnone]

/-- One look-up, whether the type is added or not. -/
theorem finds_resolve (r : TypeRegistry) (type : EnumType) :
    (r.resolve type).2.finds = r.finds + 1 := by
  rw [resolve, find]
  cases r.types[type.id]? with
  | some known => rfl
  | none =>
    dsimp only
    rw [add]
    dsimp only
    split <;> rfl

theorem Faithful.id_resolve (h : r.Faithful) (type : EnumType) :
    (r.resolve type).1.id = type.id := by
  cases hfind : r.types[type.id]? with
  | some known =>
    rw [resolve_of_known hfind]
    exact h.own hfind
  | none => rw [h.resolve_of_unknown hfind]

/-- Under the registry that knows it by its own identity a type is named as it is. -/
theorem Faithful.named_eq (h : r.Faithful) (type : EnumType) :
    { type with id := (r.resolve type).1.id } = type := by
  rw [h.id_resolve]

end TypeRegistry

/-! ### Polls -/

/-- Under the monitor `m` a scan of the instructions `l` goes through `done`, and ends with
`outcome`. -/
structure Scan.Visits (m : Monitor) (l done : List Instruction) (outcome : Outcome) : Prop where
  passed : ∀ n < done.length, m.asks n = false
  ended : outcome = .completed ∧ done = l ∨
    outcome = .cancelled ∧ m.asks done.length = true ∧ ∃ insn rest, l = done ++ insn :: rest

namespace Scan

theorem Visits.cons {m : Monitor} {l done : List Instruction} {outcome : Outcome}
    (h : Visits m.poll.2 l done outcome) (hpass : m.poll.1 = false) (insn : Instruction) :
    Visits m (insn :: l) (insn :: done) outcome := by
  refine ⟨fun n hn => ?_, ?_⟩
  · cases n with
    | zero => exact hpass
    | succ n => exact h.passed n (Nat.lt_of_succ_lt_succ hn)
  · refine h.ended.imp ?_ ?_
    · rintro ⟨ho, rfl⟩
      exact ⟨ho, rfl⟩
    · rintro ⟨ho, hask, next, rest, rfl⟩
      exact ⟨ho, hask, next, rest, rfl⟩

theorem visits_tell {m : Monitor} {message : String} {l done : List Instruction}
    {outcome : Outcome} : Visits (m.tell message) l done outcome ↔ Visits m l done outcome := by
  constructor
  · rintro ⟨hpass, hend⟩
    simp only [Monitor.asks_tell] at hpass hend
    exact ⟨hpass, hend⟩
  · rintro ⟨hpass, hend⟩
    simp only [← m.asks_tell message] at hpass hend
    exact ⟨hpass, hend⟩

theorem exists_visits (m : Monitor) (l : List Instruction) :
    ∃ done outcome, Visits m l done outcome := by
  induction l generalizing m with
  | nil => exact ⟨[], .completed, fun n hn => absurd hn (Nat.not_lt_zero n), .inl ⟨rfl, rfl⟩⟩
  | cons insn l ih =>
    cases hstop : m.poll.1 with
    | true =>
      refine ⟨[], .cancelled, fun n hn => absurd hn (Nat.not_lt_zero n), ?_⟩
      exact .inr ⟨rfl, hstop, insn, l, rfl⟩
    | false =>
      obtain ⟨done, outcome, hv⟩ := ih m.poll.2
      exact ⟨insn :: done, outcome, hv.cons hstop insn⟩

theorem Visits.sublist {m : Monitor} {l done : List Instruction} {outcome : Outcome}
    (h : Visits m l done outcome) : done.Sublist l := by
  obtain ⟨-, rfl⟩ | ⟨-, -, insn, rest, rfl⟩ := h.ended
  · exact List.Sublist.refl done
  · exact List.sublist_append_left done _

end Scan

/-! ### The bindings of a list of instructions -/

namespace Binding

/-- The last of the bindings of the operand `i` at `a`. -/
def last? (l : List Binding) (a : Address) (i : Nat) : Option Binding :=
  (l.filter fun b => b.address = a ∧ b.operand = i).getLast?

theorem last?_append (l l' : List Binding) (a : Address) (i : Nat) :
    last? (l ++ l') a i = (last? l' a i).or (last? l a i) := by
  rw [last?, List.filter_append, List.getLast?_append]
  rfl

theorem of_last? {l : List Binding} {a : Address} {i : Nat} {b : Binding}
    (h : last? l a i = some b) : b ∈ l ∧ b.address = a ∧ b.operand = i := by
  simpa using List.mem_filter.mp (List.mem_of_getLast? h)

theorem last?_ne_none {l : List Binding} {b : Binding} (hb : b ∈ l) :
    last? l b.address b.operand ≠ none := by
  rw [last?, ne_eq, List.getLast?_eq_none_iff]
  exact List.ne_nil_of_mem (List.mem_filter.mpr ⟨hb, by simp⟩)

end Binding

/-- The last scalar of the operand that matches the type. -/
def Operand.lastMatch? (type : EnumType) (parts : Bool) (o : Operand) : Option Scalar :=
  ((o.scalars parts).filter fun s => type.Matches s).getLast?

/-- Where only one element of a list contributes, it contributes all. -/
theorem flatMap_eq_of_nodup {α β : Type} {l : List α} {f : α → List β} {x : α} (hl : l.Nodup)
    (hx : x ∈ l) (hf : ∀ y ∈ l, y ≠ x → f y = []) : l.flatMap f = f x := by
  obtain ⟨l₁, l₂, rfl⟩ := List.append_of_mem hx
  obtain ⟨-, -, hne⟩ := List.nodup_append.mp hl
  have h₁ : l₁.flatMap f = [] := by
    refine List.flatMap_eq_nil_iff.mpr fun y hy => ?_
    exact hf y (List.mem_append_left _ hy) (hne y hy x List.mem_cons_self)
  have h₂ : l₂.flatMap f = [] := by
    refine List.flatMap_eq_nil_iff.mpr fun y hy => ?_
    refine hf y (List.mem_append_right _ (List.mem_cons_of_mem x hy)) ?_
    rintro rfl
    exact (List.nodup_cons.mp (List.nodup_append.mp hl).2.1).1 hy
  rw [List.flatMap_append, List.flatMap_cons, h₁, h₂, List.nil_append, List.append_nil]

namespace Scan

/-- The binding of a scalar of the operand `i` at `a`. -/
def binding (type : EnumType) (a : Address) (i : Nat) (s : Scalar) : Binding :=
  ⟨(DerivedName.mk type.id s.value).text, s.value, a, i⟩

/-- The bindings of the scalars of the instruction at `a`. -/
def bindingsAt (type : EnumType) (a : Address) (l : List (Nat × Scalar)) : List Binding :=
  l.map fun (i, s) => binding type a i s

/-- The bindings of the instructions, in order. -/
def bindings (type : EnumType) (parts : Bool) (l : List Instruction) : List Binding :=
  l.flatMap fun insn => bindingsAt type insn.address (matching type parts insn)

/-- The scalars of an instruction are bound operand by operand. -/
theorem bindingsAt_matching (type : EnumType) (parts : Bool) (a : Address) (insn : Instruction) :
    bindingsAt type a (matching type parts insn) = insn.operands.zipIdx.flatMap fun p =>
      ((p.1.scalars parts).filter fun s => type.Matches s).map (binding type a p.2) := by
  rw [bindingsAt, matching, Instruction.scalars, List.filter_flatMap, List.map_flatMap]
  refine congrArg (List.flatMap · _) (funext fun p => ?_)
  rw [List.filter_map, List.map_map]
  rfl

theorem mem_bindings {type : EnumType} {parts : Bool} {l : List Instruction} {b : Binding} :
    b ∈ bindings type parts l ↔ ∃ insn ∈ l, ∃ o i, insn.operands[i]? = some o ∧
      ∃ s ∈ o.scalars parts, type.Matches s ∧ b = binding type insn.address i s := by
  simp only [bindings, bindingsAt_matching, List.mem_flatMap, List.mem_map, List.mem_filter,
    decide_eq_true_iff, Prod.exists, List.mem_zipIdx_iff_getElem?, and_assoc, eq_comm (a := b)]

/-- No other operand of the instruction has the index. -/
theorem filter_bindingsAt {type : EnumType} {parts : Bool} {insn : Instruction} {i : Nat}
    {o : Operand} (ho : insn.operands[i]? = some o) (a : Address) :
    (bindingsAt type a (matching type parts insn)).filter (fun b => b.address = a ∧ b.operand = i) =
      ((o.scalars parts).filter fun s => type.Matches s).map (binding type a i) := by
  have hnodup : insn.operands.zipIdx.Nodup :=
    List.Nodup.of_map Prod.snd (List.nodup_zipIdx_map_snd insn.operands)
  have hmem : (o, i) ∈ insn.operands.zipIdx := List.mem_zipIdx_iff_getElem?.mpr ho
  have hindex : ∀ p ∈ insn.operands.zipIdx, p ≠ (o, i) → p.2 ≠ i := by
    rintro ⟨o', j⟩ hp hne rfl
    rw [List.mem_zipIdx_iff_getElem?, ho] at hp
    exact hne (congrArg (·, j) (Option.some.inj hp).symm)
  rw [bindingsAt_matching, List.filter_flatMap, flatMap_eq_of_nodup hnodup hmem]
  · exact List.filter_eq_self.mpr (List.forall_mem_map.mpr fun s _ => by simp [binding])
  · intro p hp hne
    refine List.filter_eq_nil_iff.mpr (List.forall_mem_map.mpr fun s _ => ?_)
    simp [binding, hindex p hp hne]

/-- No other instruction stands at the address. -/
theorem last?_bindings {type : EnumType} {parts : Bool} {l : List Instruction}
    (hl : l.Pairwise (·.address < ·.address)) {insn : Instruction} (hinsn : insn ∈ l) {i : Nat}
    {o : Operand} (ho : insn.operands[i]? = some o) :
    Binding.last? (bindings type parts l) insn.address i =
      (o.lastMatch? type parts).map (binding type insn.address i) := by
  have hdistinct : l.Pairwise (·.address ≠ ·.address) := hl.imp Address.ne_of_lt
  have hnodup : l.Nodup := hdistinct.imp fun hne heq => hne (congrArg _ heq)
  have hsymm : Std.Symm fun x y : Instruction => x.address ≠ y.address := ⟨fun _ _ => Ne.symm⟩
  rw [Binding.last?, bindings, List.filter_flatMap, flatMap_eq_of_nodup hnodup hinsn,
    filter_bindingsAt ho, List.getLast?_map]
  · rfl
  · intro other hother hne
    refine List.filter_eq_nil_iff.mpr (List.forall_mem_map.mpr fun p _ => ?_)
    simp [binding, hdistinct.forall hother hinsn hne]

end Scan

end Equates

/-
What the stored rows have in common: how they are changed, and secondary indices.

A change of rows is made of single writes and may end with a problem, which keeps
the writes that came before it (`Rows.run`).

An `Index` maps a column value to the set of the keys of the rows that have it,
and holds no empty set, so a value is in the index exactly if some row has it.
-/
import Equates.Address.Key
import Equates.Problem
import Std.Data.ExtTreeMap
import Std.Data.ExtTreeSet

namespace Equates

/-- A storage key of a row. -/
abbrev Key := Int

/-- Makes a change on the rows `t`: its result, and the rows behind it. -/
def Rows.run {τ α : Type} (t : τ) (change : ExceptT Problem (StateM τ) α) :
    Except Problem α × τ :=
  change.run t

theorem Rows.run_get_bind {τ α : Type} (t : τ) (f : τ → ExceptT Problem (StateM τ) α) :
    Rows.run t (get >>= f) = Rows.run t (f t) := rfl

structure Index where
  sets : Std.ExtTreeMap Int (Std.ExtTreeSet Key) := ∅

namespace Index

/-- Files the row `k` under `v`. -/
def link (ix : Index) (v : Int) (k : Key) : Index :=
  ⟨ix.sets.alter v fun set? => some ((set?.getD ∅).insert k)⟩

/-- Takes the row `k` from under `v`, and `v` with it if it was the last one. -/
def unlink (ix : Index) (v : Int) (k : Key) : Index :=
  ⟨ix.sets.alter v fun set? => do
    let rest := (← set?).erase k
    if rest.isEmpty then none else some rest⟩

/-- The rows under `v`, ascending. -/
def keys (ix : Index) (v : Int) : List Key :=
  match ix.sets[v]? with
  | some set => set.toList
  | none => []

/-- The least value in the window that has a row. -/
def firstIn? (ix : Index) (w : KeyWindow) : Option { v : Int // v ∈ w } := do
  let v ← ix.sets.getKeyGE? w.first
  if h : v ∈ w then some ⟨v, h⟩ else none

end Index

end Equates

/-
Calls to rows that hand out keys.

Rows are used by calls, one after the other, and each call is carried out or refused
(`Rows.Handler`).  A row that is added takes its key from a counter, which goes up with it
(`Rows.Numbered`), so that no key is handed out twice (`Rows.Numbered.ascending`).
-/
import Equates.Problem
import Equates.Rows.Index
import Mathlib.Algebra.Order.Ring.Int
import Mathlib.Tactic.Common

namespace Equates.Rows

variable {κ ρ τ : Type}

/-- What a call to some rows comes to: the row that it adds, if there is one, or a problem, and the
rows behind it. -/
abbrev Handler (κ ρ τ : Type) := τ → κ → Except Problem (Option ρ) × τ

namespace Handler

variable (handle : Handler κ ρ τ)

/-- The rows behind a call, whether or not it is refused. -/
def behind (t : τ) (x : κ) : τ :=
  (handle t x).2

/-- The rows behind the calls. -/
def run (t : τ) (l : List κ) : τ :=
  l.foldl handle.behind t

/-- The row that a call adds. -/
def added? (t : τ) (x : κ) : Option ρ :=
  match (handle t x).1 with
  | .ok r? => r?
  | .error _ => none

/-- The rows that the calls add, in the order of the calls. -/
def added (t : τ) : List κ → List ρ
  | [] => []
  | x :: l => (handle.added? t x).toList ++ added (handle.behind t x) l

variable {handle}

/-- What holds at first and is kept up by every call holds behind them all. -/
theorem run_induction {P : τ → Prop} {t : τ} (h₀ : P t)
    (h : ∀ {t x r t'}, P t → handle t x = (r, t') → P t') (l : List κ) :
    P (handle.run t l) := by
  induction l generalizing t with
  | nil => exact h₀
  | cons x l ih => exact ih (h h₀ rfl)

end Handler

/-- A row that is added has the key that the counter shows, and the counter goes up just then. -/
structure Numbered (handle : Handler κ ρ τ) (key : ρ → Key) (next : τ → Key) : Prop where
  key_eq : ∀ {t x r t'}, handle t x = (.ok (some r), t') → key r = next t
  next_of_some : ∀ {t x r t'}, handle t x = (.ok (some r), t') → next t' = next t + 1
  next_of_none : ∀ {t x t'}, handle t x = (.ok none, t') → next t' = next t
  next_of_error : ∀ {t x p t'}, handle t x = (.error p, t') → next t' = next t

namespace Numbered

variable {handle : Handler κ ρ τ} {key : ρ → Key} {next : τ → Key}
  (h : Numbered handle key next)
include h

/-- A call that adds no row leaves the counter. -/
theorem step (t : τ) (x : κ) :
    handle.added? t x = none ∧ next (handle.behind t x) = next t ∨
      ∃ r, handle.added? t x = some r ∧ key r = next t ∧
        next (handle.behind t x) = next t + 1 := by
  rw [Handler.added?, Handler.behind]
  rcases hx : handle t x with ⟨p | _ | r, t'⟩
  · exact .inl ⟨rfl, h.next_of_error hx⟩
  · exact .inl ⟨rfl, h.next_of_none hx⟩
  · exact .inr ⟨r, rfl, h.key_eq hx, h.next_of_some hx⟩

theorem next_le_key (t : τ) (l : List κ) : ∀ r ∈ handle.added t l, next t ≤ key r := by
  induction l generalizing t with
  | nil => nofun
  | cons x l ih =>
    rw [Handler.added]
    rcases h.step t x with ⟨hadded, hnext⟩ | ⟨r, hadded, hkey, hnext⟩
    · rw [hadded, ← hnext]
      exact ih _
    · rw [hadded]
      refine List.forall_mem_cons.mpr ⟨hkey.ge, fun r' hr' => ?_⟩
      have hle := ih _ r' hr'
      rw [hnext] at hle
      exact (Int.lt_succ _).le.trans hle

/-- No key is handed out twice. -/
theorem ascending (t : τ) (l : List κ) : (handle.added t l).Pairwise (key · < key ·) := by
  induction l generalizing t with
  | nil => exact List.Pairwise.nil
  | cons x l ih =>
    rw [Handler.added]
    rcases h.step t x with ⟨hadded, -⟩ | ⟨r, hadded, hkey, hnext⟩
    · rw [hadded]
      exact ih _
    · rw [hadded]
      refine List.pairwise_cons.mpr ⟨fun r' hr' => ?_, ih _⟩
      have hle := h.next_le_key _ l r' hr'
      rw [hnext, ← hkey] at hle
      exact hle

end Numbered

end Equates.Rows

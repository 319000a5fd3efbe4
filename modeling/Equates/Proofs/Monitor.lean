/-
How far a monitor lets a bulk operation come.

A bulk operation polls its monitor before each step and stops at the first poll that asks to
stop.  `Monitor.grants` is the number of steps that it takes of those it has to take.  An
operation in two phases goes on with what the first one has left of the monitor
(`Monitor.Passes`), so that its polls can be counted through.
-/
import Equates.Monitor
import Mathlib.Order.Basic
import Mathlib.Tactic.Common

namespace Equates.Monitor

/-- The poll behind `n` others asks to stop. -/
def asks (m : Monitor) : Nat → Bool
  | 0 => m.poll.1
  | n + 1 => m.poll.2.asks n

/-- Polls pass until the allowance is used up. -/
theorem asks_eq (m : Monitor) (n : Nat) : m.asks n = m.allowance.any (· ≤ m.polls + n) := by
  induction n generalizing m with
  | zero => rfl
  | succ n ih =>
    rw [asks, ih, poll]
    simp only [Nat.add_right_comm, Nat.add_assoc]

theorem asks_tell (m : Monitor) (message : String) (n : Nat) :
    (m.tell message).asks n = m.asks n := by
  induction n generalizing m with
  | zero => rfl
  | succ n ih => exact ih m.poll.2

/-- How many of the next `n` polls pass, up to the first that asks to stop. -/
def grants (m : Monitor) : Nat → Nat
  | 0 => 0
  | n + 1 => if m.poll.1 then 0 else m.poll.2.grants n + 1

/-- An operation that has to stop is not let further by more steps to take. -/
theorem grants_add_of_lt {m : Monitor} {n : Nat} (h : m.grants n < n) (k : Nat) :
    m.grants (n + k) = m.grants n := by
  induction n generalizing m with
  | zero => exact absurd h (Nat.not_lt_zero _)
  | succ n ih =>
    rw [Nat.succ_add]
    simp only [grants] at h ⊢
    split at h
    · next hstop => rw [if_pos hstop, if_pos hstop]
    · next hpass => rw [if_neg hpass, if_neg hpass, ih (Nat.lt_of_succ_lt_succ h)]

/-- What a monitor has been told does not matter to its polls. -/
theorem grants_congr {m m' : Monitor} (ha : m'.allowance = m.allowance) (hp : m'.polls = m.polls)
    (n : Nat) : m'.grants n = m.grants n := by
  induction n generalizing m m' with
  | zero => rfl
  | succ n ih =>
    have hrest : m'.poll.2.grants n = m.poll.2.grants n := ih ha (congrArg (· + 1) hp)
    rw [grants, grants, hrest, poll, poll, ha, hp]

/-- A monitor that lets `p` polls pass. -/
theorem grants_eq_min {m : Monitor} {p : Nat} (h : ∀ i, m.asks i = decide (p ≤ i)) (n : Nat) :
    m.grants n = min n p := by
  induction n generalizing m p with
  | zero => exact (Nat.zero_min p).symm
  | succ n ih =>
    have hpoll : m.poll.1 = decide (p ≤ 0) := h 0
    rw [grants, hpoll]
    cases p with
    | zero => rfl
    | succ p =>
      have hrest : ∀ i, m.poll.2.asks i = decide (p ≤ i) := fun i => by
        rw [show m.poll.2.asks i = decide (p + 1 ≤ i + 1) from h (i + 1)]
        simp only [Nat.add_le_add_iff_right]
      rw [ih hrest, Nat.succ_min_succ]
      rfl

/-- A monitor that never asks to stop. -/
theorem grants_eq_self {m : Monitor} (h : ∀ i, m.asks i = false) (n : Nat) : m.grants n = n := by
  induction n generalizing m with
  | zero => rfl
  | succ n ih =>
    have hpoll : m.poll.1 = false := h 0
    rw [grants, hpoll, ih fun i => h (i + 1)]
    rfl

/-- `m'` is what `m` has become behind `i` polls that pass. -/
def Passes (m : Monitor) (i : Nat) (m' : Monitor) : Prop :=
  ∀ n, m.grants (i + n) = i + m'.grants n

theorem passes_poll {m : Monitor} (h : m.poll.1 = false) : m.Passes 1 m.poll.2 := by
  intro n
  rw [Nat.add_comm 1 n, grants, h, Nat.add_comm 1]
  rfl

theorem Passes.trans {m m' m'' : Monitor} {i j : Nat} (h : m.Passes i m') (h' : m'.Passes j m'') :
    m.Passes (i + j) m'' := by
  intro n
  rw [Nat.add_assoc, h, h', Nat.add_assoc]

/-! ### Operations on a range -/

/-- An operation on a range with `n` addresses and `k` references, which polls for each address,
once at their end and for each reference, comes to its end. -/
def Finishes (m : Monitor) (n k : Nat) : Prop :=
  m.grants (n + 1 + k) = n + 1 + k

instance (m : Monitor) (n k : Nat) : Decidable (m.Finishes n k) :=
  inferInstanceAs (Decidable (_ = _))

/-- The number of references that it comes to. -/
def reach (m : Monitor) (n k : Nat) : Nat :=
  m.grants (n + 1 + k) - (n + 1)

theorem grants_tell (m : Monitor) (message : String) : (m.tell message).grants = m.grants :=
  funext (grants_congr rfl rfl)

theorem finishes_tell (m : Monitor) (message : String) (n k : Nat) :
    (m.tell message).Finishes n k ↔ m.Finishes n k := by
  rw [Finishes, Finishes, grants_tell]

theorem reach_tell (m : Monitor) (message : String) (n k : Nat) :
    (m.tell message).reach n k = m.reach n k := by
  rw [reach, reach, grants_tell]

section reach

variable {m m' : Monitor} {n : Nat}

theorem reach_of_stop (h : m.grants (n + 1) ≤ n) (k : Nat) :
    m.reach n k = 0 ∧ ¬ m.Finishes n k := by
  rw [reach, Finishes, grants_add_of_lt (Nat.lt_add_one_of_le h)]
  omega

theorem reach_of_passes (h : m.Passes (n + 1) m') (k : Nat) :
    m.reach n k = m'.grants k ∧ (m.Finishes n k ↔ m'.grants k = k) := by
  rw [reach, Finishes, h]
  omega

theorem reach_of_finishes {k : Nat} (h : m.Finishes n k) : m.reach n k = k := by
  rw [reach, show m.grants (n + 1 + k) = n + 1 + k from h]
  omega

/-- How far a monitor lets an operation come that lets `p` polls pass. -/
theorem reach_eq_min {p : Nat} (h : ∀ i, m.asks i = decide (p ≤ i)) (n k : Nat) :
    m.reach n k = min k (p - (n + 1)) ∧ (m.Finishes n k ↔ n + 1 + k ≤ p) := by
  rw [reach, Finishes, grants_eq_min h]
  omega

end reach

end Equates.Monitor

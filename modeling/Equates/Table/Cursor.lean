/-
Cursors over the referenced addresses.

A `Cursor` is the part of the key space that is still to be visited, as a list of
key windows.  `Cursor.next` asks the stored references for the first address key
in what is left, and cuts off everything up to it.  Nothing else is remembered, so
a cursor may be advanced while references come and go; addresses behind it are
never visited again.

`Cursor.gather` advances a cursor to its end and collects what a visitor finds at
each address, unless the monitor stops it.  It ends because each step leaves
fewer keys (`Cursor.size_next_lt`).
-/
import Equates.Table.References

namespace Equates

/-- What is left to visit, in order. -/
abbrev Cursor := List KeyWindow

namespace Cursor

/-- The number of keys in what is left. -/
def size : Cursor → Nat
  | [] => 0
  | w :: rest => w.size + size rest

/-- A cursor over every key. -/
def whole : Cursor := [.everything]

/-- A cursor from the first mappable address that is not before `a`. -/
def startingAt (a : Address) : Cursor :=
  match KeyWindow.between? a ⟨0xFFFF, 0xFFFFFFFFFFFFFFFF⟩ with
  | some w => [⟨w.first, KeyWindow.everything.last⟩]
  | none => []

/-- The call for the first referenced address key of a window. -/
def seek (w : KeyWindow) : Attempt (Option { k : Int // k ∈ w }) :=
  queryReferences .firstAddress none (·.firstAddressIn? w)

/-- The next referenced address, and the cursor behind it. -/
def next : Cursor → Action (Except Diagnostic (Option Address) × Cursor)
  | [] => return (.ok none, [])
  | w :: rest => do
    if w.last < w.first then
      next rest
    else
      match ← (seek w).run with
      | .error d => return (.error d, w :: rest)
      | .ok none => next rest
      | .ok (some k) =>
        match Address.ofKey? k with
        | some a => return (.ok (some a), w.after k :: rest)
        | none => return (.error (Problem.undecodableKey k).diagnostic, w.after k :: rest)

theorem size_after_lt {w : KeyWindow} {k : Int} (h : k ∈ w) : (w.after k).size < w.size := by
  obtain ⟨h₁, h₂⟩ := h
  simp only [KeyWindow.after, KeyWindow.size]
  omega

/-- A step to an address leaves fewer keys. -/
theorem size_next_lt {c c' : Cursor} {t t' : Table} {a : Address}
    (h : (next c).run t = ((.ok (some a), c'), t')) : c'.size < c.size := by
  induction c generalizing t with
  | nil =>
    simp only [next, StateT.run_pure] at h
    cases h
  | cons w rest ih =>
    have hrest : ∀ {t₁ : Table}, (next rest).run t₁ = ((.ok (some a), c'), t') →
        c'.size < size (w :: rest) := by
      intro t₁ h₁
      have := ih h₁
      rw [size]
      omega
    simp only [next] at h
    split at h
    · exact hrest h
    · obtain ⟨⟨r, t₁⟩, hs⟩ : ∃ p, (seek w).run.run t = pure p := ⟨_, rfl⟩
      simp only [StateT.run_bind, hs, pure_bind] at h
      rcases r with d | _ | k
      · cases h
      · exact hrest h
      · dsimp only at h
        split at h
        · cases h
          have := size_after_lt k.property
          rw [size, size]
          omega
        · cases h

/-- Visits every address that the cursor comes to and joins what `visit` finds
there, or answers `none` if the monitor asks to stop.  The monitor is polled before
each step. -/
def gather {α : Type} (visit : Address → Attempt (List α)) (c : Cursor) :
    Attempt (Option (List α)) := ExceptT.mk fun t =>
  let (stop, t) := poll.run t
  if stop then (.ok none, t)
  else
    match _h : (next c).run t with
    | ((.error d, _), t) => (.error d, t)
    | ((.ok none, _), t) => (.ok (some []), t)
    | ((.ok (some a), c'), t) =>
      match (visit a).run.run t with
      | (.error d, t) => (.error d, t)
      | (.ok found, t) => ((·.map (found ++ ·)) <$> gather visit c').run.run t
termination_by c.size
decreasing_by exact size_next_lt _h

end Cursor

end Equates

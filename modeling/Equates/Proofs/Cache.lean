/-
A record cache that agrees with the stored records.

A cache agrees with a look-up (`Cache.Agrees`) if its index and its list are in step, and it
holds, for every key that it holds, just what the look-up finds.  Reading, dropping and
clearing keep a cache in agreement; storing a record keeps it in agreement with a look-up that
has changed at most at that record's key (`Cache.Agrees.put`).
-/
import Equates.Proofs.Cache.Linked

namespace Equates.Cache

variable {α : Type}

/-- Every entry is what `f` finds under its key. -/
structure Agrees (c : Cache α) (f : Int → Option α) : Prop where
  linked : c.Linked
  mem : ∀ p ∈ c.entries, f p.1 = some p.2

theorem agrees_empty (capacity : Nat) (f : Int → Option α) : (empty capacity).Agrees f :=
  ⟨linked_empty capacity, nofun⟩

theorem agrees_clear (c : Cache α) (f : Int → Option α) : c.clear.Agrees f :=
  ⟨linked_clear c, nofun⟩

namespace Agrees

variable {c : Cache α} {f f' : Int → Option α}

theorem find? (h : c.Agrees f) {k : Int} {a : α} (hk : c.find? k = some a) : f k = some a :=
  h.mem _ (mem_of_find? hk)

/-- A look-up in the cache finds what is stored, or nothing. -/
theorem get_fst (h : c.Agrees f) {k : Int} {a : α} (hk : (c.get k).1 = some a) :
    f k = some a :=
  h.find? (h.linked.get_fst k ▸ hk)

theorem get_snd (h : c.Agrees f) (k : Int) : (c.get k).2.Agrees f := by
  refine ⟨h.linked.get k, ?_⟩
  rw [h.linked.entries_get]
  split
  · exact h.mem
  · next a ha =>
    intro p hp
    rcases List.mem_cons.mp hp with rfl | hp
    · exact h.find? ha
    · exact h.mem p (mem_others.mp hp).1

theorem erase (h : c.Agrees f) {k : Int} (hf : ∀ k', k' ≠ k → f' k' = f k') :
    (c.erase k).Agrees f' := by
  refine ⟨h.linked.erase k, fun p hp => ?_⟩
  rw [h.linked.entries_erase] at hp
  obtain ⟨hp, hne⟩ := mem_others.mp hp
  rw [hf p.1 hne]
  exact h.mem p hp

theorem put (h : c.Agrees f) {k : Int} {a : α} (hk : f' k = some a)
    (hf : ∀ k', k' ≠ k → f' k' = f k') : (c.put k a).Agrees f' := by
  -- Whatever is kept of the old entries stands under another key.
  have hkept : ∀ p ∈ c.entries, p.1 ≠ k → f' p.1 = some p.2 := by
    intro p hp hne
    rw [hf p.1 hne]
    exact h.mem p hp
  refine ⟨h.linked.put k a, ?_⟩
  rw [h.linked.entries_put]
  split
  · intro p hp
    rcases List.mem_cons.mp hp with rfl | hp
    · exact hk
    · obtain ⟨hp, hne⟩ := mem_others.mp hp
      exact hkept p hp hne
  · next hnone =>
    intro p hp
    rcases List.mem_cons.mp hp with rfl | hp
    · exact hk
    · have hp : p ∈ c.entries := by
        split at hp
        · exact List.dropLast_subset _ hp
        · exact hp
      exact hkept p hp (ne_of_find?_eq_none hnone hp)

/-- Filling the cache with a stored record. -/
theorem put_same (h : c.Agrees f) {k : Int} {a : α} (hk : f k = some a) : (c.put k a).Agrees f :=
  h.put hk fun _ _ => rfl

end Agrees

end Equates.Cache

/-
The values of an ordered map, as a list.

Where every value stands under its own key (`OwnKeys`), the list of all values is the one
list that is sorted by keys and has just the values of the map
(`eq_of_sorted_of_mem_iff`, `OwnKeys.mem_values`, `OwnKeys.values_sorted`).
-/
import Equates.Rows.Index
import Mathlib.Algebra.Order.Ring.Int
import Mathlib.Data.List.Sort
import Mathlib.Order.Compare
import Mathlib.Tactic.Common

namespace Equates

variable {α : Type}

/-- Lists that are sorted by keys and have the same members are the same. -/
theorem eq_of_sorted_of_mem_iff {key : α → Key} {l l' : List α}
    (hl : l.Pairwise (key · < key ·)) (hl' : l'.Pairwise (key · < key ·))
    (h : ∀ a, a ∈ l ↔ a ∈ l') : l = l' := by
  have hanti : Std.Antisymm fun a b : α => key a < key b :=
    ⟨fun _ _ h h' => absurd h (lt_asymm h')⟩
  have hirrefl : Std.Irrefl fun a b : α => key a < key b := ⟨fun _ => lt_irrefl _⟩
  exact hl.eq_of_mem_iff hl' h

theorem values_eq (m : Std.ExtTreeMap Key α) : m.values = m.toList.map Prod.snd := by
  have hfold : m.values = m.foldr (fun _ a l => a :: l) [] := by
    obtain ⟨⟨m⟩⟩ := m
    induction m using Quotient.ind
    rfl
  rw [hfold, Std.ExtTreeMap.foldr_eq_foldr_toList]
  induction m.toList with
  | nil => rfl
  | cons p l ih => rw [List.foldr_cons, ih, List.map_cons]

/-- Where keys are handed out in ascending order, the one behind the newest is greater than all
of them. -/
theorem lt_newest_add_one {issued : List Key} (h : issued.Pairwise (· > ·)) {k : Key}
    (hk : k ∈ issued) : k < issued.headD 0 + 1 := by
  cases issued with
  | nil => cases hk
  | cons newest rest =>
    rw [List.headD_cons]
    obtain rfl | hk := List.mem_cons.mp hk
    · exact Int.lt_succ _
    · exact lt_trans ((List.pairwise_cons.mp h).1 k hk) (Int.lt_succ _)

/-- Every value stands under its own key. -/
def OwnKeys (m : Std.ExtTreeMap Key α) (key : α → Key) : Prop :=
  ∀ k a, m[k]? = some a → key a = k

namespace OwnKeys

variable {m : Std.ExtTreeMap Key α} {key : α → Key} (h : OwnKeys m key)
include h

theorem mem_values {a : α} : a ∈ m.values ↔ m[key a]? = some a := by
  simp only [values_eq, List.mem_map, Prod.exists, exists_eq_right,
    Std.ExtTreeMap.mem_toList_iff_getElem?_eq_some]
  constructor
  · rintro ⟨k, ha⟩
    rw [h k a ha]
    exact ha
  · exact fun ha => ⟨key a, ha⟩

theorem values_sorted : m.values.Pairwise (key · < key ·) := by
  rw [values_eq, List.pairwise_map]
  refine Std.ExtTreeMap.ordered_keys_toList.imp_of_mem fun {p q} hp hq hlt => ?_
  rw [Std.ExtTreeMap.mem_toList_iff_getElem?_eq_some] at hp hq
  rw [h _ _ hp, h _ _ hq]
  exact compare_lt_iff_lt.mp hlt

end OwnKeys

end Equates

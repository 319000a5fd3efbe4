/-
Which entries a cache holds.

A key that has been put is lost only if it is dropped, or if as many other keys as the cache has
room for are touched after it; these are its rivals (`Cache.rivals`).  The keys in front of a key
are always rivals of it, and a touch of another key adds one at most, so that a key is not cut off
before there are as many rivals as there is room (`Cache.Ranked`).

* `Cache.ranked_play` — what the rivals tell, behind any commands;
* `Cache.residency_exact` — what a `get` finds behind any commands.
-/
import Equates.Proofs.Cache.Commands
import Mathlib.Data.Finset.Card
import Mathlib.Data.Finset.Dedup
import Mathlib.Data.List.TakeWhile

namespace Equates.Cache

variable {α : Type}

/-! ### Touches -/

/-- The commands with the keys that they touch, newest first. -/
def log (c : Cache α) (l : List (Command α)) : List (Command α × Option Int) :=
  (l.foldl (fun p x => (x.behind p.1, (x, x.touched? p.1) :: p.2)) (c, [])).2

theorem log_concat (c : Cache α) (l : List (Command α)) (x : Command α) :
    c.log (l ++ [x]) = (x, x.touched? (c.play l)) :: c.log l := by
  have hfst : ∀ p : Cache α × List (Command α × Option Int),
      (l.foldl (fun p x => (x.behind p.1, (x, x.touched? p.1) :: p.2)) p).1 = p.1.play l := by
    intro p
    induction l generalizing p with
    | nil => rfl
    | cons y l ih => exact ih _
  rw [log, List.foldl_concat, hfst]
  rfl

/-- The commands after the last touch of the key, newest first. -/
def since (c : Cache α) (l : List (Command α)) (k : Int) : List (Command α × Option Int) :=
  (c.log l).takeWhile (·.2 ≠ some k)

/-- The keys touched after the last touch of the key. -/
def rivals (c : Cache α) (l : List (Command α)) (k : Int) : Finset Int :=
  ((c.since l k).filterMap Prod.snd).toFinset

section

variable {c : Cache α} {l : List (Command α)} {x : Command α}

theorem since_of_touched {k : Int} (hx : x.touched? (c.play l) = some k) :
    c.since (l ++ [x]) k = [] := by
  rw [since, log_concat, hx, List.takeWhile_cons_of_neg (by simp)]

theorem since_of_ne {k : Int} (hx : x.touched? (c.play l) ≠ some k) :
    c.since (l ++ [x]) k = (x, x.touched? (c.play l)) :: c.since l k := by
  rw [since, log_concat, List.takeWhile_cons, if_pos (decide_eq_true hx), since]

theorem rivals_of_touched {k : Int} (hx : x.touched? (c.play l) = some k) :
    c.rivals (l ++ [x]) k = ∅ := by
  rw [rivals, since_of_touched hx]
  rfl

theorem rivals_of_ne {j k : Int} (hx : x.touched? (c.play l) = some j) (hjk : j ≠ k) :
    c.rivals (l ++ [x]) k = insert j (c.rivals l k) := by
  have hne : x.touched? (c.play l) ≠ some k := hx ▸ fun h => hjk (Option.some.inj h)
  rw [rivals, since_of_ne hne, hx, List.filterMap_cons, List.toFinset_cons]
  rfl

theorem rivals_of_untouched {k : Int} (hx : x.touched? (c.play l) = none) :
    c.rivals (l ++ [x]) k = c.rivals l k := by
  rw [rivals, since_of_ne (hx ▸ nofun), hx, List.filterMap_cons]
  rfl

end

theorem notMem_rivals (c : Cache α) (l : List (Command α)) (k : Int) : k ∉ c.rivals l k := by
  intro h
  obtain ⟨p, hp, hk⟩ := List.mem_filterMap.mp (List.mem_toFinset.mp h)
  have hne := List.mem_takeWhile_imp hp
  exact of_decide_eq_true hne hk

/-! ### The rivals of a key -/

/-- What is cut off has everything that is kept in front of it. -/
theorem sublist_of_cut {s : List Int} {k : Int} {n : Nat} (hk : k ∈ s) (hcut : k ∉ s.take n) :
    ∀ j ∈ s.take n, [j, k].Sublist s := by
  intro j hj
  have hdrop : k ∈ s.drop n := by
    rw [← List.take_append_drop n s] at hk
    exact (List.mem_append.mp hk).resolve_left hcut
  rw [← List.take_append_drop n s]
  exact (List.singleton_sublist.mpr hj).append (List.singleton_sublist.mpr hdrop)

/-- What is kept has the same in front of it as before. -/
theorem sublist_take {s : List Int} (hs : s.Nodup) {j k : Int} {n : Nat} (hk : k ∈ s.take n)
    (h : [j, k].Sublist s) : [j, k].Sublist (s.take n) := by
  have hdrop : k ∉ s.drop n := List.disjoint_take_drop hs le_rfl hk
  rw [← List.take_append_drop n s] at h
  obtain ⟨s₁, s₂, heq, h₁, h₂⟩ := List.sublist_append_iff.mp h
  cases s₂ using List.reverseRecOn with
  | nil =>
    rw [List.append_nil] at heq
    rwa [heq]
  | append_singleton s₂ i =>
    -- The last of the two would be among those cut off.
    have hi : i = k := by
      rw [← List.append_assoc] at heq
      have := congrArg List.getLast? heq
      simpa using this.symm
    exact absurd (h₂.subset (by simp [hi])) hdrop

/-- The rivals of a key are the keys in front of it if nothing is taken away, and there are at
least as many as there is room if the key is lost. -/
structure Ranked (c : Cache α) (l : List (Command α)) : Prop where
  front : ∀ {j k}, [j, k].Sublist (c.play l).keys → j ∈ c.rivals l k
  lost : ∀ {k}, recorded l k ≠ none → k ∉ (c.play l).keys → c.capacity ≤ (c.rivals l k).card
  kept : ∀ {k}, k ∈ (c.play l).keys → (∀ p ∈ c.since l k, ¬p.1.Removes) →
    ∀ j ∈ c.rivals l k, [j, k].Sublist (c.play l).keys

/-- If a key is not touched, then what is recorded for it has been put before. -/
theorem recorded_of_concat {c : Cache α} {l : List (Command α)} {x : Command α} {k : Int}
    (hx : x.touched? c ≠ some k) (h : recorded (l ++ [x]) k ≠ none) : recorded l k ≠ none := by
  intro hnone
  rw [recorded_concat] at h
  exact h (Command.record_of_not_puts (fun hk => hx (Command.touched?_of_puts hk c)) hnone)

theorem keys_concat_of_touched {c : Cache α} {l : List (Command α)} {x : Command α} {i : Int}
    (hfits : (c.play l).Fits) (hx : x.touched? (c.play l) = some i) :
    (c.play (l ++ [x])).keys = i :: ((c.play l).otherKeys i).take (c.capacity - 1) := by
  rw [play_concat, hfits.keys_of_touched hx, capacity_play]

namespace Ranked

variable {c : Cache α} {l : List (Command α)} {x : Command α}

theorem of_untouched (h : c.Ranked l) (hfits : (c.play l).Fits)
    (hx : x.touched? (c.play l) = none) : c.Ranked (l ++ [x]) := by
  have hkeys := hfits.linked.keys_of_untouched hx
  have hne {k : Int} : x.touched? (c.play l) ≠ some k := hx ▸ (Option.some_ne_none k).symm
  rw [← play_concat] at hkeys
  constructor
  case front =>
    intro j k hjk
    rw [rivals_of_untouched hx]
    rw [hkeys] at hjk
    exact h.front (hjk.trans List.filter_sublist)
  case lost =>
    intro k hrec hk
    have hold := recorded_of_concat hne hrec
    have hdrops : ¬x.Drops k := fun hd => by
      rw [recorded_concat] at hrec
      exact hrec (Command.record_of_drops hd)
    rw [hkeys, List.mem_filter, not_and] at hk
    rw [rivals_of_untouched hx]
    exact h.lost hold fun hmem => hk hmem (decide_eq_true hdrops)
  case kept =>
    intro k hk hsince j hj
    rw [since_of_ne hne] at hsince
    obtain ⟨hrem, hsince⟩ := List.forall_mem_cons.mp hsince
    have hsame : (c.play (l ++ [x])).keys = (c.play l).keys := by
      rw [hkeys, List.filter_eq_self]
      exact fun i _ => decide_eq_true fun hd => hrem (Command.removes_of_drops hd)
    rw [rivals_of_untouched hx] at hj
    rw [hsame] at hk ⊢
    exact h.kept hk hsince j hj

section

variable {i : Int}

theorem front_of_touched (h : c.Ranked l) (hfits : (c.play l).Fits)
    (hx : x.touched? (c.play l) = some i) {j k : Int}
    (hjk : [j, k].Sublist (c.play (l ++ [x])).keys) : j ∈ c.rivals (l ++ [x]) k := by
  rw [keys_concat_of_touched hfits hx] at hjk
  rcases List.sublist_cons_iff.mp hjk with hjk | ⟨t, ht, hk⟩
  · -- Both have been held before.
    have hjk := hjk.trans (List.take_sublist ..)
    have hk := mem_otherKeys.mp (hjk.subset (List.mem_cons_of_mem _ List.mem_cons_self))
    rw [rivals_of_ne hx hk.2.symm]
    exact Finset.mem_insert_of_mem (h.front (hjk.trans (otherKeys_sublist ..)))
  · cases ht
    have hk := mem_otherKeys.mp (List.mem_of_mem_take (List.singleton_sublist.mp hk))
    rw [rivals_of_ne hx hk.2.symm]
    exact Finset.mem_insert_self ..

/-- If a key is cut off, then there are as many keys in front of it as there is room. -/
theorem capacity_le_of_cut (h : c.Ranked l) (hfits : (c.play l).Fits)
    (hx : x.touched? (c.play l) = some i) {k : Int} (hold : k ∈ (c.play l).keys)
    (hk : k ∉ (c.play (l ++ [x])).keys) (hik : i ≠ k) :
    c.capacity ≤ (insert i (c.rivals l k)).card := by
  have hnodup : (c.play (l ++ [x])).keys.Nodup := play_concat c l x ▸ (hfits.behind x).linked.nodup_keys
  rw [keys_concat_of_touched hfits hx] at hk hnodup
  have hother : k ∈ (c.play l).otherKeys i := mem_otherKeys.mpr ⟨hold, hik.symm⟩
  have hcut := fun hmem => hk (List.mem_cons_of_mem i hmem)
  have hlt : c.capacity - 1 < ((c.play l).otherKeys i).length := by
    by_contra hle
    exact hcut (by rwa [List.take_of_length_le (Nat.le_of_not_lt hle)])
  calc c.capacity
      ≤ (i :: ((c.play l).otherKeys i).take (c.capacity - 1)).length := by
        rw [List.length_cons, List.length_take]
        omega
    _ = (insert i (((c.play l).otherKeys i).take (c.capacity - 1)).toFinset).card := by
        rw [← List.toFinset_cons, List.toFinset_card_of_nodup hnodup]
    _ ≤ (insert i (c.rivals l k)).card := by
        refine Finset.card_le_card (Finset.insert_subset_insert _ fun j hj => ?_)
        have hjk := sublist_of_cut hother hcut j (List.mem_toFinset.mp hj)
        exact h.front (hjk.trans (otherKeys_sublist ..))

theorem lost_of_touched (h : c.Ranked l) (hfits : (c.play l).Fits)
    (hx : x.touched? (c.play l) = some i) {k : Int} (hrec : recorded (l ++ [x]) k ≠ none)
    (hk : k ∉ (c.play (l ++ [x])).keys) : c.capacity ≤ (c.rivals (l ++ [x]) k).card := by
  have hik : i ≠ k := fun hik => by
    rw [keys_concat_of_touched hfits hx, hik] at hk
    exact hk List.mem_cons_self
  have hne : x.touched? (c.play l) ≠ some k := hx ▸ fun hsame => hik (Option.some.inj hsame)
  rw [rivals_of_ne hx hik]
  by_cases hold : k ∈ (c.play l).keys
  · exact h.capacity_le_of_cut hfits hx hold hk hik
  · have hlost := h.lost (recorded_of_concat hne hrec) hold
    exact hlost.trans (Finset.card_le_card (Finset.subset_insert ..))

theorem kept_of_touched (h : c.Ranked l) (hfits : (c.play l).Fits)
    (hx : x.touched? (c.play l) = some i) {k : Int} (hk : k ∈ (c.play (l ++ [x])).keys)
    (hsince : ∀ p ∈ c.since (l ++ [x]) k, ¬p.1.Removes) {j : Int}
    (hj : j ∈ c.rivals (l ++ [x]) k) : [j, k].Sublist (c.play (l ++ [x])).keys := by
  rcases eq_or_ne i k with rfl | hik
  · rw [rivals_of_touched hx] at hj
    cases hj
  · rw [keys_concat_of_touched hfits hx] at hk ⊢
    rw [rivals_of_ne hx hik, Finset.mem_insert] at hj
    rw [since_of_ne (hx ▸ fun hsame => hik (Option.some.inj hsame))] at hsince
    have hkept := List.mem_of_ne_of_mem hik.symm hk
    have hold := (mem_otherKeys.mp (List.mem_of_mem_take hkept)).1
    rcases eq_or_ne j i with rfl | hij
    · exact (List.singleton_sublist.mpr hkept).cons_cons j
    · have hjk := h.kept hold (List.forall_mem_cons.mp hsince).2 j (hj.resolve_left hij)
      have hjk := hjk.filter (· ≠ i)
      rw [List.filter_eq_self.mpr (by simp [hij, hik.symm])] at hjk
      exact (sublist_take (hfits.linked.nodup_keys.filter _) hkept hjk).cons i

theorem of_touched (h : c.Ranked l) (hfits : (c.play l).Fits)
    (hx : x.touched? (c.play l) = some i) : c.Ranked (l ++ [x]) where
  front := h.front_of_touched hfits hx
  lost := h.lost_of_touched hfits hx
  kept hk hsince _ := h.kept_of_touched hfits hx hk hsince

end

end Ranked

theorem ranked_play (capacity : Nat) (l : List (Command α)) : (empty capacity).Ranked l := by
  induction l using List.reverseRecOn with
  | nil => exact ⟨nofun, fun h => (h rfl).elim, nofun⟩
  | append_singleton l x ih =>
    have hfits := (Fits.empty capacity).play l
    cases hx : x.touched? ((empty capacity).play l) with
    | none => exact ih.of_untouched hfits hx
    | some i => exact ih.of_touched hfits hx

/-! ### What is found -/

/-- The index is in step with the list, and the cache holds what was last put under the keys that
were touched last, and nothing else. -/
theorem residency_exact (capacity : Nat) (l : List (Command α)) :
    let c := (empty capacity).play l
    c.Linked ∧ c.capacity = max capacity 1 ∧ c.size ≤ c.capacity ∧ c.keys.Nodup ∧
    ∀ k,
      (∀ a, (c.get k).1 = some a → LastPut l k a) ∧
      ((∀ x ∈ l, ¬x.Puts k) → (c.get k).1 = none) ∧
      (Dropped l k → (c.get k).1 = none) ∧
      (Stands l k → ((empty capacity).rivals l k).card < c.capacity → (c.get k).1 ≠ none) ∧
      ((∀ p ∈ (empty capacity).since l k, ¬p.1.Removes) → (c.get k).1 ≠ none →
        ((empty capacity).rivals l k).card < c.capacity) := by
  intro c
  have hfits : c.Fits := (Fits.empty capacity).play l
  have hagrees : c.Agrees (recorded l) := agrees_play capacity l
  have hranked := ranked_play (α := α) capacity l
  have hcap : c.capacity = (empty capacity : Cache α).capacity := capacity_play _ l
  have hmiss {k : Int} (h : recorded l k = none) : c.find? k = none := by
    rw [Option.eq_none_iff_forall_ne_some]
    intro a ha
    rw [hagrees.find? ha] at h
    cases h
  refine ⟨hfits.linked, hcap, hfits.size_le, hfits.linked.nodup_keys, fun k => ?_⟩
  rw [hfits.linked.get_fst]
  refine ⟨fun a ha => lastPut_of_recorded (hagrees.find? ha),
    fun h => hmiss (recorded_of_never h), fun h => hmiss (recorded_of_dropped h), ?_, ?_⟩
  · intro hstands hcard
    rw [find?_ne_none]
    by_contra hk
    exact Nat.not_lt.mpr (hranked.lost (recorded_of_stands hstands) hk) (hcap ▸ hcard)
  · intro hsince hk
    rw [find?_ne_none] at hk
    have hsubset : (empty capacity).rivals l k ⊂ c.keys.toFinset := by
      rw [Finset.ssubset_iff_of_subset fun j hj => ?_]
      · exact ⟨k, List.mem_toFinset.mpr hk, notMem_rivals _ l k⟩
      · have hjk := hranked.kept hk hsince j hj
        exact List.mem_toFinset.mpr (hjk.subset List.mem_cons_self)
    calc ((empty capacity).rivals l k).card
        < c.keys.toFinset.card := Finset.card_lt_card hsubset
      _ = c.size := by rw [List.toFinset_card_of_nodup hfits.linked.nodup_keys, length_keys]
      _ ≤ c.capacity := hfits.size_le

/-- With room for two, the key that has been got again is held, and the other one lost. -/
theorem residency_exact_of_two :
    let l : List (Command Nat) := [.put 1 10, .put 2 20, .get 1, .put 3 30]
    (((empty 2).play l).get 1).1 ≠ none ∧ ¬(((empty 2).play l).get 2).1 ≠ none := by
  intro l
  obtain ⟨-, -, -, -, h⟩ := residency_exact 2 l
  refine ⟨(h 1).2.2.2.1 ⟨[], 10, _, rfl, by simp [Command.Drops]⟩ (by decide), fun h₂ => ?_⟩
  exact absurd ((h 2).2.2.2.2 (by decide) h₂) (by decide)

end Equates.Cache

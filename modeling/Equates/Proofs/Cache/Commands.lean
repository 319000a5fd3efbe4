/-
Commands to a cache.

A cache is used by commands (`Cache.Command`), one after the other.  A command touches a key if it
puts something under the key, or gets what it finds there; a touched key comes first, and the
others are cut down to the capacity (`Cache.Fits.keys_of_touched`).  A command that touches none
takes away what it drops (`Cache.keys_of_untouched`).

* `Cache.Fits` — there are never more entries than there is room, and no two of a key, and the
  index is in step with the list;
* `Cache.recorded` — what a cache without bounds would hold, which `Cache.LastPut`, `Cache.Stands`
  and `Cache.Dropped` tell from the commands;
* `Cache.agrees_play` — a cache holds nothing but what is recorded.
-/
import Equates.Proofs.Cache
import Mathlib.Data.List.Basic
import Mathlib.Data.List.Induction

namespace Equates.Cache

variable {α : Type}

/-! ### Commands -/

inductive Command (α : Type) where
  | put (k : Int) (a : α)
  | get (k : Int)
  | erase (k : Int)
  | clear
  | resetStats
deriving DecidableEq, Repr

namespace Command

/-- The cache behind the command. -/
def behind : Command α → Cache α → Cache α
  | .put k a, c => c.put k a
  | .get k, c => (c.get k).2
  | .erase k, c => c.erase k
  | .clear, c => c.clear
  | .resetStats, c => c.resetStats

/-- The key that is put, or got where it is found. -/
def touched? : Command α → Cache α → Option Int
  | .put k _, _ => some k
  | .get k, c => (c.get k).1.map fun _ => k
  | .erase _, _ | .clear, _ | .resetStats, _ => none

/-- The command puts something under the key. -/
def Puts (k : Int) : Command α → Prop
  | .put k' _ => k' = k
  | .get _ | .erase _ | .clear | .resetStats => False

/-- The command takes away what is under the key. -/
def Drops (k : Int) : Command α → Prop
  | .erase k' => k' = k
  | .clear => True
  | .put .. | .get _ | .resetStats => False

/-- The command takes something away, whatever it is. -/
def Removes : Command α → Prop
  | .erase _ | .clear => True
  | .put .. | .get _ | .resetStats => False

/-- What the command makes of the values that were last put. -/
def record (f : Int → Option α) : Command α → Int → Option α
  | .put k a => Function.update f k (some a)
  | .erase k => Function.update f k none
  | .clear => fun _ => none
  | .get _ | .resetStats => f

instance (k : Int) : (x : Command α) → Decidable (x.Drops k)
  | .erase k' => inferInstanceAs (Decidable (k' = k))
  | .clear => inferInstanceAs (Decidable True)
  | .put .. | .get _ | .resetStats => inferInstanceAs (Decidable False)

instance : (x : Command α) → Decidable x.Removes
  | .erase _ | .clear => inferInstanceAs (Decidable True)
  | .put .. | .get _ | .resetStats => inferInstanceAs (Decidable False)

theorem touched?_of_puts {k : Int} {x : Command α} (h : x.Puts k) (c : Cache α) :
    x.touched? c = some k := by
  cases x <;> cases h
  rfl

theorem removes_of_drops {k : Int} {x : Command α} (h : x.Drops k) : x.Removes := by
  cases x <;> first | exact h.elim | trivial

end Command

/-! ### The keys that are held -/

/-- The keys that are held, newest first. -/
def keys (c : Cache α) : List Int :=
  c.entries.map Prod.fst

theorem length_keys (c : Cache α) : c.keys.length = c.size :=
  (List.length_map ..).trans (List.length_map ..)

/-- The other keys that are held, newest first. -/
def otherKeys (c : Cache α) (k : Int) : List Int :=
  c.keys.filter (· ≠ k)

theorem otherKeys_sublist (c : Cache α) (k : Int) : (c.otherKeys k).Sublist c.keys :=
  List.filter_sublist

theorem mem_otherKeys {c : Cache α} {j k : Int} : j ∈ c.otherKeys k ↔ j ∈ c.keys ∧ j ≠ k := by
  rw [otherKeys, List.mem_filter, decide_eq_true_iff]

theorem keys_others (c : Cache α) (k : Int) : (c.others k).map Prod.fst = c.otherKeys k := by
  rw [otherKeys, keys, List.filter_map]
  rfl

theorem mem_keys_of_find? {c : Cache α} {k : Int} {a : α} (h : c.find? k = some a) :
    k ∈ c.keys :=
  List.mem_map_of_mem (mem_of_find? h)

theorem find?_ne_none {c : Cache α} {k : Int} : c.find? k ≠ none ↔ k ∈ c.keys := by
  constructor
  · intro h
    obtain ⟨a, ha⟩ := Option.ne_none_iff_exists'.mp h
    exact mem_keys_of_find? ha
  · intro h
    obtain ⟨p, hp, rfl⟩ := List.mem_map.mp h
    exact fun hnone => ne_of_find?_eq_none hnone hp rfl

theorem find?_eq_none {c : Cache α} {k : Int} : c.find? k = none ↔ k ∉ c.keys := by
  rw [← find?_ne_none, not_not]

/-- No key is held twice, since the index holds one handle for it. -/
theorem Linked.nodup_keys {c : Cache α} (h : c.Linked) : c.keys.Nodup := by
  have hnodes := h.nodup
  rw [labels, List.map_map] at hnodes
  rw [keys, entries, List.map_map]
  refine List.Nodup.map_on (fun m hm n hn (hkey : m.key = n.key) => ?_) hnodes.of_map
  have hindex := (h.index m.key m.handle).mpr (List.mem_map_of_mem hm)
  exact h.eq_of_handle_eq hm hn ((h.handle_eq_iff hindex hn).mpr hkey.symm).symm

theorem Linked.behind {c : Cache α} (h : c.Linked) (x : Command α) : (x.behind c).Linked := by
  cases x with
  | put k a => exact h.put k a
  | get k => exact h.get k
  | erase k => exact h.erase k
  | clear => exact linked_clear c
  | resetStats => exact ⟨h.nodup, h.fresh, h.index⟩

/-- No more entries than there is room, and the index in step with them. -/
structure Fits (c : Cache α) : Prop where
  linked : c.Linked
  pos : 0 < c.capacity
  size_le : c.size ≤ c.capacity

theorem Fits.empty (capacity : Nat) : (empty capacity : Cache α).Fits where
  linked := linked_empty capacity
  pos := Nat.lt_of_lt_of_le Nat.one_pos (Nat.le_max_right capacity 1)
  size_le := Nat.zero_le _

/-- What is found comes first, and the others stay as they are. -/
theorem Fits.keys_of_mem {c : Cache α} (h : c.Fits) {k : Int} (hk : k ∈ c.keys) :
    (c.otherKeys k).take (c.capacity - 1) = c.otherKeys k := by
  refine List.take_of_length_le ?_
  have hlt : (c.otherKeys k).length < c.keys.length :=
    List.length_filter_lt_length_iff_exists.mpr ⟨k, hk, by simp⟩
  have := h.size_le
  rw [← length_keys] at this
  omega

theorem capacity_evict (c : Cache α) : c.evict.capacity = c.capacity := by
  rw [evict]
  split <;> rfl

theorem capacity_behind (x : Command α) (c : Cache α) : (x.behind c).capacity = c.capacity := by
  cases x with
  | put k a =>
    rw [Command.behind, put]
    split
    · rfl
    · split
      · exact capacity_evict c
      · rfl
  | get k => rw [Command.behind, get]; split <;> rfl
  | erase k => rw [Command.behind, erase]; split <;> rfl
  | clear => rfl
  | resetStats => rfl

/-- A touched key comes first, and of the others there stay as many as there is room for. -/
theorem Fits.keys_of_touched {c : Cache α} (h : c.Fits) {x : Command α} {j : Int}
    (hj : x.touched? c = some j) :
    (x.behind c).keys = j :: (c.otherKeys j).take (c.capacity - 1) := by
  cases x with
  | put k a =>
    cases hj
    rw [Command.behind, keys, h.linked.entries_put]
    split
    · next b hb =>
      rw [h.keys_of_mem (mem_keys_of_find? hb), ← keys_others]
      rfl
    · next hnone =>
      have hmem := find?_eq_none.mp hnone
      have hself : c.otherKeys j = c.keys :=
        List.filter_eq_self.mpr fun i hi => decide_eq_true fun hij => hmem (hij ▸ hi)
      have hle := h.size_le
      rw [hself]
      refine congrArg (j :: ·) ?_
      split
      · next hfull =>
        rw [List.map_dropLast, List.dropLast_eq_take, ← keys, length_keys,
          Nat.le_antisymm hle hfull]
      · next hroom =>
        rw [← keys, List.take_of_length_le]
        rw [length_keys]
        omega
  | get k =>
    rw [Command.touched?, h.linked.get_fst] at hj
    obtain ⟨a, ha, rfl⟩ := Option.map_eq_some_iff.mp hj
    rw [h.keys_of_mem (mem_keys_of_find? ha), ← keys_others, Command.behind, keys,
      h.linked.entries_get, ha]
    rfl
  | erase k => cases hj
  | clear => cases hj
  | resetStats => cases hj

/-- If none is touched, then only those go that are dropped. -/
theorem Linked.keys_of_untouched {c : Cache α} (h : c.Linked) {x : Command α}
    (hx : x.touched? c = none) : (x.behind c).keys = c.keys.filter fun k => ¬x.Drops k := by
  cases x with
  | put k a => cases hx
  | get k =>
    rw [Command.touched?, h.get_fst, Option.map_eq_none_iff] at hx
    rw [Command.behind, keys, h.entries_get, hx]
    exact (List.filter_eq_self.mpr fun _ _ => decide_eq_true not_false).symm
  | erase k =>
    rw [Command.behind, keys, h.entries_erase]
    refine (keys_others c k).trans (List.filter_congr fun i _ => ?_)
    exact decide_eq_decide.mpr ⟨Ne.symm, Ne.symm⟩
  | clear => exact (List.filter_eq_nil_iff.mpr fun _ _ => by simp [Command.Drops]).symm
  | resetStats => exact (List.filter_eq_self.mpr fun _ _ => decide_eq_true not_false).symm

theorem Fits.behind {c : Cache α} (h : c.Fits) (x : Command α) : (x.behind c).Fits := by
  have hcap := capacity_behind x c
  refine ⟨h.linked.behind x, hcap ▸ h.pos, ?_⟩
  rw [hcap, ← length_keys]
  cases hx : x.touched? c with
  | none =>
    rw [h.linked.keys_of_untouched hx]
    exact (List.length_filter_le ..).trans (length_keys c ▸ h.size_le)
  | some j =>
    rw [h.keys_of_touched hx, List.length_cons, List.length_take]
    have := h.pos
    omega

/-! ### Running commands -/

/-- The cache behind the commands. -/
def play (c : Cache α) (l : List (Command α)) : Cache α :=
  l.foldl (fun c x => x.behind c) c

theorem play_concat (c : Cache α) (l : List (Command α)) (x : Command α) :
    c.play (l ++ [x]) = x.behind (c.play l) :=
  List.foldl_concat ..

/-- What holds at first and behind every command holds behind them all. -/
theorem play_induction {P : Cache α → Prop} {c : Cache α} (h₀ : P c)
    (h : ∀ (c : Cache α) (x : Command α), P c → P (x.behind c)) (l : List (Command α)) :
    P (c.play l) := by
  induction l generalizing c with
  | nil => exact h₀
  | cons x l ih => exact ih (h c x h₀)

theorem Fits.play {c : Cache α} (h : c.Fits) (l : List (Command α)) : (c.play l).Fits :=
  play_induction h (fun _ x hc => Fits.behind hc x) l

theorem capacity_play (c : Cache α) (l : List (Command α)) : (c.play l).capacity = c.capacity :=
  play_induction (P := fun c' => c'.capacity = c.capacity) rfl
    (fun c' x h => (capacity_behind x c').trans h) l

/-! ### The values that are held -/

/-- The value last put under each key, unless it has been dropped since. -/
def recorded (l : List (Command α)) : Int → Option α :=
  l.foldl (fun f x => x.record f) fun _ => none

/-- The value was put under the key, and nothing else was since. -/
def LastPut (l : List (Command α)) (k : Int) (a : α) : Prop :=
  ∃ before rest, l = before ++ .put k a :: rest ∧ ∀ x ∈ rest, ¬x.Puts k

/-- Something was put under the key, and what is there has not been dropped since. -/
def Stands (l : List (Command α)) (k : Int) : Prop :=
  ∃ before a rest, l = before ++ .put k a :: rest ∧ ∀ x ∈ rest, ¬x.Drops k

/-- What was under the key has been dropped, and nothing put there since. -/
def Dropped (l : List (Command α)) (k : Int) : Prop :=
  ∃ before x rest, l = before ++ x :: rest ∧ x.Drops k ∧ ∀ y ∈ rest, ¬y.Puts k

namespace Command

variable {f : Int → Option α} {k : Int} {x : Command α}

theorem record_eq_some {a : α} (h : x.record f k = some a) :
    x = .put k a ∨ f k = some a ∧ ¬x.Puts k := by
  cases x with
  | put k' b =>
    by_cases hk : k' = k
    · subst hk
      rw [record, Function.update_self] at h
      exact .inl (Option.some.inj h ▸ rfl)
    · rw [record, Function.update_of_ne (Ne.symm hk)] at h
      exact .inr ⟨h, hk⟩
  | erase k' =>
    by_cases hk : k' = k
    · subst hk
      rw [record, Function.update_self] at h
      cases h
    · rw [record, Function.update_of_ne (Ne.symm hk)] at h
      exact .inr ⟨h, not_false⟩
  | clear => cases h
  | get k' => exact .inr ⟨h, not_false⟩
  | resetStats => exact .inr ⟨h, not_false⟩

theorem record_of_not_puts (hx : ¬x.Puts k) (h : f k = none) : x.record f k = none := by
  rw [Option.eq_none_iff_forall_ne_some]
  intro a ha
  rcases record_eq_some ha with rfl | ⟨hf, -⟩
  · exact hx rfl
  · rw [h] at hf
    cases hf

theorem record_of_drops (hx : x.Drops k) : x.record f k = none := by
  cases x with
  | erase k' => exact hx ▸ Function.update_self ..
  | clear => rfl
  | put k' b => exact hx.elim
  | get k' => exact hx.elim
  | resetStats => exact hx.elim

theorem record_of_not_drops (hx : ¬x.Drops k) (h : f k ≠ none) : x.record f k ≠ none := by
  cases x with
  | put k' b =>
    rw [record, Function.update_apply]
    split
    · nofun
    · exact h
  | erase k' =>
    rw [record, Function.update_of_ne (Ne.symm hx)]
    exact h
  | clear => exact absurd trivial hx
  | get k' => exact h
  | resetStats => exact h

theorem agrees_behind {c : Cache α} (h : c.Agrees f) (x : Command α) :
    (x.behind c).Agrees (x.record f) := by
  cases x with
  | put k a => exact h.put (Function.update_self ..) fun k' hne => Function.update_of_ne hne ..
  | get k => exact h.get_snd k
  | erase k => exact h.erase fun k' hne => Function.update_of_ne hne ..
  | clear => exact agrees_clear c _
  | resetStats => exact ⟨h.linked.behind .resetStats, h.mem⟩

end Command

theorem recorded_concat (l : List (Command α)) (x : Command α) :
    recorded (l ++ [x]) = x.record (recorded l) :=
  List.foldl_concat ..

/-- What is recorded for a key keeps what each of the further commands keeps. -/
theorem recorded_append {P : Option α → Prop} {k : Int} (before : List (Command α))
    {rest : List (Command α)} (h : P (recorded before k))
    (hrest : ∀ x ∈ rest, ∀ f : Int → Option α, P (f k) → P (x.record f k)) :
    P (recorded (before ++ rest) k) := by
  induction rest generalizing before with
  | nil => rwa [List.append_nil]
  | cons x rest ih =>
    obtain ⟨hx, hrest⟩ := List.forall_mem_cons.mp hrest
    rw [List.append_cons]
    refine ih (before ++ [x]) ?_ hrest
    rw [recorded_concat]
    exact hx _ h

section

variable {l : List (Command α)} {k : Int}

theorem recorded_of_never (h : ∀ x ∈ l, ¬x.Puts k) : recorded l k = none :=
  recorded_append (P := (· = none)) [] rfl fun x hx _ => Command.record_of_not_puts (h x hx)

theorem recorded_of_dropped (h : Dropped l k) : recorded l k = none := by
  obtain ⟨before, x, rest, rfl, hx, hrest⟩ := h
  have hx : recorded (before ++ [x]) k = none := by
    rw [recorded_concat]
    exact Command.record_of_drops hx
  rw [List.append_cons]
  exact recorded_append (P := (· = none)) _ hx fun y hy _ =>
    Command.record_of_not_puts (hrest y hy)

theorem recorded_of_stands (h : Stands l k) : recorded l k ≠ none := by
  obtain ⟨before, a, rest, rfl, hrest⟩ := h
  have ha : recorded (before ++ [.put k a]) k ≠ none := by
    rw [recorded_concat, Command.record, Function.update_self]
    nofun
  rw [List.append_cons]
  exact recorded_append (P := (· ≠ none)) _ ha fun y hy _ =>
    Command.record_of_not_drops (hrest y hy)

theorem lastPut_of_recorded {a : α} (h : recorded l k = some a) : LastPut l k a := by
  induction l using List.reverseRecOn with
  | nil => cases h
  | append_singleton l x ih =>
    rw [recorded_concat] at h
    rcases Command.record_eq_some h with rfl | ⟨h, hx⟩
    · exact ⟨l, [], rfl, nofun⟩
    · obtain ⟨before, rest, rfl, hrest⟩ := ih h
      refine ⟨before, rest ++ [x], by simp, fun y hy => ?_⟩
      rcases List.mem_append.mp hy with hy | hy
      · exact hrest y hy
      · rwa [List.mem_singleton.mp hy]

end

theorem agrees_play (capacity : Nat) (l : List (Command α)) :
    ((empty capacity).play l).Agrees (recorded l) := by
  induction l using List.reverseRecOn with
  | nil => exact agrees_empty capacity _
  | append_singleton l x ih =>
    rw [play_concat, recorded_concat]
    exact Command.agrees_behind ih x

end Equates.Cache

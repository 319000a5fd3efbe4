/-
The recency list of a cache and its index.

The operations change the nodes and the index one after the other.  A cache is linked
(`Cache.Linked`) if the index holds the handle of every node under the node's key, and nothing
else.  Every operation leaves a linked cache linked, and does to its entries what it is meant to
do: a node that is found through the index is the only node of that key.

* `Cache.Linked.get`, `Cache.Linked.put`, `Cache.Linked.erase` — the two are kept in step;
* `Cache.Linked.get_fst`, `Cache.Linked.entries_get`, `Cache.Linked.entries_put`,
  `Cache.Linked.entries_erase` — the operations on the list of the entries alone.
-/
import Equates.Cache
import Mathlib.Algebra.Order.Ring.Int
import Mathlib.Data.List.Nodup
import Mathlib.Order.Compare
import Mathlib.Tactic.Common

namespace Equates.Cache

variable {α : Type}

namespace Node

def label (n : Node α) : Int × Nat :=
  (n.key, n.handle)

def entry (n : Node α) : Int × α :=
  (n.key, n.value)

section

variable {i : Nat} {l : List (Node α)} {n : Node α}

theorem at?_cons_of_eq (hn : n.handle = i) : at? i (n :: l) = some n := by
  simp [at?, hn]

theorem at?_cons_of_ne (hn : n.handle ≠ i) : at? i (n :: l) = at? i l := by
  simp [at?, hn]

theorem without_cons_of_eq (hn : n.handle = i) : without i (n :: l) = without i l := by
  simp [without, hn]

theorem without_cons_of_ne (hn : n.handle ≠ i) : without i (n :: l) = n :: without i l := by
  simp [without, hn]

theorem mem_without : n ∈ without i l ↔ n ∈ l ∧ n.handle ≠ i := by
  rw [without, List.mem_filter, decide_eq_true_iff]

theorem at?_eq_none : at? i l = none ↔ ∀ n ∈ l, n.handle ≠ i := by
  simp [at?]

theorem mem_of_at? (h : at? i l = some n) : n ∈ l :=
  List.mem_of_find?_eq_some h

theorem handle_of_at? (h : at? i l = some n) : n.handle = i := by
  simpa using List.find?_some h

theorem toFront_of_at? (h : at? i l = some n) : toFront i l = n :: without i l := by
  rw [toFront, h]
  rfl

/-- The node that has been moved is the first one with its handle. -/
theorem at?_toFront (h : at? i l = some n) : at? i (toFront i l) = some n := by
  rw [toFront_of_at? h, at?_cons_of_eq (handle_of_at? h)]

end

theorem at?_assign (i : Nat) (a : α) (l : List (Node α)) :
    at? i (assign i a l) = (at? i l).map fun n => { n with value := a } := by
  induction l with
  | nil => rfl
  | cons n l ih =>
    rw [assign, List.map_cons]
    by_cases hn : n.handle = i
    · rw [if_pos hn, at?_cons_of_eq hn]
      exact at?_cons_of_eq hn
    · rw [if_neg hn, at?_cons_of_ne hn, at?_cons_of_ne hn]
      exact ih

theorem without_assign (i : Nat) (a : α) (l : List (Node α)) :
    without i (assign i a l) = without i l := by
  induction l with
  | nil => rfl
  | cons n l ih =>
    rw [assign, List.map_cons]
    by_cases hn : n.handle = i
    · rw [if_pos hn, without_cons_of_eq hn]
      exact (without_cons_of_eq (n := { n with value := a }) hn).trans ih
    · rw [if_neg hn, without_cons_of_ne hn, without_cons_of_ne hn]
      exact congrArg (n :: ·) ih

end Node

/-- The key and the handle of each node, newest first. -/
def labels (c : Cache α) : List (Int × Nat) :=
  c.nodes.map Node.label

/-- The key and the value of each node, newest first. -/
def entries (c : Cache α) : List (Int × α) :=
  c.nodes.map Node.entry

/-- The value in the first entry for `k`. -/
def find? (c : Cache α) (k : Int) : Option α :=
  c.entries.lookup k

/-- The entries for other keys than `k`. -/
def others (c : Cache α) (k : Int) : List (Int × α) :=
  c.entries.filter (·.1 ≠ k)

theorem mem_of_find? {c : Cache α} {k : Int} {a : α} (h : c.find? k = some a) :
    (k, a) ∈ c.entries := by
  obtain ⟨l₁, l₂, hl, -⟩ := List.lookup_eq_some_iff.mp h
  rw [hl]
  exact List.mem_append_right _ List.mem_cons_self

theorem mem_others {c : Cache α} {k : Int} {p : Int × α} :
    p ∈ c.others k ↔ p ∈ c.entries ∧ p.1 ≠ k := by
  simp [others]

theorem ne_of_find?_eq_none {c : Cache α} {k : Int} (h : c.find? k = none) {p : Int × α}
    (hp : p ∈ c.entries) : p.1 ≠ k := by
  have := List.lookup_eq_none_iff.mp h p hp
  exact fun hk => by simp [hk] at this

theorem mem_labels_without {c : Cache α} {i : Nat} {p : Int × Nat} :
    p ∈ (Node.without i c.nodes).map Node.label ↔ p ∈ c.labels ∧ p.2 ≠ i := by
  simp only [labels, List.mem_map, Node.mem_without]
  constructor
  · rintro ⟨n, ⟨hn, hne⟩, rfl⟩
    exact ⟨⟨n, hn, rfl⟩, hne⟩
  · rintro ⟨⟨n, hn, rfl⟩, hne⟩
    exact ⟨n, ⟨hn, hne⟩, rfl⟩

/-! ### The list and the index in step -/

/-- No handle is given twice, and the index holds the handle of each node under its key, and
nothing else. -/
structure Linked (c : Cache α) : Prop where
  nodup : (c.labels.map Prod.snd).Nodup
  fresh : ∀ p ∈ c.labels, p.2 < c.nextHandle
  index : ∀ k i, c.index[k]? = some i ↔ (k, i) ∈ c.labels

theorem linked_of_nil {c : Cache α} (hnodes : c.nodes = []) (hindex : c.index = ∅) :
    c.Linked := by
  have hlabels : c.labels = [] := by rw [labels, hnodes, List.map_nil]
  refine ⟨?_, ?_, ?_⟩
  · rw [hlabels]
    exact List.nodup_nil
  · rw [hlabels]
    nofun
  · intro k i
    rw [hlabels, hindex, Std.ExtTreeMap.getElem?_empty]
    exact ⟨nofun, nofun⟩

theorem linked_empty (capacity : Nat) : (empty capacity : Cache α).Linked :=
  linked_of_nil rfl rfl

theorem linked_clear (c : Cache α) : c.clear.Linked :=
  linked_of_nil rfl rfl

namespace Linked

variable {c c' : Cache α} {k : Int} {i : Nat} {a : α}

theorem key_eq (h : c.Linked) {k' : Int} (hk : (k, i) ∈ c.labels) (hk' : (k', i) ∈ c.labels) :
    k = k' :=
  congrArg Prod.fst (List.inj_on_of_nodup_map h.nodup hk hk' rfl)

/-- Of the nodes, just the one that the index tells has the key. -/
theorem handle_eq_iff (h : c.Linked) (hk : c.index[k]? = some i) {n : Node α} (hn : n ∈ c.nodes) :
    n.handle = i ↔ n.key = k := by
  have hlabel : (n.key, n.handle) ∈ c.labels := List.mem_map_of_mem hn
  constructor
  · rintro rfl
    exact h.key_eq hlabel ((h.index ..).mp hk)
  · rintro rfl
    exact Option.some.inj (((h.index ..).mpr hlabel).symm.trans hk)

/-- The handle in the index leads to a node, and the node has the key. -/
theorem at?_of_index (h : c.Linked) (hk : c.index[k]? = some i) :
    ∃ n, Node.at? i c.nodes = some n ∧ n.key = k := by
  obtain ⟨n, hn, hlabel⟩ := List.mem_map.mp ((h.index ..).mp hk)
  cases hat : Node.at? i c.nodes with
  | none => exact absurd (congrArg Prod.snd hlabel) (Node.at?_eq_none.mp hat n hn)
  | some m =>
    exact ⟨m, rfl, (h.handle_eq_iff hk (Node.mem_of_at? hat)).mp (Node.handle_of_at? hat)⟩

/-- The node that is found has moved to the front, and whatever its value is now. -/
theorem relink (h : c.Linked) (hk : c.index[k]? = some i) {n : Node α} (hkey : n.key = k)
    (hhandle : n.handle = i) (hnodes : c'.nodes = n :: Node.without i c.nodes)
    (hindex : c'.index = c.index) (hnext : c'.nextHandle = c.nextHandle) : c'.Linked := by
  have hold : (k, i) ∈ c.labels := (h.index k i).mp hk
  have hlabels : c'.labels = (k, i) :: (Node.without i c.nodes).map Node.label := by
    rw [labels, hnodes, List.map_cons, Node.label, hkey, hhandle]
  have hmem (p : Int × Nat) : p ∈ c'.labels ↔ p ∈ c.labels := by
    rw [hlabels, List.mem_cons, mem_labels_without]
    constructor
    · rintro (rfl | hp)
      · exact hold
      · exact hp.1
    · intro hp
      rcases eq_or_ne p.2 i with hi | hne
      · exact .inl (Prod.ext (h.key_eq (hi ▸ hp) hold) hi)
      · exact .inr ⟨hp, hne⟩
  refine ⟨?_, fun p hp => hnext ▸ h.fresh p ((hmem p).mp hp), fun k' i' => ?_⟩
  · rw [hlabels, List.map_cons, List.nodup_cons]
    refine ⟨fun hi => ?_, h.nodup.sublist ((List.filter_sublist.map _).map _)⟩
    obtain ⟨p, hp, hpi⟩ := List.mem_map.mp hi
    exact (mem_labels_without.mp hp).2 hpi
  · rw [hindex, h.index, hmem]

/-- A node has left the list, and its key the index. -/
theorem unlink (h : c.Linked) (hk : (k, i) ∈ c.labels) (hsub : c'.labels.Sublist c.labels)
    (hmem : ∀ p ∈ c.labels, p ∈ c'.labels ↔ p.2 ≠ i) (hindex : c'.index = c.index.erase k)
    (hnext : c'.nextHandle = c.nextHandle) : c'.Linked := by
  refine ⟨h.nodup.sublist (hsub.map _), fun p hp => hnext ▸ h.fresh p (hsub.subset hp),
    fun k' i' => ?_⟩
  rw [hindex, Std.ExtTreeMap.getElem?_erase]
  split
  · next heq =>
    cases compare_eq_iff_eq.mp heq
    refine ⟨nofun, fun hnew => ?_⟩
    have hold := hsub.subset hnew
    have hi : i' = i := by
      have hindex := (h.index k i').mpr hold
      rw [(h.index k i).mpr hk] at hindex
      exact (Option.some.inj hindex).symm
    exact absurd hi ((hmem _ hold).mp hnew)
  · next hne =>
    rw [h.index]
    refine ⟨fun hold => (hmem _ hold).mpr fun hi => hne ?_, fun hnew => hsub.subset hnew⟩
    exact compare_eq_iff_eq.mpr (h.key_eq hk (hi ▸ hold))

/-! ### The operations keep them in step -/

theorem get (h : c.Linked) (k : Int) : (c.get k).2.Linked := by
  rw [Cache.get]
  split
  · exact ⟨h.nodup, h.fresh, h.index⟩
  · next i hk =>
    obtain ⟨n, hn, hkey⟩ := h.at?_of_index hk
    exact h.relink hk hkey (Node.handle_of_at? hn) (Node.toFront_of_at? hn) rfl rfl

theorem evict (h : c.Linked) : c.evict.Linked := by
  rw [Cache.evict]
  split
  · exact h
  · next oldest hlast =>
    have hlabels : c.labels = c.nodes.dropLast.map Node.label ++ [oldest.label] := by
      conv_lhs => rw [labels, ← List.dropLast_append_getLast? oldest hlast]
      exact List.map_append
    have hnodup := h.nodup
    rw [hlabels, List.map_append, List.nodup_append] at hnodup
    refine h.unlink (k := oldest.key) (i := oldest.handle) ?_ ?_ ?_ rfl rfl
    · rw [hlabels]
      exact List.mem_append_right _ List.mem_cons_self
    · exact (List.dropLast_sublist _).map _
    · intro p hp
      rw [hlabels, List.mem_append, List.mem_singleton] at hp
      refine ⟨fun hnew => ?_, fun hne => hp.resolve_right fun heq => hne (heq ▸ rfl)⟩
      exact hnodup.2.2 _ (List.mem_map_of_mem hnew) _ List.mem_cons_self

theorem push (h : c.Linked) (hk : c.index[k]? = none) (a : α) : (c.push k a).Linked := by
  have hlabels : (c.push k a).labels = (k, c.nextHandle) :: c.labels := rfl
  refine ⟨?_, ?_, fun k' i' => ?_⟩
  · rw [hlabels, List.map_cons, List.nodup_cons]
    refine ⟨fun hmem => ?_, h.nodup⟩
    obtain ⟨p, hp, heq⟩ := List.mem_map.mp hmem
    exact absurd (h.fresh p hp) (heq ▸ lt_irrefl _)
  · rw [hlabels]
    exact List.forall_mem_cons.mpr
      ⟨Nat.lt_succ_self _, fun p hp => Nat.lt_succ_of_lt (h.fresh p hp)⟩
  · have hnew : ¬k ∈ c.index := by
      rw [Std.ExtTreeMap.mem_iff_isSome_getElem?, hk]
      exact Bool.false_ne_true
    rw [hlabels, List.mem_cons, Cache.push, Std.ExtTreeMap.getElem?_insertIfNew]
    split
    · next heq =>
      rw [← compare_eq_iff_eq.mp heq.1, Prod.mk.injEq, Option.some.injEq]
      refine ⟨fun hi => .inl ⟨rfl, hi.symm⟩, fun hi => ?_⟩
      rcases hi with ⟨-, hi⟩ | hold
      · exact hi.symm
      · rw [(h.index ..).mpr hold] at hk
        cases hk
    · next hne =>
      rw [h.index]
      refine ⟨.inr, fun hi => hi.resolve_left fun heq => hne ⟨?_, hnew⟩⟩
      exact compare_eq_iff_eq.mpr (congrArg Prod.fst heq).symm

theorem put (h : c.Linked) (k : Int) (a : α) : (c.put k a).Linked := by
  rw [Cache.put]
  split
  · next i hk =>
    obtain ⟨n, hn, hkey⟩ := h.at?_of_index hk
    have hassigned := (Node.at?_assign i a c.nodes).trans (congrArg _ hn)
    have hhandle : n.handle = i := Node.handle_of_at? hn
    refine h.relink hk (n := { n with value := a }) hkey hhandle ?_ rfl rfl
    rw [← Node.without_assign i a]
    exact Node.toFront_of_at? hassigned
  · next hk =>
    split
    · refine h.evict.push ?_ a
      rw [Cache.evict]
      split
      · exact hk
      · rw [Std.ExtTreeMap.getElem?_erase, hk, ite_self]
    · exact h.push hk a

theorem erase (h : c.Linked) (k : Int) : (c.erase k).Linked := by
  rw [Cache.erase]
  split
  · exact h
  · next i hk =>
    refine h.unlink ((h.index k i).mp hk) (List.filter_sublist.map _) (fun p hp => ?_) rfl rfl
    rw [labels, mem_labels_without]
    exact and_iff_right hp

/-! ### What the operations do to the entries -/

theorem eq_of_handle_eq (h : c.Linked) {m n : Node α} (hm : m ∈ c.nodes) (hn : n ∈ c.nodes)
    (heq : m.handle = n.handle) : m = n := by
  have hnodup := h.nodup
  rw [labels, List.map_map] at hnodup
  exact List.inj_on_of_nodup_map hnodup hm hn heq

/-- The index leads to the node of the first entry for the key. -/
theorem at?_eq_some (h : c.Linked) (hk : c.index[k]? = some i) :
    ∃ n, Node.at? i c.nodes = some n ∧ n.key = k ∧ c.find? k = some n.value := by
  obtain ⟨n, hn, hkey⟩ := h.at?_of_index hk
  refine ⟨n, hn, hkey, ?_⟩
  have hmem := Node.mem_of_at? hn
  cases hfind : c.find? k with
  | none => exact absurd hkey (ne_of_find?_eq_none hfind (List.mem_map_of_mem hmem))
  | some b =>
    obtain ⟨m, hm, hentry⟩ := List.mem_map.mp (mem_of_find? hfind)
    have hhandle := (h.handle_eq_iff hk hm).mpr (congrArg Prod.fst hentry)
    have hmn := h.eq_of_handle_eq hm hmem (hhandle.trans (Node.handle_of_at? hn).symm)
    exact congrArg some (hmn ▸ congrArg Prod.snd hentry).symm

theorem find?_eq_none (h : c.Linked) (hk : c.index[k]? = none) : c.find? k = none := by
  refine Option.eq_none_iff_forall_ne_some.mpr fun a hfind => ?_
  obtain ⟨n, hn, hentry⟩ := List.mem_map.mp (mem_of_find? hfind)
  cases hentry
  rw [(h.index ..).mpr (List.mem_map_of_mem hn)] at hk
  cases hk

theorem entries_without (h : c.Linked) (hk : c.index[k]? = some i) :
    (Node.without i c.nodes).map Node.entry = c.others k := by
  rw [others, entries, List.filter_map]
  refine congrArg _ (List.filter_congr fun n hn => ?_)
  exact decide_eq_decide.mpr (not_congr (h.handle_eq_iff hk hn))

theorem get_fst (h : c.Linked) (k : Int) : (c.get k).1 = c.find? k := by
  rw [Cache.get]
  split
  · next hk => exact (h.find?_eq_none hk).symm
  · next i hk =>
    obtain ⟨n, hn, -, hfind⟩ := h.at?_eq_some hk
    show (Node.at? i (Node.toFront i c.nodes)).map Node.value = c.find? k
    rw [hfind, Node.at?_toFront hn]
    rfl

/-- What is found comes first. -/
theorem entries_get (h : c.Linked) (k : Int) :
    (c.get k).2.entries =
      match c.find? k with
      | none => c.entries
      | some a => (k, a) :: c.others k := by
  rw [Cache.get]
  split
  · next hk =>
    rw [h.find?_eq_none hk]
    rfl
  · next i hk =>
    obtain ⟨n, hn, rfl, hfind⟩ := h.at?_eq_some hk
    rw [hfind, ← h.entries_without hk, entries, Node.toFront_of_at? hn]
    rfl

theorem evict_entries (c : Cache α) : c.evict.entries = c.entries.dropLast := by
  rw [Cache.evict, entries, entries, ← List.map_dropLast]
  split
  · next hlast => rw [List.getLast?_eq_none_iff.mp hlast, List.dropLast_nil]
  · rfl

/-- What is put comes first, instead of what was under the key, and the last one goes if there
is no room. -/
theorem entries_put (h : c.Linked) (k : Int) (a : α) :
    (c.put k a).entries =
      match c.find? k with
      | some _ => (k, a) :: c.others k
      | none => (k, a) :: if c.capacity ≤ c.size then c.entries.dropLast else c.entries := by
  rw [Cache.put]
  split
  · next i hk =>
    obtain ⟨n, hn, rfl, hfind⟩ := h.at?_eq_some hk
    have hassigned := (Node.at?_assign i a c.nodes).trans (congrArg _ hn)
    rw [hfind, ← h.entries_without hk, entries, Node.toFront_of_at? hassigned,
      Node.without_assign]
    rfl
  · next hk =>
    rw [h.find?_eq_none hk]
    refine congrArg ((k, a) :: ·) ?_
    split
    · exact evict_entries c
    · rfl

theorem entries_erase (h : c.Linked) (k : Int) : (c.erase k).entries = c.others k := by
  rw [Cache.erase]
  split
  · next hk =>
    have hne := fun p hp => ne_of_find?_eq_none (h.find?_eq_none hk) (p := p) hp
    exact (List.filter_eq_self.mpr fun p hp => decide_eq_true (hne p hp)).symm
  · next i hk => exact h.entries_without hk

end Linked

end Equates.Cache

/-
An address set holds what was added to it.

A set is built by adding ranges and single addresses (`AddressSet.built`), and it is in normal form
all the while.  The search for an address may therefore bisect the ranges: those that begin behind
the address are the last ones (`AddressSet.splitsAt_upperBound`), and of the others only the last
can hold it, since each ends before the next begins (`AddressSet.Normal.contains_iff`).

* `AddressSet.Normal.not_mem_of_succ` — the offset behind a range of the set is missing;
* `AddressSet.built_faithful` — the search finds just the addresses that were added, and the ranges
  ascend with gaps between them.
-/
import Equates.Proofs.Address.Set
import Mathlib.Data.List.Pairwise

namespace Equates.AddressSet

variable {s : AddressSet} {a : Address}

/-! ### Additions -/

/-- What may be added to a set. -/
inductive Addition where
  | range (r : AddressRange)
  | address (a : Address)

namespace Addition

def onto (s : AddressSet) : Addition → AddressSet
  | range r => s.insert r
  | address a => s.insertAddress a

/-- The addition adds the address.  A range that is empty or spans two spaces adds none. -/
def Adds (a : Address) : Addition → Prop
  | range r => r.WithinSpace ∧ a ∈ r
  | address b => a = b

/-- The range that is added. -/
def covered : Addition → AddressRange
  | range r => r
  | address a => ⟨a, a⟩

theorem onto_eq (s : AddressSet) (x : Addition) : x.onto s = s.insert x.covered := by
  cases x with
  | range r => rfl
  | address a => rfl

theorem adds_iff {x : Addition} : x.Adds a ↔ x.covered.WithinSpace ∧ a ∈ x.covered := by
  cases x with
  | range r => exact Iff.rfl
  | address b =>
    have hwithin : AddressRange.WithinSpace ⟨b, b⟩ :=
      ⟨rfl, Address.le_iff.mpr (.inr ⟨rfl, le_refl _⟩)⟩
    show a = b ↔ AddressRange.WithinSpace ⟨b, b⟩ ∧ a ∈ (⟨b, b⟩ : AddressRange)
    rw [and_iff_right hwithin, hwithin.mem_iff]
    constructor
    · rintro rfl
      exact ⟨rfl, le_refl _, le_refl _⟩
    · rintro ⟨hspace, hlow, hhigh⟩
      exact Address.eq_iff.mpr ⟨hspace, le_antisymm hhigh hlow⟩

end Addition

/-- The set that the additions make of the empty one. -/
def built (l : List Addition) : AddressSet :=
  l.foldl Addition.onto ∅

theorem built_eq (l : List Addition) : built l = ofRanges (l.map Addition.covered) := by
  rw [built, ofRanges, List.foldl_map]
  exact congrArg (List.foldl · ∅ l) (funext₂ Addition.onto_eq)

theorem normal_built (l : List Addition) : (built l).Normal :=
  built_eq l ▸ normal_ofRanges _

theorem mem_built {l : List Addition} : a ∈ built l ↔ ∃ x ∈ l, x.Adds a := by
  rw [built_eq, mem_ofRanges]
  simp only [Addition.adds_iff]
  constructor
  · rintro ⟨r, hr, ha⟩
    obtain ⟨x, hx, rfl⟩ := List.mem_map.mp hr
    exact ⟨x, hx, ha⟩
  · rintro ⟨x, hx, ha⟩
    exact ⟨_, List.mem_map_of_mem hx, ha⟩

/-! ### Bisection -/

/-- The ranges before the place `i` do not begin behind `a`, and those from there on do. -/
structure SplitsAt (ranges : List AddressRange) (a : Address) (i : Nat) : Prop where
  le_length : i ≤ ranges.length
  front : ∀ j < i, ∀ r, ranges[j]? = some r → r.min ≤ a
  back : ∀ j, i ≤ j → ∀ r, ranges[j]? = some r → a < r.min

/-- The induction is on the bisection: what is known of the ranges outside the part that is left is
known of all of them when nothing is left. -/
theorem splitsAt_upperBound {ranges : List AddressRange} (hsorted : ranges.Pairwise (·.min < ·.min))
    {low count : Nat} (hlength : low + count ≤ ranges.length)
    (hfront : ∀ j < low, ∀ r, ranges[j]? = some r → r.min ≤ a)
    (hback : ∀ j, low + count ≤ j → ∀ r, ranges[j]? = some r → a < r.min) :
    SplitsAt ranges a (upperBound ranges a low count) := by
  have hmin : ∀ {i j : Nat} {q r : AddressRange}, i < j → ranges[i]? = some q →
      ranges[j]? = some r → q.min < r.min := by
    intro i j q r hij hq hr
    obtain ⟨hi, rfl⟩ := List.getElem?_eq_some_iff.mp hq
    obtain ⟨hj, rfl⟩ := List.getElem?_eq_some_iff.mp hr
    exact List.pairwise_iff_getElem.mp hsorted i j hi hj hij
  fun_induction upperBound ranges a low count with
  | case1 low => exact ⟨hlength, hfront, hback⟩
  | case2 low count hcount half hbehind ih =>
    obtain ⟨r, hr, har⟩ := (Option.any_eq_true _ _).mp hbehind
    have har : a < r.min := of_decide_eq_true har
    refine ih (by omega) hfront fun j hj q hq => ?_
    obtain rfl | hlt := eq_or_lt_of_le hj
    · obtain rfl := Option.some.inj (hr.symm.trans hq)
      exact har
    · exact Address.lt_of_lt_of_le har (Address.le_of_lt (hmin hlt hr hq))
  | case3 low count hcount half hbehind ih =>
    have hhalf : low + half < ranges.length := by omega
    obtain ⟨r, hr⟩ : ∃ r, ranges[low + half]? = some r := ⟨_, List.getElem?_eq_getElem hhalf⟩
    have hra : r.min ≤ a := fun har =>
      hbehind ((Option.any_eq_true _ _).mpr ⟨r, hr, decide_eq_true har⟩)
    refine ih (by omega) (fun j hj q hq => ?_) fun j hj => hback j (by omega)
    obtain rfl | hlt := eq_or_lt_of_le (Nat.le_of_lt_succ hj)
    · obtain rfl := Option.some.inj (hr.symm.trans hq)
      exact hra
    · exact Address.le_of_lt (Address.lt_of_lt_of_le (hmin hlt hq hr) hra)

namespace Normal

variable (h : s.Normal)
include h

/-- Of two ranges of the set one comes before the other. -/
theorem eq_or_precedes {q r : AddressRange} (hq : q ∈ s.ranges) (hr : r ∈ s.ranges) :
    q = r ∨ q.Precedes r ∨ r.Precedes q := by
  have hsymm : Std.Symm fun q r : AddressRange => q.Precedes r ∨ r.Precedes q :=
    ⟨fun _ _ => Or.symm⟩
  have hpairwise : s.ranges.Pairwise fun q r => q.Precedes r ∨ r.Precedes q := h.sorted.imp .inl
  by_cases hqr : q = r
  · exact .inl hqr
  · exact .inr (hpairwise.forall hq hr hqr)

/-- The offset behind a range of the set is missing. -/
theorem not_mem_of_succ {r : AddressRange} (hr : r ∈ s.ranges)
    (hspace : a.space.toNat = r.min.space.toNat)
    (hoffset : a.offset.toNat = r.max.offset.toNat + 1) : a ∉ s := by
  rintro ⟨q, hq, ha⟩
  have hrwithin := h.withinSpace r hr
  have hqwithin := h.withinSpace q hq
  have hrbounds := hrwithin.offset
  obtain ⟨hqspace, hlow, hhigh⟩ := hqwithin.mem_iff.mp ha
  obtain rfl | hqr | hrq := h.eq_or_precedes hq hr
  · omega
  · rw [AddressRange.precedes_iff] at hqr
    omega
  · rw [AddressRange.precedes_iff] at hrq
    omega

/-- The ranges of the set begin one behind the other. -/
theorem mins_sorted : s.ranges.Pairwise (·.min < ·.min) :=
  h.sorted.imp_of_mem fun hq hr hqr =>
    hqr.lt (h.withinSpace _ hq) (h.withinSpace _ hr) (h.withinSpace _ hq).min_mem
      (h.withinSpace _ hr).min_mem

/-- The search finds the address if and only if it is in the set. -/
theorem contains_iff : s.contains a = true ↔ a ∈ s := by
  have hsplits : SplitsAt s.ranges a (upperBound s.ranges a 0 s.ranges.length) := by
    refine splitsAt_upperBound h.mins_sorted (by omega)
      (fun j hj => absurd hj (Nat.not_lt_zero j)) fun j hj r hr => ?_
    obtain ⟨hlt, -⟩ := List.getElem?_eq_some_iff.mp hr
    omega
  obtain ⟨hlength, hfront, hback⟩ := hsplits
  rw [contains]
  constructor
  · intro hfound
    split at hfound
    · cases hfound
    · obtain ⟨r, hr, ha⟩ := (Option.any_eq_true _ _).mp hfound
      exact ⟨r, List.mem_of_getElem? hr, of_decide_eq_true ha⟩
  · rintro ⟨r, hr, ha⟩
    obtain ⟨j, hj⟩ := List.mem_iff_getElem?.mp hr
    -- The range that holds the address does not begin behind it.
    have hlt : j < upperBound s.ranges a 0 s.ranges.length := by
      by_contra hle
      exact ha.1 (hback j (not_lt.mp hle) r hj)
    split
    · next hzero => omega
    · next i hi =>
      rw [hi] at hlength hfront hlt
      have hq : s.ranges[i]? = some s.ranges[i] := List.getElem?_eq_getElem hlength
      refine (Option.any_eq_true _ _).mpr ⟨_, hq, decide_eq_true ?_⟩
      obtain rfl | hji := eq_or_lt_of_le (Nat.le_of_lt_succ hlt)
      · obtain rfl := Option.some.inj (hj.symm.trans hq)
        exact ha
      · -- All addresses of an earlier range come before the one at `i`, and `a` does not.
        obtain ⟨hlength', rfl⟩ := List.getElem?_eq_some_iff.mp hj
        have hprecedes := List.pairwise_iff_getElem.mp h.sorted j i hlength' hlength hji
        have hwithin := h.withinSpace _ (List.getElem_mem hlength)
        have hbefore := hprecedes.lt (h.withinSpace _ hr) hwithin ha hwithin.min_mem
        exact absurd hbefore (hfront i (Nat.lt_succ_self i) _ hq)

end Normal

/-- Whatever is added in whatever order, the search finds just the addresses that were added; and
the ranges of the set are none of them empty, each lies within one space, and they ascend, with an
address missing between any two of one space. -/
theorem built_faithful (l : List Addition) :
    (∀ a, (built l).contains a = true ↔ ∃ x ∈ l, x.Adds a) ∧
      (∀ r ∈ (built l).ranges, r.min.space = r.max.space ∧ r.min ≤ r.max) ∧
      (built l).ranges.Pairwise fun r r' => r.max < r'.min ∧
        (r.max.space = r'.min.space → ∃ a, a.space = r.max.space ∧ r.max < a ∧ a < r'.min ∧
          (built l).contains a = false) := by
  have h := normal_built l
  refine ⟨fun a => h.contains_iff.trans mem_built, h.withinSpace, ?_⟩
  refine h.sorted.imp_of_mem fun {r r'} hr hr' hprecedes => ?_
  have hwithin := h.withinSpace r hr
  have hwithin' := h.withinSpace r' hr'
  refine ⟨hprecedes.lt hwithin hwithin' hwithin.max_mem hwithin'.min_mem, fun hspace => ?_⟩
  have hrspace := hwithin.space
  have hspace' : r.max.space.toNat = r'.min.space.toNat := congrArg UInt16.toNat hspace
  rw [AddressRange.precedes_iff] at hprecedes
  obtain ⟨next, hnext, hoffset⟩ := Address.exists_next (a := r.max) (b := r'.min) (by omega)
  have hnext' : next.space.toNat = r.max.space.toNat := congrArg UInt16.toNat hnext
  refine ⟨next, hnext, Address.lt_iff.mpr (by omega), Address.lt_iff.mpr (by omega), ?_⟩
  rw [Bool.eq_false_iff, ne_eq, h.contains_iff]
  exact h.not_mem_of_succ hr (hnext'.trans hrspace) hoffset

/-- A range and the address behind it, the last two addresses of a space, a range at the start of
the next space, and one that spans both. -/
def twoSpaces : List Addition :=
  [.address ⟨0, 32⟩, .range ⟨⟨1, 0⟩, ⟨1, 3⟩⟩, .range ⟨⟨0, 16⟩, ⟨0, 31⟩⟩,
    .range ⟨⟨0, Address.maxOffset - 1⟩, ⟨0, Address.maxOffset⟩⟩, .range ⟨⟨0, 64⟩, ⟨1, 64⟩⟩]

theorem built_faithful_twoSpaces :
    (built twoSpaces).ranges = [⟨⟨0, 16⟩, ⟨0, 32⟩⟩,
        ⟨⟨0, Address.maxOffset - 1⟩, ⟨0, Address.maxOffset⟩⟩, ⟨⟨1, 0⟩, ⟨1, 3⟩⟩] ∧
      (built twoSpaces).contains ⟨0, Address.maxOffset⟩ = true ∧
      ∃ a : Address, a.space = 0 ∧ ⟨0, 32⟩ < a ∧ a < ⟨0, Address.maxOffset - 1⟩ ∧
        (built twoSpaces).contains a = false := by
  have hranges : (built twoSpaces).ranges = [⟨⟨0, 16⟩, ⟨0, 32⟩⟩,
      ⟨⟨0, Address.maxOffset - 1⟩, ⟨0, Address.maxOffset⟩⟩, ⟨⟨1, 0⟩, ⟨1, 3⟩⟩] := by
    decide +kernel
  obtain ⟨hcontains, -, hsorted⟩ := built_faithful twoSpaces
  have hadds : (Addition.range ⟨⟨0, Address.maxOffset - 1⟩, ⟨0, Address.maxOffset⟩⟩).Adds
      ⟨0, Address.maxOffset⟩ :=
    ⟨by decide, by decide⟩
  rw [hranges] at hsorted
  obtain ⟨-, hgap⟩ := (List.pairwise_cons.mp hsorted).1 _ List.mem_cons_self
  exact ⟨hranges, (hcontains _).mpr ⟨_, by simp [twoSpaces], hadds⟩, hgap rfl⟩

end Equates.AddressSet

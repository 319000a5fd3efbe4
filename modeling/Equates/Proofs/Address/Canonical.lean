/-
An address set has one representation.

The ranges of a set in normal form are its runs: the ranges within one space that lie in the set,
and in no larger range that does (`AddressSet.Normal.mem_ranges_iff`).  Which ranges are runs is
told by the addresses of the set alone, and their order by where they begin; so sets with the same
addresses have the same list of ranges (`AddressSet.Normal.ranges_eq`).

In `AddressSet.built_canonical` this is said of sets that are built by additions: it matters which
addresses are added, but not in which order, how often and in which pieces.
-/
import Equates.Proofs.Address.Contains
import Mathlib.Data.List.Sort

namespace Equates

namespace AddressRange

variable {q r : AddressRange}

/-- A range is told by its addresses. -/
theorem WithinSpace.eq_of_mem_iff (hq : q.WithinSpace) (hr : r.WithinSpace)
    (h : ∀ a, a ∈ q ↔ a ∈ r) : q = r := by
  have hqmin := hr.mem_iff.mp ((h _).mp hq.min_mem)
  have hqmax := hr.mem_iff.mp ((h _).mp hq.max_mem)
  have hrmin := hq.mem_iff.mp ((h _).mpr hr.min_mem)
  have hrmax := hq.mem_iff.mp ((h _).mpr hr.max_mem)
  have hqspace := hq.space
  have hrspace := hr.space
  have hmin : q.min = r.min := Address.eq_iff.mpr (by omega)
  have hmax : q.max = r.max := Address.eq_iff.mpr (by omega)
  cases q
  cases r
  rw [mk.injEq]
  exact ⟨hmin, hmax⟩

section adjacent

variable (hq : q.WithinSpace) (hr : r.WithinSpace) (hspace : q.max.space = r.min.space)
  (hoffset : q.max.offset.toNat + 1 = r.min.offset.toNat)
include hq hr hspace hoffset

theorem withinSpace_joined : WithinSpace ⟨q.min, r.max⟩ := by
  have hqoffset := hq.offset
  have hroffset := hr.offset
  have hends : q.min.space = r.max.space := hq.1.trans (hspace.trans hr.1)
  refine ⟨hends, Address.le_iff.mpr (.inr ⟨congrArg UInt16.toNat hends, ?_⟩)⟩
  dsimp only
  omega

/-- The one range ends just before the other begins. -/
theorem mem_joined {a : Address} : a ∈ (⟨q.min, r.max⟩ : AddressRange) ↔ a ∈ q ∨ a ∈ r := by
  rw [(withinSpace_joined hq hr hspace hoffset).mem_iff, hq.mem_iff, hr.mem_iff]
  have hqspace := hq.space
  have hspace' : q.max.space.toNat = r.min.space.toNat := congrArg UInt16.toNat hspace
  have hqoffset := hq.offset
  have hroffset := hr.offset
  dsimp only
  omega

end adjacent

end AddressRange

namespace AddressSet

variable {s s' : AddressSet}

/-- A range within one space that lies in the set, and in no larger range that does. -/
structure IsRun (s : AddressSet) (r : AddressRange) : Prop where
  withinSpace : r.WithinSpace
  subset : ∀ a ∈ r, a ∈ s
  maximal : ∀ q : AddressRange, q.WithinSpace → (∀ a ∈ q, a ∈ s) → (∀ a ∈ r, a ∈ q) → q = r

theorem IsRun.congr (h : ∀ a, a ∈ s ↔ a ∈ s') {r : AddressRange} (hr : s.IsRun r) : s'.IsRun r where
  withinSpace := hr.withinSpace
  subset a ha := (h a).mp (hr.subset a ha)
  maximal q hq hqs := hr.maximal q hq fun a ha => (h a).mpr (hqs a ha)

namespace Normal

variable (h : s.Normal)
include h

/-- No address lies in two ranges of the set. -/
theorem eq_of_mem {q r : AddressRange} (hq : q ∈ s.ranges) (hr : r ∈ s.ranges) {a : Address}
    (haq : a ∈ q) (har : a ∈ r) : q = r := by
  have hqwithin := h.withinSpace q hq
  have hrwithin := h.withinSpace r hr
  obtain heq | hqr | hrq := h.eq_or_precedes hq hr
  · exact heq
  · exact absurd rfl (Address.ne_of_lt (hqr.lt hqwithin hrwithin haq har))
  · exact absurd rfl (Address.ne_of_lt (hrq.lt hrwithin hqwithin har haq))

/-- A range that lies in the set lies in one of its ranges: there is no way over a gap. -/
theorem exists_range {q : AddressRange} (hq : q.WithinSpace) (hqs : ∀ a ∈ q, a ∈ s) :
    ∃ r ∈ s.ranges, ∀ a ∈ q, a ∈ r := by
  obtain ⟨r, hr, hmin⟩ := hqs q.min hq.min_mem
  have hrwithin := h.withinSpace r hr
  refine ⟨r, hr, fun a ha => ?_⟩
  by_contra hout
  -- The address behind the range would have to be in the set.
  rw [hrwithin.mem_iff] at hmin hout
  rw [hq.mem_iff] at ha
  have hrspace := hrwithin.space
  obtain ⟨next, hspace, hoffset⟩ := Address.exists_next (a := r.max) (b := a) (by omega)
  rw [← UInt16.toNat_inj, hrspace] at hspace
  have hnext : next ∈ q := hq.mem_iff.mpr (by omega)
  exact h.not_mem_of_succ hr hspace hoffset (hqs next hnext)

theorem mem_ranges_iff {r : AddressRange} : r ∈ s.ranges ↔ s.IsRun r := by
  constructor
  · intro hr
    have hwithin := h.withinSpace r hr
    refine ⟨hwithin, fun a ha => ⟨r, hr, ha⟩, fun q hq hqs hrq => ?_⟩
    obtain ⟨r', hr', hqr'⟩ := h.exists_range hq hqs
    -- The two share the first address of the smaller range.
    obtain rfl := h.eq_of_mem hr hr' hwithin.min_mem (hqr' _ (hrq _ hwithin.min_mem))
    exact hq.eq_of_mem_iff hwithin fun a => ⟨hqr' a, hrq a⟩
  · intro hrun
    obtain ⟨q, hq, hrq⟩ := h.exists_range hrun.withinSpace hrun.subset
    obtain rfl := hrun.maximal q (h.withinSpace q hq) (fun a ha => ⟨q, hq, ha⟩) hrq
    exact hq

/-- A set in normal form is told by its addresses. -/
theorem ranges_eq (h' : s'.Normal) (hmem : ∀ a, a ∈ s ↔ a ∈ s') : s.ranges = s'.ranges := by
  have hanti : Std.Antisymm fun q r : AddressRange => q.min < r.min :=
    ⟨fun _ _ hqr hrq =>
      absurd rfl (Address.ne_of_lt (Address.lt_of_lt_of_le hqr (Address.le_of_lt hrq)))⟩
  have hirrefl : Std.Irrefl fun q r : AddressRange => q.min < r.min :=
    ⟨fun q hq => Address.ne_of_lt hq rfl⟩
  refine h.mins_sorted.eq_of_mem_iff h'.mins_sorted fun r => ?_
  rw [h.mem_ranges_iff, h'.mem_ranges_iff]
  exact ⟨IsRun.congr hmem, IsRun.congr fun a => (hmem a).symm⟩

end Normal

theorem ranges_built_eq {l l' : List Addition}
    (h : ∀ a, (∃ x ∈ l, x.Adds a) ↔ ∃ x ∈ l', x.Adds a) :
    (built l).ranges = (built l').ranges :=
  (normal_built l).ranges_eq (normal_built l') fun a => mem_built.trans ((h a).trans mem_built.symm)

/-- Additions of the same addresses make the same set: so their order does not matter, a range that
is in the set already changes nothing, and two adjacent ranges make the same as the one range that
joins them. -/
theorem built_canonical :
    (∀ l l' : List Addition, (∀ a, (∃ x ∈ l, x.Adds a) ↔ ∃ x ∈ l', x.Adds a) →
        (built l).ranges = (built l').ranges) ∧
      (∀ l l' : List Addition, l.Perm l' → (built l).ranges = (built l').ranges) ∧
      (∀ (l : List Addition) (r : AddressRange), (∀ a ∈ r, (built l).contains a = true) →
        (built (l ++ [.range r])).ranges = (built l).ranges) ∧
      ∀ (l : List Addition) (q r : AddressRange), q.WithinSpace → r.WithinSpace →
        q.max.space = r.min.space → q.max.offset.toNat + 1 = r.min.offset.toNat →
        (built (l ++ [.range q, .range r])).ranges =
          (built (l ++ [.range ⟨q.min, r.max⟩])).ranges := by
  refine ⟨fun l l' => ranges_built_eq, fun l l' hperm => ?_, fun l r hr => ?_,
    fun l q r hq hr hspace hoffset => ?_⟩
  · refine ranges_built_eq fun a => ?_
    simp only [hperm.mem_iff]
  · refine ranges_built_eq fun a => ?_
    simp only [List.mem_append, List.mem_singleton, or_and_right, exists_or, exists_eq_left]
    refine or_iff_left_of_imp fun ha => ?_
    exact mem_built.mp ((normal_built l).contains_iff.mp (hr a ha.2))
  · refine ranges_built_eq fun a => ?_
    have hjoined : (Addition.range ⟨q.min, r.max⟩).Adds a ↔
        (Addition.range q).Adds a ∨ (Addition.range r).Adds a := by
      simp only [Addition.Adds, AddressRange.withinSpace_joined hq hr hspace hoffset,
        AddressRange.mem_joined hq hr hspace hoffset, hq, hr, true_and]
    simp only [List.mem_append, List.mem_cons, List.not_mem_nil, or_false, or_and_right, exists_or,
      exists_eq_left, hjoined]

/-- The addresses from 16 to 32, and the last one of the space, in pieces that overlap or touch. -/
def inPieces : List Addition :=
  [.address ⟨0, 32⟩, .range ⟨⟨0, Address.maxOffset⟩, ⟨0, Address.maxOffset⟩⟩,
    .range ⟨⟨0, 20⟩, ⟨0, 31⟩⟩, .range ⟨⟨0, 16⟩, ⟨0, 24⟩⟩]

def atOnce : List Addition :=
  [.range ⟨⟨0, 16⟩, ⟨0, 32⟩⟩, .address ⟨0, Address.maxOffset⟩]

theorem built_canonical_inPieces :
    (∀ a, (∃ x ∈ inPieces, x.Adds a) ↔ ∃ x ∈ atOnce, x.Adds a) ∧
      (built inPieces).ranges = (built atOnce).ranges ∧
      (built inPieces.reverse).ranges = (built inPieces).ranges ∧
      (built (atOnce ++ [.range ⟨⟨0, 16⟩, ⟨0, 32⟩⟩])).ranges = (built atOnce).ranges ∧
      (built (atOnce ++ [.range ⟨⟨0, 40⟩, ⟨0, 47⟩⟩, .range ⟨⟨0, 48⟩, ⟨0, 63⟩⟩])).ranges =
        (built (atOnce ++ [.range ⟨⟨0, 40⟩, ⟨0, 63⟩⟩])).ranges := by
  obtain ⟨hsame, hperm, hcontained, hadjacent⟩ := built_canonical
  have hcovers : ∀ a, (∃ x ∈ inPieces, x.Adds a) ↔ ∃ x ∈ atOnce, x.Adds a := by
    intro a
    have hrange : ∀ low high : UInt64, low ≤ high → ((Addition.range ⟨⟨0, low⟩, ⟨0, high⟩⟩).Adds a ↔
        a.space.toNat = 0 ∧ low.toNat ≤ a.offset.toNat ∧ a.offset.toNat ≤ high.toNat) := by
      intro low high hle
      have hwithin : AddressRange.WithinSpace ⟨⟨0, low⟩, ⟨0, high⟩⟩ :=
        ⟨rfl, Address.le_iff.mpr (.inr ⟨rfl, UInt64.le_iff_toNat_le.mp hle⟩)⟩
      exact (and_iff_right hwithin).trans hwithin.mem_iff
    have hsingle : ∀ b : Address, (Addition.address b).Adds a ↔
        a.space.toNat = b.space.toNat ∧ a.offset.toNat = b.offset.toNat := fun _ => Address.eq_iff
    simp only [inPieces, atOnce, List.mem_cons, List.not_mem_nil, or_false, exists_eq_or_imp,
      exists_eq_left, hsingle]
    rw [hrange 16 32 (by decide), hrange 20 31 (by decide), hrange 16 24 (by decide),
      hrange Address.maxOffset Address.maxOffset (by decide)]
    simp only [UInt16.toNat_zero, UInt64.reduceToNat]
    omega
  refine ⟨hcovers, hsame _ _ hcovers, hperm _ _ (List.reverse_perm _),
    hcontained _ _ fun a ha => ?_, hadjacent _ ⟨⟨0, 40⟩, ⟨0, 47⟩⟩ ⟨⟨0, 48⟩, ⟨0, 63⟩⟩ (by decide) (by decide) rfl rfl⟩
  have hadds : (Addition.range ⟨⟨0, 16⟩, ⟨0, 32⟩⟩).Adds a := ⟨by decide, ha⟩
  exact (normal_built atOnce).contains_iff.mpr (mem_built.mpr ⟨_, List.mem_cons_self, hadds⟩)

end AddressSet

end Equates

/-
The size of an address set is the number of its addresses, as far as that fits 64 bits.

No address lies in two ranges of a set in normal form, so that the set has as many addresses as the
counts of its ranges come to (`AddressSet.Normal.encard_eq`).  The counts are added one by one; the
adding stops at the greatest size where the next total would be larger, and only there
(`AddressSet.exceeds_iff`).  So the size is the sum or the greatest size
(`AddressSet.toNat_addSizes`), and no number on the way is cut (`AddressSet.AddsExactly`).

`AddressSet.size_exact` says this of every set that is built by additions.
-/
import Equates.Proofs.Address.Contains
import Mathlib.Data.Set.Card
import Mathlib.Order.Interval.Finset.Nat

namespace Equates

namespace AddressRange

/-- The number of addresses of a range within one space. -/
def count (r : AddressRange) : Nat :=
  r.span.toNat + 1

namespace WithinSpace

variable {r : AddressRange} (h : r.WithinSpace)
include h

theorem add_span : r.min.offset.toNat + r.span.toNat = r.max.offset.toNat := by
  have hoffset := h.offset
  rw [span, UInt64.toNat_sub_of_le _ _ (UInt64.le_iff_toNat_le.mpr hoffset)]
  omega

/-- The addresses of the range are told apart by their offsets, which are the numbers from the
first to the last. -/
theorem encard_eq : {a | a ∈ r}.encard = r.count := by
  have hinj : Set.InjOn (·.offset.toNat) {a | a ∈ r} := fun a ha b hb hab =>
    Address.eq_iff.mpr ⟨(h.mem_iff.mp ha).1.trans (h.mem_iff.mp hb).1.symm, hab⟩
  have himage : (·.offset.toNat) '' {a | a ∈ r} =
      (Finset.Icc r.min.offset.toNat r.max.offset.toNat : Set Nat) := by
    ext n
    rw [Finset.coe_Icc, Set.mem_Icc, Set.mem_image]
    constructor
    · rintro ⟨a, ha, rfl⟩
      exact (h.mem_iff.mp ha).2
    · rintro ⟨hlow, hhigh⟩
      have hn : (UInt64.ofNat n).toNat = n :=
        UInt64.toNat_ofNat_of_lt' (lt_of_le_of_lt hhigh r.max.offset.toNat_lt)
      refine ⟨⟨r.min.space, .ofNat n⟩, h.mem_iff.mpr ?_, hn⟩
      rw [hn]
      exact ⟨rfl, hlow, hhigh⟩
  have hspan := h.add_span
  rw [← hinj.encard_image, himage, Set.encard_coe_eq_coe_finsetCard, Nat.card_Icc, count]
  congr 1
  omega

end WithinSpace

end AddressRange

namespace AddressSet

/-! ### Counting -/

/-- Ranges that come one before the other have no address in common. -/
theorem encard_ranges {l : List AddressRange} (hl : ∀ r ∈ l, r.WithinSpace)
    (hsorted : l.Pairwise AddressRange.Precedes) :
    {a | ∃ r ∈ l, a ∈ r}.encard = (l.map AddressRange.count).sum := by
  induction l with
  | nil => simp
  | cons r rest ih =>
    obtain ⟨hr, hrest⟩ := List.forall_mem_cons.mp hl
    obtain ⟨hprecedes, hsorted⟩ := List.pairwise_cons.mp hsorted
    have hunion : {a | ∃ q ∈ r :: rest, a ∈ q} = {a | a ∈ r} ∪ {a | ∃ q ∈ rest, a ∈ q} := by
      ext a
      simp
    have hdisjoint : Disjoint {a | a ∈ r} {a | ∃ q ∈ rest, a ∈ q} := by
      rw [Set.disjoint_left]
      rintro a ha ⟨q, hq, ha'⟩
      exact Address.ne_of_lt ((hprecedes q hq).lt hr (hrest q hq) ha ha') rfl
    rw [hunion, Set.encard_union_eq hdisjoint, hr.encard_eq, ih hrest hsorted, List.map_cons,
      List.sum_cons, Nat.cast_add]

theorem Normal.encard_eq {s : AddressSet} (h : s.Normal) :
    {a | s.contains a = true}.encard = (s.ranges.map AddressRange.count).sum := by
  rw [← encard_ranges h.withinSpace h.sorted]
  exact congrArg Set.encard (Set.ext fun a => h.contains_iff)

/-! ### Adding -/

/-- No 64-bit number is cut when the counts are added to `total`: not the distance between the ends
of a range, not what its count leaves of the greatest size, and, if that is enough, not the count
nor the next total. -/
def AddsExactly (total : UInt64) : List AddressRange → Prop
  | [] => True
  | r :: rest =>
    r.min.offset.toNat + r.span.toNat = r.max.offset.toNat ∧
      (r.span ≠ maxSize →
        (maxSize - r.span - 1).toNat + r.count = maxSize.toNat ∧
          (total ≤ maxSize - r.span - 1 →
            (r.span + 1).toNat = r.count ∧
              (total + (r.span + 1)).toNat = total.toNat + r.count ∧
              AddsExactly (total + (r.span + 1)) rest))

theorem toNat_maxSize : maxSize.toNat = 2 ^ 64 - 1 :=
  rfl

section exceeds

variable {r : AddressRange} {total : UInt64}

theorem span_ne_maxSize_iff : r.span ≠ maxSize ↔ r.count ≤ maxSize.toNat := by
  have hmax := toNat_maxSize
  have hspan := r.span.toNat_lt
  rw [ne_eq, ← UInt64.toNat_inj, AddressRange.count]
  omega

theorem toNat_room (h : r.span ≠ maxSize) :
    (maxSize - r.span - 1).toNat + r.count = maxSize.toNat := by
  have hcount := span_ne_maxSize_iff.mp h
  have hmax := toNat_maxSize
  rw [AddressRange.count] at hcount ⊢
  have hsub : (maxSize - r.span).toNat = maxSize.toNat - r.span.toNat :=
    UInt64.toNat_sub_of_le _ _ (UInt64.le_iff_toNat_le.mpr (by omega))
  rw [UInt64.toNat_sub_of_le _ _ (UInt64.le_iff_toNat_le.mpr ?_), hsub, UInt64.toNat_one]
  · omega
  · rw [hsub, UInt64.toNat_one]
    omega

/-- Whether the next total is too large is told without computing it. -/
theorem exceeds_iff : (r.span = maxSize ∨ maxSize - r.span - 1 < total) ↔
    maxSize.toNat < total.toNat + r.count := by
  by_cases h : r.span = maxSize
  · have hcount := mt span_ne_maxSize_iff.mpr (not_not_intro h)
    refine iff_of_true (.inl h) ?_
    omega
  · have hroom := toNat_room h
    rw [or_iff_right h, UInt64.lt_iff_toNat_lt]
    omega

theorem toNat_span_add_one (h : r.span ≠ maxSize) : (r.span + 1).toNat = r.count := by
  have hcount := span_ne_maxSize_iff.mp h
  have hmax := toNat_maxSize
  rw [AddressRange.count] at hcount ⊢
  rw [UInt64.toNat_add, UInt64.toNat_one]
  omega

theorem toNat_nextTotal (h : ¬ (r.span = maxSize ∨ maxSize - r.span - 1 < total)) :
    (total + (r.span + 1)).toNat = total.toNat + r.count := by
  have hle := mt exceeds_iff.mpr h
  have hmax := toNat_maxSize
  rw [UInt64.toNat_add, toNat_span_add_one fun hspan => h (.inl hspan)]
  omega

end exceeds

/-- The induction is on the ranges, for whatever total has come up before them. -/
theorem toNat_addSizes (total : UInt64) (l : List AddressRange) :
    (addSizes total l).toNat =
      min (total.toNat + (l.map AddressRange.count).sum) maxSize.toNat := by
  induction l generalizing total with
  | nil =>
    have hle : total.toNat ≤ maxSize.toNat := Nat.le_of_lt_succ total.toNat_lt
    rw [addSizes, List.map_nil, List.sum_nil, Nat.add_zero, Nat.min_eq_left hle]
  | cons r rest ih =>
    rw [addSizes, List.map_cons, List.sum_cons, ← Nat.add_assoc]
    split
    · next hstop =>
      have hexceeds := exceeds_iff.mp hstop
      rw [Nat.min_eq_right (by omega)]
    · next hgo => rw [ih, toNat_nextTotal hgo]

theorem addsExactly {l : List AddressRange} (hl : ∀ r ∈ l, r.WithinSpace) (total : UInt64) :
    AddsExactly total l := by
  induction l generalizing total with
  | nil => trivial
  | cons r rest ih =>
    obtain ⟨hr, hrest⟩ := List.forall_mem_cons.mp hl
    refine ⟨hr.add_span, fun hspan => ⟨toNat_room hspan, fun hroom => ?_⟩⟩
    have hgo : ¬ (r.span = maxSize ∨ maxSize - r.span - 1 < total) :=
      not_or_intro hspan (UInt64.not_lt.mpr hroom)
    exact ⟨toNat_span_add_one hspan, toNat_nextTotal hgo, ih hrest _⟩

/-- The size of a set is the number of its addresses, or the greatest size if there are more; and no
number is cut on the way to it. -/
theorem size_exact (l : List Addition) :
    {a | (built l).contains a = true}.Finite ∧
      (built l).size.toNat =
        min {a | (built l).contains a = true}.ncard maxSize.toNat ∧
      AddsExactly 0 (built l).ranges := by
  have h := normal_built l
  refine ⟨Set.finite_of_encard_eq_coe h.encard_eq, ?_, addsExactly h.withinSpace 0⟩
  rw [Set.ncard, h.encard_eq, ENat.toNat_natCast, size, toNat_addSizes, UInt64.toNat_zero,
    Nat.zero_add]

/-- A space without its first address is just small enough to be counted, and with one address more
the size stays. -/
example : (built [.range ⟨⟨0, 1⟩, ⟨0, Address.maxOffset⟩⟩]).size = maxSize ∧
    (built [.range ⟨⟨0, 1⟩, ⟨0, Address.maxOffset⟩⟩, .address ⟨1, 0⟩]).size = maxSize := by
  decide +kernel

end AddressSet

end Equates

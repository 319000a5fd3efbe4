/-
Address sets are kept in normal form.

A set in normal form (`AddressSet.Normal`) lists ranges that lie within one space each, every
one before the next with a gap between them.  The empty set is in normal form, and adding a
range keeps it there (`AddressSet.Normal.insert`).

Whatever the ranges are merged into, the addresses of the set are those that were added
(`AddressSet.mem_insert`, `AddressSet.mem_ofRanges`).
-/
import Equates.Proofs.Address.Window

namespace Equates

namespace AddressRange

variable {r s q : AddressRange}

theorem WithinSpace.space (h : r.WithinSpace) : r.max.space.toNat = r.min.space.toNat :=
  congrArg UInt16.toNat h.1.symm

theorem WithinSpace.offset (h : r.WithinSpace) : r.min.offset.toNat ≤ r.max.offset.toNat := by
  have hle := Address.le_iff.mp h.2
  have hspace := h.space
  omega

/-- The addresses of a range within one space are those with an offset between its bounds. -/
theorem WithinSpace.mem_iff (h : r.WithinSpace) {a : Address} :
    a ∈ r ↔ a.space.toNat = r.min.space.toNat ∧ r.min.offset.toNat ≤ a.offset.toNat ∧
      a.offset.toNat ≤ r.max.offset.toNat := by
  have hspace := h.space
  show r.min ≤ a ∧ a ≤ r.max ↔ _
  rw [Address.le_iff, Address.le_iff]
  omega

theorem WithinSpace.min_mem (h : r.WithinSpace) : r.min ∈ r :=
  h.mem_iff.mpr ⟨rfl, le_refl _, h.offset⟩

theorem WithinSpace.max_mem (h : r.WithinSpace) : r.max ∈ r :=
  h.mem_iff.mpr ⟨h.space, h.offset, le_refl _⟩

theorem precedes_iff : r.Precedes s ↔ r.min.space.toNat < s.min.space.toNat ∨
    (r.min.space.toNat = s.min.space.toNat ∧ r.max.offset.toNat + 1 < s.min.offset.toNat) := by
  have hgap : r.max.offset ≠ Address.maxOffset ∧ r.max.offset + 1 < s.min.offset ↔
      r.max.offset.toNat + 1 < s.min.offset.toNat := by
    have hmax : Address.maxOffset.toNat = 2 ^ 64 - 1 := rfl
    have hr := r.max.offset.toNat_lt
    have hs := s.min.offset.toNat_lt
    rw [ne_eq, ← UInt64.toNat_inj, UInt64.lt_iff_toNat_lt, UInt64.toNat_add, UInt64.toNat_one, hmax]
    omega
  rw [Precedes, UInt16.lt_iff_toNat_lt, UInt16.toNat_inj, hgap]

theorem Precedes.asymm (hr : r.WithinSpace) (hs : s.WithinSpace) (h : r.Precedes s) :
    ¬ s.Precedes r := by
  have hroffset := hr.offset
  have hsoffset := hs.offset
  rw [precedes_iff] at h ⊢
  omega

theorem Precedes.trans (hr : r.WithinSpace) (h : q.Precedes r) (h' : r.Precedes s) :
    q.Precedes s := by
  have hoffset := hr.offset
  rw [precedes_iff] at h h' ⊢
  omega

/-- Every address of the one range comes before every address of the other. -/
theorem Precedes.lt (h : r.Precedes s) (hr : r.WithinSpace) (hs : s.WithinSpace) {a b : Address}
    (ha : a ∈ r) (hb : b ∈ s) : a < b := by
  rw [hr.mem_iff] at ha
  rw [hs.mem_iff] at hb
  rw [precedes_iff] at h
  rw [Address.lt_iff]
  omega

/-! ### Merging -/

section hull

variable (hr : r.WithinSpace) (hs : s.WithinSpace) (hsr : ¬ s.Precedes r) (hrs : ¬ r.Precedes s)
include hr hs hsr hrs

/-- Two ranges that meet or touch lie in one space. -/
theorem hull_bounds : s.min.space.toNat = r.min.space.toNat ∧
    (r.hull s).min.space.toNat = r.min.space.toNat ∧
    (r.hull s).max.space.toNat = r.min.space.toNat ∧
    (r.hull s).min.offset.toNat = Min.min r.min.offset.toNat s.min.offset.toNat ∧
    (r.hull s).max.offset.toNat = Max.max r.max.offset.toNat s.max.offset.toNat := by
  have hrspace := hr.space
  have hsspace := hs.space
  rw [precedes_iff] at hsr hrs
  have hspace : s.min.space.toNat = r.min.space.toNat := by omega
  have hmin : s.min < r.min ↔ s.min.offset.toNat < r.min.offset.toNat := by
    rw [Address.lt_iff]
    omega
  have hmax : r.max < s.max ↔ r.max.offset.toNat < s.max.offset.toNat := by
    rw [Address.lt_iff]
    omega
  refine ⟨hspace, ?_, ?_, ?_, ?_⟩
  · rw [hull]
    dsimp only
    split
    · exact hspace
    · rfl
  · rw [hull]
    dsimp only
    split
    · exact hsspace.trans hspace
    · exact hrspace
  · rw [hull]
    dsimp only
    split
    · next h => exact (min_eq_right (le_of_lt (hmin.mp h))).symm
    · next h => exact (min_eq_left (not_lt.mp (mt hmin.mpr h))).symm
  · rw [hull]
    dsimp only
    split
    · next h => exact (max_eq_right (le_of_lt (hmax.mp h))).symm
    · next h => exact (max_eq_left (not_lt.mp (mt hmax.mpr h))).symm

theorem hull_withinSpace : (r.hull s).WithinSpace := by
  obtain ⟨-, hmin, hmax, hlow, hhigh⟩ := hull_bounds hr hs hsr hrs
  have hroffset := hr.offset
  refine ⟨UInt16.toNat_inj.mp (hmin.trans hmax.symm), Address.le_iff.mpr ?_⟩
  omega

/-- Ranges that meet or touch leave no gap in their hull. -/
theorem mem_hull {a : Address} : a ∈ r.hull s ↔ a ∈ r ∨ a ∈ s := by
  rw [(hull_withinSpace hr hs hsr hrs).mem_iff, hr.mem_iff, hs.mem_iff]
  obtain ⟨hspace, hmin, -, hlow, hhigh⟩ := hull_bounds hr hs hsr hrs
  have hroffset := hr.offset
  have hsoffset := hs.offset
  rw [precedes_iff] at hsr hrs
  omega

theorem precedes_hull (hqr : q.Precedes r) (hqs : q.Precedes s) : q.Precedes (r.hull s) := by
  obtain ⟨hspace, hmin, -, hlow, -⟩ := hull_bounds hr hs hsr hrs
  rw [precedes_iff] at hqr hqs ⊢
  omega

end hull

/-! ### Insertion into a list of ranges -/

section insertInto

/-- What comes before the first range of a sorted list comes before all of them. -/
theorem Precedes.forall_cons {rest : List AddressRange} (hrs : r.Precedes s) (hs : s.WithinSpace)
    (hsorted : (s :: rest).Pairwise Precedes) : ∀ q ∈ s :: rest, r.Precedes q :=
  List.forall_mem_cons.mpr
    ⟨hrs, fun q hq => hrs.trans hs ((List.pairwise_cons.mp hsorted).1 q hq)⟩

/-- Once the range has its place, nothing behind it changes. -/
theorem insertInto_placed {l : List AddressRange} (hl : ∀ s ∈ l, s.WithinSpace)
    (hr : r.WithinSpace) (hlater : ∀ s ∈ l, r.Precedes s) : r.insertInto true l = l := by
  induction l with
  | nil => rfl
  | cons s rest ih =>
    obtain ⟨hs, hrest⟩ := List.forall_mem_cons.mp hl
    obtain ⟨hrs, hlater'⟩ := List.forall_mem_cons.mp hlater
    rw [insertInto, if_neg (hrs.asymm hr hs), if_pos hrs, if_pos rfl, ih hrest hlater']

/-- So the pass over a sorted list might stop there. -/
theorem insertInto_cons {rest : List AddressRange} (hl : ∀ q ∈ s :: rest, q.WithinSpace)
    (hsorted : (s :: rest).Pairwise Precedes) (hr : r.WithinSpace) :
    r.insertInto false (s :: rest) =
      if s.Precedes r then s :: r.insertInto false rest
      else if r.Precedes s then r :: s :: rest
      else (r.hull s).insertInto false rest := by
  obtain ⟨hs, hrest⟩ := List.forall_mem_cons.mp hl
  rw [insertInto]
  refine if_congr Iff.rfl rfl (ite_congr rfl (fun hrs => ?_) fun _ => rfl)
  have hlater := (List.forall_mem_cons.mp (hrs.forall_cons hs hsorted)).2
  rw [if_neg Bool.false_ne_true, insertInto_placed hrest hr hlater]

variable {l : List AddressRange} (hl : ∀ s ∈ l, s.WithinSpace) (hsorted : l.Pairwise Precedes)
include hl hsorted

theorem mem_insertInto (hr : r.WithinSpace) {a : Address} :
    (∃ s ∈ r.insertInto false l, a ∈ s) ↔ a ∈ r ∨ ∃ s ∈ l, a ∈ s := by
  induction l generalizing r with
  | nil => simp [insertInto]
  | cons s rest ih =>
    obtain ⟨hs, hrest⟩ := List.forall_mem_cons.mp hl
    have hsorted' := (List.pairwise_cons.mp hsorted).2
    rw [insertInto_cons hl hsorted hr]
    split
    · simp only [List.mem_cons, exists_eq_or_imp]
      rw [ih hrest hsorted' hr]
      exact or_left_comm
    · next hsr =>
      split
      · simp only [List.mem_cons, exists_eq_or_imp]
      · next hrs =>
        simp only [List.mem_cons, exists_eq_or_imp]
        rw [ih hrest hsorted' (hull_withinSpace hr hs hsr hrs), mem_hull hr hs hsr hrs, or_assoc]

theorem withinSpace_insertInto (hr : r.WithinSpace) :
    ∀ s ∈ r.insertInto false l, s.WithinSpace := by
  induction l generalizing r with
  | nil => exact List.forall_mem_singleton.mpr hr
  | cons s rest ih =>
    obtain ⟨hs, hrest⟩ := List.forall_mem_cons.mp hl
    have hsorted' := (List.pairwise_cons.mp hsorted).2
    rw [insertInto_cons hl hsorted hr]
    split
    · exact List.forall_mem_cons.mpr ⟨hs, ih hrest hsorted' hr⟩
    · next hsr =>
      split
      · exact List.forall_mem_cons.mpr ⟨hr, hl⟩
      · next hrs => exact ih hrest hsorted' (hull_withinSpace hr hs hsr hrs)

/-- What comes before the range and before the list comes before what the two are merged
into. -/
theorem precedes_insertInto (hr : r.WithinSpace) (hqr : q.Precedes r)
    (hql : ∀ s ∈ l, q.Precedes s) : ∀ s ∈ r.insertInto false l, q.Precedes s := by
  induction l generalizing r with
  | nil => exact List.forall_mem_singleton.mpr hqr
  | cons s rest ih =>
    obtain ⟨hs, hrest⟩ := List.forall_mem_cons.mp hl
    have hsorted' := (List.pairwise_cons.mp hsorted).2
    obtain ⟨hqs, hqrest⟩ := List.forall_mem_cons.mp hql
    rw [insertInto_cons hl hsorted hr]
    split
    · exact List.forall_mem_cons.mpr ⟨hqs, ih hrest hsorted' hr hqr hqrest⟩
    · next hsr =>
      split
      · exact List.forall_mem_cons.mpr ⟨hqr, hql⟩
      · next hrs =>
        exact ih hrest hsorted' (hull_withinSpace hr hs hsr hrs)
          (precedes_hull hr hs hsr hrs hqr hqs) hqrest

theorem pairwise_insertInto (hr : r.WithinSpace) : (r.insertInto false l).Pairwise Precedes := by
  induction l generalizing r with
  | nil => exact List.pairwise_singleton _ _
  | cons s rest ih =>
    obtain ⟨hs, hrest⟩ := List.forall_mem_cons.mp hl
    obtain ⟨hsrest, hsorted'⟩ := List.pairwise_cons.mp hsorted
    rw [insertInto_cons hl hsorted hr]
    split
    · next hsr =>
      exact List.pairwise_cons.mpr
        ⟨precedes_insertInto hrest hsorted' hr hsr hsrest, ih hrest hsorted' hr⟩
    · next hsr =>
      split
      · next hrs => exact List.pairwise_cons.mpr ⟨hrs.forall_cons hs hsorted, hsorted⟩
      · next hrs => exact ih hrest hsorted' (hull_withinSpace hr hs hsr hrs)

end insertInto

end AddressRange

namespace AddressSet

/-- Every range lies within one space, and each comes before the next with a gap between. -/
structure Normal (s : AddressSet) : Prop where
  withinSpace : ∀ r ∈ s.ranges, r.WithinSpace
  sorted : s.ranges.Pairwise AddressRange.Precedes

theorem normal_empty : Normal ∅ :=
  ⟨List.forall_mem_nil _, List.Pairwise.nil⟩

theorem Normal.insert {s : AddressSet} (h : s.Normal) (r : AddressRange) : (s.insert r).Normal := by
  rw [AddressSet.insert]
  split
  · next hr =>
    exact ⟨AddressRange.withinSpace_insertInto h.withinSpace h.sorted hr,
      AddressRange.pairwise_insertInto h.withinSpace h.sorted hr⟩
  · exact h

theorem mem_insert {s : AddressSet} (h : s.Normal) (r : AddressRange) {a : Address} :
    a ∈ s.insert r ↔ (r.WithinSpace ∧ a ∈ r) ∨ a ∈ s := by
  rw [AddressSet.insert]
  split
  · next hr =>
    rw [and_iff_right hr]
    exact AddressRange.mem_insertInto h.withinSpace h.sorted hr
  · next hr => simp [hr]

section foldl

variable {s : AddressSet} (l : List AddressRange)

theorem Normal.foldl_insert (h : s.Normal) : (l.foldl AddressSet.insert s).Normal := by
  induction l generalizing s with
  | nil => exact h
  | cons r l ih => exact ih (h.insert r)

theorem mem_foldl_insert (h : s.Normal) {a : Address} :
    a ∈ l.foldl AddressSet.insert s ↔ a ∈ s ∨ ∃ r ∈ l, r.WithinSpace ∧ a ∈ r := by
  induction l generalizing s with
  | nil => simp
  | cons r l ih =>
    rw [List.foldl_cons, ih (h.insert r), mem_insert h]
    simp only [List.mem_cons, exists_eq_or_imp]
    exact or_assoc.trans or_left_comm

end foldl

theorem normal_ofRanges (l : List AddressRange) : (ofRanges l).Normal :=
  normal_empty.foldl_insert l

theorem mem_ofRanges {l : List AddressRange} {a : Address} :
    a ∈ ofRanges l ↔ ∃ r ∈ l, r.WithinSpace ∧ a ∈ r := by
  rw [ofRanges, mem_foldl_insert l normal_empty]
  refine or_iff_right ?_
  rintro ⟨r, hr, -⟩
  cases hr

end AddressSet

end Equates

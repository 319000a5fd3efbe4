/-
Key windows hold the keys of an interval of addresses.

Keys of mappable addresses are ordered as the addresses (`Address.key?_le_iff`), and
the window between two addresses holds the key of a mappable address exactly if the
address lies between them (`KeyWindow.mem_between?`).  `KeyWindow.between?_exact` adds
when there is no window and where a window begins and ends.
-/
import Equates.Proofs.Address.Key

namespace Equates

namespace Address

theorem le_iff {a b : Address} :
    a ≤ b ↔ a.space.toNat < b.space.toNat ∨
      (a.space.toNat = b.space.toNat ∧ a.offset.toNat ≤ b.offset.toNat) := by
  show ¬ (b.space < a.space ∨ (b.space = a.space ∧ b.offset < a.offset)) ↔ _
  rw [UInt16.lt_iff_toNat_lt, UInt64.lt_iff_toNat_lt, ← UInt16.toNat_inj]
  omega

theorem lt_iff {a b : Address} :
    a < b ↔ a.space.toNat < b.space.toNat ∨
      (a.space.toNat = b.space.toNat ∧ a.offset.toNat < b.offset.toNat) := by
  show (a.space < b.space ∨ (a.space = b.space ∧ a.offset < b.offset)) ↔ _
  rw [UInt16.lt_iff_toNat_lt, UInt64.lt_iff_toNat_lt, ← UInt16.toNat_inj]

theorem eq_iff {a b : Address} :
    a = b ↔ a.space.toNat = b.space.toNat ∧ a.offset.toNat = b.offset.toNat := by
  rw [UInt16.toNat_inj, UInt64.toNat_inj, Address.mk.injEq]

theorem not_le {a b : Address} : ¬ a ≤ b ↔ b < a :=
  not_not

theorem ne_of_lt {a b : Address} (h : a < b) : a ≠ b := by
  rintro rfl
  have := lt_iff.mp h
  omega

theorem le_of_lt {a b : Address} (h : a < b) : a ≤ b := by
  rw [lt_iff] at h
  rw [le_iff]
  omega

theorem lt_of_lt_of_le {a b c : Address} (h : a < b) (h' : b ≤ c) : a < c := by
  rw [lt_iff] at h ⊢
  rw [le_iff] at h'
  omega

theorem key?_le_iff {a b : Address} {j k : Int} (ha : a.key? = some j) (hb : b.key? = some k) :
    j ≤ k ↔ a ≤ b := by
  have hma := mappable_of_key? ha
  have hmb := mappable_of_key? hb
  rw [key?_of_mappable hma] at ha
  rw [key?_of_mappable hmb] at hb
  obtain rfl := Option.some.inj ha
  obtain rfl := Option.some.inj hb
  have ha' := hma.2
  have hb' := hmb.2
  -- The space is the high part of the key and the offset, which is small, the low
  -- part.
  rw [le_iff, Int.ofNat_le]
  unfold offsetLimit at *
  omega

theorem key?_lt_iff {a b : Address} {j k : Int} (ha : a.key? = some j) (hb : b.key? = some k) :
    j < k ↔ a < b := by
  rw [← Int.not_le, key?_le_iff hb ha, not_le]

/-- The offset counter does not wrap where another offset follows. -/
theorem exists_next {a b : Address} (h : a.offset.toNat < b.offset.toNat) :
    ∃ c : Address, c.space = a.space ∧ c.offset.toNat = a.offset.toNat + 1 := by
  have hb := b.offset.toNat_lt
  refine ⟨⟨a.space, a.offset + 1⟩, rfl, ?_⟩
  rw [UInt64.toNat_add, UInt64.toNat_one]
  omega

/-- The space counter does not wrap: the last mappable space is far from its end. -/
theorem toNat_nextSpace {a : Address} (hs : a.space.toNat < maxSpace) :
    (a.space + 1).toNat = a.space.toNat + 1 := by
  rw [UInt16.toNat_add, UInt16.toNat_one]
  exact Nat.mod_eq_of_lt (by unfold maxSpace at hs; omega)

/-- Mappable addresses from `a` on are those from the first of them on. -/
theorem firstMappable?_le_iff {a f b : Address} (hf : a.firstMappable? = some f)
    (hb : b.Mappable) : f ≤ b ↔ a ≤ b := by
  rw [firstMappable?] at hf
  split at hf
  · cases hf
    exact Iff.rfl
  · next ha =>
    split at hf
    · next hs =>
      cases hf
      have hspace := toNat_nextSpace hs
      have ho : ¬ a.offset.toNat < offsetLimit := fun ho => ha ⟨Nat.le_of_lt hs, ho⟩
      have hb' := hb.2
      rw [le_iff, le_iff, hspace, UInt64.toNat_zero]
      omega
    · cases hf

theorem le_lastMappable_iff {a b : Address} (hb : b.Mappable) : b ≤ a.lastMappable ↔ b ≤ a := by
  obtain ⟨hbs, hbo⟩ := hb
  unfold maxSpace at hbs
  unfold offsetLimit at hbo
  -- Behind the last mappable space everything is cut off; in a mappable space, only
  -- the offsets that are too large.
  rw [lastMappable, le_iff, le_iff]
  split
  · next hs =>
    unfold maxSpace at hs
    have h₁ : (UInt16.ofNat maxSpace).toNat = 0x7FFE := rfl
    have h₂ : (UInt64.ofNat (offsetLimit - 1)).toNat = 2 ^ 48 - 1 := rfl
    rw [h₁, h₂]
    omega
  · split
    · exact Iff.rfl
    · next ho =>
      unfold offsetLimit at ho
      have h₂ : (UInt64.ofNat (offsetLimit - 1)).toNat = 2 ^ 48 - 1 := rfl
      dsimp only
      rw [h₂]
      omega

theorem mappable_of_firstMappable? {a f : Address} (h : a.firstMappable? = some f) :
    f.Mappable := by
  rw [firstMappable?] at h
  split at h
  · next ha =>
    cases h
    exact ha
  · split at h
    · next hs =>
      cases h
      have hoffset : (0 : UInt64).toNat < offsetLimit := by decide
      exact ⟨(toNat_nextSpace hs).symm ▸ hs, hoffset⟩
    · cases h

/-- Behind the last mappable space there is no mappable address. -/
theorem firstMappable?_ne_none {a b : Address} (hb : b.Mappable) (h : a ≤ b) :
    ∃ f, a.firstMappable? = some f := by
  rw [firstMappable?]
  split
  · exact ⟨a, rfl⟩
  · next ha =>
    split
    · exact ⟨_, rfl⟩
    · next hs =>
      -- The address lies in the last mappable space and its offset has no key, but one that
      -- comes after it is mappable.
      have ho : a.space.toNat = maxSpace → ¬ a.offset.toNat < offsetLimit :=
        fun hspace ho => ha ⟨le_of_eq hspace, ho⟩
      obtain ⟨hbs, hbo⟩ := hb
      rw [le_iff] at h
      omega

theorem mappable_lastMappable (a : Address) : a.lastMappable.Mappable := by
  rw [lastMappable]
  split
  · decide
  · next hs =>
    split
    · next ho => exact ⟨not_lt.mp hs, ho⟩
    · have hoffset : (UInt64.ofNat (offsetLimit - 1)).toNat < offsetLimit := by decide
      exact ⟨not_lt.mp hs, hoffset⟩

end Address

namespace KeyWindow

section between

variable {first last : Address} {w : KeyWindow} (hw : between? first last = some w)
include hw

/-- The window begins with the key of the first mappable address and ends with the key of
the last one. -/
theorem between?_bounds : (∃ f, first.firstMappable? = some f ∧ f.key? = some w.first) ∧
    last.lastMappable.key? = some w.last ∧ w.first ≤ w.last := by
  rw [between?] at hw
  obtain ⟨f, hf, hw⟩ := Option.bind_eq_some_iff.mp hw
  obtain ⟨low, hlow, hw⟩ := Option.bind_eq_some_iff.mp hw
  obtain ⟨high, hhigh, hw⟩ := Option.bind_eq_some_iff.mp hw
  split at hw
  · next hle =>
    cases hw
    exact ⟨⟨f, hf, hlow⟩, hhigh, hle⟩
  · cases hw

variable {a : Address} {k : Int} (ha : a.key? = some k)
include ha

theorem first_le_iff : w.first ≤ k ↔ first ≤ a := by
  obtain ⟨⟨f, hf, hlow⟩, -⟩ := between?_bounds hw
  rw [Address.key?_le_iff hlow ha, Address.firstMappable?_le_iff hf (Address.mappable_of_key? ha)]

theorem le_last_iff : k ≤ w.last ↔ a ≤ last := by
  obtain ⟨-, hhigh, -⟩ := between?_bounds hw
  rw [Address.key?_le_iff ha hhigh, Address.le_lastMappable_iff (Address.mappable_of_key? ha)]

/-- The window between two addresses. -/
theorem mem_between? : k ∈ w ↔ first ≤ a ∧ a ≤ last :=
  and_congr (first_le_iff hw ha) (le_last_iff hw ha)

end between

/-- There is a window wherever there is a mappable address. -/
theorem between?_ne_none {first last a : Address} {k : Int} (ha : a.key? = some k)
    (h : first ≤ a ∧ a ≤ last) : between? first last ≠ none := by
  have hm := Address.mappable_of_key? ha
  obtain ⟨f, hf⟩ := Address.firstMappable?_ne_none hm h.1
  have hle : f ≤ a := (Address.firstMappable?_le_iff hf hm).mpr h.1
  have hge : a ≤ last.lastMappable := (Address.le_lastMappable_iff hm).mpr h.2
  obtain ⟨low, hlow⟩ := Option.isSome_iff_exists.mp
    (Address.key?_isSome_iff.mpr (Address.mappable_of_firstMappable? hf))
  obtain ⟨high, hhigh⟩ := Option.isSome_iff_exists.mp
    (Address.key?_isSome_iff.mpr (Address.mappable_lastMappable last))
  have hkeys : low ≤ high :=
    le_trans ((Address.key?_le_iff hlow ha).mpr hle) ((Address.key?_le_iff ha hhigh).mpr hge)
  simp [between?, hf, hlow, hhigh, hkeys]

/-- There is no window where there is no mappable address. -/
theorem between?_eq_none_iff {first last : Address} :
    between? first last = none ↔ ¬ ∃ a : Address, a.Mappable ∧ first ≤ a ∧ a ≤ last := by
  constructor
  · rintro hw ⟨a, ha, hin⟩
    exact between?_ne_none (Address.key?_of_mappable ha) hin hw
  · intro hno
    by_contra hw
    obtain ⟨w, hw⟩ := Option.ne_none_iff_exists'.mp hw
    -- The window begins with the key of an address that lies between the two.
    obtain ⟨⟨f, -, hfirst⟩, -, hle⟩ := between?_bounds hw
    exact hno ⟨f, Address.mappable_of_key? hfirst,
      (mem_between? hw hfirst).mp ⟨le_refl _, hle⟩⟩

/-- The window between two addresses, whichever they are, holds the keys of the mappable addresses
from the one to the other and begins and ends with such a key; and there is none only if there is
no such address.  The ends are clipped to the nearest mappable addresses. -/
theorem between?_exact (first last : Address) :
    (∀ a : Address, a.Mappable → ∃ k, a.key? = some k ∧
        ((first ≤ a ∧ a ≤ last) ↔ ∃ w, between? first last = some w ∧ k ∈ w)) ∧
      (between? first last = none ↔ ¬ ∃ a : Address, a.Mappable ∧ first ≤ a ∧ a ≤ last) ∧
      ∀ w, between? first last = some w → ∃ f l : Address,
        f.Mappable ∧ f.key? = some w.first ∧ (∀ a : Address, a.Mappable → (f ≤ a ↔ first ≤ a)) ∧
        l.Mappable ∧ l.key? = some w.last ∧ (∀ a : Address, a.Mappable → (a ≤ l ↔ a ≤ last)) := by
  refine ⟨fun a ha => ⟨_, Address.key?_of_mappable ha, ?_⟩, between?_eq_none_iff, fun w hw => ?_⟩
  · have hkey := Address.key?_of_mappable ha
    constructor
    · intro hin
      obtain ⟨w, hw⟩ := Option.ne_none_iff_exists'.mp (between?_ne_none hkey hin)
      exact ⟨w, hw, (mem_between? hw hkey).mpr hin⟩
    · rintro ⟨w, hw, hmem⟩
      exact (mem_between? hw hkey).mp hmem
  · obtain ⟨⟨f, hf, hfirst⟩, hlast, -⟩ := between?_bounds hw
    exact ⟨f, last.lastMappable, Address.mappable_of_key? hfirst, hfirst,
      fun a ha => Address.firstMappable?_le_iff hf ha, Address.mappable_of_key? hlast, hlast,
      fun a ha => Address.le_lastMappable_iff ha⟩

/-- Behind the mappable offsets of a space the next space begins, and behind the mappable spaces
everything is cut off. -/
theorem between?_exact_clipped :
    between? ⟨2, 0x1000000000000⟩ ⟨0x8000, 5⟩ =
        some ⟨0x3000000000000, 0x7FFEFFFFFFFFFFFF⟩ ∧
      (∃ f : Address, f.Mappable ∧ f.key? = some 0x3000000000000 ∧ f ≤ ⟨3, 0⟩) ∧
      (∃ k, Address.key? ⟨3, 0⟩ = some k ∧
        ∃ w, between? ⟨2, 0x1000000000000⟩ ⟨0x8000, 5⟩ = some w ∧ k ∈ w) ∧
      between? ⟨2, 0x1000000000000⟩ ⟨2, Address.maxOffset⟩ = none := by
  have hwindow : between? ⟨2, 0x1000000000000⟩ ⟨0x8000, 5⟩ =
      some ⟨0x3000000000000, 0x7FFEFFFFFFFFFFFF⟩ := by decide
  obtain ⟨hmem, -, hends⟩ := between?_exact ⟨2, 0x1000000000000⟩ ⟨0x8000, 5⟩
  obtain ⟨k, hk, hiff⟩ := hmem ⟨3, 0⟩ (by decide)
  obtain ⟨f, -, hf, hfirst, hfle, -⟩ := hends _ hwindow
  refine ⟨hwindow, ⟨f, hf, hfirst, (hfle ⟨3, 0⟩ (by decide)).mpr (by decide)⟩,
    ⟨k, hk, hiff.mp (by decide)⟩, ?_⟩
  decide

end KeyWindow

end Equates

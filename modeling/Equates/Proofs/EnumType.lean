/-
Which scalars match an enumerated type.

A scalar matches a type if it has the width of the type, of which no more than 64 bits count
(`EnumType.scalarWidth`), and its bits are there congruent to a declared value
(`EnumType.matches_iff`).  So its signedness does not matter, nor does the order or the repetition
of the members, and each declared value stands for all that are congruent to it
(`EnumType.matches_iff_congruent`).
-/
import Equates.EnumType
import Equates.Proofs.Scalar

namespace Equates.EnumType

variable {type other : EnumType} {s : Scalar}

/-- The width of the scalars that can match the type. -/
def scalarWidth (type : EnumType) : Nat :=
  min type.bitWidth 64

/-- At that width `x` is a declared value. -/
def Declares (type : EnumType) (x : Int) : Prop :=
  ∃ m ∈ type.members, m.value.toInt ≡ x [ZMOD 2 ^ type.scalarWidth]

/-- The width in bits is counted in 32 bits. -/
theorem bitWidth_eq (type : EnumType) : type.bitWidth = 8 * type.length.toNat % 2 ^ 32 := by
  have height : (8 : UInt32).toNat = 8 := rfl
  rw [bitWidth, UInt32.toNat_mul, height, Nat.mul_comm]

theorem scalarWidth_congr (hlength : other.length = type.length) :
    other.scalarWidth = type.scalarWidth := by
  rw [scalarWidth, bitWidth, hlength]
  rfl

theorem declares_iff {x : Int} :
    type.Declares x ↔ ∃ v ∈ type.values, v.toInt ≡ x [ZMOD 2 ^ type.scalarWidth] := by
  simp only [Declares, values, List.mem_map, exists_exists_and_eq_and]

theorem matches_iff : type.Matches s ↔ s.width = type.scalarWidth ∧ type.Declares s.bits.toNat := by
  rw [declares_iff]
  constructor
  · rintro ⟨v, hv, heq⟩
    obtain ⟨hwidth, hcongr⟩ := Scalar.eq_truncate_iff.mp heq
    exact ⟨hwidth, v, hv, hcongr⟩
  · rintro ⟨hwidth, v, hv, hcongr⟩
    exact ⟨v, hv, Scalar.eq_truncate_iff.mpr ⟨hwidth, hcongr⟩⟩

/-- Which scalars match is told by the width and by what is declared there. -/
theorem matches_congr (hlength : other.length = type.length)
    (hdeclares : ∀ x, other.Declares x ↔ type.Declares x) : other.Matches s ↔ type.Matches s := by
  rw [matches_iff, matches_iff, scalarWidth_congr hlength, hdeclares]

theorem declares_congr_of_values (hlength : other.length = type.length)
    (hvalues : ∀ v, v ∈ other.values ↔ v ∈ type.values) (x : Int) :
    other.Declares x ↔ type.Declares x := by
  rw [declares_iff, declares_iff, scalarWidth_congr hlength]
  exact exists_congr fun v => and_congr_left' (hvalues v)

/-- What is declared by one member and by those beside it. -/
theorem declares_split {before after : List EnumMember} {m : EnumMember}
    (hmembers : type.members = before ++ m :: after) (x : Int) :
    type.Declares x ↔ m.value.toInt ≡ x [ZMOD 2 ^ type.scalarWidth] ∨
      ∃ m' ∈ before ++ after, m'.value.toInt ≡ x [ZMOD 2 ^ type.scalarWidth] := by
  have hmiddle : ∀ m', m' ∈ type.members ↔ m' ∈ m :: (before ++ after) := fun m' => by
    rw [hmembers, List.perm_middle.mem_iff]
  simp only [Declares, hmiddle, List.mem_cons, exists_eq_or_imp]

theorem declares_replace {before after : List EnumMember} {m m' : EnumMember}
    (hmembers : type.members = before ++ m :: after)
    (hcongr : m'.value.toInt ≡ m.value.toInt [ZMOD 2 ^ type.scalarWidth]) (x : Int) :
    Declares { type with members := before ++ m' :: after } x ↔ type.Declares x := by
  rw [declares_split hmembers, declares_split rfl]
  exact or_congr_left ⟨hcongr.symm.trans, hcongr.trans⟩

/-- Matching is congruence to a declared value at the width of the type.  It depends neither on the
signedness of the scalar nor on how often and in which order the values are declared, and a
declared value may be replaced by one that is congruent to it. -/
theorem matches_iff_congruent (type : EnumType) (s : Scalar) :
    let w := min (8 * type.length.toNat % 2 ^ 32) 64
    (type.Matches s ↔
        s.width = w ∧ ∃ m ∈ type.members, m.value.toInt ≡ s.bits.toNat [ZMOD 2 ^ w]) ∧
      (∀ signed, type.Matches { s with signed := signed } ↔ type.Matches s) ∧
      (∀ other : EnumType, other.length = type.length →
        (∀ v, v ∈ other.values ↔ v ∈ type.values) → (other.Matches s ↔ type.Matches s)) ∧
      ∀ before m after v, type.members = before ++ m :: after →
        v.toInt ≡ m.value.toInt [ZMOD 2 ^ w] →
        (Matches { type with members := before ++ { m with value := v } :: after } s ↔
          type.Matches s) := by
  intro w
  have hw : w = type.scalarWidth := by rw [scalarWidth, bitWidth_eq]
  rw [hw]
  refine ⟨?_, fun signed => ?_, fun other hlength hvalues => ?_, ?_⟩
  · exact matches_iff
  · rw [matches_iff, matches_iff]
  · exact matches_congr hlength (declares_congr_of_values hlength hvalues)
  · intro before m after v hmembers hcongr
    exact matches_congr rfl (declares_replace hmembers hcongr)

/-- The length goes once round the count of the bits, which leaves a byte. -/
def overlong : EnumType := ⟨81, "Overlong", 0x20000001, [⟨"LOW", 1⟩, ⟨"NONE", -1⟩]⟩

theorem matches_iff_congruent_overlong :
    let s : Scalar := .truncate 8 255 false
    let other : EnumType := ⟨7, "Other", 0x20000001, [⟨"NONE", -1⟩, ⟨"LOW", 1⟩, ⟨"ANY", -1⟩]⟩
    overlong.Matches s ∧ overlong.Matches { s with signed := true } ∧
      (other.length = overlong.length ∧ (∀ v, v ∈ other.values ↔ v ∈ overlong.values) ∧
        other.Matches s) ∧
      overlong.members = [⟨"LOW", 1⟩] ++ ⟨"NONE", -1⟩ :: [] ∧
      (511 : Int64).toInt ≡ (-1 : Int64).toInt [ZMOD 2 ^ 8] ∧
      Matches { overlong with members := [⟨"LOW", 1⟩, ⟨"NONE", 511⟩] } s := by
  intro s other
  obtain ⟨hiff, hsigned, hvalues, hreplaced⟩ := matches_iff_congruent overlong s
  have hmatches : overlong.Matches s :=
    hiff.mpr ⟨by decide, ⟨"NONE", -1⟩, by decide, by decide⟩
  have hlength : other.length = overlong.length := rfl
  have hsame : ∀ v, v ∈ other.values ↔ v ∈ overlong.values := by
    have hsub : other.values ⊆ overlong.values := by decide
    have hsup : overlong.values ⊆ other.values := by decide
    exact fun v => ⟨@hsub v, @hsup v⟩
  have hmembers : overlong.members = [⟨"LOW", 1⟩] ++ ⟨"NONE", -1⟩ :: [] := rfl
  have hcongr : (511 : Int64).toInt ≡ (-1 : Int64).toInt [ZMOD 2 ^ 8] := by decide
  exact ⟨hmatches, (hsigned true).mpr hmatches,
    ⟨hlength, hsame, (hvalues other hlength hsame).mpr hmatches⟩, hmembers, hcongr,
    (hreplaced _ _ _ 511 hmembers hcongr).mpr hmatches⟩

end Equates.EnumType

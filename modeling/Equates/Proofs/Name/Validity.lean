/-
Which names are refused.

A name is blank if each of its bytes is one of the six ASCII blanks (`Name.blank_iff_bytes`): a
character outside ASCII has a first byte that is not, so that the test may go by characters.
Derived names are never blank, since they start with their tag (`DerivedName.validate_text`).
-/
import Equates.Name.Derived
import Equates.Name.Validity
import Mathlib.Algebra.Order.Ring.Nat
import Mathlib.Tactic.Common

namespace Equates

namespace Name

/-- The bytes of the name. -/
def bytes (name : String) : List UInt8 :=
  name.toUTF8.data.toList

/-- Space, tab, line feed, vertical tab, form feed and carriage return. -/
def isBlankByte (b : UInt8) : Bool :=
  b = 0x20 || (0x09 ≤ b && b ≤ 0x0d)

theorem bytes_eq (name : String) : bytes name = name.toList.flatMap String.utf8EncodeChar := by
  rw [bytes, String.toUTF8, ← String.utf8Encode_toList, List.utf8Encode]
  simp

theorem bytes_eq_nil_iff {name : String} : bytes name = [] ↔ name = "" := by
  have hbyte : ∀ c : Char, String.utf8EncodeChar c ≠ [] := fun c h => by
    have hlen := String.length_utf8EncodeChar c
    rw [h] at hlen
    exact absurd hlen.symm (Nat.ne_of_gt c.utf8Size_pos)
  rw [bytes_eq, List.flatMap_eq_nil_iff, ← String.toList_eq_nil_iff, List.eq_nil_iff_forall_not_mem]
  simp only [hbyte, imp_false]

theorem isBlankByte_iff {b : UInt8} :
    isBlankByte b ↔ b.toNat = 32 ∨ 9 ≤ b.toNat ∧ b.toNat ≤ 13 := by
  simp [isBlankByte, UInt8.le_iff_toNat_le, ← UInt8.toNat_inj]

theorem isBlankChar_iff {c : Char} :
    isBlankChar c ↔ c.toNat = 32 ∨ 9 ≤ c.toNat ∧ c.toNat ≤ 13 := by
  simp [isBlankChar, Char.le_def, UInt32.le_iff_toNat_le, Char.ext_iff, ← UInt32.toNat_inj]

/-- A character is blank if all its bytes are. -/
theorem isBlankChar_iff_bytes (c : Char) :
    isBlankChar c ↔ ∀ b ∈ String.utf8EncodeChar c, isBlankByte b := by
  rw [isBlankChar_iff]
  by_cases h : c.toNat ≤ 127
  · rw [show String.utf8EncodeChar c = [.ofNat c.toNat] from if_pos h]
    rw [List.forall_mem_singleton, isBlankByte_iff, UInt8.toNat_ofNat']
    omega
  · -- The first of several bytes is at least 192.
    have hfirst : ∃ b ∈ String.utf8EncodeChar c, ¬ isBlankByte b := by
      have hval : ¬ c.val.toNat ≤ 127 := h
      rw [String.utf8EncodeChar, if_neg hval]
      split
      · refine ⟨_, List.mem_cons_self, ?_⟩
        rw [isBlankByte_iff, UInt8.toNat_ofNat']
        omega
      · split
        · refine ⟨_, List.mem_cons_self, ?_⟩
          rw [isBlankByte_iff, UInt8.toNat_ofNat']
          omega
        · refine ⟨_, List.mem_cons_self, ?_⟩
          rw [isBlankByte_iff, UInt8.toNat_ofNat']
          omega
    refine iff_of_false ?_ fun hall => ?_
    · omega
    · obtain ⟨b, hb, hnot⟩ := hfirst
      exact hnot (hall b hb)

/-- A name is blank if it has no byte that is not. -/
theorem blank_iff_bytes (name : String) : Blank name ↔ ∀ b ∈ bytes name, isBlankByte b := by
  simp only [Blank, bytes_eq, List.mem_flatMap, isBlankChar_iff_bytes]
  constructor
  · rintro h b ⟨c, hc, hb⟩
    exact h c hc b hb
  · exact fun h c hc b hb => h b ⟨c, hc, hb⟩

theorem validate_eq_ok_iff {name : String} : validate name = .ok () ↔ ¬ Blank name := by
  rw [validate]
  split
  · next h =>
    subst h
    simp [Blank]
  · split
    · next h => simp [h]
    · next h => simp [h]

end Name

/-- A derived name is accepted. -/
theorem DerivedName.validate_text (d : DerivedName) : Name.validate d.text = .ok () := by
  rw [Name.validate_eq_ok_iff]
  intro h
  have hfirst : 'd' ∈ d.text.toList := by simp [text, tag]
  exact absurd (h 'd' hfirst) (by decide)

end Equates

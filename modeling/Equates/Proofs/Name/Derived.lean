/-
A derived name tells what it is derived from.

The decimal digits of a number denote it (`Numeral.ofDigits?_toDigits`), and a colon is no digit;
so the fields of a derived name are read back as they were written
(`DerivedName.ofText?_text`), and no two types or values share a name
(`DerivedName.text_injective`).

The type or the value alone is read where both can be (`DerivedName.typeId?_eq`,
`DerivedName.value?_eq`).  `DerivedName.text_roundTrip` puts together what holds of every derived
name.
-/
import Equates.Proofs.Name.Validity
import Mathlib.Data.List.TakeDrop
import Mathlib.Tactic.Common

namespace Equates

namespace Numeral

theorem extend?_eq_some {n : Nat} {cs : List Char} (hcs : ∀ c ∈ cs, c.isDigit = true) :
    extend? n cs = some (Nat.ofDigitChars 10 cs n) := by
  induction cs generalizing n with
  | nil => rfl
  | cons c cs ih =>
    obtain ⟨hc, hcs⟩ := List.forall_mem_cons.mp hcs
    rw [extend?, digit?, if_pos hc, Nat.ofDigitChars_cons]
    exact ih hcs

/-- A character that is no digit stops the reading. -/
theorem extend?_eq_none {n : Nat} {c : Char} {cs : List Char} (hmem : c ∈ cs)
    (hc : c.isDigit = false) : extend? n cs = none := by
  induction cs generalizing n with
  | nil => cases hmem
  | cons c' cs ih =>
    rw [extend?]
    obtain rfl | hmem := List.mem_cons.mp hmem
    · rw [digit?, hc]
      rfl
    · cases digit? c' with
      | none => rfl
      | some d => exact ih hmem

theorem ofDigits?_eq_none {c : Char} {cs : List Char} (hmem : c ∈ cs) (hc : c.isDigit = false) :
    ofDigits? cs = none := by
  cases cs with
  | nil => rfl
  | cons c' cs => exact extend?_eq_none hmem hc

theorem isDigit_of_mem {n : Nat} {c : Char} (hc : c ∈ Nat.toDigits 10 n) : c.isDigit = true :=
  Nat.isDigit_of_mem_toDigits (by decide) (by decide) hc

/-- A number is what its decimal digits denote. -/
theorem ofDigits?_toDigits (n : Nat) : ofDigits? (Nat.toDigits 10 n) = some n := by
  have hdigits : ofDigits? (Nat.toDigits 10 n) = extend? 0 (Nat.toDigits 10 n) := by
    cases h : Nat.toDigits 10 n with
    | nil => exact absurd h Nat.toDigits_ne_nil
    | cons c cs => rfl
  rw [hdigits, extend?_eq_some fun _ => isDigit_of_mem, Nat.ofDigitChars_ten_toDigits]

end Numeral

namespace DerivedName

/-! ### Reading the fields -/

theorem readUnsigned?_toDigits (n : UInt64) :
    readUnsigned? (Nat.toDigits 10 n.toNat) = some n := by
  rw [readUnsigned?, Numeral.ofDigits?_toDigits, Option.bind_eq_bind, Option.bind_some,
    if_pos n.toNat_lt, UInt64.ofNat_toNat]

theorem readSigned?_minus (cs : List Char) : readSigned? ('-' :: cs) = (do
    let n ← Numeral.ofDigits? cs
    if n ≤ signedLimit then some (.ofInt (-n)) else none) := rfl

/-- Digits without a sign in front. -/
theorem readSigned?_digits {cs : List Char} (hcs : ∀ c ∈ cs, c.isDigit = true) :
    readSigned? cs = (do
      let n ← Numeral.ofDigits? cs
      if n < signedLimit then some (.ofInt n) else none) := by
  rw [readSigned?]
  rintro cs rfl
  exact absurd (hcs '-' List.mem_cons_self) (by decide)

theorem readSigned?_toString (v : Int64) : readSigned? (toString v).toList = some v := by
  have hrepr : toString v = v.toInt.repr := rfl
  have hle := v.le_toInt
  have hlt := v.toInt_lt
  rw [hrepr, Int.repr_eq_if]
  by_cases h : 0 ≤ v.toInt
  · have hnat : ((v.toInt.toNat : Nat) : Int) = v.toInt := Int.toNat_of_nonneg h
    have hlimit : v.toInt.toNat < signedLimit := by
      rw [signedLimit]
      omega
    rw [if_pos h, Nat.toList_repr, readSigned?_digits fun _ => Numeral.isDigit_of_mem,
      Numeral.ofDigits?_toDigits, Option.bind_eq_bind, Option.bind_some, if_pos hlimit, hnat,
      Int64.ofInt_toInt]
  · have hnat : (((-v.toInt).toNat : Nat) : Int) = -v.toInt := Int.toNat_of_nonneg (by omega)
    have hlimit : (-v.toInt).toNat ≤ signedLimit := by
      rw [signedLimit]
      omega
    have hlist : ("-" ++ (-v.toInt).toNat.repr).toList =
        '-' :: Nat.toDigits 10 (-v.toInt).toNat := by
      rw [String.toList_append, Nat.toList_repr]
      rfl
    rw [if_neg h, hlist, readSigned?_minus, Numeral.ofDigits?_toDigits, Option.bind_eq_bind,
      Option.bind_some, if_pos hlimit, hnat, Int.neg_neg, Int64.ofInt_toInt]

theorem span_colon {type : List Char} (htype : ':' ∉ type) (value : List Char) :
    (type ++ ':' :: value).span (· ≠ ':') = (type, ':' :: value) := by
  have hcolon : ∀ c ∈ type, decide (c ≠ ':') = true := by
    intro c hc
    exact decide_eq_true fun heq => htype (heq ▸ hc)
  rw [List.span_eq_takeWhile_dropWhile, List.takeWhile_append_of_pos hcolon,
    List.dropWhile_append_of_pos hcolon]
  simp

/-- The first colon parts the fields. -/
theorem readFields?_digits {cs value : List Char} (hcs : ∀ c ∈ cs, c.isDigit = true) :
    readFields? (cs ++ ':' :: value) = (do some ⟨← readUnsigned? cs, ← readSigned? value⟩) := by
  have hcolon : ':' ∉ cs := fun hmem => absurd (hcs ':' hmem) (by decide)
  rw [readFields?, span_colon hcolon]

/-- No value is written with a colon. -/
theorem readSigned?_of_colon {cs : List Char} (hmem : ':' ∈ cs) : readSigned? cs = none := by
  have hnone : ∀ cs : List Char, ':' ∈ cs → Numeral.ofDigits? cs = none :=
    fun _ hmem => Numeral.ofDigits?_eq_none hmem rfl
  rw [readSigned?.eq_def]
  split
  · next cs =>
    rw [hnone cs (List.mem_of_ne_of_mem (by decide) hmem)]
    rfl
  · rw [hnone _ hmem]
    rfl

/-! ### Reading a name -/

/-- A name is read if both of its fields are. -/
theorem ofText?_eq (name : String) : ofText? name = (fields? name).bind fun f =>
    (readUnsigned? f.1).bind fun t => (readSigned? f.2).map fun v => ⟨t, v⟩ := by
  rw [ofText?, fields?]
  split
  · rw [readFields?]
    split
    · next type _ value _ =>
      split
      · next hcolon =>
        rw [readSigned?_of_colon hcolon]
        cases readUnsigned? type <;> rfl
      · cases ht : readUnsigned? type <;> cases hv : readSigned? value <;> simp [ht, hv]
    · rfl
  · rfl

theorem typeId?_eq (name : String) : typeId? name = (ofText? name).map typeId := by
  rw [ofText?_eq, typeId?]
  cases fields? name with
  | none => rfl
  | some f => cases hv : readSigned? f.2 <;> cases ht : readUnsigned? f.1 <;> simp [hv, ht]

theorem value?_eq (name : String) : value? name = (ofText? name).map value := by
  rw [ofText?_eq, value?]
  cases fields? name with
  | none => rfl
  | some f => cases ht : readUnsigned? f.1 <;> cases hv : readSigned? f.2 <;> simp [hv, ht]

theorem toList_text (d : DerivedName) :
    d.text.toList = tag ++ (Nat.toDigits 10 d.typeId.toNat ++ ':' :: (toString d.value).toList) := by
  have hid : (toString d.typeId).toList = Nat.toDigits 10 d.typeId.toNat := Nat.toList_repr
  simp [text, hid]

@[simp] theorem hasTag_text (d : DerivedName) : hasTag d.text = true := by
  rw [hasTag, toList_text, List.isPrefixOf_iff_prefix]
  exact List.prefix_append _ _

/-- A derived name is read back. -/
@[simp] theorem ofText?_text (d : DerivedName) : ofText? d.text = some d := by
  rw [ofText?, if_pos (hasTag_text d), toList_text, List.drop_left,
    readFields?_digits fun _ => Numeral.isDigit_of_mem, readUnsigned?_toDigits,
    readSigned?_toString]
  rfl

/-- Derived names tell types and values apart. -/
theorem text_injective : Function.Injective text := fun d d' h => by
  rw [← Option.some.injEq, ← ofText?_text d, h, ofText?_text]

/-- A derived name stands for what it is derived from, so that different types or values have
different names; and a derived name is a name that an equate may have. -/
theorem text_roundTrip :
    (∀ (t : UInt64) (v : Int64), hasTag (text ⟨t, v⟩) = true ∧
        typeId? (text ⟨t, v⟩) = some t ∧ value? (text ⟨t, v⟩) = some v ∧
        ¬ Name.Blank (text ⟨t, v⟩) ∧ Name.validate (text ⟨t, v⟩) = .ok ()) ∧
      Function.Injective text := by
  refine ⟨fun t v => ⟨hasTag_text _, ?_, ?_, ?_, validate_text _⟩, text_injective⟩
  · rw [typeId?_eq, ofText?_text]
    rfl
  · rw [value?_eq, ofText?_text]
    rfl
  · exact Name.validate_eq_ok_iff.mp (validate_text _)

/-- The least value of all is written without its positive counterpart, which does not fit. -/
example : text ⟨0xFFFFFFFFFFFFFFFF, -0x8000000000000000⟩ =
    "dtID:18446744073709551615:-9223372036854775808" := by
  decide

end DerivedName

end Equates

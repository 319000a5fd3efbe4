/-
Which names are written derived names.

A name can be read as a derived name if its bytes are the tag, ASCII digits, a colon, perhaps a
minus sign, and ASCII digits again, where the first digits denote an unsigned 64-bit number and
the others, with their sign, a signed one (`DerivedName.Spelling`).  Leading zeros do no harm,
and zero may have a sign.

* `Numeral.ofDigits?_eq_some_iff` — which characters are read as a number;
* `DerivedName.ofText?_eq_some_iff` — which names are read as a derived name;
* `DerivedName.readable_iff_spelled` — the type and the value of a name can be read together or
  not at all, and just where the name is spelled so.

A name need not be text.  Any bytes make a name, each of them read as the character with its
number (`Name.ofBytes`); the bytes of a text are read as the text is, since nothing outside ASCII
stands in a derived name (`Name.bytes_eq_iff`).
-/
import Equates.Proofs.Name.Derived

namespace Equates

namespace Name

/-- The name whose characters are the bytes. -/
def ofBytes (bs : List UInt8) : String :=
  String.ofList (bs.map Char.ofUInt8)

theorem toNat_ofUInt8 (b : UInt8) : (Char.ofUInt8 b).toNat = b.toNat := rfl

theorem ofUInt8_injective : Function.Injective Char.ofUInt8 := fun b b' h => by
  rw [← UInt8.toNat_inj, ← toNat_ofUInt8, h, toNat_ofUInt8]

theorem toList_ofBytes (bs : List UInt8) : (ofBytes bs).toList = bs.map Char.ofUInt8 :=
  String.toList_ofList

theorem bytes_injective : Function.Injective bytes := fun name name' h => by
  have hdata : name.toUTF8.data = name'.toUTF8.data := Array.toList_inj.mp h
  exact String.toByteArray_inj.mp (ByteArray.ext hdata)

theorem utf8EncodeChar_ofUInt8 {b : UInt8} (h : b.toNat < 128) :
    String.utf8EncodeChar (Char.ofUInt8 b) = [b] := by
  have hle : (Char.ofUInt8 b).val.toNat ≤ 127 := Nat.le_of_lt_succ h
  rw [String.utf8EncodeChar, if_pos hle]
  refine congrArg (fun b => [b]) ?_
  rw [← UInt8.toNat_inj, UInt8.toNat_ofNat']
  exact Nat.mod_eq_of_lt b.toNat_lt

/-- The bytes of an ASCII text are the numbers of its characters. -/
theorem bytes_ofBytes {bs : List UInt8} (h : ∀ b ∈ bs, b.toNat < 128) :
    bytes (ofBytes bs) = bs := by
  rw [bytes_eq, toList_ofBytes, List.flatMap_map]
  induction bs with
  | nil => rfl
  | cons b bs ih =>
    obtain ⟨hb, hbs⟩ := List.forall_mem_cons.mp h
    rw [List.flatMap_cons, utf8EncodeChar_ofUInt8 hb, ih hbs]
    rfl

/-- No text but the ASCII one has these bytes. -/
theorem bytes_eq_iff {name : String} {bs : List UInt8} (h : ∀ b ∈ bs, b.toNat < 128) :
    bytes name = bs ↔ name.toList = bs.map Char.ofUInt8 := by
  rw [← toList_ofBytes, String.toList_inj]
  constructor
  · intro hname
    exact bytes_injective (hname.trans (bytes_ofBytes h).symm)
  · rintro rfl
    exact bytes_ofBytes h

end Name

namespace Numeral

/-! ### Digits as bytes -/

/-- The digits from 0 to 9. -/
def isDigitByte (b : UInt8) : Bool :=
  0x30 ≤ b && b ≤ 0x39

/-- At least one digit, and nothing else. -/
def Digits (ds : List UInt8) : Prop :=
  ds ≠ [] ∧ ∀ b ∈ ds, isDigitByte b = true

instance (ds : List UInt8) : Decidable (Digits ds) :=
  inferInstanceAs (Decidable (_ ∧ _))

/-- The number that the digits denote. -/
def denoted (ds : List UInt8) : Nat :=
  ds.foldl (fun n b => 10 * n + (b.toNat - 0x30)) 0

theorem isDigitByte_iff {b : UInt8} : isDigitByte b = true ↔ 48 ≤ b.toNat ∧ b.toNat ≤ 57 := by
  simp [isDigitByte, UInt8.le_iff_toNat_le]

theorem isDigit_iff {c : Char} : c.isDigit = true ↔ 48 ≤ c.toNat ∧ c.toNat ≤ 57 := by
  simp [Char.isDigit, UInt32.le_iff_toNat_le]

theorem isDigit_ofUInt8 (b : UInt8) : (Char.ofUInt8 b).isDigit = isDigitByte b := by
  rw [Bool.eq_iff_iff, isDigit_iff, isDigitByte_iff, Name.toNat_ofUInt8]

/-- A digit comes from a byte. -/
theorem ofUInt8_toUInt8 {c : Char} (hc : c.isDigit = true) : Char.ofUInt8 c.toUInt8 = c := by
  have hlt : c.toNat < 256 := by
    have := isDigit_iff.mp hc
    omega
  rw [← Char.toNat_inj]
  exact Nat.mod_eq_of_lt hlt

theorem denoted_eq (ds : List UInt8) :
    denoted ds = Nat.ofDigitChars 10 (ds.map Char.ofUInt8) 0 := by
  rw [Nat.ofDigitChars, List.foldl_map]
  rfl

theorem Digits.ascii {ds : List UInt8} (h : Digits ds) : ∀ b ∈ ds, b.toNat < 128 := by
  intro b hb
  have := isDigitByte_iff.mp (h.2 b hb)
  omega

theorem isDigit_of_ofDigits? {cs : List Char} {n : Nat} (h : ofDigits? cs = some n) :
    ∀ c ∈ cs, c.isDigit = true := by
  intro c hc
  by_contra hnot
  rw [ofDigits?_eq_none hc (by simpa using hnot)] at h
  cases h

/-- Digits are read as the number that they denote, and nothing else is read. -/
theorem ofDigits?_eq_some_iff {cs : List Char} {n : Nat} : ofDigits? cs = some n ↔
    ∃ ds, Digits ds ∧ cs = ds.map Char.ofUInt8 ∧ denoted ds = n := by
  constructor
  · intro h
    have hcs := isDigit_of_ofDigits? h
    have hback : (cs.map Char.toUInt8).map Char.ofUInt8 = cs := by
      rw [List.map_map]
      exact (List.map_congr_left fun c hc => ofUInt8_toUInt8 (hcs c hc)).trans (List.map_id cs)
    refine ⟨cs.map Char.toUInt8, ⟨?_, ?_⟩, hback.symm, ?_⟩
    · rintro hnil
      rw [List.map_eq_nil_iff.mp hnil] at h
      cases h
    · intro b hb
      obtain ⟨c, hc, rfl⟩ := List.mem_map.mp hb
      rw [← isDigit_ofUInt8, ofUInt8_toUInt8 (hcs c hc)]
      exact hcs c hc
    · rw [denoted_eq, hback, ← Option.some_inj, ← extend?_eq_some hcs, ← h]
      cases cs with
      | nil => cases h
      | cons c cs => rfl
  · rintro ⟨ds, ⟨hne, hds⟩, rfl, rfl⟩
    have hdigits : ∀ c ∈ ds.map Char.ofUInt8, c.isDigit = true := by
      intro c hc
      obtain ⟨b, hb, rfl⟩ := List.mem_map.mp hc
      rw [isDigit_ofUInt8]
      exact hds b hb
    rw [denoted_eq, ← extend?_eq_some hdigits]
    cases ds with
    | nil => exact absurd rfl hne
    | cons b ds => rfl

end Numeral

namespace DerivedName

/-- The bytes of the tag. -/
def tagBytes : List UInt8 :=
  [0x64, 0x74, 0x49, 0x44, 0x3a]

theorem map_tagBytes : tagBytes.map Char.ofUInt8 = tag := by decide

/-- What stands behind the tag: the digits of the type, and the digits of the value behind a
minus sign or without one. -/
structure Spelling where
  type : List UInt8
  minus : Bool
  magnitude : List UInt8
deriving DecidableEq, Repr

namespace Spelling

/-- The sign, if there is one, and the digits. -/
def value (s : Spelling) : List UInt8 :=
  if s.minus then 0x2d :: s.magnitude else s.magnitude

def bytes (s : Spelling) : List UInt8 :=
  tagBytes ++ (s.type ++ 0x3a :: s.value)

def typeNumber (s : Spelling) : Nat :=
  Numeral.denoted s.type

def valueNumber (s : Spelling) : Int :=
  if s.minus then -Numeral.denoted s.magnitude else Numeral.denoted s.magnitude

/-- Both fields have digits, and denote numbers of 64 bits. -/
structure Proper (s : Spelling) : Prop where
  type : Numeral.Digits s.type
  magnitude : Numeral.Digits s.magnitude
  type_lt : s.typeNumber < 2 ^ 64
  le_value : -2 ^ 63 ≤ s.valueNumber
  value_lt : s.valueNumber < 2 ^ 63

/-- A derived name is written in ASCII. -/
theorem Proper.ascii {s : Spelling} (h : s.Proper) : ∀ b ∈ s.bytes, b.toNat < 128 := by
  have hvalue : ∀ b ∈ s.value, b.toNat < 128 := by
    rw [value]
    split
    · exact List.forall_mem_cons.mpr ⟨by decide, h.magnitude.ascii⟩
    · exact h.magnitude.ascii
  have htag : ∀ b ∈ tagBytes, b.toNat < 128 := by decide +kernel
  refine List.forall_mem_append.mpr ⟨htag, List.forall_mem_append.mpr ⟨h.type.ascii, ?_⟩⟩
  exact List.forall_mem_cons.mpr ⟨by decide, hvalue⟩

theorem map_value (s : Spelling) : s.value.map Char.ofUInt8 =
    if s.minus then '-' :: s.magnitude.map Char.ofUInt8 else s.magnitude.map Char.ofUInt8 := by
  rw [value]
  split <;> rfl

theorem map_bytes (s : Spelling) : s.bytes.map Char.ofUInt8 =
    tag ++ (s.type.map Char.ofUInt8 ++ ':' ::
      if s.minus then '-' :: s.magnitude.map Char.ofUInt8 else s.magnitude.map Char.ofUInt8) := by
  rw [bytes, List.map_append, List.map_append, map_tagBytes, List.map_cons, map_value]
  rfl

end Spelling

/-! ### The fields -/

theorem readUnsigned?_eq_some_iff {cs : List Char} {t : UInt64} : readUnsigned? cs = some t ↔
    Numeral.ofDigits? cs = some t.toNat := by
  rw [readUnsigned?, Option.bind_eq_bind, Option.bind_eq_some_iff]
  constructor
  · rintro ⟨n, hn, ht⟩
    split at ht
    · next hlt =>
      cases ht
      rw [hn, UInt64.toNat_ofNat_of_lt' hlt]
    · cases ht
  · intro h
    exact ⟨t.toNat, h, by rw [if_pos t.toNat_lt, UInt64.ofNat_toNat]⟩

/-- The value is read with its sign. -/
theorem readSigned?_eq_some_iff {cs : List Char} {v : Int64} : readSigned? cs = some v ↔
    ∃ (minus : Bool) (ds : List Char) (n : Nat), cs = (if minus then '-' :: ds else ds) ∧
      Numeral.ofDigits? ds = some n ∧ v.toInt = if minus then -(n : Int) else n := by
  have hle := v.le_toInt
  have hlt := v.toInt_lt
  have hlimit : signedLimit = 2 ^ 63 := rfl
  constructor
  · intro h
    rw [readSigned?.eq_def] at h
    split at h
    · next ds =>
      obtain ⟨n, hn, hv⟩ := Option.bind_eq_some_iff.mp h
      split at hv
      · next hfits =>
        cases hv
        refine ⟨true, ds, n, rfl, hn, Int64.toInt_ofInt_of_le ?_ ?_⟩ <;> omega
      · cases hv
    · obtain ⟨n, hn, hv⟩ := Option.bind_eq_some_iff.mp h
      split at hv
      · next hfits =>
        cases hv
        refine ⟨false, cs, n, rfl, hn, Int64.toInt_ofInt_of_le ?_ ?_⟩ <;> omega
      · cases hv
  · rintro ⟨minus, ds, n, rfl, hn, hv⟩
    cases minus with
    | true =>
      have hv : v.toInt = -n := hv
      have hfits : n ≤ signedLimit := by omega
      rw [if_pos rfl, readSigned?_minus, hn, Option.bind_eq_bind, Option.bind_some, if_pos hfits,
        ← hv, Int64.ofInt_toInt]
    | false =>
      have hv : v.toInt = n := hv
      have hfits : n < signedLimit := by omega
      have hdigits : ∀ c ∈ ds, c.isDigit = true := Numeral.isDigit_of_ofDigits? hn
      rw [if_neg Bool.false_ne_true, readSigned?_digits hdigits, hn, Option.bind_eq_bind,
        Option.bind_some, if_pos hfits, ← hv, Int64.ofInt_toInt]

/-- A list is parted in front of its first colon. -/
theorem of_span_colon {cs type value : List Char} {c : Char}
    (h : cs.span (· ≠ ':') = (type, c :: value)) : cs = type ++ ':' :: value ∧ ':' ∉ type := by
  rw [List.span_eq_takeWhile_dropWhile] at h
  obtain ⟨rfl, hdrop⟩ := Prod.mk.inj h
  have hc : c = ':' := by
    have hhead := List.head?_dropWhile_not (fun c => decide (c ≠ ':')) cs
    rw [hdrop] at hhead
    simpa using hhead
  refine ⟨?_, fun hmem => ?_⟩
  · rw [hc] at hdrop
    rw [← hdrop, List.takeWhile_append_dropWhile]
  · simpa using List.all_eq_true.mp List.all_takeWhile ':' hmem

/-- A name with the tag and one more colon has two fields. -/
theorem fields?_eq_some_iff {name : String} {type value : List Char} :
    fields? name = some (type, value) ↔
      name.toList = tag ++ (type ++ ':' :: value) ∧ ':' ∉ type ∧ ':' ∉ value := by
  constructor
  · intro h
    rw [fields?] at h
    split at h
    · next htag =>
      obtain ⟨rest, hrest⟩ := List.isPrefixOf_iff_prefix.mp htag
      rw [← hrest, List.drop_left] at h
      split at h
      · next hspan =>
        split at h
        · cases h
        · next hvalue =>
          obtain ⟨rfl, rfl⟩ := Prod.mk.inj (Option.some.inj h)
          obtain ⟨hsplit, htype⟩ := of_span_colon hspan
          exact ⟨by rw [← hrest, hsplit], htype, hvalue⟩
      · cases h
    · cases h
  · rintro ⟨hname, htype, hvalue⟩
    have htag : hasTag name = true := by
      rw [hasTag, hname, List.isPrefixOf_iff_prefix]
      exact List.prefix_append _ _
    rw [fields?, if_pos htag, hname, List.drop_left, span_colon htype]
    exact if_neg hvalue

/-! ### The whole name -/

/-- A name is read if its fields are. -/
theorem ofText?_eq_some_iff_fields {name : String} {d : DerivedName} : ofText? name = some d ↔
    ∃ type value, name.toList = tag ++ (type ++ ':' :: value) ∧
      readUnsigned? type = some d.typeId ∧ readSigned? value = some d.value := by
  rw [ofText?_eq, Option.bind_eq_some_iff]
  constructor
  · rintro ⟨⟨type, value⟩, hfields, hread⟩
    obtain ⟨t, ht, hread⟩ := Option.bind_eq_some_iff.mp hread
    obtain ⟨v, hv, rfl⟩ := Option.map_eq_some_iff.mp hread
    exact ⟨type, value, (fields?_eq_some_iff.mp hfields).1, ht, hv⟩
  · rintro ⟨type, value, hname, ht, hv⟩
    -- No number is written with a colon.
    have htype : ':' ∉ type := by
      intro hmem
      rw [readUnsigned?_eq_some_iff, Numeral.ofDigits?_eq_none hmem rfl] at ht
      cases ht
    have hvalue : ':' ∉ value := by
      intro hmem
      rw [readSigned?_of_colon hmem] at hv
      cases hv
    exact ⟨(type, value), fields?_eq_some_iff.mpr ⟨hname, htype, hvalue⟩, by simp [ht, hv]⟩

/-- What is spelled properly is read as the numbers that it denotes, and nothing else is read. -/
theorem ofText?_eq_some_iff {name : String} {d : DerivedName} : ofText? name = some d ↔
    ∃ s : Spelling, s.Proper ∧ name.toList = s.bytes.map Char.ofUInt8 ∧
      d.typeId.toNat = s.typeNumber ∧ d.value.toInt = s.valueNumber := by
  rw [ofText?_eq_some_iff_fields]
  simp only [readUnsigned?_eq_some_iff, readSigned?_eq_some_iff, Numeral.ofDigits?_eq_some_iff,
    Spelling.map_bytes]
  constructor
  · rintro ⟨_, _, hname, ⟨type, htype, rfl, ht⟩, minus, _, n, rfl, ⟨ds, hds, rfl, rfl⟩, hv⟩
    let s : Spelling := ⟨type, minus, ds⟩
    have ht : d.typeId.toNat = s.typeNumber := ht.symm
    have hv : d.value.toInt = s.valueNumber := hv
    exact ⟨s, ⟨htype, hds, ht ▸ d.typeId.toNat_lt, hv ▸ d.value.le_toInt, hv ▸ d.value.toInt_lt⟩,
      hname, ht, hv⟩
  · rintro ⟨s, hs, hname, ht, hv⟩
    exact ⟨_, _, hname, ⟨s.type, hs.type, rfl, ht.symm⟩, s.minus, _, _, rfl,
      ⟨s.magnitude, hs.magnitude, rfl, rfl⟩, hv⟩

/-- Bytes are read where they spell a derived name. -/
theorem ofText?_ofBytes_eq_some_iff {bs : List UInt8} {d : DerivedName} :
    ofText? (Name.ofBytes bs) = some d ↔ ∃ s : Spelling, s.Proper ∧ bs = s.bytes ∧
      d.typeId.toNat = s.typeNumber ∧ d.value.toInt = s.valueNumber := by
  simp only [ofText?_eq_some_iff, Name.toList_ofBytes, List.map_inj_right Name.ofUInt8_injective]

/-- A text is read as its bytes are. -/
theorem ofText?_ofBytes_bytes (name : String) :
    ofText? (Name.ofBytes (Name.bytes name)) = ofText? name := by
  refine Option.ext fun d => ?_
  rw [ofText?_ofBytes_eq_some_iff, ofText?_eq_some_iff]
  constructor
  · rintro ⟨s, hs, hbytes, hd⟩
    exact ⟨s, hs, (Name.bytes_eq_iff hs.ascii).mp hbytes, hd⟩
  · rintro ⟨s, hs, hname, hd⟩
    exact ⟨s, hs, (Name.bytes_eq_iff hs.ascii).mpr hname, hd⟩

theorem Spelling.Proper.ofText?_bytes {s : Spelling} (hs : s.Proper) :
    ∃ d, ofText? (Name.ofBytes s.bytes) = some d ∧ d.typeId.toNat = s.typeNumber ∧
      d.value.toInt = s.valueNumber := by
  have ht : (UInt64.ofNat s.typeNumber).toNat = s.typeNumber := UInt64.toNat_ofNat_of_lt' hs.type_lt
  have hv : (Int64.ofInt s.valueNumber).toInt = s.valueNumber :=
    Int64.toInt_ofInt_of_le hs.le_value hs.value_lt
  exact ⟨⟨.ofNat s.typeNumber, .ofInt s.valueNumber⟩,
    ofText?_ofBytes_eq_some_iff.mpr ⟨s, hs, rfl, ht, hv⟩, ht, hv⟩

/-- Whatever its bytes, a name gives away both its type and its value or neither.  It does so if
it is spelled properly, as the tag, digits, a colon, perhaps a minus sign, and digits; and then
these digits denote the type and the value.  The bytes of a text are those of its UTF-8 form. -/
theorem readable_iff_spelled :
    (∀ bs : List UInt8,
      ((typeId? (Name.ofBytes bs)).isSome ↔ (value? (Name.ofBytes bs)).isSome) ∧
      ((typeId? (Name.ofBytes bs)).isSome ↔ ∃ s : Spelling, s.Proper ∧ s.bytes = bs) ∧
      ∀ s : Spelling, s.Proper → s.bytes = bs →
        (∃ t, typeId? (Name.ofBytes bs) = some t ∧ t.toNat = s.typeNumber) ∧
          ∃ v, value? (Name.ofBytes bs) = some v ∧ v.toInt = s.valueNumber) ∧
    ∀ name : String, typeId? name = typeId? (Name.ofBytes (Name.bytes name)) ∧
      value? name = value? (Name.ofBytes (Name.bytes name)) := by
  simp only [typeId?_eq, value?_eq, Option.isSome_map, ofText?_ofBytes_bytes, true_and,
    implies_true, and_true]
  refine fun bs => ⟨?_, ?_⟩
  · rw [Option.isSome_iff_exists]
    constructor
    · rintro ⟨d, hd⟩
      obtain ⟨s, hs, hbytes, -⟩ := ofText?_ofBytes_eq_some_iff.mp hd
      exact ⟨s, hs, hbytes.symm⟩
    · rintro ⟨s, hs, rfl⟩
      obtain ⟨d, hd, -⟩ := hs.ofText?_bytes
      exact ⟨d, hd⟩
  · rintro s hs rfl
    obtain ⟨d, hd, ht, hv⟩ := hs.ofText?_bytes
    rw [hd]
    exact ⟨⟨d.typeId, rfl, ht⟩, d.value, rfl, hv⟩

/-- The greatest type and the least value, behind leading zeros. -/
def padded : Spelling :=
  ⟨"00018446744073709551615".toList.map Char.toUInt8, true,
    "09223372036854775808".toList.map Char.toUInt8⟩

theorem proper_padded : padded.Proper where
  type := by decide +kernel
  magnitude := by decide +kernel
  type_lt := by decide
  le_value := by decide
  value_lt := by decide

theorem readable_iff_spelled_padded : padded.Proper ∧
    typeId? (Name.ofBytes padded.bytes) = some 0xFFFFFFFFFFFFFFFF ∧
    value? (Name.ofBytes padded.bytes) = some (-0x8000000000000000) := by
  obtain ⟨-, -, hnumbers⟩ := readable_iff_spelled.1 padded.bytes
  obtain ⟨⟨t, ht, htype⟩, v, hv, hvalue⟩ := hnumbers padded proper_padded rfl
  have htype : t = 0xFFFFFFFFFFFFFFFF := UInt64.toNat_inj.mp (htype.trans (by decide))
  have hvalue : v = -0x8000000000000000 := Int64.toInt_inj.mp (hvalue.trans (by decide))
  exact ⟨proper_padded, htype ▸ ht, hvalue ▸ hv⟩

end DerivedName

end Equates

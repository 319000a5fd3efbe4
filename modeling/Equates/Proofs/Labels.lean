/-
Which names are shown for what a scan binds.

The derived name of a value leads back to its type, and what is shown is the name of the first
member with that value (`Step.answer_label_text`).  A scalar matches a type if it is a declared
value cut down to the width of the type, but the value it stands for depends on its signedness.
So a member is shown just where a declared value that the scalar matches is one that a scalar of
that signedness stands for, or the type is 64 bits wide; an unsigned scalar that matches a value
below zero has no name (`label_shows_member_iff_expressed`).
-/
import Equates.Proofs.Name.Derived
import Equates.Proofs.Scalar
import Equates.Proofs.Session

namespace Equates

namespace EnumType

variable {type : EnumType}

/-- Each declared value fits the width of the type, as a signed or as an unsigned number. -/
def FitsWidth (type : EnumType) : Prop :=
  ∀ v ∈ type.values, -2 ^ (type.bitWidth - 1) ≤ v.toInt ∧ v.toInt < 2 ^ type.bitWidth

/-- A scalar of this signedness and of the width of the type may stand for the value. -/
def Expresses (type : EnumType) (signed : Bool) (v : Int64) : Prop :=
  type.bitWidth = 64 ∨ if signed then v.toInt < 2 ^ (type.bitWidth - 1) else 0 ≤ v.toInt

theorem bitWidth_range (h : 1 ≤ type.length ∧ type.length ≤ 8) :
    1 ≤ type.bitWidth ∧ type.bitWidth ≤ 64 := by
  obtain ⟨hpos, hle⟩ := h
  rw [UInt32.le_iff_toNat_le] at hpos hle
  have hone : (1 : UInt32).toNat = 1 := rfl
  have height : (8 : UInt32).toNat = 8 := rfl
  rw [bitWidth, UInt32.toNat_mul, height]
  omega

/-- What is shown for a value is the name of a member that has it. -/
theorem exists_member_of_memberName? {v : Int64} {name : String}
    (h : type.memberName? v = some name) : ∃ m ∈ type.members, m.value = v ∧ m.name = name := by
  obtain ⟨m, hm, hname⟩ := Option.map_eq_some_iff.mp h
  exact ⟨m, List.mem_of_find?_eq_some hm, by simpa using List.find?_some hm, hname⟩

theorem memberName?_eq_none_iff {v : Int64} : type.memberName? v = none ↔ v ∉ type.values := by
  rw [memberName?, Option.map_eq_none_iff, List.find?_eq_none, values, List.mem_map]
  simp

instance (type : EnumType) : Decidable type.FitsWidth :=
  List.decidableBAll _ type.values

instance (type : EnumType) (signed : Bool) (v : Int64) : Decidable (type.Expresses signed v) :=
  inferInstanceAs (Decidable (_ ∨ _))

/-- The value that a matching scalar stands for is declared just where it matches a value that a
scalar of its signedness may stand for. -/
theorem value_mem_values_iff (hlength : 1 ≤ type.length ∧ type.length ≤ 8) (hfits : type.FitsWidth)
    {s : Scalar} (hs : type.Matches s) :
    s.value ∈ type.values ↔ ∃ v ∈ type.values,
      s = .truncate type.bitWidth v.toUInt64 s.signed ∧ type.Expresses s.signed v := by
  obtain ⟨hpos, hle⟩ := bitWidth_range hlength
  have hexpresses : ∀ v ∈ type.values,
      (Scalar.truncate type.bitWidth v.toUInt64 s.signed).value = v ↔
        type.Expresses s.signed v := fun v hv =>
    Scalar.value_truncate_eq_iff hpos hle s.signed (hfits v hv).1 (hfits v hv).2
  constructor
  · intro hmem
    -- A matching scalar has the width of the type, and it is its own value cut down to that.
    have hwidth : s.width = type.bitWidth := by
      obtain ⟨v, -, heq⟩ := hs
      rw [heq]
      exact Nat.min_eq_left hle
    have heq : s = .truncate type.bitWidth s.value.toUInt64 s.signed :=
      hwidth ▸ s.truncate_value.symm
    exact ⟨s.value, hmem, heq, (hexpresses _ hmem).mp (congrArg Scalar.value heq.symm)⟩
  · rintro ⟨v, hv, heq, hexpressed⟩
    have hvalue := (hexpresses v hv).mpr hexpressed
    rw [← heq] at hvalue
    exact hvalue.symm ▸ hv

end EnumType

/-- Behind a derived name the type is looked up by its identity, and the value in the type. -/
theorem Step.answer_label_text (t : Table) (monitor : Monitor) {registry : TypeRegistry}
    (hregistry : t.registry = some registry) (d : DerivedName) (v : Int64) :
    (Step.mk monitor (.label d.text v)).answer t =
      .text ((registry.types[d.typeId]?.bind (·.memberName? v)).getD (DerivedName.badName v)) := by
  let x : Step := ⟨monitor, .label d.text v⟩
  have hlabel : Action.on (Table.label d.text v) (x.start t) =
      Action.on (Table.memberName d.typeId v >>= fun name =>
        pure (name.getD (DerivedName.badName v))) (x.start t) := by
    rw [Table.label, if_pos d.hasTag_text, d.ofText?_text]
  have hlookup : (Action.on (Table.memberName d.typeId v) (x.start t)).1 =
      registry.types[d.typeId]?.bind (·.memberName? v) := by
    obtain ⟨hnone, -⟩ | ⟨r, hr, hon⟩ := Table.memberName_cases d.typeId v (x.start t)
    · cases hnone.symm.trans hregistry
    · obtain rfl := Option.some.inj (hr.symm.trans hregistry)
      rw [hon]
      rfl
  have hon : Action.on x.request.run (x.start t) = _ :=
    Action.on_map Answer.text (Table.label d.text v) (x.start t)
  refine (congrArg Prod.fst hon).trans (congrArg Answer.text ?_)
  rw [hlabel, Action.on_bind, hlookup]
  rfl

/-- For the equate that a scan binds a matching scalar to, the name of a member is shown just where
the scalar matches a declared value that a scalar of its signedness may stand for, at a width of
64 bits any.  Otherwise no member has its value, and the name for values without one is shown. -/
theorem label_shows_member_iff_expressed (t : Table) (monitor : Monitor) (registry : TypeRegistry)
    {type : EnumType} (hlength : 1 ≤ type.length ∧ type.length ≤ 8) (hfits : type.FitsWidth)
    (hregistered : registry.types[type.id]? = some type) {s : Scalar} (hs : type.Matches s) :
    let before := { t with registry := some registry }
    let x : Step := ⟨monitor, .label (DerivedName.mk type.id s.value).text s.value⟩
    let Expressed := ∃ v ∈ type.values,
      s = .truncate type.bitWidth v.toUInt64 s.signed ∧ type.Expresses s.signed v
    (Expressed → ∃ m ∈ type.members, m.value = s.value ∧ x.answer before = .text m.name) ∧
      (¬ Expressed → s.value ∉ type.values ∧
        x.answer before = .text (DerivedName.badName s.value)) := by
  intro before x Expressed
  have hanswer : x.answer before = .text ((type.memberName? s.value).getD _) :=
    (Step.answer_label_text before monitor rfl ⟨type.id, s.value⟩ s.value).trans
      (by rw [hregistered, Option.bind_some])
  rw [show Expressed ↔ s.value ∈ type.values from
    (EnumType.value_mem_values_iff hlength hfits hs).symm, hanswer]
  constructor
  · intro hmem
    obtain ⟨name, hname⟩ : ∃ name, type.memberName? s.value = some name :=
      Option.ne_none_iff_exists'.mp (mt EnumType.memberName?_eq_none_iff.mp (not_not.mpr hmem))
    obtain ⟨m, hm, hvalue, rfl⟩ := EnumType.exists_member_of_memberName? hname
    exact ⟨m, hm, hvalue, by rw [hname, Option.getD_some]⟩
  · intro hmem
    exact ⟨hmem, by rw [EnumType.memberName?_eq_none_iff.mpr hmem, Option.getD_none]⟩

/-- A byte with a value below zero. -/
def lowOrNone : EnumType := ⟨81, "LowOrNone", 1, [⟨"LOW", 1⟩, ⟨"NONE", -1⟩]⟩

theorem label_shows_member_lowOrNone :
    let registry : TypeRegistry := TypeRegistry.preload {} lowOrNone
    let s : Scalar := .truncate 8 255 true
    let x : Step := ⟨{}, .label (DerivedName.mk lowOrNone.id s.value).text s.value⟩
    (1 ≤ lowOrNone.length ∧ lowOrNone.length ≤ 8) ∧ lowOrNone.FitsWidth ∧
      registry.types[lowOrNone.id]? = some lowOrNone ∧ lowOrNone.Matches s ∧
      (∃ v ∈ lowOrNone.values, s = .truncate lowOrNone.bitWidth v.toUInt64 s.signed ∧
        lowOrNone.Expresses s.signed v) ∧
      x.answer { Table.opened 1 0 .none none none with registry := some registry } =
        .text "NONE" := by
  intro registry s x
  have hlength : 1 ≤ lowOrNone.length ∧ lowOrNone.length ≤ 8 := by decide
  have hfits : lowOrNone.FitsWidth := by decide +kernel
  have hregistered : registry.types[lowOrNone.id]? = some lowOrNone := by decide +kernel
  have hmatches : lowOrNone.Matches s := by decide +kernel
  have hexpressed : ∃ v ∈ lowOrNone.values,
      s = .truncate lowOrNone.bitWidth v.toUInt64 s.signed ∧ lowOrNone.Expresses s.signed v := by
    decide +kernel
  obtain ⟨m, hm, hvalue, hanswer⟩ := (label_shows_member_iff_expressed
    (Table.opened 1 0 .none none none) {} registry hlength hfits hregistered hmatches).1 hexpressed
  refine ⟨hlength, hfits, hregistered, hmatches, hexpressed, hanswer.trans ?_⟩
  -- The value belongs to one member only.
  have hname : ∀ m ∈ lowOrNone.members, m.value = s.value → m.name = "NONE" := by decide +kernel
  rw [hname m hm hvalue]

/-- An unsigned byte matches the value below zero and stands for another one. -/
theorem label_misses_lowOrNone :
    let registry : TypeRegistry := TypeRegistry.preload {} lowOrNone
    let s : Scalar := .truncate 8 255 false
    let x : Step := ⟨{}, .label (DerivedName.mk lowOrNone.id s.value).text s.value⟩
    (1 ≤ lowOrNone.length ∧ lowOrNone.length ≤ 8) ∧ lowOrNone.FitsWidth ∧
      registry.types[lowOrNone.id]? = some lowOrNone ∧ lowOrNone.Matches s ∧
      x.answer { Table.opened 1 0 .none none none with registry := some registry } =
        .text "0xff <BAD EQUATE>" ∧
      ∀ m ∈ lowOrNone.members, m.name ≠ "0xff <BAD EQUATE>" := by
  decide +kernel

end Equates

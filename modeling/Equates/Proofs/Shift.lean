/-
The move of several references, one after the other.

A move gives each of its rows the key of the translated address (`Effect.shift`).  No row comes
twice, so the address that a row is moved from is the one from before the whole move, wherever
the others have gone meanwhile: each reference is moved once or stays where it is
(`Store.translated_after_shift`), also where the destination overlaps the source.
-/
import Equates.Proofs.Store.Inventory
import Equates.Table.Range

namespace Equates

open Table

/-- The reference at the address as far behind `target` as it was behind `source`. -/
def Reference.translated (source target : Address) (r : Reference) : Reference :=
  { r with address := translate source target r.address }

/-- The row with the key of the translated address; the row itself if there is none. -/
def ReferenceRow.shiftedKey (source target : Address) (row : ReferenceRow) : Int :=
  ((Address.ofKey? row.addressKey).bind fun a => (translate source target a).key?).getD
    row.addressKey

/-- Moves the rows in order. -/
def Effect.shift (source target : Address) (rows : List ReferenceRow) : List Effect :=
  rows.map fun row => .rekey row (row.shiftedKey source target)

/-- The address of the row has a translated one with a key. -/
def ReferenceRow.Movable (source target : Address) (row : ReferenceRow) : Prop :=
  ∃ a k, Address.ofKey? row.addressKey = some a ∧ (translate source target a).key? = some k

theorem ReferenceRow.Movable.shiftedKey {source target : Address} {row : ReferenceRow}
    (h : row.Movable source target) : ∃ a, Address.ofKey? row.addressKey = some a ∧
      (translate source target a).key? = some (row.shiftedKey source target) := by
  obtain ⟨a, k, ha, hk⟩ := h
  refine ⟨a, ha, ?_⟩
  rw [ReferenceRow.shiftedKey, ha, Option.bind_some, hk]
  rfl

theorem ReferenceRow.Movable.fits {source target : Address} {row : ReferenceRow}
    (h : row.Movable source target) {s : Store} (hrow : row ∈ s.references) :
    (Effect.rekey row (row.shiftedKey source target)).Fits [] s := by
  obtain ⟨a, -, hk⟩ := h.shiftedKey
  exact ⟨hrow, _, Address.ofKey?_of_key? hk⟩

/-- A row that is still to come stands where it stood. -/
theorem ReferenceRow.Movable.mem_apply_rekey {source target : Address} {row row' : ReferenceRow}
    (h : row.Movable source target) {s : Store} (hrow : row ∈ s.references)
    (hrow' : row' ∈ s.references) (hne : row.id ≠ row'.id) :
    row' ∈ ((Effect.rekey row (row.shiftedKey source target)).apply s).references := by
  rw [ReferenceRows.mem_def, Effect.get?_apply_rekey (h.fits hrow), if_neg hne.symm]
  exact hrow'

namespace Store

variable {s : Store} {source target : Address}

/-- One reference moves, and the others stay. -/
theorem reference?_apply_rekey (hs : s.Sound) {row : ReferenceRow} (hrow : row ∈ s.references)
    (hmove : row.Movable source target) (id : Key) :
    ((Effect.rekey row (row.shiftedKey source target)).apply s).reference? id =
      (s.reference? id).map fun r => if r.id = row.id then r.translated source target else r := by
  rw [reference?, reference?, Effect.get?_apply_rekey (hmove.fits hrow)]
  by_cases hid : id = row.id
  · obtain ⟨a, ha, hk⟩ := hmove.shiftedKey
    have hnew : ({ row with addressKey := row.shiftedKey source target } : ReferenceRow).decode =
        .ok ⟨row.id, translate source target a, row.operand, row.hash, row.equate⟩ :=
      ReferenceRow.decode_eq_ok_iff.mpr ⟨Address.ofKey?_of_key? hk, rfl, rfl, rfl, rfl⟩
    have hold : row.decode = .ok ⟨row.id, a, row.operand, row.hash, row.equate⟩ :=
      ReferenceRow.decode_eq_ok_iff.mpr ⟨ha, rfl, rfl, rfl, rfl⟩
    rw [if_pos hid, hid, ReferenceRows.mem_def.mp hrow, Option.bind_some, Option.bind_some, hnew,
      hold]
    exact congrArg some (if_pos rfl).symm
  · rw [if_neg hid]
    cases hget : s.references.get? id with
    | none => rfl
    | some row' =>
      -- The key of another reference is not that of the row.
      obtain ⟨r, hr⟩ := hs.decode (hs.references.mem_of_get? hget)
      have hne : r.id ≠ row.id := by
        rw [(ReferenceRow.decode_eq_ok_iff.mp hr).2.1, hs.references.id_eq hget]
        exact hid
      rw [Option.bind_some, hr]
      exact congrArg some (if_neg hne).symm

/-- The reference behind the move of the rows with these keys. -/
def translatedIn (source target : Address) (ids : List Key) (r : Reference) : Reference :=
  if r.id ∈ ids then r.translated source target else r

theorem id_translatedIn (source target : Address) (ids : List Key) (r : Reference) :
    (translatedIn source target ids r).id = r.id := by
  rw [translatedIn]
  split
  · rfl
  · rfl

theorem translatedIn_cons (source target : Address) {k : Key} {ids : List Key} (hk : k ∉ ids)
    (r : Reference) :
    translatedIn source target ids (if r.id = k then r.translated source target else r) =
      translatedIn source target (k :: ids) r := by
  by_cases hid : r.id = k
  · have hout : (r.translated source target).id ∉ ids := by
      rw [show (r.translated source target).id = k from hid]
      exact hk
    rw [if_pos hid, translatedIn, if_neg hout, translatedIn, if_pos (hid ▸ List.mem_cons_self)]
  · have hmem : r.id ∈ k :: ids ↔ r.id ∈ ids := by simp [hid]
    rw [if_neg hid, translatedIn, translatedIn]
    simp only [hmem]

/-- Behind a move the rows stand for the moved references, each once; nothing else changes. -/
structure Translated (s : Store) (source target : Address) (ids : List Key) (s' : Store) :
    Prop where
  sound : s'.Sound
  reference? : ∀ id, s'.reference? id = (s.reference? id).map (translatedIn source target ids)
  equates : s'.equates = s.equates
  next : s'.references.next = s.references.next
  changes : s'.changes = s.changes

/-- Nothing is moved. -/
theorem translated_nil (hs : s.Sound) : s.Translated source target [] s where
  sound := hs
  reference? id := by
    have hkeep : translatedIn source target [] = fun r => r :=
      funext fun r => by simp [translatedIn]
    rw [hkeep, Option.map_id']
  equates := rfl
  next := rfl
  changes := rfl

theorem translated_after_shift (hs : s.Sound) {rows : List ReferenceRow}
    (hrows : ∀ row ∈ rows, row ∈ s.references ∧ row.Movable source target)
    (hnodup : rows.Pairwise (·.id ≠ ·.id)) :
    s.Translated source target (rows.map ReferenceRow.id)
      (s.after (Effect.shift source target rows)) := by
  -- The rows still to come stand where they stood before the move, since no row comes twice.
  induction rows generalizing s with
  | nil => exact translated_nil hs
  | cons row rows ih =>
    obtain ⟨⟨hrow, hmove⟩, hrest⟩ := List.forall_mem_cons.mp hrows
    obtain ⟨hne, hnodup⟩ := List.pairwise_cons.mp hnodup
    have hnew : row.id ∉ rows.map ReferenceRow.id := fun hin => by
      obtain ⟨row', hrow', hid⟩ := List.mem_map.mp hin
      exact hne row' hrow' hid.symm
    have hfits := hmove.fits hrow
    obtain ⟨rows', hu, happ⟩ := Effect.apply_rekey hfits
    have hstep := ih (hfits.sound hs) (fun row' hrow' =>
      ⟨hmove.mem_apply_rekey hrow (hrest row' hrow').1 (hne row' hrow'), (hrest row' hrow').2⟩)
      hnodup
    refine ⟨hstep.sound, fun id => ?_, ?_, ?_, ?_⟩
    · rw [show Effect.shift source target (row :: rows) = _ :: Effect.shift source target rows
        from rfl, after_cons, hstep.reference?, reference?_apply_rekey hs hrow hmove,
        Option.map_map]
      exact congrArg (Option.map · _) (funext fun r => translatedIn_cons source target hnew r)
    · exact hstep.equates.trans (by rw [happ])
    · exact hstep.next.trans (by rw [happ]; exact ReferenceRows.next_update hu)
    · exact hstep.changes.trans (by rw [happ])

/-- Behind a move the rows stand for the references with the moved ones at their new
addresses. -/
theorem Translated.standFor {l moved : List Reference} {s' : Store}
    (h : s.Translated source target (moved.map Reference.id) s') (hs : s.Sound)
    (hl : s.references.StandFor l) (hmoved : ∀ r ∈ moved, r ∈ l) :
    s'.references.StandFor
      (l.map fun r => if r ∈ moved then r.translated source target else r) := by
  have hsorted := hs.sorted_of_standFor hl
  have hmap : l.map (fun r => if r ∈ moved then r.translated source target else r) =
      l.map (translatedIn source target (moved.map Reference.id)) := by
    refine List.map_congr_left fun r hr => ?_
    have hmem : r.id ∈ moved.map Reference.id ↔ r ∈ moved := by
      constructor
      · intro hin
        obtain ⟨r', hr', hid⟩ := List.mem_map.mp hin
        rwa [← hs.eq_of_id_eq ((hs.mem_iff_refers hl).mp (hmoved r' hr'))
          ((hs.mem_iff_refers hl).mp hr) hid]
      · exact List.mem_map_of_mem
    rw [translatedIn]
    simp only [hmem]
  rw [hmap]
  refine h.sound.standFor_iff.mpr ⟨?_, fun r => ?_⟩
  · rw [List.pairwise_map]
    simpa only [id_translatedIn] using hsorted
  · have hrefers : s'.Refers r ↔ s'.reference? r.id = some r := by
      rw [h.sound.reference?_eq_some, and_iff_left rfl]
    rw [hrefers, h.reference?, List.mem_map, Option.map_eq_some_iff]
    simp only [hs.mem_iff_refers hl, hs.reference?_eq_some]
    constructor
    · rintro ⟨r₀, hr₀, rfl⟩
      exact ⟨r₀, ⟨hr₀, (id_translatedIn _ _ _ r₀).symm⟩, rfl⟩
    · rintro ⟨r₀, ⟨hr₀, -⟩, hr⟩
      exact ⟨r₀, hr₀, hr⟩

end Store

end Equates

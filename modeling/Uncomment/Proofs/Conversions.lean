import Uncomment.Proofs.CodeUnits

/-! # Answers of an offset converter

A converter measures on from the place of its last answer, and starts again for an offset behind
that place. Its answers show nothing of this: each depends on the text and the offset alone. -/

namespace Uncomment

namespace Text

/-! ## Floors -/

/-- The last boundary of a text that an offset reaches. -/
structure IsFloor (text : Text) (offset floor : Nat) : Prop where
  boundary : text.isBoundary floor = true
  within : floor ≤ min offset text.byteLength
  last : ∀ other, text.isBoundary other = true → other ≤ offset → other ≤ floor

theorem IsFloor.unique {text : Text} {offset first second : Nat}
    (isFirst : text.IsFloor offset first) (isSecond : text.IsFloor offset second) :
    first = second := by
  apply Nat.le_antisymm
  · exact isSecond.last first isFirst.boundary (Nat.le_min.mp isFirst.within).1
  · exact isFirst.last second isSecond.boundary (Nat.le_min.mp isSecond.within).1

theorem isFloor_floorBoundary (text : Text) (offset : Nat) :
    text.IsFloor offset (text.floorBoundary offset) where
  boundary := isBoundary_floorBoundary text offset
  within := by
    apply Nat.le_min.mpr
    constructor
    · exact byteLength_takeBytes_le text offset
    · exact le_byteLength_of_isBoundary (isBoundary_floorBoundary text offset)
  last := by
    intro other boundary reached
    rcases (isBoundary_iff _ _).mp boundary with ⟨before, after, rfl, rfl⟩
    have taken := takeBytes_append before after (offset - before.byteLength)
    rw [Nat.add_sub_cancel' reached] at taken
    rw [floorBoundary, taken, byteLength_append]
    exact Nat.le_add_right _ _

/-- A boundary limits a floor as it limits the offset. -/
theorem floorBoundary_min {text : Text} {stop : Nat} (boundary : text.isBoundary stop = true)
    (offset : Nat) : text.floorBoundary (min offset stop) = min (text.floorBoundary offset) stop := by
  have floor := text.isFloor_floorBoundary offset
  have within := Nat.le_min.mp floor.within
  apply (text.isFloor_floorBoundary (min offset stop)).unique
  constructor
  · rcases Nat.le_total (text.floorBoundary offset) stop with below | above
    · rw [Nat.min_eq_left below]
      exact floor.boundary
    · rw [Nat.min_eq_right above]
      exact boundary
  · omega
  · intro other isBoundary reached
    have further := floor.last other isBoundary (by omega)
    omega

theorem takeBytes_floorBoundary (text : Text) (offset : Nat) :
    text.takeBytes (text.floorBoundary offset) = text.takeBytes offset := by
  rcases exists_takeBytes_append text offset with ⟨after, split⟩
  have taken := takeBytes_byteLength_append (text.takeBytes offset) after
  rwa [← split] at taken

/-! ## Longer beginnings -/

theorem takeBytes_prefix (text : Text) {fewer more : Nat} (ordered : fewer ≤ more) :
    text.takeBytes fewer <+: text.takeBytes more := by
  induction text generalizing fewer more with
  | nil => exact List.prefix_refl _
  | cons character rest induction =>
      rw [takeBytes, takeBytes]
      split
      · rw [if_pos (by omega)]
        apply (List.prefix_cons_inj character).mpr
        exact induction (by omega)
      · exact List.nil_prefix

theorem unitLength_le_of_prefix {shorter longer : Text} (begins : shorter <+: longer) :
    shorter.unitLength ≤ longer.unitLength := by
  rcases begins with ⟨rest, rfl⟩
  rw [unitLength_append]
  exact Nat.le_add_right _ _

theorem unitOffset_mono (text : Text) {first second : Nat} (ordered : first ≤ second) :
    text.unitOffset first ≤ text.unitOffset second :=
  unitLength_le_of_prefix (text.takeBytes_prefix ordered)

end Text

namespace OffsetConverter

/-! ## A run of questions -/

theorem convertAll_eq_map {text : Text} {converter : OffsetConverter}
    (settled : Settled text converter) (offsets : List Nat) :
    convertAll text converter offsets = offsets.map text.unitOffset := by
  induction offsets generalizing converter with
  | nil => rfl
  | cons offset later induction =>
      rcases convert_of_settled settled offset with ⟨next, answer, nextSettled⟩
      simp only [convertAll, answer, induction nextSettled, List.map_cons]

def Answers (text : Text) (offset unit : Nat) : Prop :=
  ∃ before after, text = before ++ after ∧ text.IsFloor offset before.byteLength ∧
    unit = before.encodeUnits.length

theorem answers_unitOffset (text : Text) (offset : Nat) :
    Answers text offset (text.unitOffset offset) := by
  rcases Text.exists_takeBytes_append text offset with ⟨after, split⟩
  refine ⟨text.takeBytes offset, after, split, text.isFloor_floorBoundary offset, ?_⟩
  rw [Text.length_encodeUnits, Text.unitOffset]

/-- Whatever a converter was asked before, it answers as a new one does: with the UTF-16 length of
the text before the offset. Larger offsets have no smaller answers. -/
theorem convertAll_forgets (text : Text) (offsets : List Nat) :
    let answers := convertAll text .start offsets
    answers.length = offsets.length ∧
      answers = offsets.map (fun offset => (start.convert text offset).1) ∧
      (∀ asked ∈ offsets.zip answers, Answers text asked.1 asked.2) ∧
      ∀ first ∈ offsets.zip answers, ∀ second ∈ offsets.zip answers,
        first.1 ≤ second.1 → first.2 ≤ second.2 := by
  intro answers
  have measured : answers = offsets.map text.unitOffset :=
    convertAll_eq_map (settled_start text) offsets
  have paired : ∀ asked ∈ offsets.zip answers, asked.2 = text.unitOffset asked.1 := by
    intro asked member
    rw [measured, ← List.map_prod_left_eq_zip] at member
    rcases List.mem_map.mp member with ⟨offset, _, rfl⟩
    rfl
  refine ⟨?_, ?_, ?_, ?_⟩
  · rw [measured, List.length_map]
  · rw [measured]
    apply List.map_congr_left
    intro offset _
    rcases convert_of_settled (settled_start text) offset with ⟨next, answer, -⟩
    rw [answer]
  · intro asked member
    rw [paired asked member]
    exact answers_unitOffset text asked.1
  · intro first firstMember second secondMember ordered
    rw [paired first firstMember, paired second secondMember]
    exact text.unitOffset_mono ordered

/-- Past the end, back into a character of four bytes and to its start, and on into one of three. -/
theorem convertAll_forgets_backwards :
    let text : Text := ['a', '🙂', '\n', 'あ', 'b']
    convertAll text .start [6, 100, 3, 1, 8] = [4, 6, 1, 1, 4] ∧
      ((3, 1) ∈ [6, 100, 3, 1, 8].zip (convertAll text .start [6, 100, 3, 1, 8]) ∧
        (8, 4) ∈ [6, 100, 3, 1, 8].zip (convertAll text .start [6, 100, 3, 1, 8]) ∧ 3 ≤ 8) ∧
      Answers text 3 1 ∧ (1 : Nat) ≤ 4 := by
  intro text
  have third : (3, 1) ∈ [6, 100, 3, 1, 8].zip (convertAll text .start [6, 100, 3, 1, 8]) := by
    decide
  have last : (8, 4) ∈ [6, 100, 3, 1, 8].zip (convertAll text .start [6, 100, 3, 1, 8]) := by
    decide
  rcases convertAll_forgets text [6, 100, 3, 1, 8] with ⟨-, -, answered, ascending⟩
  exact ⟨by decide, ⟨third, last, by decide⟩, answered _ third,
    ascending _ third _ last (by decide)⟩

end OffsetConverter

end Uncomment

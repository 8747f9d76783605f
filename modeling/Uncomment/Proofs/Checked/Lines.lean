import Uncomment.Proofs.Anchors
import Uncomment.Proofs.Checked.Basic
import Uncomment.Proofs.Checked.Bytes
import Uncomment.Proofs.CodeUnits

/-! # Looking up lines with checked steps

A machine finds the line of a byte in the list of all line starts, and measures the column inside
the line's content. The content shrinks by a carriage return in front of its end, and never to less
than nothing. -/

namespace Uncomment

open SourceMap (lineEnds lineEnds_append lineEnds_of_not_mem)

def Bytes.lineEnds (passed : Nat) : Bytes → List Nat
  | [] => []
  | byte :: rest =>
      let later := lineEnds (passed + 1) rest
      if byte = Text.lowByte '\n' then (passed + 1) :: later else later

namespace Text

/-! ## The algorithm -/

def lineIndex (text : Text) : List Nat :=
  0 :: text.encode.lineEnds 0

def checkedLineNumber (text : Text) (offset : Nat) : Checked Nat :=
  let passed := (text.lineIndex.takeWhile (· ≤ offset)).length
  if passed = 0 then .ok 0 else Checked.difference passed 1

def checkedLineStop (text : Text) (number : Nat) : Checked Nat :=
  match text.lineIndex[number + 1]? with
  | some next => Checked.difference next 1
  | none => .ok text.byteLength

def checkedContentStop (text : Text) (start stop : Nat) : Checked Nat := do
  if start < stop then
    let last ← Checked.item text.encode (← Checked.difference stop 1)
    if last = lowByte '\r' then Checked.difference stop 1 else .ok stop
  else
    .ok stop

def checkedPositionAt (text : Text) (offset : Nat) : Checked UnitPosition := do
  let number ← text.checkedLineNumber offset
  let start ← Checked.item text.lineIndex number
  let stop ← text.checkedContentStop start (← text.checkedLineStop number)
  let target ← text.checkedFloor (← Checked.clamp offset start stop)
  let before ← text.checkedSlice start target
  .ok ⟨number, before.unitLength⟩

/-! ## Line starts -/

private theorem lineEnds_append_of_isHigh (passed : Nat) {part : Bytes} (high : part.IsHigh)
    (rest : Bytes) : (part ++ rest).lineEnds passed = rest.lineEnds (passed + part.length) := by
  induction part generalizing passed with
  | nil => rfl
  | cons byte part induction =>
      have plain : byte ≠ lowByte '\n' := by
        rintro rfl
        exact lowByte_not_mem (by decide) high List.mem_cons_self
      rw [List.cons_append, Bytes.lineEnds, if_neg plain, List.length_cons,
        induction _ fun other member => high other (List.mem_cons_of_mem _ member)]
      congr 1
      omega

theorem lineEnds_encode (passed : Nat) (text : Text) :
    text.encode.lineEnds passed = lineEnds passed text := by
  induction text generalizing passed with
  | nil => rfl
  | cons character rest induction =>
      rw [encode_cons, SourceMap.lineEnds, ← induction]
      by_cases low : IsLow character
      · rw [utf8EncodeChar_of_isLow low, utf8Size_of_isLow low, List.singleton_append,
          Bytes.lineEnds]
        simp only [lowByte_inj low (show IsLow '\n' by decide)]
      · have plain : character ≠ '\n' := fun feed => low (feed ▸ (by decide : IsLow '\n'))
        rw [lineEnds_append_of_isHigh _ (isHigh_utf8EncodeChar low),
          String.length_utf8EncodeChar]
        exact (if_neg plain).symm

private theorem lineEnds_within (passed : Nat) (text : Text) :
    ∀ position ∈ lineEnds passed text,
      passed < position ∧ position ≤ passed + text.byteLength := by
  induction text generalizing passed with
  | nil => nofun
  | cons character rest induction =>
      intro position member
      have size := character.utf8Size_pos
      have further : position ∈ lineEnds (passed + character.utf8Size) rest →
          passed < position ∧ position ≤ passed + byteLength (character :: rest) := by
        intro later
        have bounds := induction _ position later
        rw [byteLength_cons]
        omega
      rw [SourceMap.lineEnds] at member
      split at member
      · rcases List.mem_cons.mp member with rfl | later
        · rw [byteLength_cons]
          omega
        · exact further later
      · exact further member

theorem length_lineEnds (passed : Nat) (text : Text) :
    (lineEnds passed text).length = text.count '\n' := by
  induction text generalizing passed with
  | nil => rfl
  | cons character rest induction =>
      rw [SourceMap.lineEnds, List.count_cons]
      by_cases feed : character = '\n' <;> simp [feed, induction]

/-! ## The line of a byte -/

namespace LineAt

variable {text : Text} {offset : Nat}

theorem exists_lineIndex_eq (line : LineAt text offset) :
    ∃ earlier, text.lineIndex = earlier ++ line.lead.byteLength ::
        lineEnds (line.lead.byteLength + line.word.byteLength) line.rest ∧
      earlier.length = line.lead.count '\n' ∧
      ∀ start ∈ earlier, start ≤ line.lead.byteLength := by
  rcases SourceMap.exists_lineEnds_eq line.complete with ⟨earlier, split⟩
  have count := congrArg List.length split
  rw [List.length_cons, length_lineEnds, List.length_append, List.length_singleton,
    Nat.add_right_cancel_iff] at count
  have before : ∀ start ∈ earlier, start ≤ line.lead.byteLength := by
    intro start member
    have listed : start ∈ 0 :: lineEnds 0 line.lead := split ▸ List.mem_append_left _ member
    rcases List.mem_cons.mp listed with rfl | later
    · exact Nat.zero_le _
    · have bounds := lineEnds_within 0 line.lead start later
      omega
  refine ⟨earlier, ?_, count.symm, before⟩
  rw [lineIndex, lineEnds_encode]
  conv => lhs; rw [line.text_eq]
  rw [lineEnds_append, lineEnds_append, lineEnds_of_not_mem _ line.plain, List.nil_append,
    ← List.cons_append, split, Nat.zero_add, List.append_assoc, List.singleton_append]

theorem lt_of_mem_lineEnds (line : LineAt text offset) :
    ∀ start ∈ lineEnds (line.lead.byteLength + line.word.byteLength) line.rest, offset < start := by
  intro start member
  have bounds := lineEnds_within _ _ start member
  rcases line.stops with last | within
  · rw [last] at member
    cases member
  · omega

theorem checkedLineNumber_eq (line : LineAt text offset) :
    text.checkedLineNumber offset = .ok (line.lead.count '\n') := by
  rcases line.exists_lineIndex_eq with ⟨earlier, split, count, before⟩
  have passed : text.lineIndex.takeWhile (· ≤ offset) = earlier ++ [line.lead.byteLength] := by
    rw [split]
    exact @takeWhile_le_append _ id _ _ _ _
      (fun start member => Nat.le_trans (before start member) line.starts) line.starts
      line.lt_of_mem_lineEnds
  rw [checkedLineNumber, passed, List.length_append, List.length_singleton, count,
    if_neg (Nat.succ_ne_zero _), Checked.difference_of_le (Nat.le_add_left _ _),
    Nat.add_sub_cancel]

private theorem item_lineIndex (line : LineAt text offset) :
    Checked.item text.lineIndex (line.lead.count '\n') = .ok line.lead.byteLength := by
  rcases line.exists_lineIndex_eq with ⟨earlier, split, count, -⟩
  apply Checked.item_of_getElem?
  rw [split, ← count]
  simp

theorem checkedLineStop_eq (line : LineAt text offset) :
    text.checkedLineStop (line.lead.count '\n') =
      .ok (line.lead.byteLength + line.word.byteLength) := by
  rcases line.exists_lineIndex_eq with ⟨earlier, split, count, -⟩
  have next : text.lineIndex[line.lead.count '\n' + 1]? =
      (lineEnds (line.lead.byteLength + line.word.byteLength) line.rest).head? := by
    rw [split, ← count, List.getElem?_append_right (by omega)]
    simp [List.head?_eq_getElem?]
  rw [checkedLineStop, next]
  rcases line.ends with last | ⟨more, feed⟩
  · rw [last]
    change Except.ok text.byteLength = _
    conv => lhs; rw [line.text_eq, last]
    simp
  · have first : (lineEnds (line.lead.byteLength + line.word.byteLength) line.rest).head? =
        some (line.lead.byteLength + line.word.byteLength + 1) := by
      rw [feed, lineEnds]
      rfl
    rw [first]
    exact Checked.difference_of_le (Nat.le_add_left _ _)

end LineAt

/-! ## The content of a line -/

private theorem exists_last_byte (before after : Text) (character : Char) :
    ∃ byte, (encode (before ++ character :: after))[before.byteLength + character.utf8Size - 1]? =
        some byte ∧
      (byte = lowByte '\r' ↔ character = '\r') := by
  have size := character.utf8Size_pos
  have length := String.length_utf8EncodeChar character
  have place : (encode (before ++ character :: after))[
      before.byteLength + character.utf8Size - 1]? =
        (String.utf8EncodeChar character)[character.utf8Size - 1]? := by
    rw [encode_append, encode_cons, List.getElem?_append_right (by rw [length_encode]; omega),
      List.getElem?_append_left (by rw [length_encode, length]; omega), length_encode]
    congr 1
    omega
  rw [place]
  by_cases low : IsLow character
  · rw [utf8EncodeChar_of_isLow low, utf8Size_of_isLow low]
    exact ⟨_, rfl, lowByte_inj low (by decide)⟩
  · have bound : character.utf8Size - 1 < (String.utf8EncodeChar character).length := by omega
    have found := List.getElem?_eq_getElem bound
    refine ⟨_, found, iff_of_false (fun same => ?_) ?_⟩
    · rw [same] at found
      exact lowByte_not_mem (by decide) (isHigh_utf8EncodeChar low) (List.mem_of_getElem? found)
    · rintro rfl
      exact low (by decide)

namespace LineAt

variable {text : Text} {offset : Nat}

theorem checkedContentStop_eq (line : LineAt text offset) :
    text.checkedContentStop line.lead.byteLength (line.lead.byteLength + line.word.byteLength) =
      .ok (line.lead.byteLength + (dropFinalReturn line.word).byteLength) := by
  rw [checkedContentStop]
  rcases List.eq_nil_or_concat line.word with empty | ⟨front, last, split⟩
  · rw [empty, if_neg (by simp)]
    rfl
  · rw [List.concat_eq_append] at split
    have size := last.utf8Size_pos
    have encoded : text.encode = encode (line.lead ++ front ++ last :: line.rest) := by
      conv => lhs; rw [line.text_eq, split]
      simp
    rcases exists_last_byte (line.lead ++ front) line.rest last with ⟨byte, found, isReturn⟩
    have stop : line.lead.byteLength + line.word.byteLength =
        byteLength (line.lead ++ front) + last.utf8Size := by
      rw [split]
      simp [Nat.add_assoc]
    rw [stop, byteLength_append, if_pos (by omega), Checked.difference_of_le (by omega),
      Checked.ok_bind, ← byteLength_append, encoded, Checked.item_of_getElem? found,
      Checked.ok_bind, split, dropFinalReturn_concat]
    by_cases final : last = '\r'
    · rw [if_pos (isReturn.mpr final), if_pos final, final]
      congr 1
      rw [byteLength_append, show '\r'.utf8Size = 1 from rfl, Nat.add_sub_cancel]
    · rw [if_neg fun same => final (isReturn.mp same), if_neg final, byteLength_append,
        byteLength_append, Nat.add_assoc]
      simp

end LineAt

/-! ## Positions -/

private theorem takeBytes_append_of_le {front : Text} {bytes : Nat}
    (within : bytes ≤ front.byteLength) (back : Text) :
    takeBytes (front ++ back) bytes = front.takeBytes bytes := by
  induction front generalizing bytes with
  | nil =>
      rw [byteLength_nil, Nat.le_zero] at within
      rw [within, takeBytes_zero, takeBytes_zero]
  | cons character front induction =>
      rw [byteLength_cons] at within
      rw [List.cons_append, takeBytes, takeBytes, induction (by omega)]

theorem takeBytes_min (text : Text) (bytes : Nat) :
    text.takeBytes (min bytes text.byteLength) = text.takeBytes bytes := by
  rcases Nat.le_total bytes text.byteLength with within | beyond
  · rw [Nat.min_eq_left within]
  · have whole : ∀ more, text.takeBytes (text.byteLength + more) = text := fun more => by
      simpa [takeBytes] using takeBytes_append text [] more
    have all := whole (bytes - text.byteLength)
    rw [Nat.add_sub_cancel' beyond] at all
    rw [Nat.min_eq_right beyond, all]
    exact whole 0

namespace LineAt

variable {text : Text} {offset : Nat}

theorem checkedSlice_eq (line : LineAt text offset) :
    text.checkedSlice line.lead.byteLength (line.lead.byteLength + line.before.byteLength) =
      .ok line.before := by
  rcases line.exists_text_eq with ⟨after, split⟩
  rcases exists_takeBytes_append (dropFinalReturn line.word) (offset - line.lead.byteLength) with
    ⟨between, contentSplit⟩
  rw [contentSplit, List.append_assoc, ← List.append_assoc] at split
  have sliced := checkedSlice_append line.lead line.before (between ++ after)
  rwa [before, ← split] at sliced

theorem floorBoundary_eq (line : LineAt text offset) :
    text.floorBoundary (max line.lead.byteLength
      (min offset (line.lead.byteLength + (dropFinalReturn line.word).byteLength))) =
      line.lead.byteLength + line.before.byteLength := by
  rcases line.exists_text_eq with ⟨after, split⟩
  have starts := line.starts
  have place : max line.lead.byteLength
      (min offset (line.lead.byteLength + (dropFinalReturn line.word).byteLength)) =
        line.lead.byteLength +
          min (offset - line.lead.byteLength) (dropFinalReturn line.word).byteLength := by
    omega
  have taken := takeBytes_append line.lead (dropFinalReturn line.word ++ after)
    (min (offset - line.lead.byteLength) (dropFinalReturn line.word).byteLength)
  rw [takeBytes_append_of_le (Nat.min_le_right _ _), takeBytes_min, ← split] at taken
  rw [place, floorBoundary, taken, byteLength_append, before]

end LineAt

theorem checkedPositionAt_eq (text : Text) (offset : Nat) :
    text.checkedPositionAt offset = .ok (text.unitPositionAt offset) := by
  rcases exists_lineAt text offset with ⟨line⟩
  rw [checkedPositionAt, line.checkedLineNumber_eq, Checked.ok_bind, line.item_lineIndex,
    Checked.ok_bind, line.checkedLineStop_eq, Checked.ok_bind, line.checkedContentStop_eq,
    Checked.ok_bind, Checked.clamp_of_le _ (Nat.le_add_right _ _), Checked.ok_bind,
    checkedFloor_eq_ok, Checked.ok_bind, line.floorBoundary_eq, line.checkedSlice_eq,
    Checked.ok_bind, line.unitPositionAt_eq]

end Text

end Uncomment

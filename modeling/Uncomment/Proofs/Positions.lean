import Uncomment.Proofs.Checked.Lines
import Uncomment.Proofs.Conversions

/-! # Lines and columns by bytes

The line of a byte and the content of that line can be read off the encoding of a text, one byte at
a time. The lines and columns of its characters agree with them, also for a byte inside a character,
in a line end or behind the text. -/

namespace Uncomment

namespace Bytes

/-! ## Lines of a byte sequence -/

def lineStart (bytes : Bytes) : Nat → Nat
  | 0 => 0
  | offset + 1 =>
      if bytes[offset]? = some (Text.lowByte '\n') then offset + 1 else lineStart bytes offset

def lineStop (bytes : Bytes) (start : Nat) : Nat :=
  start + ((bytes.drop start).takeWhile (· != Text.lowByte '\n')).length

def contentStop (bytes : Bytes) (start : Nat) : Nat :=
  let stop := bytes.lineStop start
  if start < stop ∧ bytes[stop - 1]? = some (Text.lowByte '\r') then stop - 1 else stop

/-- An empty line ends at its start, although a carriage return stands in front of it. -/
example : [0, 1, 2, 3].map (fun start => contentStop [0x0D, 0x0A, 0x61, 0x0D] start) =
    [0, 1, 3, 3] := by decide

private theorem lineStart_of_bounds {bytes : Bytes} {start offset : Nat}
    (begins : start = 0 ∨ bytes[start - 1]? = some (Text.lowByte '\n'))
    (reached : start ≤ offset)
    (plain : ∀ position, start ≤ position → position < offset →
      bytes[position]? ≠ some (Text.lowByte '\n')) :
    bytes.lineStart offset = start := by
  induction offset with
  | zero => rw [lineStart, Nat.le_zero.mp reached]
  | succ offset induction =>
      rw [lineStart]
      by_cases here : start = offset + 1
      · subst here
        exact if_pos (begins.resolve_left (Nat.succ_ne_zero _))
      · rw [if_neg (plain offset (by omega) (Nat.lt_succ_self _))]
        apply induction (by omega)
        intro position further before
        exact plain position further (by omega)

end Bytes

namespace Text

theorem mem_encode_iff {character : Char} (low : IsLow character) (text : Text) :
    lowByte character ∈ text.encode ↔ character ∈ text := by
  have nothing : Bytes.IsHigh [] := nofun
  have shown := (shows_encode_append text nothing).mem_iff low
  rwa [List.append_nil] at shown

theorem count_encode {character : Char} (low : IsLow character) (text : Text) :
    text.encode.count (lowByte character) = text.count character := by
  induction text with
  | nil => rfl
  | cons first rest induction =>
      rw [encode_cons, List.count_append, induction, List.count_cons, Nat.add_comm]
      congr 1
      by_cases firstLow : IsLow first
      · rw [utf8EncodeChar_of_isLow firstLow, List.count_singleton]
        simp only [beq_iff_eq, lowByte_inj firstLow low]
      · have different : first ≠ character := fun same => firstLow (same ▸ low)
        rw [List.count_eq_zero.mpr (lowByte_not_mem low (isHigh_utf8EncodeChar firstLow)),
          if_neg (by simpa using different)]

/-! ## The line of a byte -/

namespace LineAt

variable {text : Text} {offset : Nat}

theorem encode_eq (line : LineAt text offset) :
    text.encode = line.lead.encode ++ (line.word.encode ++ line.rest.encode) := by
  conv => lhs; rw [line.text_eq]
  rw [encode_append, encode_append]

private theorem feed_not_mem_encode_word (line : LineAt text offset) :
    lowByte '\n' ∉ line.word.encode := by
  rw [mem_encode_iff (by decide)]
  exact line.plain

private theorem take_encode (line : LineAt text offset) :
    text.encode.take offset =
      line.lead.encode ++ line.word.encode.take (offset - line.lead.byteLength) := by
  have starts : line.lead.encode.length ≤ offset := by
    rw [length_encode]
    exact line.starts
  rw [line.encode_eq, List.take_append, List.take_of_length_le starts, List.take_append,
    length_encode, length_encode]
  congr 1
  rcases line.stops with last | within
  · have empty : line.rest.encode = [] := by
      rw [last]
      rfl
    rw [empty, List.take_nil, List.append_nil]
  · rw [show offset - line.lead.byteLength - line.word.byteLength = 0 by omega, List.take_zero,
      List.append_nil]

private theorem count_take_encode (line : LineAt text offset) :
    (text.encode.take offset).count (lowByte '\n') = line.lead.count '\n' := by
  have plain : lowByte '\n' ∉ line.word.encode.take (offset - line.lead.byteLength) :=
    fun member => line.feed_not_mem_encode_word (List.mem_of_mem_take member)
  rw [line.take_encode, List.count_append, List.count_eq_zero.mpr plain, count_encode (by decide),
    Nat.add_zero]

theorem lineStart_encode (line : LineAt text offset) :
    text.encode.lineStart offset = line.lead.byteLength := by
  apply Bytes.lineStart_of_bounds
  · rcases line.complete with empty | ⟨body, split⟩
    · left
      rw [empty, byteLength_nil]
    · right
      have length : byteLength (body ++ ['\n']) - 1 = body.encode.length := by
        rw [byteLength_append, length_encode, show byteLength ['\n'] = 1 from rfl,
          Nat.add_sub_cancel]
      rw [line.encode_eq, split, length, encode_append, List.append_assoc,
        List.getElem?_append_right (Nat.le_refl _), Nat.sub_self]
      rfl
  · exact line.starts
  · intro position further before found
    rw [← List.getElem?_take_of_lt before, line.take_encode,
      List.getElem?_append_right (by rw [length_encode]; exact further)] at found
    exact line.feed_not_mem_encode_word (List.mem_of_mem_take (List.mem_of_getElem? found))

theorem lineStop_encode (line : LineAt text offset) :
    text.encode.lineStop line.lead.byteLength = line.lead.byteLength + line.word.byteLength := by
  have whole : ∀ byte ∈ line.word.encode, (byte != lowByte '\n') = true := by
    intro byte member
    rw [bne_iff_ne]
    rintro rfl
    exact line.feed_not_mem_encode_word member
  have none : line.rest.encode.takeWhile (· != lowByte '\n') = [] := by
    rcases line.ends with empty | ⟨more, feed⟩
    · rw [empty]
      rfl
    · rw [feed, encode_cons]
      rfl
  rw [Bytes.lineStop, line.encode_eq, ← length_encode line.lead, List.drop_left,
    List.takeWhile_append_of_pos whole, none, List.append_nil, length_encode, length_encode]

theorem contentStop_encode (line : LineAt text offset) :
    text.encode.contentStop line.lead.byteLength =
      line.lead.byteLength + (dropFinalReturn line.word).byteLength := by
  have checked := line.checkedContentStop_eq
  rw [← line.lineStop_encode, checkedContentStop] at checked
  rw [Bytes.contentStop]
  by_cases some : line.lead.byteLength < text.encode.lineStop line.lead.byteLength
  · rw [if_pos some, Checked.difference_of_le (by omega), Checked.ok_bind, Checked.item] at checked
    cases last : text.encode[text.encode.lineStop line.lead.byteLength - 1]? with
    | none =>
        rw [last] at checked
        cases checked
    | some byte =>
        rw [last] at checked
        dsimp only [Checked.ok_bind] at checked
        by_cases isReturn : byte = lowByte '\r'
        · rw [if_pos isReturn] at checked
          rw [if_pos ⟨some, congrArg _ isReturn⟩]
          exact Except.ok.inj checked
        · rw [if_neg isReturn] at checked
          rw [if_neg fun content => isReturn (Option.some.inj content.2)]
          exact Except.ok.inj checked
  · rw [if_neg some] at checked
    rw [if_neg fun content => some content.1]
    exact Except.ok.inj checked

/-- What stands on the line before the byte reaches to the byte's floor, and not beyond the content
of the line. -/
theorem byteLength_before (line : LineAt text offset) :
    line.lead.byteLength + line.before.byteLength =
      min (text.floorBoundary offset) (text.encode.contentStop line.lead.byteLength) := by
  rcases line.exists_text_eq with ⟨after, split⟩
  have boundary := isBoundary_byteLength_append (line.lead ++ dropFinalReturn line.word) after
  rw [List.append_assoc, ← split, byteLength_append, ← line.contentStop_encode] at boundary
  have clamped : max line.lead.byteLength
      (min offset (text.encode.contentStop line.lead.byteLength)) =
        min offset (text.encode.contentStop line.lead.byteLength) := by
    have starts := line.starts
    rw [line.contentStop_encode]
    omega
  rw [← line.floorBoundary_eq, ← line.contentStop_encode, clamped]
  exact floorBoundary_min boundary offset

/-- The code units before a byte are those before its line and those before it on the line, unless
it lies behind the content of the line. -/
theorem unitOffset_eq (line : LineAt text offset)
    (inContent : text.floorBoundary offset ≤ text.encode.contentStop line.lead.byteLength) :
    text.unitOffset offset =
      text.unitOffset line.lead.byteLength + line.before.unitLength := by
  rcases line.exists_append_before with ⟨after, split⟩
  have floor := line.byteLength_before
  rw [Nat.min_eq_left inContent, ← byteLength_append] at floor
  have taken := takeBytes_byteLength_append (line.lead ++ line.before) after
  rw [List.append_assoc, ← split, floor, takeBytes_floorBoundary] at taken
  have front := takeBytes_byteLength_append line.lead (line.before ++ after)
  rw [← split] at front
  rw [unitOffset, taken, unitOffset, front, unitLength_append]

end LineAt

/-! ## Positions -/

def UnitPosition.AtOrBefore (first second : UnitPosition) : Prop :=
  first.line < second.line ∨ first.line = second.line ∧ first.column ≤ second.column

theorem line_unitPositionAt (text : Text) (offset : Nat) :
    (text.unitPositionAt offset).line = (text.encode.take offset).count (lowByte '\n') := by
  rcases exists_lineAt text offset with ⟨line⟩
  rw [line.unitPositionAt_eq, line.count_take_encode]

theorem unitPositionAt_mono (text : Text) {first second : Nat} (ordered : first ≤ second) :
    (text.unitPositionAt first).AtOrBefore (text.unitPositionAt second) := by
  rcases exists_lineAt text second with ⟨line⟩
  by_cases sameLine : line.lead.byteLength ≤ first
  · right
    let earlier : LineAt text first := { line with
      starts := sameLine
      stops := line.stops.imp_right (Nat.le_trans ordered) }
    rw [earlier.unitPositionAt_eq, line.unitPositionAt_eq]
    refine ⟨rfl, unitLength_le_of_prefix ?_⟩
    apply takeBytes_prefix
    exact Nat.sub_le_sub_right ordered line.lead.byteLength
  · left
    rw [line_unitPositionAt, line.unitPositionAt_eq]
    rcases line.complete with empty | ⟨body, split⟩
    · rw [empty, byteLength_nil] at sameLine
      omega
    · -- The line feed in front of the later line is behind the earlier byte.
      have within : first ≤ body.encode.length := by
        rw [split, byteLength_append, show byteLength ['\n'] = 1 from rfl] at sameLine
        rw [length_encode]
        omega
      have front : text.encode.take first = body.encode.take first := by
        rw [line.encode_eq, split, encode_append, List.append_assoc,
          List.take_append_of_le_length within]
      have fewer := (List.take_sublist first body.encode).count_le (lowByte '\n')
      rw [count_encode (by decide)] at fewer
      rw [front, split, List.count_append, show List.count '\n' ['\n'] = 1 from rfl]
      exact Nat.lt_succ_of_le fewer

/-- The line of a byte counts the line feeds before it. Its column is the UTF-16 length of what lies
between the start of the line and the floor of the byte, or the end of the line's content where that
comes first. Later bytes have no earlier positions, and for a byte in the content its column is what
an offset converter counts from the start of the line. -/
theorem unitPositionAt_by_bytes (text : Text) :
    (∀ offset, ∃ before within after : Text, ∃ floor,
      text = before ++ (within ++ after) ∧
      text.IsFloor offset floor ∧
      before.byteLength = text.encode.lineStart offset ∧
      before.byteLength + within.byteLength =
        min floor (text.encode.contentStop before.byteLength) ∧
      text.unitPositionAt offset =
        ⟨(text.encode.take offset).count (lowByte '\n'), within.encodeUnits.length⟩ ∧
      (floor ≤ text.encode.contentStop before.byteLength →
        ∀ asked, ∃ answers unit,
          OffsetConverter.convertAll text .start (asked ++ [before.byteLength, offset]) =
            answers ++ [unit, unit + (text.unitPositionAt offset).column])) ∧
    ∀ first second, first ≤ second →
      (text.unitPositionAt first).AtOrBefore (text.unitPositionAt second) := by
  constructor
  · intro offset
    rcases exists_lineAt text offset with ⟨line⟩
    rcases line.exists_append_before with ⟨after, split⟩
    refine ⟨line.lead, line.before, after, text.floorBoundary offset, split,
      text.isFloor_floorBoundary offset, line.lineStart_encode.symm, line.byteLength_before, ?_, ?_⟩
    · rw [line.unitPositionAt_eq, line.count_take_encode, length_encodeUnits]
    · intro inContent asked
      refine ⟨asked.map text.unitOffset, text.unitOffset line.lead.byteLength, ?_⟩
      rw [OffsetConverter.convertAll_eq_map (OffsetConverter.settled_start text), List.map_append,
        line.unitPositionAt_eq]
      simp only [List.map_cons, List.map_nil, line.unitOffset_eq inContent]
  · intro first second ordered
    exact text.unitPositionAt_mono ordered

/-- Byte 4 is the line feed of the first line, and byte 7 lies inside the first character of the
second. -/
theorem unitPositionAt_by_bytes_twoLines :
    let text : Text := ['a', 'é', '\r', '\n', '🙂', 'b']
    (4 ≤ 7 ∧ (text.unitPositionAt 4).AtOrBefore (text.unitPositionAt 7)) ∧
      ∃ floor, text.IsFloor 7 floor ∧ floor ≤ text.encode.contentStop 5 ∧
        ∃ answers unit, OffsetConverter.convertAll text .start ([9] ++ [5, 7]) =
          answers ++ [unit, unit + (text.unitPositionAt 7).column] := by
  intro text
  rcases unitPositionAt_by_bytes text with ⟨measured, ascending⟩
  rcases measured 7 with ⟨before, within, after, floor, -, isFloor, start, -, -, converted⟩
  have start : before.byteLength = 5 := start.trans (by decide)
  have low : floor = 5 := (isFloor.unique (text.isFloor_floorBoundary 7)).trans (by decide)
  have inContent : floor ≤ text.encode.contentStop 5 := by
    rw [low]
    decide
  rw [start] at converted
  exact ⟨⟨by decide, ascending 4 7 (by decide)⟩, floor, isFloor, inContent, converted inContent [9]⟩

end Text

end Uncomment

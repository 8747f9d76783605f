import Uncomment.Proofs.Erasure
import Uncomment.Proofs.Lines
import Uncomment.Stripping.CodeUnits

/-! # Erasing in code units

A result measured in code units describes the same erasure: its spans cut the UTF-16 encoding of the
source down to that of the code. Bytes and code units order the boundaries of a text alike, so a
place lies in a span measured in bytes exactly when it lies in the span measured in units. -/

namespace Uncomment

abbrev Units := List UInt16

namespace Text

/-! ## The UTF-16 encoding -/

def unitsOf (character : Char) : Units :=
  if 0x10000 ≤ character.toNat then
    let bits := character.toNat - 0x10000
    [.ofNat (0xD800 + bits / 0x400), .ofNat (0xDC00 + bits % 0x400)]
  else
    [.ofNat character.toNat]

def encodeUnits (text : Text) : Units :=
  text.flatMap unitsOf

example : encodeUnits ['é', '🙂'] = [0xE9, 0xD83D, 0xDE42] := by decide

theorem length_unitsOf (character : Char) : (unitsOf character).length = unitSize character := by
  rw [unitsOf, unitSize]
  split <;> rfl

theorem length_encodeUnits (text : Text) : text.encodeUnits.length = text.unitLength := by
  induction text with
  | nil => rfl
  | cons character rest induction =>
      change (unitsOf character ++ encodeUnits rest).length = _
      rw [List.length_append, induction, length_unitsOf, unitLength]

theorem unitLength_pos {text : Text} (some : text ≠ []) : 0 < text.unitLength := by
  cases text with
  | nil => exact absurd rfl some
  | cons character rest =>
      have size := unitSize_pos character
      rw [unitLength]
      omega

/-! ## Offsets in code units -/

def unitOffset (text : Text) (offset : Nat) : Nat :=
  unitLength (text.takeBytes offset)

theorem unitOffset_append (before after : Text) :
    unitOffset (before ++ after) before.byteLength = before.unitLength := by
  rw [unitOffset, takeBytes_byteLength_append]

theorem unitOffset_lt {text : Text} {first second : Nat}
    (firstBoundary : text.isBoundary first = true) (secondBoundary : text.isBoundary second = true)
    (ascending : first < second) : text.unitOffset first < text.unitOffset second := by
  rcases (isBoundary_iff _ _).mp firstBoundary with ⟨before, rest, rfl, rfl⟩
  rcases split_after secondBoundary (Nat.le_of_lt ascending) with ⟨middle, after, rfl, rfl⟩
  have some : middle ≠ [] := by
    rw [← byteLength_pos_iff]
    omega
  have positive := unitLength_pos some
  rw [unitOffset_append, ← byteLength_append, ← List.append_assoc, unitOffset_append,
    unitLength_append]
  omega

theorem unitOffset_le {text : Text} {first second : Nat}
    (firstBoundary : text.isBoundary first = true) (secondBoundary : text.isBoundary second = true)
    (ordered : first ≤ second) : text.unitOffset first ≤ text.unitOffset second := by
  rcases Nat.lt_or_eq_of_le ordered with ascending | equal
  · exact Nat.le_of_lt (unitOffset_lt firstBoundary secondBoundary ascending)
  · exact Nat.le_of_eq (congrArg text.unitOffset equal)

theorem unitOffset_le_unitLength {text : Text} {offset : Nat}
    (boundary : text.isBoundary offset = true) : text.unitOffset offset ≤ text.unitLength := by
  rcases (isBoundary_iff _ _).mp boundary with ⟨before, after, rfl, rfl⟩
  rw [unitOffset_append, unitLength_append]
  exact Nat.le_add_right _ _

theorem isBoundary_floorBoundary (text : Text) (position : Nat) :
    text.isBoundary (text.floorBoundary position) = true := by
  rcases exists_takeBytes_append text position with ⟨after, split⟩
  have boundary := isBoundary_byteLength_append (text.takeBytes position) after
  rwa [← split] at boundary

end Text

/-! ## Converting offsets -/

namespace OffsetConverter

def Settled (text : Text) (converter : OffsetConverter) : Prop :=
  ∃ before after, text = before ++ after ∧
    converter = ⟨Text.byteLength before, Text.unitLength before⟩

theorem settled_start (text : Text) : Settled text start :=
  ⟨[], text, rfl, rfl⟩

/-- Measuring on from a settled place gives what measuring from the start would give. -/
theorem unit_add_slice {text : Text} {converter : OffsetConverter}
    (settled : Settled text converter) {offset : Nat}
    (further : converter.byte ≤ text.floorBoundary offset) :
    converter.unit + Text.unitLength (text.slice converter.byte (text.floorBoundary offset)) =
      text.unitOffset offset := by
  rcases settled with ⟨before, rest, rfl, rfl⟩
  rcases Text.exists_takeBytes_append (before ++ rest) offset with ⟨after, split⟩
  have boundary := Text.isBoundary_byteLength_append
    (Text.takeBytes (before ++ rest) offset) after
  rw [← split] at boundary
  rcases Text.split_after boundary further with ⟨middle, beyond, rfl, target⟩
  have taken : Text.takeBytes (before ++ (middle ++ beyond)) offset = before ++ middle := by
    have prefixTaken := Text.takeBytes_byteLength_append
      (Text.takeBytes (before ++ (middle ++ beyond)) offset) after
    rw [← split, target, ← Text.byteLength_append, ← List.append_assoc,
      Text.takeBytes_byteLength_append] at prefixTaken
    rw [← List.append_assoc, ← prefixTaken]
  rw [Text.floorBoundary, Text.unitOffset, taken, Text.byteLength_append, ← List.append_assoc,
    Text.slice_append, Text.unitLength_append]

/-- Whatever was asked before, the answer is the number of code units before the offset. -/
theorem convert_of_settled {text : Text} {converter : OffsetConverter}
    (settled : Settled text converter) (offset : Nat) :
    ∃ next, converter.convert text offset = (text.unitOffset offset, next) ∧
      Settled text next := by
  rcases Text.exists_takeBytes_append text offset with ⟨after, split⟩
  refine ⟨⟨text.floorBoundary offset, text.unitOffset offset⟩, ?_, _, after, split, rfl⟩
  rw [convert]
  split
  · rw [unit_add_slice (settled_start text) (Nat.zero_le _)]
  · rw [unit_add_slice settled (by omega)]

end OffsetConverter

def Span.inUnits (text : Text) (span : Span) : Span :=
  ⟨text.unitOffset span.start, text.unitOffset span.stop⟩

theorem ScriptResult.convertSpans_eq_map {text : Text} {converter : OffsetConverter}
    (settled : converter.Settled text) (spans : List Span) :
    convertSpans text converter spans = spans.map (Span.inUnits text) := by
  induction spans generalizing converter with
  | nil => rfl
  | cons span later induction =>
      rcases OffsetConverter.convert_of_settled settled span.start with
        ⟨afterStart, start, startSettled⟩
      rcases OffsetConverter.convert_of_settled startSettled span.stop with
        ⟨afterStop, stop, stopSettled⟩
      simp only [convertSpans, start, stop, induction stopSettled]
      rfl

/-! ## Code units and the bytes of their characters -/

private structure PlacedUnit where
  offset : Nat
  unit : UInt16
  deriving DecidableEq, Repr

namespace Text

private def placedUnitsFrom (offset : Nat) : Text → List PlacedUnit
  | [] => []
  | character :: rest =>
      (unitsOf character).map (⟨offset, ·⟩) ++
        placedUnitsFrom (offset + character.utf8Size) rest

private theorem placedUnitsFrom_append (offset : Nat) (before after : Text) :
    placedUnitsFrom offset (before ++ after) =
      before.placedUnitsFrom offset ++ after.placedUnitsFrom (offset + before.byteLength) := by
  induction before generalizing offset with
  | nil => simp [placedUnitsFrom]
  | cons character before induction =>
      rw [List.cons_append, placedUnitsFrom, placedUnitsFrom, induction, byteLength_cons,
        Nat.add_assoc, List.append_assoc]

private theorem mem_placedUnitsFrom {offset : Nat} {text : Text} {place : PlacedUnit}
    (member : place ∈ text.placedUnitsFrom offset) :
    offset ≤ place.offset ∧ place.offset < offset + text.byteLength := by
  induction text generalizing offset with
  | nil => cases member
  | cons character rest induction =>
      have size := character.utf8Size_pos
      rw [byteLength_cons]
      rcases List.mem_append.mp member with here | later
      · rcases List.mem_map.mp here with ⟨unit, _, rfl⟩
        change offset ≤ offset ∧ offset < _
        omega
      · have bounds := induction later
        omega

private theorem map_unit_placedUnitsFrom (offset : Nat) (text : Text) :
    (text.placedUnitsFrom offset).map (·.unit) = text.encodeUnits := by
  induction text generalizing offset with
  | nil => rfl
  | cons character rest induction =>
      rw [placedUnitsFrom, List.map_append, induction, List.map_map]
      change (unitsOf character).map id ++ _ = _
      rw [List.map_id]
      rfl

end Text

private theorem Span.spreads_units :
    Spreads Text.placedUnitsFrom PlacedUnit.offset PlacedUnit.unit Text.encodeUnits where
  append := Text.placedUnitsFrom_append
  within _ _ _ member := Text.mem_placedUnitsFrom member
  values := Text.map_unit_placedUnitsFrom

private theorem Text.length_placedUnitsFrom (offset : Nat) (text : Text) :
    (text.placedUnitsFrom offset).length = text.unitLength := by
  rw [← length_encodeUnits, ← map_unit_placedUnitsFrom offset, List.length_map]

/-- A boundary stands behind a code unit exactly when it stands behind the unit's character. -/
private theorem Text.lt_unitOffset_iff {text : Text} {boundary : Nat}
    (isBoundary : text.isBoundary boundary = true) :
    ∀ numbered ∈ (text.placedUnitsFrom 0).zipIdx,
      numbered.2 < text.unitOffset boundary ↔ numbered.1.offset < boundary := by
  rcases (isBoundary_iff _ _).mp isBoundary with ⟨before, after, rfl, rfl⟩
  intro numbered member
  rw [placedUnitsFrom_append, List.zipIdx_append, length_placedUnitsFrom] at member
  rw [unitOffset_append]
  rcases List.mem_append.mp member with inFront | behind
  · have bounds := mem_placedUnitsFrom (List.fst_mem_of_mem_zipIdx inFront)
    have index := List.snd_lt_add_of_mem_zipIdx inFront
    rw [length_placedUnitsFrom] at index
    omega
  · have bounds := mem_placedUnitsFrom (List.fst_mem_of_mem_zipIdx behind)
    have index := List.le_snd_of_mem_zipIdx behind
    omega

/-! ## Spans in code units -/

/-- The code units whose positions lie in none of the spans. -/
def Units.outside (units : Units) (spans : List Span) : Units :=
  (units.zipIdx.filter fun unit => Span.Outside spans unit.2).map (·.1)

namespace Span

theorem outside_map_inUnits_iff {text : Text} {spans : List Span}
    (valid : ∀ span ∈ spans, span.isValidIn text = true) :
    ∀ numbered ∈ (text.placedUnitsFrom 0).zipIdx,
      Outside (spans.map (inUnits text)) numbered.2 ↔ Outside spans numbered.1.offset := by
  intro numbered member
  have contains : ∀ span ∈ spans,
      (span.inUnits text).Contains numbered.2 ↔ span.Contains numbered.1.offset := by
    intro span spanMember
    rcases (isValidIn_iff _ _).mp (valid span spanMember) with ⟨_, _, start, stop⟩
    have startSide := Text.lt_unitOffset_iff start numbered member
    have stopSide := Text.lt_unitOffset_iff stop numbered member
    simp only [Contains, inUnits]
    omega
  constructor
  · intro outside span spanMember inside
    exact outside _ (List.mem_map_of_mem spanMember) ((contains span spanMember).mpr inside)
  · intro outside unitSpan unitMember inside
    rcases List.mem_map.mp unitMember with ⟨span, spanMember, rfl⟩
    exact outside span spanMember ((contains span spanMember).mp inside)

/-- The same spans cut the UTF-16 encoding, when both are measured in code units. -/
theorem Cuts.units_outside {spans : List Span} {text remainder : Text}
    (valid : ∀ span ∈ spans, span.isValidIn text = true) (cuts : Cuts 0 spans text remainder) :
    Units.outside text.encodeUnits (spans.map (inUnits text)) = remainder.encodeUnits := by
  have agree : ((text.placedUnitsFrom 0).zipIdx.filter fun numbered =>
        Outside (spans.map (inUnits text)) numbered.2) =
      (text.placedUnitsFrom 0).zipIdx.filter fun numbered =>
        Outside spans numbered.1.offset :=
    List.filter_congr fun numbered member =>
      decide_eq_decide.mpr (outside_map_inUnits_iff valid numbered member)
  calc Units.outside text.encodeUnits (spans.map (inUnits text))
      = ((text.placedUnitsFrom 0).zipIdx.filter fun numbered =>
          Outside (spans.map (inUnits text)) numbered.2).map (·.1.unit) := by
        rw [Units.outside, ← Text.map_unit_placedUnitsFrom 0 text, List.zipIdx_map,
          List.filter_map, List.map_map]
        rfl
    _ = ((text.placedUnitsFrom 0).zipIdx.filter fun numbered =>
          Outside spans numbered.1.offset).map (·.1.unit) := by rw [agree]
    _ = ((text.placedUnitsFrom 0).filter fun unit =>
          Outside spans unit.offset).map (·.unit) := by
        conv => rhs; rw [← List.zipIdx_map_fst 0 (text.placedUnitsFrom 0), List.filter_map,
          List.map_map]
        rfl
    _ = remainder.encodeUnits := cuts.map_filter_outside spreads_units

theorem Cuts.unitLength_add {offset : Nat} {spans : List Span} {text remainder : Text}
    (cuts : Cuts offset spans text remainder) (front : Text) (starts : front.byteLength = offset) :
    remainder.unitLength + totalLength (spans.map (inUnits (front ++ text))) =
      text.unitLength := by
  induction cuts generalizing front with
  | nil => rfl
  | @cons offset kept gone later rest remainder proper further induction =>
      have shifted := induction (front ++ kept ++ gone) (by simp [starts, Nat.add_assoc])
      subst starts
      have whole : front ++ (kept ++ gone ++ rest) = front ++ kept ++ gone ++ rest := by simp
      have start : (front ++ kept ++ gone ++ rest).unitOffset
          (front.byteLength + kept.byteLength) = front.unitLength + kept.unitLength := by
        rw [← Text.byteLength_append, List.append_assoc (front ++ kept), Text.unitOffset_append,
          Text.unitLength_append]
      have stop : (front ++ kept ++ gone ++ rest).unitOffset
          (front.byteLength + kept.byteLength + gone.byteLength) =
            front.unitLength + kept.unitLength + gone.unitLength := by
        rw [← Text.byteLength_append, ← Text.byteLength_append, Text.unitOffset_append,
          Text.unitLength_append, Text.unitLength_append]
      rw [whole, List.map_cons, totalLength, inUnits, length]
      simp only [start, stop, Text.unitLength_append]
      omega

end Span

/-! ## Erasing -/

def Erasure.scriptResult (erasure : Erasure) (source : Text) (commentCount : Nat) : ScriptResult :=
  .ofStripped source
    { code := erasure.remainder
      commentCount := commentCount
      removedBytes := erasure.removedBytes
      removed := erasure.removed }

namespace Text

theorem valid_of_mem_removed (text : Text) (spans : List Span) :
    ∀ span ∈ (text.erase spans).removed, span.isValidIn text = true := by
  intro span member
  change span ∈ Span.select text spans at member
  rw [← Span.map_chosen] at member
  rcases List.mem_map.mp member with ⟨occurrence, selected, rfl⟩
  exact (Span.isValidIn_iff _ _).mpr (Span.valid_of_mem_chosen selected)

theorem ascending_removed (text : Text) (spans : List Span) :
    (text.erase spans).removed.Pairwise fun first second =>
      first.start < second.start ∧ first.stop ≤ second.start := by
  change (Span.select text spans).Pairwise _
  rw [← Span.map_chosen]
  exact List.pairwise_map.mpr (Span.selection_chosen text spans).ascending

/-- The spans handed to a script caller ascend, do not overlap and are not empty, and they cut the
UTF-16 encoding of the source down to that of what erasing leaves, which is the code. -/
theorem erase_in_units (source : Text) (spans : List Span) (commentCount : Nat) :
    let erasure := source.erase spans
    let result := erasure.scriptResult source commentCount
    result.code = erasure.remainder ∧
      result.removed.Pairwise
        (fun first second => first.start < second.start ∧ first.stop ≤ second.start) ∧
      (∀ span ∈ result.removed,
        span.start < span.stop ∧ span.stop ≤ source.encodeUnits.length) ∧
      Units.outside source.encodeUnits result.removed = erasure.remainder.encodeUnits ∧
      result.removedUnits + erasure.remainder.encodeUnits.length = source.encodeUnits.length := by
  intro erasure result
  have valid := valid_of_mem_removed source spans
  have cuts := erase_cuts source spans
  have removed : result.removed = (source.erase spans).removed.map (Span.inUnits source) :=
    ScriptResult.convertSpans_eq_map (OffsetConverter.settled_start source) _
  have removedUnits : result.removedUnits = Span.totalLength result.removed := rfl
  rw [removedUnits, removed]
  refine ⟨rfl, ?_, ?_, cuts.units_outside valid, ?_⟩
  · rw [List.pairwise_map]
    refine (List.Pairwise.and_mem.mp (ascending_removed source spans)).imp ?_
    intro first second placed
    rcases placed with ⟨firstMember, secondMember, ascending, disjoint⟩
    rcases (Span.isValidIn_iff _ _).mp (valid first firstMember) with ⟨_, _, firstStart, firstStop⟩
    rcases (Span.isValidIn_iff _ _).mp (valid second secondMember) with ⟨_, _, secondStart, _⟩
    exact ⟨unitOffset_lt firstStart secondStart ascending,
      unitOffset_le firstStop secondStart disjoint⟩
  · intro unitSpan member
    rcases List.mem_map.mp member with ⟨span, spanMember, rfl⟩
    rcases (Span.isValidIn_iff _ _).mp (valid span spanMember) with ⟨proper, _, start, stop⟩
    rw [length_encodeUnits]
    exact ⟨unitOffset_lt start stop proper, unitOffset_le_unitLength stop⟩
  · rw [length_encodeUnits, length_encodeUnits, Nat.add_comm]
    exact cuts.unitLength_add [] rfl

/-- `🙂` is four bytes and two code units, so the same cut has other numbers. -/
example : (Text.erase ['🙂', 'é', 'a'] [⟨4, 6⟩]).scriptResult ['🙂', 'é', 'a'] 1 =
    ⟨['🙂', 'a'], 1, 1, [⟨2, 3⟩]⟩ := by cbv

end Text

end Uncomment

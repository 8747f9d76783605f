import Uncomment.Proofs.Checked.Lines

/-! # Erasing and measuring with checked steps

Whatever spans are asked for, the ones that reach the erasing loop are valid, and its cursor stands
on a boundary that never goes back. So the loop slices in order, and what it removed can be measured
in code units and mapped by its anchors. -/

namespace Uncomment

/-! ## The algorithms -/

namespace Text

def checkedCut (text : Text) (cursor : Nat) (code : Text) (removed : List Span) :
    List Span → Checked Erasure
  | [] => do
      let rest ← text.checkedSlice cursor text.byteLength
      .ok ⟨code ++ rest, removed⟩
  | span :: later =>
      if span.start < cursor then
        text.checkedCut cursor code removed later
      else do
        let kept ← text.checkedSlice cursor span.start
        text.checkedCut span.stop (code ++ kept) (removed ++ [span]) later

def checkedErase (text : Text) (spans : List Span) : Checked Erasure :=
  text.checkedCut 0 [] [] (Span.sortByStart (spans.filter (Span.isValidIn text)))

end Text

def OffsetConverter.checkedConvert (text : Text) (converter : OffsetConverter) (offset : Nat) :
    Checked (Nat × OffsetConverter) := do
  let target ← text.checkedFloor (min offset text.byteLength)
  let origin := if target < converter.byte then start else converter
  let passed ← text.checkedSlice origin.byte target
  let unit := origin.unit + passed.unitLength
  .ok (unit, ⟨target, unit⟩)

def Span.checkedTotalLength : List Span → Checked Nat
  | [] => .ok 0
  | span :: later => do
      let length ← Checked.difference span.stop span.start
      let total ← checkedTotalLength later
      .ok (length + total)

namespace ScriptResult

def checkedConvertSpans (source : Text) : OffsetConverter → List Span → Checked (List Span)
  | _, [] => .ok []
  | converter, span :: later => do
      let (start, converter) ← converter.checkedConvert source span.start
      let (stop, converter) ← converter.checkedConvert source span.stop
      let others ← checkedConvertSpans source converter later
      .ok (⟨start, stop⟩ :: others)

def checkedOfStripped (source : Text) (stripped : Stripped) : Checked ScriptResult := do
  let removed ← checkedConvertSpans source .start stripped.removed
  let removedUnits ← Span.checkedTotalLength removed
  .ok { code := stripped.code
        commentCount := stripped.commentCount
        removedUnits := removedUnits
        removed := removed }

end ScriptResult

namespace SourceMap

def checkedCopiedOf (source : Text) (output : Nat) (segment : Span) : Checked (List Copied) := do
  let kept ← Checked.slice source.encode segment.start segment.stop
  let starts := (Bytes.lineEnds 0 kept).filter (· < kept.length)
  .ok ((0 :: starts).map fun distance => ⟨output + distance, segment.start + distance⟩)

def checkedCopiedFrom (source : Text) (output : Nat) : List Span → Checked (List Copied)
  | [] => .ok []
  | segment :: later => do
      let copied ← checkedCopiedOf source output segment
      let others ← checkedCopiedFrom source (output + segment.length) later
      .ok (copied ++ others)

def checkedAnchors (source output : Text) (removed : List Span) : Checked (List Anchor) := do
  let copied ← checkedCopiedFrom source 0 (complement source.byteLength removed)
  copied.mapM fun place => do
    let target ← output.checkedPositionAt place.output
    let origin ← source.checkedPositionAt place.source
    .ok (.tie target origin)

end SourceMap

/-! ## Erasing -/

namespace Text

theorem checkedCut_eq {spans : List Span} (before rest code : Text) (removed : List Span)
    (valid : ∀ span ∈ spans, span.isValidIn (before ++ rest) = true) :
    checkedCut (before ++ rest) before.byteLength code removed spans =
      .ok ⟨code ++ Span.cutFrom before.byteLength (Span.selectFrom before.byteLength spans) rest,
        removed ++ Span.selectFrom before.byteLength spans⟩ := by
  induction spans generalizing before rest code removed with
  | nil =>
      have sliced := checkedSlice_append before rest []
      rw [List.append_nil, ← byteLength_append] at sliced
      rw [checkedCut, sliced, Checked.ok_bind, Span.selectFrom, Span.cutFrom, List.append_nil]
  | cons span later induction =>
      have laterValid := fun other member => valid other (List.mem_cons_of_mem _ member)
      rw [checkedCut, Span.selectFrom]
      by_cases covered : span.start < before.byteLength
      · rw [if_pos covered, if_pos covered]
        exact induction before rest code removed laterValid
      · rw [if_neg covered, if_neg covered]
        rcases Span.exists_cut_of_isValidIn (valid _ List.mem_cons_self) (Nat.not_lt.mp covered)
          with ⟨kept, gone, rest, rfl, -, rfl⟩
        have sliced := checkedSlice_append before kept (gone ++ rest)
        have cut := induction (before ++ kept ++ gone) rest (code ++ kept)
          (removed ++ [⟨before.byteLength + kept.byteLength,
            before.byteLength + kept.byteLength + gone.byteLength⟩])
          (by simpa only [List.append_assoc] using laterValid)
        simp only [List.append_assoc, byteLength_append] at sliced cut ⊢
        rw [sliced, Checked.ok_bind]
        simp only [← Nat.add_assoc] at cut ⊢
        rw [cut, ← List.append_assoc kept gone rest, Span.cutFrom_cons]
        simp only [List.singleton_append]

theorem checkedErase_eq (text : Text) (spans : List Span) :
    text.checkedErase spans = .ok (text.erase spans) := by
  have valid : ∀ span ∈ Span.sortByStart (spans.filter (Span.isValidIn text)),
      span.isValidIn ([] ++ text) = true := by
    intro span member
    exact (List.mem_filter.mp (List.mem_mergeSort.mp member)).2
  exact checkedCut_eq [] text [] [] valid

end Text

/-! ## Measuring in code units -/

namespace OffsetConverter

variable {text : Text} {converter : OffsetConverter}

theorem Settled.isBoundary (settled : Settled text converter) :
    text.isBoundary converter.byte = true := by
  rcases settled with ⟨before, after, rfl, rfl⟩
  exact Text.isBoundary_byteLength_append before after

theorem checkedConvert_eq (settled : Settled text converter) (offset : Nat) :
    converter.checkedConvert text offset = .ok (converter.convert text offset) := by
  have target : text.floorBoundary (min offset text.byteLength) = text.floorBoundary offset := by
    rw [Text.floorBoundary, Text.takeBytes_min, Text.floorBoundary]
  have sliced : ∀ {origin : OffsetConverter}, Settled text origin →
      origin.byte ≤ text.floorBoundary offset →
      text.checkedSlice origin.byte (text.floorBoundary offset) =
        .ok (text.slice origin.byte (text.floorBoundary offset)) := fun settled ordered =>
    Text.checkedSlice_of_boundaries ordered settled.isBoundary
      (text.isBoundary_floorBoundary offset)
  rw [checkedConvert, Text.checkedFloor_eq_ok, Checked.ok_bind, target, convert]
  dsimp only
  by_cases back : text.floorBoundary offset < converter.byte
  · rw [if_pos back, sliced (settled_start text) (Nat.zero_le _), Checked.ok_bind]
  · rw [if_neg back, sliced settled (Nat.not_lt.mp back), Checked.ok_bind]

end OffsetConverter

theorem Span.checkedTotalLength_eq {spans : List Span}
    (ordered : ∀ span ∈ spans, span.start ≤ span.stop) :
    checkedTotalLength spans = .ok (totalLength spans) := by
  induction spans with
  | nil => rfl
  | cons span later induction =>
      rw [checkedTotalLength, Checked.difference_of_le (ordered span List.mem_cons_self),
        Checked.ok_bind,
        induction fun other member => ordered other (List.mem_cons_of_mem _ member),
        Checked.ok_bind, totalLength, length]

namespace ScriptResult

theorem checkedConvertSpans_eq {source : Text} {converter : OffsetConverter}
    (settled : converter.Settled source) (spans : List Span) :
    checkedConvertSpans source converter spans = .ok (convertSpans source converter spans) := by
  induction spans generalizing converter with
  | nil => rfl
  | cons span later induction =>
      rcases OffsetConverter.convert_of_settled settled span.start with
        ⟨afterStart, start, startSettled⟩
      rcases OffsetConverter.convert_of_settled startSettled span.stop with
        ⟨afterStop, stop, stopSettled⟩
      rw [checkedConvertSpans, OffsetConverter.checkedConvert_eq settled, start, Checked.ok_bind]
      dsimp only
      rw [OffsetConverter.checkedConvert_eq startSettled, stop, Checked.ok_bind]
      dsimp only
      rw [induction stopSettled, Checked.ok_bind, convertSpans, start]
      dsimp only
      rw [stop]

theorem checkedOfStripped_eq {source : Text} {stripped : Stripped}
    (valid : ∀ span ∈ stripped.removed, span.isValidIn source = true) :
    checkedOfStripped source stripped = .ok (.ofStripped source stripped) := by
  have settled := OffsetConverter.settled_start source
  have ordered : ∀ span ∈ convertSpans source .start stripped.removed, span.start ≤ span.stop := by
    rw [convertSpans_eq_map settled]
    intro unitSpan member
    rcases List.mem_map.mp member with ⟨span, spanMember, rfl⟩
    rcases (Span.isValidIn_iff _ _).mp (valid span spanMember) with ⟨proper, -, start, stop⟩
    exact Text.unitOffset_le start stop (Nat.le_of_lt proper)
  rw [checkedOfStripped, checkedConvertSpans_eq settled, Checked.ok_bind,
    Span.checkedTotalLength_eq ordered, Checked.ok_bind]
  rfl

end ScriptResult

/-! ## Anchors -/

namespace SourceMap

private theorem filter_lineEnds (passed : Nat) (text : Text) :
    (lineEnds passed text).filter (· < passed + text.byteLength) = lineStarts passed text := by
  induction text generalizing passed with
  | nil => rfl
  | cons character rest induction =>
      have further := induction (passed + character.utf8Size)
      rw [Nat.add_assoc, ← Text.byteLength_cons] at further
      rw [lineEnds, lineStarts]
      by_cases feed : character = '\n'
      · have last : passed + 1 < passed + Text.byteLength (character :: rest) ↔ rest ≠ [] := by
          rw [← Text.byteLength_pos_iff, Text.byteLength_cons, feed, Text.utf8Size_feed]
          omega
        by_cases some : rest = []
        · subst some feed
          simp [lineEnds, lineStarts]
        · rw [if_pos feed, if_pos ⟨feed, some⟩, List.filter_cons_of_pos, further]
          exact decide_eq_true (last.mpr some)
      · rw [if_neg feed, if_neg fun starts => feed starts.1, further]

theorem checkedCopiedOf_eq {source : Text} {segment : Span} (output : Nat)
    (valid : segment.isValidIn source = true) :
    checkedCopiedOf source output segment = .ok (copiedOf source output segment) := by
  rcases @Span.exists_cut_of_isValidIn segment [] source valid (Nat.zero_le _) with
    ⟨front, kept, back, rfl, -, rfl⟩
  rw [Text.byteLength_nil, Nat.zero_add]
  have within : front.byteLength + kept.byteLength ≤ (front ++ kept ++ back).encode.length := by
    rw [Text.length_encode, Text.byteLength_append, Text.byteLength_append]
    exact Nat.le_add_right _ _
  have bytes : (((front ++ kept ++ back).encode.take (front.byteLength + kept.byteLength)).drop
      front.byteLength) = kept.encode := by
    rw [Text.encode_append, ← Text.byteLength_append, ← Text.length_encode (front ++ kept),
      List.take_left, Text.encode_append, ← Text.length_encode front, List.drop_left]
  rw [checkedCopiedOf, Checked.slice_of_le (Nat.le_add_right _ _) within, Checked.ok_bind, bytes,
    Text.lineEnds_encode, Text.length_encode, copiedOf, Text.slice_append, ← filter_lineEnds]
  simp only [Nat.zero_add]

private theorem valid_of_mem_complementFrom {source : Text} {cursor : Nat} {removed : List Span}
    (boundary : source.isBoundary cursor = true)
    (valid : ∀ span ∈ removed, span.isValidIn source = true) :
    ∀ segment ∈ complementFrom cursor source.byteLength removed,
      segment.isValidIn source = true := by
  have endBoundary : source.isBoundary source.byteLength = true := by
    have boundary := Text.isBoundary_byteLength_append source []
    rwa [List.append_nil] at boundary
  induction removed generalizing cursor with
  | nil =>
      intro segment member
      rw [complementFrom] at member
      by_cases proper : cursor < source.byteLength
      · rw [if_pos proper] at member
        rw [List.mem_singleton.mp member, Span.isValidIn_iff]
        exact ⟨proper, Nat.le_refl _, boundary, endBoundary⟩
      · rw [if_neg proper] at member
        cases member
  | cons span later induction =>
      rcases (Span.isValidIn_iff _ _).mp (valid span List.mem_cons_self) with
        ⟨-, -, start, stop⟩
      have maxBoundary : source.isBoundary (max cursor span.stop) = true := by
        rw [Nat.max_def]
        split
        · exact stop
        · exact boundary
      have further := induction maxBoundary fun other member =>
        valid other (List.mem_cons_of_mem _ member)
      rw [complementFrom]
      by_cases proper : cursor < span.start
      · rw [if_pos proper]
        refine List.forall_mem_cons.mpr ⟨?_, further⟩
        rw [Span.isValidIn_iff]
        exact ⟨proper, Text.le_byteLength_of_isBoundary start, boundary, start⟩
      · rw [if_neg proper]
        exact further

theorem checkedCopiedFrom_eq {source : Text} {segments : List Span} (output : Nat)
    (valid : ∀ segment ∈ segments, segment.isValidIn source = true) :
    checkedCopiedFrom source output segments = .ok (copiedFrom source output segments) := by
  induction segments generalizing output with
  | nil => rfl
  | cons segment later induction =>
      rw [checkedCopiedFrom, checkedCopiedOf_eq output (valid segment List.mem_cons_self),
        Checked.ok_bind,
        induction _ fun other member => valid other (List.mem_cons_of_mem _ member),
        Checked.ok_bind, copiedFrom]

theorem checkedAnchors_eq {source : Text} {removed : List Span} (output : Text)
    (valid : ∀ span ∈ removed, span.isValidIn source = true) :
    checkedAnchors source output removed = .ok (anchors source output removed) := by
  have segments := valid_of_mem_complementFrom (Text.isBoundary_zero source) valid
  rw [checkedAnchors, complement, checkedCopiedFrom_eq 0 segments, Checked.ok_bind]
  refine Checked.mapM_eq_ok fun place _ => ?_
  rw [Text.checkedPositionAt_eq, Text.checkedPositionAt_eq]
  rfl

end SourceMap

end Uncomment

import Uncomment.Proofs.Mappings
import Uncomment.Proofs.Positions

/-! # Anchors in a written source map

Anchored places of a source are copied one behind the other, so both the places they come from and
the places they are copied to ascend, and positions ascend with their bytes. So the mappings of a
source map step through its anchors in order, and a reader of the document finds them all. -/

namespace Uncomment

namespace Anchor

def output (anchor : Anchor) : Text.UnitPosition :=
  ⟨anchor.outputLine, anchor.outputColumn⟩

def source (anchor : Anchor) : Text.UnitPosition :=
  ⟨anchor.sourceLine, anchor.sourceColumn⟩

variable {text : Text} (small : text.byteLength < UInt32.size) (offset : Nat)
  (other : Text.UnitPosition)

include small

theorem output_tie :
    (tie (text.unitPositionAt offset) other).output = text.unitPositionAt offset := by
  rw [output, tie, (stored_unitPositionAt small offset).1, (stored_unitPositionAt small offset).2]

theorem source_tie :
    (tie other (text.unitPositionAt offset)).source = text.unitPositionAt offset := by
  rw [source, tie, (stored_unitPositionAt small offset).1, (stored_unitPositionAt small offset).2]

end Anchor

namespace SourceMap

open Text

/-! ## Copied places -/

structure Copied.AtOrBefore (first second : Copied) : Prop where
  output : first.output ≤ second.output
  source : first.source ≤ second.source

theorem Copied.AtOrBefore.trans {first second third : Copied} (front : first.AtOrBefore second)
    (back : second.AtOrBefore third) : first.AtOrBefore third where
  output := front.output.trans back.output
  source := front.source.trans back.source

private theorem pairwise_lineStarts (passed : Nat) (text : Text) :
    (lineStarts passed text).Pairwise (· ≤ ·) := by
  induction text generalizing passed with
  | nil => exact .nil
  | cons character rest induction =>
      rw [lineStarts]
      by_cases starts : character = '\n' ∧ rest ≠ []
      · rw [if_pos starts]
        refine .cons ?_ (induction _)
        intro distance member
        rcases lineStarts_within _ rest distance member with ⟨before, after, -, rfl⟩
        rw [starts.1, utf8Size_feed]
        exact Nat.le_add_right _ _
      · rw [if_neg starts]
        exact induction _

private theorem copiedPiece_between {output origin : Nat} {kept : Text} {place : Copied}
    (member : place ∈ copiedPiece output origin kept) :
    Copied.AtOrBefore ⟨output, origin⟩ place ∧
      place.AtOrBefore ⟨output + kept.byteLength, origin + kept.byteLength⟩ := by
  rw [copiedPiece] at member
  split at member
  · cases member
  · rcases List.mem_map.mp member with ⟨distance, anchored, rfl⟩
    have within : distance ≤ kept.byteLength := by
      rcases List.mem_cons.mp anchored with rfl | starts
      · exact Nat.zero_le _
      · rcases lineStarts_within 0 kept distance starts with ⟨before, after, rfl, rfl⟩
        simp
    exact ⟨⟨Nat.le_add_right _ _, Nat.le_add_right _ _⟩,
      ⟨Nat.add_le_add_left within _, Nat.add_le_add_left within _⟩⟩

private theorem pairwise_copiedPiece (output origin : Nat) (kept : Text) :
    (copiedPiece output origin kept).Pairwise Copied.AtOrBefore := by
  rw [copiedPiece]
  split
  · exact .nil
  · have ascending : (0 :: lineStarts 0 kept).Pairwise (· ≤ ·) := by
      simp [pairwise_lineStarts]
    apply ascending.map
    intro first second ordered
    exact ⟨Nat.add_le_add_left ordered output, Nat.add_le_add_left ordered origin⟩

private theorem pairwise_append_of_between {first last : Copied} {piece later : List Copied}
    (ordered : first.AtOrBefore last) (ascending : piece.Pairwise Copied.AtOrBefore)
    (between : ∀ place ∈ piece, first.AtOrBefore place ∧ place.AtOrBefore last)
    (behind : (last :: later).Pairwise Copied.AtOrBefore) :
    (first :: (piece ++ later)).Pairwise Copied.AtOrBefore := by
  rcases List.pairwise_cons.mp behind with ⟨beyond, laterAscending⟩
  refine .cons ?_ (List.pairwise_append.mpr ⟨ascending, laterAscending, ?_⟩)
  · intro place member
    rcases List.mem_append.mp member with inPiece | inLater
    · exact (between place inPiece).1
    · exact ordered.trans (beyond place inLater)
  · intro place inPiece other inLater
    exact (between place inPiece).2.trans (beyond other inLater)

variable {offset : Nat} {spans : List Span} {text remainder : Text}

/-- The anchored places of the kept parts ascend, from the start of the text on. -/
theorem pairwise_copied (cuts : Span.Cuts offset spans text remainder) :
    ∀ (front : Text) (output : Nat), front.byteLength = offset →
      (⟨output, offset⟩ :: copiedFrom (front ++ text) output
        (complementFrom offset (offset + text.byteLength) spans)).Pairwise
          Copied.AtOrBefore := by
  induction cuts with
  | nil offset text =>
      intro front output length
      subst length
      rw [copiedFrom_complementFrom_nil, List.pairwise_cons]
      exact ⟨fun place member => (copiedPiece_between member).1, pairwise_copiedPiece _ _ _⟩
  | @cons offset kept gone spans rest remainder proper further induction =>
      intro front output length
      subst length
      have behind := induction (front ++ kept ++ gone) (output + kept.byteLength) (by
        simp only [byteLength_append])
      simp only [List.append_assoc] at behind
      rw [copiedFrom_complementFrom_cons]
      simp only [List.append_assoc, byteLength_append, ← Nat.add_assoc] at behind ⊢
      apply pairwise_append_of_between _ (pairwise_copiedPiece _ _ _) _ behind
      · exact ⟨Nat.le_add_right _ _, (Nat.le_add_right _ _).trans (Nat.le_add_right _ _)⟩
      · intro place member
        rcases copiedPiece_between member with ⟨starts, stops⟩
        exact ⟨starts, stops.output, stops.source.trans (Nat.le_add_right _ _)⟩

end SourceMap

/-! ## The end of an object -/

namespace Json

private theorem compactMembers_append (members : List (String × Json)) (name : String)
    (value : Json) :
    compactMembers (members ++ [(name, value)]) =
      compactMembers members ++ [quote name ++ ":" ++ value.compact] := by
  induction members with
  | nil => rfl
  | cons member members induction =>
      rw [List.cons_append, compactMembers, compactMembers, induction, List.cons_append]

private theorem exists_intercalate_eq (separator : String) (items : List String) (last : String) :
    ∃ front, separator.intercalate (items ++ [last]) = front ++ last := by
  by_cases alone : items = []
  · exact ⟨"", by simp [alone]⟩
  · refine ⟨separator.intercalate items ++ separator, ?_⟩
    rw [String.intercalate_append_of_ne_nil alone (List.cons_ne_nil last []),
      String.intercalate_singleton]

private theorem exists_compact_append (members : List (String × Json)) (name : String)
    (value : Json) :
    ∃ front, (object (members ++ [(name, value)])).compact =
      front ++ (quote name ++ ":" ++ value.compact) ++ "\x7d" := by
  rcases exists_intercalate_eq "," (compactMembers members)
    (quote name ++ ":" ++ value.compact) with ⟨front, split⟩
  refine ⟨"\x7b" ++ front, ?_⟩
  rw [compact, compactMembers_append, split]
  simp only [String.append_assoc]

end Json

/-! ## Ascending anchors -/

namespace SourceMap

open Text

/-- Anchors stand in the order of the output, and in the order of the source they lead to. -/
structure Ascend (anchors : List Anchor) : Prop where
  output : anchors.Pairwise fun first second => first.output.AtOrBefore second.output
  source : anchors.Pairwise fun first second => first.source.AtOrBefore second.source

theorem ascend_anchors {source remainder : Text} {removed : List Span}
    (sourceSmall : source.byteLength < UInt32.size)
    (outputSmall : remainder.byteLength < UInt32.size)
    (cuts : Span.Cuts 0 removed source remainder) :
    Ascend (anchors source remainder removed) := by
  have copied := (List.pairwise_cons.mp (pairwise_copied cuts [] 0 rfl)).2
  rw [List.nil_append, Nat.zero_add] at copied
  constructor
  · apply copied.map
    intro first second ordered
    rw [Anchor.output_tie outputSmall, Anchor.output_tie outputSmall]
    exact remainder.unitPositionAt_mono ordered.output
  · apply copied.map
    intro first second ordered
    rw [Anchor.source_tie sourceSmall, Anchor.source_tie sourceSmall]
    exact source.unitPositionAt_mono ordered.source

theorem Ascend.linesAscend {anchors : List Anchor} (ascend : Ascend anchors) :
    LinesAscend anchors := by
  apply ascend.output.imp
  intro first second ordered
  rcases ordered with below | ⟨sameLine, -⟩
  · exact Nat.le_of_lt below
  · exact Nat.le_of_eq sameLine

/-! ## The written document -/

private def IsWritten (character : Char) : Prop :=
  character = ';' ∨ character = ',' ∨ character ∈ Vlq.alphabet

private theorem isWritten_of_mem_encodeAnchor {previous anchor : Anchor} {character : Char}
    (member : character ∈ encodeAnchor previous anchor) : IsWritten character :=
  .inr (.inr ((isSegment_encodeAnchor previous anchor).digits character member))

private theorem isWritten_of_mem_encodeOnNewLine {previous anchor : Anchor} {character : Char}
    (member : character ∈ encodeOnNewLine previous anchor) : IsWritten character := by
  rcases List.mem_append.mp member with steps | quantities
  · exact .inl (List.eq_of_mem_replicate steps)
  · exact isWritten_of_mem_encodeAnchor quantities

private theorem isWritten_of_mem_encodeAfter {previous : Anchor} {later : List Anchor}
    {character : Char} (member : character ∈ encodeAfter previous later) : IsWritten character := by
  induction later generalizing previous with
  | nil => cases member
  | cons anchor later induction =>
      rw [encodeAfter] at member
      split at member
      · rcases List.mem_append.mp member with here | further
        · exact isWritten_of_mem_encodeOnNewLine here
        · exact induction further
      split at member
      · exact induction member
      · rcases List.mem_cons.mp member with comma | member
        · exact .inr (.inl comma)
        rcases List.mem_append.mp member with here | further
        · exact isWritten_of_mem_encodeAnchor here
        · exact induction further

private theorem isWritten_of_mem_mappings {anchors : List Anchor} {character : Char}
    (member : character ∈ mappings anchors) : IsWritten character := by
  cases anchors with
  | nil => cases member
  | cons anchor later =>
      rcases List.mem_append.mp member with here | further
      · exact isWritten_of_mem_encodeOnNewLine here
      · exact isWritten_of_mem_encodeAfter further

/-- Mappings stand in a string of a document as they are. -/
private theorem escape_of_isWritten {character : Char} (written : IsWritten character) :
    Json.escape character = [character] := by
  have plain : (';' :: ',' :: Vlq.alphabet).all (fun character =>
      Json.escape character = [character]) = true := by
    decide +kernel
  have member : character ∈ ';' :: ',' :: Vlq.alphabet := by
    simpa [IsWritten] using written
  exact of_decide_eq_true (List.all_eq_true.mp plain character member)

theorem quote_mappings (anchors : List Anchor) :
    Json.quote (String.ofList (mappings anchors)) =
      "\"" ++ String.ofList (mappings anchors) ++ "\"" := by
  have same : (mappings anchors).flatMap Json.escape = mappings anchors := by
    rw [List.flatMap_congr fun character member =>
      escape_of_isWritten (isWritten_of_mem_mappings member)]
    exact List.flatMap_singleton' _
  rw [Json.quote, String.toList_ofList, same]

/-- The mappings are the last member of the written document. -/
theorem exists_render_eq (sourceName : String) (source output : Text) (removed : List Span) :
    ∃ front, render sourceName source output removed =
      front ++ "\"mappings\":\"" ++
        String.ofList (mappings (anchors source output removed)) ++ "\"\x7d" := by
  rcases Json.exists_compact_append [
      ("version", .number 3),
      ("sources", .array [.string sourceName]),
      ("sourcesContent", .array [.string (String.ofList source)]),
      ("names", .array [])]
    "mappings" (.string (String.ofList (mappings (anchors source output removed)))) with
    ⟨front, printed⟩
  have name : Json.quote "mappings" ++ ":" ++ "\"" = "\"mappings\":\"" := by decide +kernel
  have close : "\"" ++ "\x7d" = "\"\x7d" := by decide +kernel
  refine ⟨front, printed.trans ?_⟩
  rw [Json.compact, quote_mappings, ← name, ← close]
  simp only [String.append_assoc]

/-- The anchors of an erasure ascend, in the output and in the source. The source map ends with
their mappings, and from these a reader finds the anchors in their order, without those that repeat
the anchor before them. -/
theorem mappings_keep_anchors (sourceName : String) (source : Text) (spans : List Span)
    (small : source.byteLength < UInt32.size) :
    let erasure := source.erase spans
    let added := anchors source erasure.remainder erasure.removed
    (added.Pairwise fun first second => first.output.AtOrBefore second.output) ∧
    (added.Pairwise fun first second => first.source.AtOrBefore second.source) ∧
    ∃ written : Text,
      (document sourceName source erasure.remainder erasure.removed).member? "mappings" =
        some (.string (String.ofList written)) ∧
      (∃ front, render sourceName source erasure.remainder erasure.removed =
        front ++ "\"mappings\":\"" ++ String.ofList written ++ "\"\x7d") ∧
      readMappings? written = some ((added.destutter (· ≠ ·)).map (Mapping.mk 0)) := by
  have lengths := byteLength_remainder_add source spans
  have outputSmall : (source.erase spans).remainder.byteLength < UInt32.size := by omega
  intro erasure added
  have ascend : Ascend added := ascend_anchors small outputSmall (erase_cuts source spans)
  refine ⟨ascend.output, ascend.source, mappings added, rfl, ?_, ?_⟩
  · exact exists_render_eq sourceName source erasure.remainder erasure.removed
  · exact readMappings?_mappings added ascend.linesAscend

def commentedLines : Text := ['🙂', '/', '/', '\r', '\n', '🙂', 'x']

/-- The third anchor leads to an earlier column than the second one. -/
theorem mappings_keep_anchors_commentedLines :
    commentedLines.byteLength < UInt32.size ∧
      ∃ written : Text,
        (∃ front, render "input" commentedLines ['🙂', '\r', '\n', '🙂', 'x'] [⟨4, 6⟩] =
          front ++ "\"mappings\":\"" ++ String.ofList written ++ "\"\x7d") ∧
        readMappings? written =
          some [⟨0, ⟨0, 0, 0, 0⟩⟩, ⟨0, ⟨0, 2, 0, 4⟩⟩, ⟨0, ⟨1, 0, 1, 0⟩⟩] := by
  have small : commentedLines.byteLength < UInt32.size := by decide
  have erased : commentedLines.erase [⟨4, 6⟩, ⟨5, 6⟩] =
      { remainder := ['🙂', '\r', '\n', '🙂', 'x'], removed := [⟨4, 6⟩] } := by
    rw [erase, Span.select_of_pairwise (by decide)]
    rfl
  have anchored : ((anchors commentedLines ['🙂', '\r', '\n', '🙂', 'x'] [⟨4, 6⟩]).destutter
      (· ≠ ·)).map (Mapping.mk 0) =
        [⟨0, ⟨0, 0, 0, 0⟩⟩, ⟨0, ⟨0, 2, 0, 4⟩⟩, ⟨0, ⟨1, 0, 1, 0⟩⟩] := by
    decide
  have found := mappings_keep_anchors "input" commentedLines [⟨4, 6⟩, ⟨5, 6⟩] small
  dsimp only at found
  rw [erased] at found
  rcases found with ⟨-, -, written, -, rendered, reads⟩
  exact ⟨small, written, rendered, reads.trans (congrArg some anchored)⟩

end SourceMap

end Uncomment

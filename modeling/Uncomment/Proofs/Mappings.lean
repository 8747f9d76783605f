import Mathlib.Data.List.Destutter
import Mathlib.Data.List.GetD
import Uncomment.Proofs.Text
import Uncomment.SourceMap.Basic

/-! # Reading mappings

A reader of mappings as source maps of version 3 define them: a semicolon ends a line, a comma ends
a segment, and a segment is four quantities, each of them counted from the mapping before. Output
columns are counted from 0 on every line. The reader gives back the anchors that were written,
however far apart they are, as long as their lines in the output do not go up. -/

namespace Uncomment

/-! ## Quantities -/

namespace Vlq

def value? (character : Char) : Option Nat :=
  alphabet.idxOf? character

def readDigits? : Text → Option (Nat × Text)
  | [] => none
  | character :: rest => do
      let value ← value? character
      if value < 32 then
        some (value, rest)
      else
        (readDigits? rest).map fun (higher, rest) => (value - 32 + 32 * higher, rest)

def withoutSign (number : Nat) : Int :=
  if number % 2 = 0 then (number / 2 : Nat) else -(number / 2 : Nat)

def read? (text : Text) : Option (Int × Text) :=
  (readDigits? text).map fun (number, rest) => (withoutSign number, rest)

theorem value?_digit {value : Nat} (small : value < 64) : value? (digit value) = some value := by
  have each : ∀ value : Fin 64, value? (digit value) = some value.val := by decide +kernel
  exact each ⟨value, small⟩

private theorem withoutSign_withSign (value : Int) : withoutSign (withSign value) = value := by
  unfold withSign withoutSign
  split_ifs <;> omega

theorem readDigits?_digits (number : Nat) (rest : Text) :
    readDigits? (digits number ++ rest) = some (number, rest) := by
  induction number using digits.induct with
  | case1 number last =>
      rw [digits, if_pos last, List.singleton_append, readDigits?, value?_digit (by omega)]
      exact if_pos last
  | case2 number more induction =>
      have lower : number % 32 + 32 - 32 + 32 * (number / 32) = number := by omega
      rw [digits, if_neg more, List.cons_append, readDigits?, value?_digit (by omega),
        Option.bind_eq_bind, Option.bind_some, if_neg (by omega), induction, Option.map_some]
      dsimp only
      rw [lower]

theorem read?_encode (value : Int) (rest : Text) :
    read? (encode value ++ rest) = some (value, rest) := by
  rw [read?, encode, readDigits?_digits, Option.map_some]
  dsimp only
  rw [withoutSign_withSign]

theorem digit_mem_alphabet (value : Nat) : digit value ∈ alphabet := by
  rw [digit]
  by_cases within : value < alphabet.length
  · rw [List.getD_eq_getElem alphabet 'A' within]
    exact List.getElem_mem within
  · rw [List.getD_eq_default alphabet 'A' (Nat.le_of_not_lt within)]
    exact by decide +kernel

private theorem mem_alphabet_of_mem_digits {number : Nat} {character : Char}
    (member : character ∈ digits number) : character ∈ alphabet := by
  induction number using digits.induct with
  | case1 number last =>
      rw [digits, if_pos last] at member
      rw [List.mem_singleton.mp member]
      exact digit_mem_alphabet number
  | case2 number more induction =>
      rw [digits, if_neg more] at member
      rcases List.mem_cons.mp member with rfl | further
      · exact digit_mem_alphabet (number % 32 + 32)
      · exact induction further

private theorem digits_ne_nil (number : Nat) : digits number ≠ [] := by
  rw [digits]
  split <;> exact List.cons_ne_nil _ _

end Vlq

namespace SourceMap

open Text

structure Mapping where
  source : Nat
  anchor : Anchor
  deriving DecidableEq, Repr

/-! ## Reading -/

def Mapping.onNextLine (previous : Mapping) : Mapping where
  source := previous.source
  anchor :=
    { previous.anchor with
      outputLine := previous.anchor.outputLine + 1
      outputColumn := 0 }

def readSegment? (previous : Mapping) (segment : Text) : Option Mapping := do
  let (outputColumn, rest) ← Vlq.read? segment
  let (source, rest) ← Vlq.read? rest
  let (sourceLine, rest) ← Vlq.read? rest
  let (sourceColumn, rest) ← Vlq.read? rest
  if rest = [] then
    some {
      source := ← Int.toNat? (previous.source + source)
      anchor := {
        outputLine := previous.anchor.outputLine
        outputColumn := ← Int.toNat? (previous.anchor.outputColumn + outputColumn)
        sourceLine := ← Int.toNat? (previous.anchor.sourceLine + sourceLine)
        sourceColumn := ← Int.toNat? (previous.anchor.sourceColumn + sourceColumn) } }
  else
    none

def readSegments? (previous : Mapping) : List Text → Option (List Mapping)
  | [] => some []
  | segment :: later => do
      let mapping ← readSegment? previous segment
      let further ← readSegments? mapping later
      some (mapping :: further)

def readLines? (previous : Mapping) : List (List Text) → Option (List Mapping)
  | [] => some []
  | segments :: later => do
      let found ← readSegments? previous segments
      let further ← readLines? (found.getLastD previous).onNextLine later
      some (found ++ further)

def segments (line : Text) : List Text :=
  if line = [] then [] else splitAt ',' line

def segmentedLines (text : Text) : List (List Text) :=
  (splitAt ';' text).map segments

/-- Read the mappings that a source map of version 3 lists. -/
def readMappings? (text : Text) : Option (List Mapping) :=
  readLines? ⟨0, origin⟩ (segmentedLines text)

example : readMappings? "EAAS;;AACL".toList = some [⟨0, ⟨0, 2, 0, 9⟩⟩, ⟨0, ⟨2, 0, 1, 4⟩⟩] := by
  decide +kernel

/-! ## One segment -/

private theorem toNat?_add_sub (previous number : Nat) :
    Int.toNat? ((previous : Int) + ((number : Int) - previous)) = some number := by
  have whole : (previous : Int) + ((number : Int) - previous) = number := by omega
  rw [whole]
  rfl

theorem readSegment?_encodeAnchor (source : Nat) {previous anchor : Anchor}
    (sameLine : anchor.outputLine = previous.outputLine) :
    readSegment? ⟨source, previous⟩ (encodeAnchor previous anchor) = some ⟨source, anchor⟩ := by
  have last := Vlq.read?_encode ((anchor.sourceColumn : Int) - previous.sourceColumn) []
  have sameSource : Int.toNat? ((source : Int) + 0) = some source := rfl
  rw [List.append_nil] at last
  simp only [readSegment?, encodeAnchor, List.append_assoc, Vlq.read?_encode, last, toNat?_add_sub,
    sameSource, Option.bind_eq_bind, Option.bind_some, if_true, ← sameLine]

structure IsSegment (text : Text) : Prop where
  nonempty : text ≠ []
  digits : ∀ character ∈ text, character ∈ Vlq.alphabet

namespace IsSegment

variable {segment : Text} (isSegment : IsSegment segment)

include isSegment

private theorem semicolon_not_mem : ';' ∉ segment := by
  intro member
  have digit := isSegment.digits ';' member
  exact absurd digit (by decide +kernel)

private theorem comma_not_mem : ',' ∉ segment := by
  intro member
  have digit := isSegment.digits ',' member
  exact absurd digit (by decide +kernel)

end IsSegment

theorem isSegment_encodeAnchor (previous anchor : Anchor) :
    IsSegment (encodeAnchor previous anchor) where
  nonempty := by
    rw [encodeAnchor, List.append_assoc, List.append_assoc]
    exact List.append_ne_nil_of_left_ne_nil (Vlq.digits_ne_nil _) _
  digits := by
    intro character member
    simp only [encodeAnchor, List.mem_append, or_assoc] at member
    rcases member with member | member | member | member <;>
      exact Vlq.mem_alphabet_of_mem_digits member

/-! ## Segments of lines -/

private theorem segmentedLines_semicolon (text : Text) :
    segmentedLines (';' :: text) = [] :: segmentedLines text := by
  rw [segmentedLines, splitAt, if_pos rfl]
  rfl

private theorem segmentedLines_replicate (count : Nat) (text : Text) :
    segmentedLines (List.replicate count ';' ++ text) =
      List.replicate count [] ++ segmentedLines text := by
  induction count with
  | zero => rfl
  | succ count induction =>
      rw [List.replicate_succ, List.replicate_succ, List.cons_append, List.cons_append,
        segmentedLines_semicolon, induction]

section Segment

variable {segment : Text} (isSegment : IsSegment segment)

include isSegment

private theorem segments_segment : segments segment = [segment] := by
  rw [segments, if_neg isSegment.nonempty, splitAt_of_not_mem isSegment.comma_not_mem]

private theorem segmentedLines_segment : segmentedLines segment = [[segment]] := by
  rw [segmentedLines, splitAt_of_not_mem isSegment.semicolon_not_mem, List.map_singleton,
    segments_segment isSegment]

private theorem segmentedLines_segment_semicolon (text : Text) :
    segmentedLines (segment ++ ';' :: text) = [segment] :: segmentedLines text := by
  rw [segmentedLines, splitAt_append, List.map_append]
  have front := segmentedLines_segment isSegment
  rw [segmentedLines] at front
  rw [front]
  rfl

private theorem segmentedLines_segment_comma {text first : Text} {more : List Text}
    {lines : List (List Text)} (further : segmentedLines text = (first :: more) :: lines) :
    segmentedLines (segment ++ ',' :: text) = (segment :: first :: more) :: lines := by
  have oneLine : ';' ∉ segment ++ [','] := by
    simp [isSegment.semicolon_not_mem]
  rw [segmentedLines] at further ⊢
  cases parts : splitAt ';' text with
  | nil => exact absurd parts (splitAt_ne_nil ';' text)
  | cons line others =>
      rw [parts, List.map_cons, List.cons.injEq] at further
      have some : line ≠ [] := by
        rintro rfl
        cases further.1
      have whole : segments (segment ++ [','] ++ line) = segment :: first :: more := by
        rw [List.append_assoc, List.singleton_append, segments, if_neg (by simp), splitAt_append,
          splitAt_of_not_mem isSegment.comma_not_mem, ← further.1, segments, if_neg some]
        rfl
      rw [← List.singleton_append, ← List.append_assoc, splitAt_append_of_not_mem oneLine parts,
        List.map_cons, whole, further.2]

end Segment

/-! ## Lines -/

theorem readLines?_onNextLine (previous : Mapping) (lines : List (List Text)) :
    readLines? previous ([] :: lines) = readLines? previous.onNextLine lines := by
  rw [readLines?, readSegments?, Option.bind_eq_bind, Option.bind_some, List.getLastD_nil]
  cases readLines? previous.onNextLine lines <;> rfl

theorem readLines?_cons {previous next : Mapping} {segment : Text}
    (reads : readSegment? previous segment = some next) (more : List Text)
    (lines : List (List Text)) :
    readLines? previous ((segment :: more) :: lines) =
      (readLines? next (more :: lines)).map (next :: ·) := by
  simp only [readLines?, readSegments?, reads, Option.bind_eq_bind, Option.bind_some]
  cases readSegments? next more with
  | none => rfl
  | some found =>
      simp only [Option.bind_some, List.getLastD_cons]
      cases readLines? (found.getLastD next).onNextLine lines <;> rfl

/-- A reader at the start of a line steps down over empty ones. -/
theorem readLines?_replicate (source line sourceLine sourceColumn count : Nat)
    (lines : List (List Text)) :
    readLines? ⟨source, ⟨line, 0, sourceLine, sourceColumn⟩⟩ (List.replicate count [] ++ lines) =
      readLines? ⟨source, ⟨line + count, 0, sourceLine, sourceColumn⟩⟩ lines := by
  induction count generalizing line with
  | zero => rfl
  | succ count induction =>
      rw [List.replicate_succ, List.cons_append, readLines?_onNextLine, Mapping.onNextLine,
        induction, Nat.add_right_comm, Nat.add_assoc]

/-! ## All anchors -/

def LinesAscend (anchors : List Anchor) : Prop :=
  anchors.Pairwise fun first second => first.outputLine ≤ second.outputLine

def distinctMappings (anchors : List Anchor) : List Mapping :=
  (anchors.destutter (· ≠ ·)).map (Mapping.mk 0)

private theorem distinctMappings_repeat (anchor : Anchor) (later : List Anchor) :
    distinctMappings (anchor :: anchor :: later) = distinctMappings (anchor :: later) := by
  rw [distinctMappings, List.destutter_cons', List.destutter'_cons_neg _ (not_not.mpr rfl)]
  rfl

private theorem distinctMappings_cons {first second : Anchor} (different : second ≠ first)
    (later : List Anchor) :
    distinctMappings (first :: second :: later) =
      ⟨0, first⟩ :: distinctMappings (second :: later) := by
  rw [distinctMappings, List.destutter_cons', List.destutter'_cons_pos _ (Ne.symm different)]
  rfl

/-- What is written behind an anchor is the rest of its line, `more`, and the further lines. From
there a reader finds the anchors that follow. -/
private structure ReadsOn (previous : Anchor) (later : List Anchor) (more : List Text)
    (lines : List (List Text)) (found : List Mapping) : Prop where
  written : ∀ {segment : Text}, IsSegment segment →
    segmentedLines (segment ++ encodeAfter previous later) = (segment :: more) :: lines
  reads : readLines? ⟨0, previous⟩ (more :: lines) = some found
  found_eq : ⟨0, previous⟩ :: found = distinctMappings (previous :: later)

namespace ReadsOn

variable {previous anchor : Anchor} {later : List Anchor} {more : List Text}
  {lines : List (List Text)} {found : List Mapping}
  (readsOn : ReadsOn anchor later more lines found)

include readsOn

/-- On the line of an anchor, a reader finds the anchor and those that follow. -/
private theorem readLines?_eq (start : Anchor) (sameLine : anchor.outputLine = start.outputLine) :
    readLines? ⟨0, start⟩ ((encodeAnchor start anchor :: more) :: lines) =
      some (distinctMappings (anchor :: later)) := by
  rw [readLines?_cons (readSegment?_encodeAnchor 0 sameLine), readsOn.reads, Option.map_some,
    readsOn.found_eq]

private theorem segmentedLines_encodeAnchor (count : Nat) (start : Anchor) :
    segmentedLines (List.replicate count ';' ++
        (encodeAnchor start anchor ++ encodeAfter anchor later)) =
      List.replicate count [] ++ (encodeAnchor start anchor :: more) :: lines := by
  rw [segmentedLines_replicate, readsOn.written (isSegment_encodeAnchor start anchor)]

private theorem onNewLine {count : Nat}
    (below : anchor.outputLine = previous.outputLine + (count + 1)) :
    ReadsOn previous (anchor :: later) []
      (List.replicate count [] ++
        (encodeAnchor { previous with outputColumn := 0 } anchor :: more) :: lines)
      (distinctMappings (anchor :: later)) where
  written := by
    intro segment isSegment
    rw [encodeAfter, if_pos (by omega), encodeOnNewLine, below, Nat.add_sub_cancel_left,
      List.replicate_succ, List.cons_append, List.cons_append, List.append_assoc,
      segmentedLines_segment_semicolon isSegment, readsOn.segmentedLines_encodeAnchor]
  reads := by
    rw [readLines?_onNextLine, Mapping.onNextLine, readLines?_replicate]
    apply readsOn.readLines?_eq
    rw [below, Nat.add_comm count, Nat.add_assoc]
  found_eq := by
    rw [distinctMappings_cons]
    rintro rfl
    omega

private theorem onSameLine (sameLine : anchor.outputLine = previous.outputLine)
    (different : anchor ≠ previous) :
    ReadsOn previous (anchor :: later) (encodeAnchor previous anchor :: more) lines
      (distinctMappings (anchor :: later)) where
  written := by
    intro segment isSegment
    rw [encodeAfter, if_neg (not_not.mpr sameLine), if_neg different]
    exact segmentedLines_segment_comma isSegment
      (readsOn.written (isSegment_encodeAnchor previous anchor))
  reads := readsOn.readLines?_eq previous sameLine
  found_eq := (distinctMappings_cons different later).symm

private theorem repeated : ReadsOn anchor (anchor :: later) more lines found where
  written := by
    intro segment isSegment
    rw [encodeAfter, if_neg (not_not.mpr rfl), if_pos rfl]
    exact readsOn.written isSegment
  reads := readsOn.reads
  found_eq := by rw [readsOn.found_eq, distinctMappings_repeat]

end ReadsOn

private theorem readsOn_nil (previous : Anchor) : ReadsOn previous [] [] [] [] where
  written := by
    intro segment isSegment
    rw [encodeAfter, List.append_nil]
    exact segmentedLines_segment isSegment
  reads := readLines?_onNextLine _ []
  found_eq := rfl

private theorem exists_readsOn (previous : Anchor) (later : List Anchor)
    (ascend : LinesAscend (previous :: later)) :
    ∃ more lines found, ReadsOn previous later more lines found := by
  -- A step down ends the line of `previous`, and any other anchor goes on with it.
  induction later generalizing previous with
  | nil => exact ⟨[], [], [], readsOn_nil previous⟩
  | cons anchor later induction =>
      rcases List.pairwise_cons.mp ascend with ⟨notAbove, further⟩
      rcases induction anchor further with ⟨more, lines, found, readsOn⟩
      rcases Nat.lt_or_eq_of_le (notAbove anchor List.mem_cons_self) with below | sameLine
      · rcases Nat.exists_eq_add_of_lt below with ⟨count, distance⟩
        exact ⟨_, _, _, readsOn.onNewLine distance⟩
      · by_cases same : anchor = previous
        · subst previous
          exact ⟨_, _, _, readsOn.repeated⟩
        · exact ⟨_, _, _, readsOn.onSameLine sameLine.symm same⟩

/-- The mappings that are written for anchors are read back as these anchors. -/
theorem readMappings?_mappings (anchors : List Anchor) (ascend : LinesAscend anchors) :
    readMappings? (mappings anchors) = some (distinctMappings anchors) := by
  cases anchors with
  | nil => rfl
  | cons anchor later =>
      rcases exists_readsOn anchor later ascend with ⟨more, lines, found, readsOn⟩
      rw [readMappings?, mappings, encodeOnNewLine, List.append_assoc,
        readsOn.segmentedLines_encodeAnchor, origin, Nat.sub_zero, readLines?_replicate]
      apply readsOn.readLines?_eq
      exact (Nat.zero_add _).symm

end SourceMap

end Uncomment

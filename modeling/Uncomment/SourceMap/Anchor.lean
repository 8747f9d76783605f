import Uncomment.Span.Basic
import Uncomment.Text.Lines

/-! # Anchors

An anchor says where a place of an output comes from. The output is its source without some spans,
so every stretch between two spans was copied as it is: an anchor stands at the start of each
stretch, and at the start of each line inside one. -/

namespace Uncomment

/-- A place of the output and the place of the source it was copied from. Columns count UTF-16 code
units. -/
structure Anchor where
  outputLine : Nat
  outputColumn : Nat
  sourceLine : Nat
  sourceColumn : Nat
  deriving DecidableEq, Repr

namespace Anchor

def stored (number : Nat) : Nat :=
  number % UInt32.size

def tie (target origin : Text.UnitPosition) : Anchor where
  outputLine := stored target.line
  outputColumn := stored target.column
  sourceLine := stored origin.line
  sourceColumn := stored origin.column

end Anchor

namespace SourceMap

/-! ## What was kept -/

def complementFrom (cursor length : Nat) : List Span → List Span
  | [] => if cursor < length then [⟨cursor, length⟩] else []
  | removed :: later =>
      let further := complementFrom (max cursor removed.stop) length later
      if cursor < removed.start then ⟨cursor, removed.start⟩ :: further else further

def complement (length : Nat) (removed : List Span) : List Span :=
  complementFrom 0 length removed

example : complement 10 [⟨0, 2⟩, ⟨2, 4⟩, ⟨7, 10⟩] = [⟨4, 7⟩] := by decide

/-! ## Copied places -/

structure Copied where
  output : Nat
  source : Nat
  deriving DecidableEq, Repr

/-- The distance from the start of a text to the start of each later line that is not empty and
last, when `passed` bytes lie before the text. -/
def lineStarts (passed : Nat) : Text → List Nat
  | [] => []
  | character :: rest =>
      let later := lineStarts (passed + character.utf8Size) rest
      if character = '\n' ∧ rest ≠ [] then (passed + 1) :: later else later

def copiedOf (source : Text) (output : Nat) (segment : Span) : List Copied :=
  (0 :: lineStarts 0 (source.slice segment.start segment.stop)).map fun distance =>
    ⟨output + distance, segment.start + distance⟩

def copiedFrom (source : Text) (output : Nat) : List Span → List Copied
  | [] => []
  | segment :: later =>
      copiedOf source output segment ++ copiedFrom source (output + segment.length) later

def anchors (source output : Text) (removed : List Span) : List Anchor :=
  (copiedFrom source 0 (complement source.byteLength removed)).map fun copied =>
    .tie (output.unitPositionAt copied.output) (source.unitPositionAt copied.source)

end SourceMap

end Uncomment

import Uncomment.Text.Basic

/-! # Spans

A span is a pair of byte positions. Spans are ordered by their start and then by their stop. -/

namespace Uncomment

/-- The bytes from `start` up to, and not including, `stop`. -/
structure Span where
  start : Nat
  stop : Nat
  deriving DecidableEq, Repr

namespace Span

def length (span : Span) : Nat :=
  span.stop - span.start

def isEmpty (span : Span) : Bool :=
  span.stop ≤ span.start

def display (span : Span) : String :=
  toString span.start ++ ".." ++ toString span.stop

def precedes (first second : Span) : Bool :=
  first.start < second.start || (first.start == second.start && first.stop ≤ second.stop)

def sort (spans : List Span) : List Span :=
  spans.mergeSort precedes

example : sort [⟨3, 4⟩, ⟨1, 5⟩, ⟨1, 2⟩] = [⟨1, 2⟩, ⟨1, 5⟩, ⟨3, 4⟩] := by cbv

def isValidIn (text : Text) (span : Span) : Bool :=
  span.start < span.stop && text.isBoundary span.start && text.isBoundary span.stop

def totalLength : List Span → Nat
  | [] => 0
  | span :: later => span.length + totalLength later

end Span

end Uncomment

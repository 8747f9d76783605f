import Uncomment.Span.Basic

/-! # Erasing spans

`Text.erase` cuts spans out of a text in one forward pass. A span that is empty, out of bounds or
splits a character is ignored, and so is one that begins inside a span already cut. What is left is
neither repeated nor reordered. -/

namespace Uncomment

structure Erasure where
  remainder : Text
  removed : List Span
  deriving DecidableEq, Repr

namespace Erasure

def removedBytes (erasure : Erasure) : Nat :=
  Span.totalLength erasure.removed

end Erasure

namespace Span

def sortByStart (spans : List Span) : List Span :=
  spans.mergeSort fun first second => first.start ≤ second.start

/-- The spans that begin at `cursor` or later, none inside an earlier one of them. -/
def selectFrom (cursor : Nat) : List Span → List Span
  | [] => []
  | span :: later =>
      if span.start < cursor then
        selectFrom cursor later
      else
        span :: selectFrom span.stop later

def select (text : Text) (spans : List Span) : List Span :=
  selectFrom 0 (sortByStart (spans.filter (isValidIn text)))

/-- Of a text that begins at byte `cursor`, what lies outside ascending spans. -/
def cutFrom (cursor : Nat) : List Span → Text → Text
  | [], rest => rest
  | span :: later, rest =>
      rest.takeBytes (span.start - cursor) ++
        cutFrom span.stop later (rest.dropBytes (span.stop - cursor))

end Span

def Text.erase (text : Text) (spans : List Span) : Erasure :=
  let removed := Span.select text spans
  { remainder := Span.cutFrom 0 removed text
    removed := removed }

/-- A span that begins inside an earlier one is left out whole. -/
example : Text.erase ['a', 'b', 'c', 'd', 'e'] [⟨2, 5⟩, ⟨1, 3⟩] =
    ⟨['a', 'd', 'e'], [⟨1, 3⟩]⟩ := by cbv

end Uncomment

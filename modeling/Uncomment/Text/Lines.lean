import Uncomment.Text.CodeUnits

/-! # Lines of a text

The lines of a text with the byte at which each begins. A line's content ends before its line feed,
and before a carriage return that stands directly in front of that end. Columns count UTF-16 code
units of the content. -/

namespace Uncomment

structure Line where
  start : Nat
  content : Text
  deriving DecidableEq, Repr

namespace Line

def column (line : Line) (offset : Nat) : Nat :=
  Text.unitLength (line.content.takeBytes (offset - line.start))

end Line

namespace Text

def dropFinalReturn : Text → Text
  | [] => []
  | ['\r'] => []
  | character :: rest => character :: dropFinalReturn rest

/-- The lines of a text that begins at byte `start`, each with all its characters except the line
feed. -/
def linesFrom (start : Nat) : Text → List Line
  | [] => [⟨start, []⟩]
  | character :: rest =>
      let later := linesFrom (start + character.utf8Size) rest
      if character = '\n' then
        ⟨start, []⟩ :: later
      else
        match later with
        | [] => [⟨start, [character]⟩]
        | line :: others => ⟨start, character :: line.content⟩ :: others

def lines (text : Text) : List Line :=
  (linesFrom 0 text).map fun line => ⟨line.start, dropFinalReturn line.content⟩

example : lines ['a', '\r', '\n', 'é', '\n'] = [⟨0, ['a']⟩, ⟨3, ['é']⟩, ⟨6, []⟩] := by decide

/-- The number of the line that contains a byte, counted from 0. Bytes past the end are on the last
line. -/
def lineNumber (text : Text) (offset : Nat) : Nat :=
  (text.lines.takeWhile (·.start ≤ offset)).length - 1

structure UnitPosition where
  line : Nat
  column : Nat
  deriving DecidableEq, Repr

def unitPositionAt (text : Text) (offset : Nat) : UnitPosition :=
  let number := text.lineNumber offset
  { line := number
    column := match text.lines[number]? with
      | some line => line.column offset
      | none => 0 }

/-- Both bytes of a line end lie at the end of its content. -/
example : [3, 4, 5, 6].map (unitPositionAt ['a', 'é', '\r', '\n', 'b']) =
    [⟨0, 2⟩, ⟨0, 2⟩, ⟨1, 0⟩, ⟨1, 1⟩] := by decide

end Text

end Uncomment

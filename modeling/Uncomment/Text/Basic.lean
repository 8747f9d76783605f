/-! # Texts

A text is a list of characters. Every position in it counts bytes of its UTF-8 encoding, and the
functions here take any position: one past the end means the end, and one inside a character means
the start of that character. -/

namespace Uncomment

abbrev Text := List Char

namespace Text

/-! ## Byte positions -/

def byteLength : Text → Nat
  | [] => 0
  | character :: rest => character.utf8Size + byteLength rest

/-- A position is a boundary when some beginning of the text has exactly that many bytes. -/
def isBoundary : Text → Nat → Bool
  | _, 0 => true
  | [], _ + 1 => false
  | character :: rest, position =>
      character.utf8Size ≤ position && isBoundary rest (position - character.utf8Size)

def takeBytes : Text → Nat → Text
  | [], _ => []
  | character :: rest, bytes =>
      if character.utf8Size ≤ bytes then
        character :: takeBytes rest (bytes - character.utf8Size)
      else
        []

def dropBytes : Text → Nat → Text
  | [], _ => []
  | character :: rest, bytes =>
      if character.utf8Size ≤ bytes then
        dropBytes rest (bytes - character.utf8Size)
      else
        character :: rest

/-- A two-byte character has a boundary on either side and none inside. -/
example : ['é', 'a'].map (fun character : Char => character.utf8Size) = [2, 1] := by decide

example : (isBoundary ['é', 'a'] 1, isBoundary ['é', 'a'] 2, isBoundary ['é', 'a'] 4) =
    (false, true, false) := by decide

example : (takeBytes ['é', 'a'] 1, takeBytes ['é', 'a'] 2) = ([], ['é']) := by decide

def slice (text : Text) (start stop : Nat) : Text :=
  (text.takeBytes stop).dropBytes start

def slice? (text : Text) (start stop : Nat) : Option Text :=
  if start ≤ stop ∧ text.isBoundary start ∧ text.isBoundary stop then
    some (text.slice start stop)
  else
    none

def floorBoundary (text : Text) (position : Nat) : Nat :=
  (text.takeBytes position).byteLength

/-! ## Parts -/

def splitAt (separator : Char) : Text → List Text
  | [] => [[]]
  | character :: rest =>
      if character = separator then
        [] :: splitAt separator rest
      else
        match splitAt separator rest with
        | [] => [[character]]
        | first :: others => (character :: first) :: others

example : splitAt ',' ['a', ',', ',', 'b'] = [['a'], [], ['b']] := by decide

/-! ## Lines and columns -/

structure Position where
  line : Nat
  column : Nat
  deriving DecidableEq, Repr

/-- The line is the number of line feeds before `offset`, the column the number of bytes since the
last of them. -/
def positionAt (text : Text) (offset : Nat) : Position :=
  let before := text.takeBytes offset
  let sinceLineFeed := (before.reverse.takeWhile (· != '\n')).reverse
  { line := before.count '\n'
    column := offset - (before.byteLength - byteLength sinceLineFeed) }

example : positionAt ['a', '\n', 'é', 'b'] 4 = ⟨1, 2⟩ := by decide

end Text

end Uncomment

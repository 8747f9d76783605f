import Uncomment.Text.Basic

/-! # Code units

Script callers count a text in UTF-16 code units. `unitLength` measures a text in them, and an
`OffsetConverter` turns byte offsets into offsets in code units. -/

namespace Uncomment

namespace Text

def unitSize (character : Char) : Nat :=
  if 0x10000 ≤ character.toNat then 2 else 1

def unitLength : Text → Nat
  | [] => 0
  | character :: rest => unitSize character + unitLength rest

end Text

/-! ## Converting offsets -/

structure OffsetConverter where
  byte : Nat
  unit : Nat
  deriving DecidableEq, Repr

namespace OffsetConverter

def start : OffsetConverter := ⟨0, 0⟩

/-- The code units before byte `offset`, measured on from the converter's place, or from the start
of the text when the offset lies behind it. -/
def convert (text : Text) (converter : OffsetConverter) (offset : Nat) : Nat × OffsetConverter :=
  let target := text.floorBoundary offset
  let origin := if target < converter.byte then start else converter
  let unit := origin.unit + Text.unitLength (text.slice origin.byte target)
  (unit, ⟨target, unit⟩)

def convertAll (text : Text) : OffsetConverter → List Nat → List Nat
  | _, [] => []
  | converter, offset :: rest =>
      let (unit, next) := converter.convert text offset
      unit :: convertAll text next rest

/-- `é` is two bytes and one unit, and a place outside the basic plane is four bytes and two. -/
example : convertAll ['é', '🙂', 'b'] start [2, 6, 7, 3] = [1, 3, 4, 1] := by decide

end OffsetConverter

end Uncomment

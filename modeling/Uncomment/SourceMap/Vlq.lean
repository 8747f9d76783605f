/-! # Variable-length quantities

An integer as base 64 digits, five bits in each, the lowest first. The sixth bit of a digit says
that another one follows. The lowest bit of the whole is the sign. -/

namespace Uncomment

namespace Vlq

def alphabet : List Char :=
  "ABCDEFGHIJKLMNOPQRSTUVWXYZabcdefghijklmnopqrstuvwxyz0123456789+/".toList

def digit (value : Nat) : Char :=
  alphabet.getD value 'A'

def withSign (value : Int) : Nat :=
  if value < 0 then 2 * value.natAbs + 1 else 2 * value.natAbs

def digits (value : Nat) : List Char :=
  if value < 32 then
    [digit value]
  else
    digit (value % 32 + 32) :: digits (value / 32)
decreasing_by omega

def encode (value : Int) : List Char :=
  digits (withSign value)

example : [encode 0, encode 1, encode (-1), encode 16, encode (-1000)] =
    ["A".toList, "C".toList, "D".toList, "gB".toList, "x+B".toList] := by cbv

end Vlq

end Uncomment

import Uncomment.Text.Basic

/-! # The UTF-8 encoding

`encode` writes a text as bytes and `decode` reads it back. A byte sequence that encodes no text is
refused at the first character that cannot be completed, with the number of bytes that already rule
that character out. -/

namespace Uncomment

abbrev Bytes := List UInt8

inductive Utf8Error
  /-- The `length` bytes from `index` begin no character, whatever follows. -/
  | invalid (length index : Nat)
  /-- The bytes from `index` to the end begin a character and do not complete it. -/
  | incomplete (index : Nat)
  deriving DecidableEq, Repr

namespace Utf8Error

def validUpTo : Utf8Error → Nat
  | .invalid _ index => index
  | .incomplete index => index

def message : Utf8Error → String
  | .invalid length index =>
      "invalid utf-8 sequence of " ++ toString length ++ " bytes from index " ++ toString index
  | .incomplete index => "incomplete utf-8 byte sequence from index " ++ toString index

end Utf8Error

namespace Text

/-! ## Writing -/

def encode (text : Text) : Bytes :=
  text.flatMap String.utf8EncodeChar

/-! ## Reading -/

/-- A character of which some bytes are read: its lead byte stood at `start`, the `read` bytes so
far carry `bits`, and it takes `missing` more, the next of them from `low` to `high`. -/
structure Begun where
  start : Nat
  read : Nat
  bits : Nat
  missing : Nat
  low : UInt8
  high : UInt8
  deriving DecidableEq, Repr

/-- The character that `lead` begins at `start`. No character of several bytes begins with a
continuation byte, with `C0` or `C1`, or with a byte above `F4`. Four leads narrow their second
byte: after `E0` and `F0` the low ones would spell a character that has a shorter encoding, after
`ED` the high ones a surrogate, and after `F4` the high ones a number above the last character. -/
def begin? (start : Nat) (lead : UInt8) : Option Begun :=
  if 0xC2 ≤ lead ∧ lead ≤ 0xDF then
    some ⟨start, 1, lead.toNat - 0xC0, 1, 0x80, 0xBF⟩
  else if 0xE0 ≤ lead ∧ lead ≤ 0xEF then
    some ⟨start, 1, lead.toNat - 0xE0, 2, if lead = 0xE0 then 0xA0 else 0x80,
      if lead = 0xED then 0x9F else 0xBF⟩
  else if 0xF0 ≤ lead ∧ lead ≤ 0xF4 then
    some ⟨start, 1, lead.toNat - 0xF0, 3, if lead = 0xF0 then 0x90 else 0x80,
      if lead = 0xF4 then 0x8F else 0xBF⟩
  else
    none

def decodeFrom (index : Nat) : Option Begun → Bytes → Except Utf8Error Text
  | none, [] => .ok []
  | some begun, [] => .error (.incomplete begun.start)
  | none, lead :: rest =>
      if lead < 0x80 then
        (decodeFrom (index + 1) none rest).map (Char.ofNat lead.toNat :: ·)
      else
        match begin? index lead with
        | some begun => decodeFrom (index + 1) (some begun) rest
        | none => .error (.invalid 1 index)
  | some begun, byte :: rest =>
      if begun.low ≤ byte ∧ byte ≤ begun.high then
        let bits := begun.bits * 64 + (byte.toNat - 0x80)
        if begun.missing ≤ 1 then
          (decodeFrom (index + 1) none rest).map (Char.ofNat bits :: ·)
        else
          decodeFrom (index + 1)
            (some ⟨begun.start, begun.read + 1, bits, begun.missing - 1, 0x80, 0xBF⟩) rest
      else
        .error (.invalid begun.read begun.start)

def decode (bytes : Bytes) : Except Utf8Error Text :=
  decodeFrom 0 none bytes

example : (decode [0x61, 0xC3, 0xA9]).toOption = some ['a', 'é'] := by decide +kernel

/-- A surrogate is refused at its second byte. -/
example : (match decode [0x61, 0xED, 0xA0, 0x80] with
    | .error error => some error
    | .ok _ => none) = some (.invalid 1 1) := by decide +kernel

end Text

end Uncomment

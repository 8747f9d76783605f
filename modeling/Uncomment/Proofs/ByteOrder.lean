import Mathlib.Tactic.SplitIfs
import Uncomment.Path.Name
import Uncomment.Text.Utf8

/-! # The order of bytes

Texts stand in the same order as their bytes, so names that ascend by their characters ascend by
their bytes. -/

namespace Uncomment

namespace Text

theorem utf8EncodeChar_append_lt {first second : Char} (before : first < second)
    (left right : Bytes) :
    String.utf8EncodeChar first ++ left < String.utf8EncodeChar second ++ right := by
  have less : first.val.toNat < second.val.toNat := before
  have bound : second.val.toNat < 0x110000 := by
    rcases second.valid with low | ⟨-, high⟩
    · exact Nat.lt_trans low (by decide)
    · exact high
  unfold String.utf8EncodeChar
  generalize first.val.toNat = small at less
  generalize second.val.toNat = large at less bound
  dsimp only
  -- Between encodings of different lengths the first byte decides. Within one length it is the
  -- first group of bits that differs, and every group stands in a byte of its own.
  split_ifs
  all_goals try omega
  all_goals
    simp only [List.cons_append, List.nil_append, List.cons_lt_cons_iff, UInt8.lt_iff_toNat_lt,
      ← UInt8.toNat_inj, UInt8.toNat_ofNat']
    simp (disch := omega) only [Nat.mod_eq_of_lt]
    omega

theorem encode_cons (character : Char) (rest : Text) :
    encode (character :: rest) = String.utf8EncodeChar character ++ rest.encode := rfl

theorem encode_lt_encode : ∀ {first second : Text}, first < second → first.encode < second.encode
  | _, [], before => absurd before (List.not_lt_nil _)
  | [], character :: rest, _ => by
      rw [encode_cons]
      cases bytes : String.utf8EncodeChar character with
      | nil => exact absurd bytes String.utf8EncodeChar_ne_nil
      | cons byte others => exact List.nil_lt_cons _ _
  | _ :: _, _ :: _, before => by
      rw [encode_cons, encode_cons]
      rcases List.cons_lt_cons_iff.mp before with less | ⟨rfl, later⟩
      · exact utf8EncodeChar_append_lt less _ _
      · exact List.append_left_lt (encode_lt_encode later)

end Text

namespace Name

def bytes (name : Name) : Bytes :=
  name.text.encode

theorem bytes_lt_of_before {first second : Name} (before : first.Before second) :
    first.bytes < second.bytes :=
  Text.encode_lt_encode before

end Name

end Uncomment

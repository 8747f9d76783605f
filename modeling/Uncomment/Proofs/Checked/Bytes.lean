import Uncomment.Proofs.ByteOrder
import Uncomment.Proofs.Text

/-! # Reading characters off bytes

A byte below 128 is a character of its own, and every other character is made of higher bytes only.
So a stretch of bytes shows the same low characters as the text it was cut from, also where the cut
splits a character. -/

namespace Uncomment

def Bytes.IsHigh (bytes : Bytes) : Prop :=
  ∀ byte ∈ bytes, 0x80 ≤ byte.toNat

def Text.IsLow (character : Char) : Prop :=
  character.toNat < 0x80

instance (character : Char) : Decidable (Text.IsLow character) :=
  inferInstanceAs (Decidable (character.toNat < 0x80))

def Text.lowByte (character : Char) : UInt8 :=
  .ofNat character.toNat

namespace Text

variable {character : Char}

theorem utf8EncodeChar_of_isLow (low : IsLow character) :
    String.utf8EncodeChar character = [lowByte character] := by
  have bound : character.val.toNat ≤ 127 := Nat.lt_succ_iff.mp low
  unfold String.utf8EncodeChar
  dsimp only
  rw [if_pos bound]
  rfl

theorem isHigh_utf8EncodeChar (high : ¬IsLow character) :
    Bytes.IsHigh (String.utf8EncodeChar character) := by
  have bound : ¬character.val.toNat ≤ 127 := fun low => high (Nat.lt_succ_iff.mpr low)
  unfold String.utf8EncodeChar Bytes.IsHigh
  dsimp only
  rw [if_neg bound]
  split_ifs
  all_goals
    simp only [List.forall_mem_cons, List.not_mem_nil, false_implies, implies_true, and_true,
      UInt8.toNat_ofNat']
    omega

theorem utf8Size_of_isLow (low : IsLow character) : character.utf8Size = 1 := by
  rw [← String.length_utf8EncodeChar, utf8EncodeChar_of_isLow low, List.length_singleton]

private theorem toNat_lowByte (low : IsLow character) :
    (lowByte character).toNat = character.toNat := by
  rw [IsLow] at low
  rw [lowByte, UInt8.toNat_ofNat']
  omega

theorem lowByte_inj {first second : Char} (firstLow : IsLow first) (secondLow : IsLow second) :
    lowByte first = lowByte second ↔ first = second := by
  constructor
  · intro same
    have numbers := congrArg UInt8.toNat same
    rw [toNat_lowByte firstLow, toNat_lowByte secondLow] at numbers
    rw [← Char.ofNat_toNat first, ← Char.ofNat_toNat second, numbers]
  · exact congrArg lowByte

theorem lowByte_not_mem (low : IsLow character) {part : Bytes} (high : part.IsHigh) :
    lowByte character ∉ part := by
  intro member
  have bound := high _ member
  rw [toNat_lowByte low] at bound
  exact absurd low (Nat.not_lt.mpr bound)

/-! ## What a stretch of bytes shows -/

/-- The bytes show the low characters of a text in their places. A character that is not low shows
as any number of high bytes, and the bytes may end with a part of a further one. -/
inductive Shows : Text → Bytes → Prop
  | nil {part : Bytes} (high : part.IsHigh) : Shows [] part
  | low {character : Char} {rest : Text} {bytes : Bytes} (low : IsLow character)
      (further : Shows rest bytes) : Shows (character :: rest) (lowByte character :: bytes)
  | high {character : Char} {rest : Text} {part bytes : Bytes} (high : ¬IsLow character)
      (some : part ≠ []) (partHigh : part.IsHigh) (further : Shows rest bytes) :
      Shows (character :: rest) (part ++ bytes)

theorem shows_encode_append (text : Text) {part : Bytes} (high : part.IsHigh) :
    Shows text (text.encode ++ part) := by
  induction text with
  | nil => exact .nil high
  | cons character rest induction =>
      rw [encode_cons, List.append_assoc]
      by_cases low : IsLow character
      · rw [utf8EncodeChar_of_isLow low]
        exact .low low induction
      · exact .high low String.utf8EncodeChar_ne_nil (isHigh_utf8EncodeChar low) induction

theorem shows_drop (text : Text) (start : Nat) {part : Bytes} (high : part.IsHigh) :
    Shows (text.dropBytes start) ((text.encode ++ part).drop start) := by
  induction text generalizing start with
  | nil => exact .nil fun byte member => high byte (List.mem_of_mem_drop member)
  | cons character rest induction =>
      have length := String.length_utf8EncodeChar character
      rw [dropBytes, encode_cons, List.append_assoc, List.drop_append, length]
      by_cases fits : character.utf8Size ≤ start
      · rw [if_pos fits, List.drop_of_length_le (length ▸ fits), List.nil_append]
        exact induction _
      · rw [if_neg fits, show start - character.utf8Size = 0 by omega, List.drop_zero]
        by_cases low : IsLow character
        · rw [utf8Size_of_isLow low] at fits
          rw [show start = 0 by omega, List.drop_zero, utf8EncodeChar_of_isLow low]
          exact .low low (shows_encode_append rest high)
        · refine .high low ?_ ?_ (shows_encode_append rest high)
          · rw [ne_eq, List.drop_eq_nil_iff, length]
            exact fits
          · exact fun byte member =>
              isHigh_utf8EncodeChar low byte (List.mem_of_mem_drop member)

private theorem exists_take_encode (text : Text) (stop : Nat) :
    ∃ part : Bytes, part.IsHigh ∧
      text.encode.take stop = (text.takeBytes stop).encode ++ part := by
  induction text generalizing stop with
  | nil => exact ⟨[], nofun, List.take_nil⟩
  | cons character rest induction =>
      have length := String.length_utf8EncodeChar character
      rw [takeBytes, encode_cons, List.take_append, length]
      by_cases fits : character.utf8Size ≤ stop
      · rcases induction (stop - character.utf8Size) with ⟨part, high, taken⟩
        refine ⟨part, high, ?_⟩
        rw [if_pos fits, List.take_of_length_le (length ▸ fits), taken, encode_cons,
          List.append_assoc]
      · refine ⟨(String.utf8EncodeChar character).take stop, ?_, ?_⟩
        · by_cases low : IsLow character
          · rw [utf8Size_of_isLow low] at fits
            rw [show stop = 0 by omega, List.take_zero]
            exact nofun
          · exact fun byte member =>
              isHigh_utf8EncodeChar low byte (List.mem_of_mem_take member)
        · rw [if_neg fits, show stop - character.utf8Size = 0 by omega, List.take_zero,
            List.append_nil]
          rfl

theorem shows_slice (text : Text) (start stop : Nat) :
    Shows (text.slice start stop) ((text.encode.take stop).drop start) := by
  rcases exists_take_encode text stop with ⟨part, high, taken⟩
  rw [slice, taken]
  exact shows_drop _ _ high

theorem shows_suffix (text : Text) (start : Nat) :
    Shows (text.dropBytes start) (text.encode.drop start) := by
  have shown := @shows_drop text start [] nofun
  rwa [List.append_nil] at shown

/-! ## Tests on bytes -/

namespace Shows

variable {text : Text} {bytes : Bytes}

theorem mem_iff (shows : Shows text bytes) (low : IsLow character) :
    lowByte character ∈ bytes ↔ character ∈ text := by
  induction shows with
  | nil high => exact iff_of_false (lowByte_not_mem low high) List.not_mem_nil
  | low firstLow further induction =>
      rw [List.mem_cons, List.mem_cons, lowByte_inj low firstLow, induction]
  | @high first rest part bytes firstHigh some partHigh further induction =>
      have different : character ≠ first := fun same => firstHigh (same ▸ low)
      rw [List.mem_append, List.mem_cons, induction, or_iff_right (lowByte_not_mem low partHigh),
        or_iff_right different]

theorem contains_eq (shows : Shows text bytes) (low : IsLow character) :
    bytes.contains (lowByte character) = text.contains character := by
  rw [Bool.eq_iff_iff, List.contains_iff_mem, List.contains_iff_mem, shows.mem_iff low]

theorem isPrefixOf_eq {word : Text} (shows : Shows text bytes)
    (low : word.all (decide <| IsLow ·) = true) :
    (word.map lowByte).isPrefixOf bytes = word.isPrefixOf text := by
  induction word generalizing text bytes with
  | nil => rfl
  | cons letter word induction =>
      rw [List.all_cons, Bool.and_eq_true, decide_eq_true_eq] at low
      rcases low with ⟨letterLow, low⟩
      have different : ∀ {part : Bytes} {byte : UInt8}, part.IsHigh → byte ∈ part →
          (lowByte letter == byte) = false :=
        fun high member => beq_false_of_ne fun same =>
          lowByte_not_mem letterLow high (same ▸ member)
      rw [List.map_cons]
      cases shows with
      | nil high =>
          cases bytes with
          | nil => rfl
          | cons byte others =>
              rw [List.isPrefixOf_cons_cons, different high List.mem_cons_self, Bool.false_and]
              rfl
      | @low first rest others firstLow further =>
          have same : (lowByte letter == lowByte first) = (letter == first) := by
            rw [Bool.eq_iff_iff, beq_iff_eq, beq_iff_eq, lowByte_inj letterLow firstLow]
          rw [List.isPrefixOf_cons_cons, List.isPrefixOf_cons_cons, same, induction further low]
      | @high first rest part others firstHigh some partHigh further =>
          rcases List.exists_cons_of_ne_nil some with ⟨byte, more, rfl⟩
          have firstDifferent : (letter == first) = false :=
            beq_false_of_ne fun same => firstHigh (same ▸ letterLow)
          rw [List.cons_append, List.isPrefixOf_cons_cons, List.isPrefixOf_cons_cons,
            firstDifferent, different partHigh List.mem_cons_self, Bool.false_and, Bool.false_and]

end Shows

end Text

end Uncomment

import Mathlib.Algebra.Group.Nat.Defs
import Uncomment.Proofs.Checked.Bytes
import Uncomment.Text.Utf8

/-! # The bytes of a character

A character's bytes are its number in digits to the base 64, the first of them with a mark of how
many follow. No character's bytes begin those of another one. So a reader that stands inside a
character knows all that completes it, and this is what it keeps of the bytes read so far. -/

namespace Uncomment

namespace Text

/-! ## The bytes of a character -/

def tailBytes : (count : Nat) → (number : Nat) → List Nat
  | 0, _ => []
  | count + 1, number => (number / 64 ^ count % 64 + 0x80) :: tailBytes count number

private theorem cons_eq_tailBytes_iff (byte count number : Nat) (more : List Nat) :
    byte :: more = tailBytes (count + 1) number ↔
      byte = number / 64 ^ count % 64 + 0x80 ∧ more = tailBytes count number := by
  rw [tailBytes, List.cons.injEq]

def numberBytes (number : Nat) : List Nat :=
  if number ≤ 0x7F then [number]
  else if number ≤ 0x7FF then (number / 64 + 0xC0) :: tailBytes 1 number
  else if number ≤ 0xFFFF then (number / 4096 + 0xE0) :: tailBytes 2 number
  else (number / 262144 + 0xF0) :: tailBytes 3 number

theorem map_toNat_utf8EncodeChar (character : Char) :
    (String.utf8EncodeChar character).map UInt8.toNat = numberBytes character.toNat := by
  have bound : character.toNat < 0x110000 := by
    rcases character.valid with low | ⟨-, high⟩
    · exact Nat.lt_trans low (by decide)
    · exact high
  have number : character.val.toNat = character.toNat := rfl
  unfold String.utf8EncodeChar numberBytes
  rw [number]
  generalize character.toNat = number at bound
  dsimp only
  split_ifs
  all_goals
    simp only [List.map_cons, List.map_nil, UInt8.toNat_ofNat', tailBytes, List.cons.injEq,
      and_true, Nat.reducePow, Nat.div_one]
    omega

theorem utf8EncodeChar_eq_iff (character : Char) (bytes : Bytes) :
    String.utf8EncodeChar character = bytes ↔
      numberBytes character.toNat = bytes.map UInt8.toNat := by
  rw [← map_toNat_utf8EncodeChar]
  exact (List.map_inj_right fun _ _ => UInt8.toNat_inj.mp).symm

/-- No character's bytes begin those of another one. -/
theorem utf8EncodeChar_append_inj {first second : Char} {left right : Bytes}
    (same : String.utf8EncodeChar first ++ left = String.utf8EncodeChar second ++ right) :
    first = second := by
  rcases Std.lt_trichotomy first second with before | equal | behind
  · exact absurd (utf8EncodeChar_append_lt before left right) (same ▸ List.lt_irrefl _)
  · exact equal
  · exact absurd (utf8EncodeChar_append_lt behind right left) (same ▸ List.lt_irrefl _)

/-! ## What completes a begun character -/

namespace Begun

def advance (begun : Begun) (byte : UInt8) : Begun where
  start := begun.start
  read := begun.read + 1
  bits := begun.bits * 64 + (byte.toNat - 0x80)
  missing := begun.missing - 1
  low := 0x80
  high := 0xBF

private theorem bits_advance (begun : Begun) (byte : UInt8) :
    (begun.advance byte).bits = begun.bits * 64 + (byte.toNat - 0x80) := rfl

private theorem missing_advance (begun : Begun) (byte : UInt8) :
    (begun.advance byte).missing = begun.missing - 1 := rfl

def completed? (begun : Begun) : Bytes → Option Nat
  | [] => none
  | byte :: more =>
      if begun.low ≤ byte ∧ byte ≤ begun.high then
        if begun.missing ≤ 1 then
          if more = [] then some (begun.advance byte).bits else none
        else
          (begun.advance byte).completed? more
      else
        none

private theorem completed?_last {begun : Begun} (last : begun.missing ≤ 1) (byte : UInt8)
    (more : Bytes) (number : Nat) :
    begun.completed? (byte :: more) = some number ↔
      (begun.low ≤ byte ∧ byte ≤ begun.high) ∧ more = [] ∧ (begun.advance byte).bits = number := by
  rw [completed?, if_pos last]
  by_cases whole : more = [] <;> split_ifs with within <;> simp [within, whole]

private theorem completed?_not_last {begun : Begun} (notLast : ¬begun.missing ≤ 1) (byte : UInt8)
    (more : Bytes) (number : Nat) :
    begun.completed? (byte :: more) = some number ↔
      (begun.low ≤ byte ∧ byte ≤ begun.high) ∧
        (begun.advance byte).completed? more = some number := by
  rw [completed?, if_neg notLast]
  split_ifs with within <;> simp [within]

structure Bounded (begun : Begun) : Prop where
  low : 0x80 ≤ begun.low.toNat
  ordered : begun.low.toNat ≤ begun.high.toNat
  high : begun.high.toNat ≤ 0xBF

private theorem bounded_advance (begun : Begun) (byte : UInt8) : (begun.advance byte).Bounded where
  low := Nat.le_refl 0x80
  ordered := Nat.le_of_lt (by decide : 0x80 < 0xBF)
  high := Nat.le_refl 0xBF

theorem Bounded.exists_completed? {begun : Begun} (bounded : begun.Bounded) :
    ∃ more number, begun.completed? more = some number := by
  have within : begun.low ≤ begun.low ∧ begun.low ≤ begun.high :=
    ⟨UInt8.le_refl _, UInt8.le_iff_toNat_le.mpr bounded.ordered⟩
  induction equal : begun.missing using Nat.strongRecOn generalizing begun with
  | _ missing induction =>
      by_cases last : begun.missing ≤ 1
      · exact ⟨[begun.low], _, (completed?_last last _ _ _).mpr ⟨within, rfl, rfl⟩⟩
      · have fewer : (begun.advance begun.low).missing < missing := by
          change begun.missing - 1 < missing
          omega
        rcases induction _ fewer (begun.bounded_advance begun.low)
          ⟨UInt8.le_refl _, UInt8.le_iff_toNat_le.mpr (begun.bounded_advance _).ordered⟩ rfl with
          ⟨more, number, completes⟩
        exact ⟨begun.low :: more, number, (completed?_not_last last _ _ _).mpr ⟨within, completes⟩⟩

/-- The missing bytes are the last digits of the number, and the bits so far are the others. -/
theorem completed?_eq_some_iff {count : Nat} {begun : Begun} (bounded : begun.Bounded)
    (missing : begun.missing = count + 1) (more : Bytes) (number : Nat) :
    begun.completed? more = some number ↔
      more.map UInt8.toNat = tailBytes (count + 1) number ∧
        number / 64 ^ (count + 1) = begun.bits ∧
        begun.low.toNat ≤ number / 64 ^ count % 64 + 0x80 ∧
        number / 64 ^ count % 64 + 0x80 ≤ begun.high.toNat := by
  have low := bounded.low
  have high := bounded.high
  -- One byte read is one digit moved from the end of the number to the bits.
  induction count generalizing begun more with
  | zero =>
      rcases more with _ | ⟨byte, more⟩
      · rw [completed?]
        simp [tailBytes]
      · rw [completed?_last (by omega), List.map_cons, cons_eq_tailBytes_iff, tailBytes,
          List.map_eq_nil_iff, UInt8.le_iff_toNat_le, UInt8.le_iff_toNat_le, Nat.pow_zero,
          Nat.div_one, Nat.zero_add, Nat.pow_one, bits_advance]
        constructor
        · rintro ⟨within, whole, bits⟩
          refine ⟨⟨?_, whole⟩, ?_⟩ <;> omega
        · rintro ⟨⟨equal, whole⟩, bits, within⟩
          refine ⟨?_, whole, ?_⟩ <;> omega
  | succ count induction =>
      have power : number / 64 ^ (count + 1 + 1) = number / 64 ^ (count + 1) / 64 := by
        rw [Nat.pow_succ, Nat.div_div_eq_div_mul]
      rcases more with _ | ⟨byte, more⟩
      · rw [completed?]
        simp [tailBytes]
      · have bounded := begun.bounded_advance byte
        have fewer : (begun.advance byte).missing = count + 1 := by
          rw [missing_advance]
          omega
        have further := induction bounded fewer more bounded.low bounded.high
        rw [completed?_not_last (by omega)]
        refine (and_congr_right fun _ => further).trans ?_
        rw [List.map_cons, cons_eq_tailBytes_iff, UInt8.le_iff_toNat_le, UInt8.le_iff_toNat_le,
          power, bits_advance]
        change _ ∧ _ ∧ _ ∧ 0x80 ≤ _ ∧ _ ≤ 0xBF ↔ _
        constructor
        · rintro ⟨within, tail, bits, -⟩
          refine ⟨⟨?_, tail⟩, ?_⟩ <;> omega
        · rintro ⟨⟨equal, tail⟩, bits, within⟩
          refine ⟨?_, tail, ?_⟩ <;> omega

end Begun

/-! ## Lead bytes -/

private theorem numberBytes_eq_cons_iff (number lead : Nat) (more : List Nat) :
    numberBytes number = lead :: more ↔
      (number ≤ 0x7F ∧ lead = number ∧ more = []) ∨
      (0x7F < number ∧ number ≤ 0x7FF ∧ lead = number / 64 + 0xC0 ∧ more = tailBytes 1 number) ∨
      (0x7FF < number ∧ number ≤ 0xFFFF ∧ lead = number / 4096 + 0xE0 ∧
        more = tailBytes 2 number) ∨
      (0xFFFF < number ∧ lead = number / 262144 + 0xF0 ∧ more = tailBytes 3 number) := by
  unfold numberBytes
  split_ifs with one two three
  · have bounds : ¬0x7F < number ∧ ¬0x7FF < number ∧ ¬0xFFFF < number := by omega
    simp [one, bounds, eq_comm]
  · have bounds : 0x7F < number ∧ ¬0x7FF < number ∧ ¬0xFFFF < number := by omega
    simp [one, two, bounds, eq_comm]
  · have bounds : 0x7FF < number ∧ ¬0xFFFF < number := by omega
    simp [one, two, three, bounds, eq_comm]
  · have bounds : 0xFFFF < number := by omega
    simp [one, two, three, bounds, eq_comm]

/-- What a lead byte says of the character that it begins. -/
structure Leads (lead : Nat) (begun : Begun) : Prop where
  bounded : begun.Bounded
  sizes :
    (begun.missing = 1 ∧ 0xC2 ≤ lead ∧ lead ≤ 0xDF ∧ begun.bits = lead - 0xC0 ∧
      begun.low.toNat = 0x80 ∧ begun.high.toNat = 0xBF) ∨
    (begun.missing = 2 ∧ 0xE0 ≤ lead ∧ lead ≤ 0xEF ∧ begun.bits = lead - 0xE0 ∧
      (lead = 0xE0 ∧ begun.low.toNat = 0xA0 ∨ lead ≠ 0xE0 ∧ begun.low.toNat = 0x80) ∧
      (lead = 0xED ∧ begun.high.toNat = 0x9F ∨ lead ≠ 0xED ∧ begun.high.toNat = 0xBF)) ∨
    (begun.missing = 3 ∧ 0xF0 ≤ lead ∧ lead ≤ 0xF4 ∧ begun.bits = lead - 0xF0 ∧
      (lead = 0xF0 ∧ begun.low.toNat = 0x90 ∨ lead ≠ 0xF0 ∧ begun.low.toNat = 0x80) ∧
      (lead = 0xF4 ∧ begun.high.toNat = 0x8F ∨ lead ≠ 0xF4 ∧ begun.high.toNat = 0xBF))

theorem leads_of_begin? {start : Nat} {lead : UInt8} {begun : Begun}
    (begins : begin? start lead = some begun) :
    begun.start = start ∧ Leads lead.toNat begun := by
  simp only [begin?, UInt8.le_iff_toNat_le, UInt8.reduceToNat, ← UInt8.toNat_inj] at begins
  by_cases two : 0xC2 ≤ lead.toNat ∧ lead.toNat ≤ 0xDF
  · rw [if_pos two] at begins
    cases begins
    refine ⟨rfl, ⟨?_, ?_, ?_⟩, .inl ⟨rfl, two.1, two.2, rfl, rfl, rfl⟩⟩
    all_goals simp
  rw [if_neg two] at begins
  by_cases three : 0xE0 ≤ lead.toNat ∧ lead.toNat ≤ 0xEF
  · rw [if_pos three] at begins
    cases begins
    refine ⟨rfl, ⟨?_, ?_, ?_⟩, .inr (.inl ⟨rfl, three.1, three.2, rfl, ?_, ?_⟩)⟩
    all_goals simp only [apply_ite UInt8.toNat, UInt8.reduceToNat]
    all_goals split_ifs <;> omega
  rw [if_neg three] at begins
  by_cases four : 0xF0 ≤ lead.toNat ∧ lead.toNat ≤ 0xF4
  · rw [if_pos four] at begins
    cases begins
    refine ⟨rfl, ⟨?_, ?_, ?_⟩, .inr (.inr ⟨rfl, four.1, four.2, rfl, ?_, ?_⟩)⟩
    all_goals simp only [apply_ite UInt8.toNat, UInt8.reduceToNat]
    all_goals split_ifs <;> omega
  · rw [if_neg four] at begins
    cases begins

/-- A lead byte begins the characters whose number it fits. -/
theorem Leads.completed?_iff {lead : Nat} {begun : Begun} (leads : Leads lead begun) (more : Bytes)
    (number : Nat) :
    begun.completed? more = some number ↔
      number.isValidChar ∧ numberBytes number = lead :: more.map UInt8.toNat := by
  rw [numberBytes_eq_cons_iff, Nat.isValidChar]
  rcases leads.sizes with ⟨missing, sizes⟩ | ⟨missing, sizes⟩ | ⟨missing, sizes⟩
  · rw [Begun.completed?_eq_some_iff leads.bounded missing]
    constructor
    · rintro ⟨tail, digits⟩
      refine ⟨by omega, .inr (.inl ⟨by omega, by omega, by omega, tail⟩)⟩
    · rintro ⟨valid, one | two | three | four⟩
      · omega
      · exact ⟨two.2.2.2, by omega⟩
      · omega
      · omega
  · rw [Begun.completed?_eq_some_iff leads.bounded missing]
    constructor
    · rintro ⟨tail, digits⟩
      refine ⟨by omega, .inr (.inr (.inl ⟨by omega, by omega, by omega, tail⟩))⟩
    · rintro ⟨valid, one | two | three | four⟩
      · omega
      · omega
      · exact ⟨three.2.2.2, by omega⟩
      · omega
  · rw [Begun.completed?_eq_some_iff leads.bounded missing]
    constructor
    · rintro ⟨tail, digits⟩
      refine ⟨by omega, .inr (.inr (.inr ⟨by omega, by omega, tail⟩))⟩
    · rintro ⟨valid, one | two | three | four⟩
      · omega
      · omega
      · omega
      · exact ⟨four.2.2, by omega⟩

theorem toNat_ofNat {number : Nat} (valid : number.isValidChar) :
    (Char.ofNat number).toNat = number := by
  rw [Char.ofNat, dif_pos valid]
  rfl

theorem utf8EncodeChar_ofNat {lead : UInt8} (low : lead < 0x80) :
    String.utf8EncodeChar (Char.ofNat lead.toNat) = [lead] := by
  have small : lead.toNat < 0x80 := UInt8.lt_iff_toNat_lt.mp low
  have number : (Char.ofNat lead.toNat).toNat = lead.toNat := toNat_ofNat (.inl (by omega))
  rw [utf8EncodeChar_of_isLow (number.symm ▸ small : _ < _), lowByte, number, UInt8.ofNat_toNat]

theorem ne_of_begin?_eq_none {start : Nat} {lead : UInt8} (notLow : ¬lead < 0x80)
    (refused : begin? start lead = none) (character : Char) (more : Bytes) :
    String.utf8EncodeChar character ≠ lead :: more := by
  intro same
  have valid : character.toNat.isValidChar := character.valid
  rw [utf8EncodeChar_eq_iff, List.map_cons, numberBytes_eq_cons_iff] at same
  rw [Nat.isValidChar] at valid
  simp only [UInt8.lt_iff_toNat_lt, UInt8.reduceToNat] at notLow
  simp only [begin?, UInt8.le_iff_toNat_le, UInt8.reduceToNat] at refused
  split_ifs at refused
  omega

/-! ## Standing inside a character -/

def Begins (part : Bytes) : Prop :=
  ∃ character more, String.utf8EncodeChar character = part ++ more

namespace Begun

/-- The bytes read so far are those of a begun character: the bytes that complete it are the further
ones of a character that begins with them. -/
structure Tracks (begun : Begun) (front : Bytes) : Prop where
  nonempty : front ≠ []
  bounded : begun.Bounded
  completed : ∀ more number, begun.completed? more = some number ↔
    ∃ character : Char, character.toNat = number ∧ String.utf8EncodeChar character = front ++ more

theorem tracks_lead {start : Nat} {lead : UInt8} {begun : Begun}
    (begins : begin? start lead = some begun) : begun.Tracks [lead] where
  nonempty := List.cons_ne_nil _ _
  bounded := (leads_of_begin? begins).2.bounded
  completed := by
    intro more number
    rw [(leads_of_begin? begins).2.completed?_iff, List.singleton_append]
    constructor
    · rintro ⟨valid, bytes⟩
      refine ⟨Char.ofNat number, toNat_ofNat valid, ?_⟩
      rw [utf8EncodeChar_eq_iff, toNat_ofNat valid, List.map_cons, bytes]
    · rintro ⟨character, rfl, bytes⟩
      rw [utf8EncodeChar_eq_iff, List.map_cons] at bytes
      exact ⟨character.valid, bytes⟩

namespace Tracks

variable {begun : Begun} {front : Bytes} (tracks : begun.Tracks front)

include tracks

theorem advance {byte : UInt8} (within : begun.low ≤ byte ∧ byte ≤ begun.high)
    (notLast : ¬begun.missing ≤ 1) : (begun.advance byte).Tracks (front ++ [byte]) where
  nonempty := List.append_ne_nil_of_left_ne_nil tracks.nonempty _
  bounded := begun.bounded_advance byte
  completed := by
    intro more number
    have further := tracks.completed (byte :: more) number
    rw [completed?_not_last notLast, and_iff_right within] at further
    rw [further, List.append_assoc, List.singleton_append]

/-- The last missing byte completes a character with the number read off the bytes. -/
theorem encode_of_last {byte : UInt8} (within : begun.low ≤ byte ∧ byte ≤ begun.high)
    (last : begun.missing ≤ 1) :
    String.utf8EncodeChar (Char.ofNat (begun.advance byte).bits) = front ++ [byte] := by
  have completes := (completed?_last last byte [] _).mpr ⟨within, rfl, rfl⟩
  rcases (tracks.completed _ _).mp completes with ⟨character, number, bytes⟩
  rw [← number, Char.ofNat_toNat, bytes]

/-- Only a byte within the bounds goes on with the character. -/
theorem exists_of_encode {character : Char} {more : Bytes}
    (bytes : String.utf8EncodeChar character = front ++ more) :
    ∃ byte later, more = byte :: later ∧ begun.low ≤ byte ∧ byte ≤ begun.high := by
  have completes := (tracks.completed more _).mpr ⟨character, rfl, bytes⟩
  rcases more with _ | ⟨byte, later⟩
  · cases completes
  · refine ⟨byte, later, rfl, ?_⟩
    by_cases last : begun.missing ≤ 1
    · exact ((completed?_last last _ _ _).mp completes).1
    · exact ((completed?_not_last last _ _ _).mp completes).1

theorem begins : Begins front := by
  rcases tracks.bounded.exists_completed? with ⟨more, number, completes⟩
  rcases (tracks.completed more number).mp completes with ⟨character, -, bytes⟩
  exact ⟨character, more, bytes⟩

end Tracks

end Begun

end Text

end Uncomment

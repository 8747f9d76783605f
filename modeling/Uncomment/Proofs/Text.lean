import Uncomment.Text.Utf8

/-! # Parts of a text

A byte position is a boundary exactly when it splits the text in two. Taking and dropping bytes up
to a boundary gives back the two parts. A text splits at a separator as its halves do on both sides
of one. -/

namespace Uncomment

namespace Text

/-! ## Lengths -/

@[simp] theorem byteLength_nil : byteLength [] = 0 := rfl

@[simp] theorem byteLength_cons (character : Char) (rest : Text) :
    byteLength (character :: rest) = character.utf8Size + byteLength rest := rfl

@[simp] theorem byteLength_append (before after : Text) :
    byteLength (before ++ after) = before.byteLength + after.byteLength := by
  induction before with
  | nil => simp
  | cons character before induction =>
      rw [List.cons_append, byteLength_cons, byteLength_cons, induction]
      omega

theorem byteLength_pos_iff (text : Text) : 0 < text.byteLength ↔ text ≠ [] := by
  cases text with
  | nil => simp
  | cons character rest =>
      have size := character.utf8Size_pos
      simp only [byteLength_cons, ne_eq, reduceCtorEq, not_false_eq_true, iff_true]
      omega

theorem length_encode (text : Text) : text.encode.length = text.byteLength := by
  induction text with
  | nil => rfl
  | cons character rest induction =>
      change (String.utf8EncodeChar character ++ encode rest).length = _
      rw [List.length_append, induction, String.length_utf8EncodeChar, byteLength_cons]

theorem encode_append (before after : Text) :
    encode (before ++ after) = before.encode ++ after.encode :=
  List.flatMap_append

/-! ## Taking and dropping -/

@[simp] theorem takeBytes_zero (text : Text) : text.takeBytes 0 = [] := by
  cases text with
  | nil => rfl
  | cons character rest =>
      have size := character.utf8Size_pos
      rw [takeBytes, if_neg (by omega)]

@[simp] theorem dropBytes_zero (text : Text) : text.dropBytes 0 = text := by
  cases text with
  | nil => rfl
  | cons character rest =>
      have size := character.utf8Size_pos
      rw [dropBytes, if_neg (by omega)]

theorem takeBytes_append (before after : Text) (bytes : Nat) :
    takeBytes (before ++ after) (before.byteLength + bytes) =
      before ++ after.takeBytes bytes := by
  induction before with
  | nil => simp
  | cons character before induction =>
      rw [List.cons_append, takeBytes, byteLength_cons, if_pos (by omega), List.cons_append]
      rw [show character.utf8Size + byteLength before + bytes - character.utf8Size =
        byteLength before + bytes by omega]
      rw [induction]

theorem dropBytes_append (before after : Text) (bytes : Nat) :
    dropBytes (before ++ after) (before.byteLength + bytes) = after.dropBytes bytes := by
  induction before with
  | nil => simp
  | cons character before induction =>
      rw [List.cons_append, dropBytes, byteLength_cons, if_pos (by omega)]
      rw [show character.utf8Size + byteLength before + bytes - character.utf8Size =
        byteLength before + bytes by omega]
      exact induction

@[simp] theorem takeBytes_byteLength_append (before after : Text) :
    takeBytes (before ++ after) before.byteLength = before := by
  simpa using takeBytes_append before after 0

@[simp] theorem dropBytes_byteLength_append (before after : Text) :
    dropBytes (before ++ after) before.byteLength = after := by
  simpa using dropBytes_append before after 0

theorem byteLength_takeBytes_le (text : Text) (bytes : Nat) :
    (text.takeBytes bytes).byteLength ≤ bytes := by
  induction text generalizing bytes with
  | nil => exact Nat.zero_le _
  | cons character rest induction =>
      rw [takeBytes]
      split
      · have taken := induction (bytes - character.utf8Size)
        rw [byteLength_cons]
        omega
      · exact Nat.zero_le _

theorem exists_takeBytes_append (text : Text) (offset : Nat) :
    ∃ after, text = text.takeBytes offset ++ after := by
  induction text generalizing offset with
  | nil => exact ⟨[], rfl⟩
  | cons character rest induction =>
      rw [takeBytes]
      split
      · rcases induction (offset - character.utf8Size) with ⟨after, split⟩
        exact ⟨after, by rw [List.cons_append, ← split]⟩
      · exact ⟨character :: rest, rfl⟩

theorem slice_append (before middle after : Text) :
    slice (before ++ middle ++ after) before.byteLength
      (before.byteLength + middle.byteLength) = middle := by
  rw [slice, ← byteLength_append, takeBytes_byteLength_append, dropBytes_byteLength_append]

/-! ## Boundaries -/

@[simp] theorem isBoundary_zero (text : Text) : text.isBoundary 0 = true := by
  cases text <;> rfl

theorem isBoundary_cons {position : Nat} (positive : 0 < position) (character : Char)
    (rest : Text) :
    isBoundary (character :: rest) position =
      (character.utf8Size ≤ position && rest.isBoundary (position - character.utf8Size)) := by
  rw [isBoundary]
  omega

theorem isBoundary_byteLength_append (before after : Text) :
    isBoundary (before ++ after) before.byteLength = true := by
  induction before with
  | nil => exact isBoundary_zero after
  | cons character before induction =>
      have size := character.utf8Size_pos
      rw [byteLength_cons, List.cons_append, isBoundary_cons (by omega)]
      rw [Nat.add_sub_cancel_left, induction, Bool.and_true, decide_eq_true_eq]
      omega

theorem isBoundary_iff (text : Text) (position : Nat) :
    text.isBoundary position = true ↔
      ∃ before after, text = before ++ after ∧ before.byteLength = position := by
  constructor
  · intro boundary
    induction text generalizing position with
    | nil =>
        cases position with
        | zero => exact ⟨[], [], rfl, rfl⟩
        | succ position => cases boundary
    | cons character rest induction =>
        cases position with
        | zero => exact ⟨[], character :: rest, rfl, rfl⟩
        | succ position =>
            rw [isBoundary_cons (by omega), Bool.and_eq_true, decide_eq_true_eq] at boundary
            rcases induction _ boundary.2 with ⟨before, after, equal, length⟩
            refine ⟨character :: before, after, by rw [equal]; rfl, ?_⟩
            rw [byteLength_cons, length]
            omega
  · intro split
    rcases split with ⟨before, after, rfl, rfl⟩
    exact isBoundary_byteLength_append before after

theorem le_byteLength_of_isBoundary {text : Text} {position : Nat}
    (boundary : text.isBoundary position = true) : position ≤ text.byteLength := by
  rcases (isBoundary_iff text position).mp boundary with ⟨before, after, rfl, rfl⟩
  simp

/-- A boundary that does not lie in the first part of a text splits the second. -/
theorem split_after {before rest : Text} {position : Nat}
    (boundary : isBoundary (before ++ rest) position = true)
    (later : before.byteLength ≤ position) :
    ∃ middle after, rest = middle ++ after ∧
      position = before.byteLength + middle.byteLength := by
  rcases (isBoundary_iff _ _).mp boundary with ⟨front, after, equal, rfl⟩
  rcases List.append_eq_append_iff.mp equal with ⟨middle, rfl, rfl⟩ | ⟨missing, rfl, rfl⟩
  · exact ⟨middle, after, rfl, byteLength_append before middle⟩
  · -- The boundary reaches the end of the first part, so nothing of it is missing.
    rw [byteLength_append] at later
    have none : missing = [] := by
      have nothing := byteLength_pos_iff missing
      exact Decidable.byContradiction fun some => by
        have positive := nothing.mpr some
        omega
    subst none
    exact ⟨[], rest, rfl, by simp⟩

theorem slice?_append (before middle after : Text) :
    slice? (before ++ middle ++ after) before.byteLength
      (before.byteLength + middle.byteLength) = some middle := by
  have start : isBoundary (before ++ middle ++ after) before.byteLength = true := by
    rw [List.append_assoc]
    exact isBoundary_byteLength_append _ _
  have stop : isBoundary (before ++ middle ++ after) (before.byteLength + middle.byteLength) =
      true := by
    rw [← byteLength_append]
    exact isBoundary_byteLength_append _ _
  rw [slice?, if_pos ⟨Nat.le_add_right _ _, start, stop⟩, slice_append]

/-! ## Parts between separators -/

section Separator

variable {separator : Char}

theorem splitAt_ne_nil (separator : Char) (text : Text) : splitAt separator text ≠ [] := by
  cases text with
  | nil => exact List.cons_ne_nil _ _
  | cons character rest =>
      rw [splitAt]
      split
      · exact List.cons_ne_nil _ _
      · split <;> exact List.cons_ne_nil _ _

theorem splitAt_append (front back : Text) :
    splitAt separator (front ++ separator :: back) =
      splitAt separator front ++ splitAt separator back := by
  induction front with
  | nil => simp [splitAt]
  | cons character front induction =>
      rw [List.cons_append, splitAt, splitAt, induction]
      split
      · rfl
      · cases parts : splitAt separator front with
        | nil => exact absurd parts (splitAt_ne_nil separator front)
        | cons first others => rfl

theorem splitAt_append_of_not_mem {front text first : Text} {others : List Text}
    (plain : separator ∉ front) (parts : splitAt separator text = first :: others) :
    splitAt separator (front ++ text) = (front ++ first) :: others := by
  induction front with
  | nil => exact parts
  | cons character front induction =>
      rw [List.mem_cons, not_or] at plain
      rw [List.cons_append, splitAt, if_neg (Ne.symm plain.1), induction plain.2]
      rfl

theorem splitAt_of_not_mem {text : Text} (plain : separator ∉ text) :
    splitAt separator text = [text] := by
  have parts : splitAt separator [] = [[]] := rfl
  have whole := splitAt_append_of_not_mem plain parts
  rw [List.append_nil] at whole
  exact whole

/-- The first part reaches to the first separator, or to the end. -/
theorem splitAt_eq_cons {text first : Text} {others : List Text}
    (parts : splitAt separator text = first :: others) :
    separator ∉ first ∧ (text = first ∨ ∃ rest, text = first ++ separator :: rest) := by
  induction text generalizing first others with
  | nil =>
      cases parts
      exact ⟨List.not_mem_nil, .inl rfl⟩
  | cons character rest induction =>
      rw [splitAt] at parts
      by_cases separates : character = separator
      · rw [if_pos separates] at parts
        cases parts
        exact ⟨List.not_mem_nil, .inr ⟨rest, by rw [separates]; rfl⟩⟩
      · rw [if_neg separates] at parts
        cases restParts : splitAt separator rest with
        | nil => exact absurd restParts (splitAt_ne_nil separator rest)
        | cons firstRest later =>
            rw [restParts] at parts
            cases parts
            rcases induction restParts with ⟨plain, shape⟩
            refine ⟨List.not_mem_cons_of_ne_of_not_mem (Ne.symm separates) plain, ?_⟩
            rcases shape with rfl | ⟨beyond, rfl⟩
            · exact .inl rfl
            · exact .inr ⟨beyond, rfl⟩

end Separator

end Text

end Uncomment

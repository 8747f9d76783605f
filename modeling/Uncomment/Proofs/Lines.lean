import Uncomment.Proofs.Text
import Uncomment.Text.Lines

/-! # Lines and columns of places

A place in a text is given by the text before it and the text after it. Its line is the number of
line feeds before it, and its column measures what stands before it on its own line. -/

namespace Uncomment

namespace Text

@[simp] theorem utf8Size_feed : '\n'.utf8Size = 1 := rfl

/-! ## Whole lines and parts of lines -/

def EndsLine (text : Text) : Prop :=
  text = [] ∨ ∃ body, text = body ++ ['\n']

def lastLine (text : Text) : Text :=
  (text.reverse.takeWhile (· != '\n')).reverse

def firstLine (text : Text) : Text :=
  text.takeWhile (· != '\n')

theorem not_mem_lastLine (text : Text) : '\n' ∉ text.lastLine := by
  intro member
  rw [lastLine, List.mem_reverse] at member
  have plain := List.all_takeWhile (p := (· != '\n')) (l := text.reverse)
  have contradiction := List.all_eq_true.mp plain _ member
  simp at contradiction

theorem lastLine_append (before : Text) {word : Text} (plain : '\n' ∉ word) :
    lastLine (before ++ word) = before.lastLine ++ word := by
  have all : ∀ character ∈ word.reverse, (character != '\n') = true := by
    intro character member
    rw [bne_iff_ne]
    intro equal
    subst equal
    exact plain (List.mem_reverse.mp member)
  rw [lastLine, List.reverse_append, List.takeWhile_append_of_pos all, List.reverse_append,
    List.reverse_reverse, ← lastLine]

theorem exists_append_lastLine (text : Text) :
    ∃ lead, lead.EndsLine ∧ text = lead ++ text.lastLine := by
  refine ⟨(text.reverse.dropWhile (· != '\n')).reverse, ?_, ?_⟩
  · cases dropped : text.reverse.dropWhile (· != '\n') with
    | nil => exact .inl rfl
    | cons character body =>
        have feed := List.head?_dropWhile_not (· != '\n') text.reverse
        rw [dropped, List.head?_cons] at feed
        have equal : character = '\n' := by simpa using feed
        rw [equal, List.reverse_cons]
        exact .inr ⟨body.reverse, rfl⟩
  · rw [lastLine, ← List.reverse_append, List.takeWhile_append_dropWhile, List.reverse_reverse]

theorem count_of_append_lastLine {lead text : Text} (split : text = lead ++ text.lastLine) :
    text.count '\n' = lead.count '\n' := by
  have none := List.count_eq_zero.mpr (not_mem_lastLine text)
  rw [split, List.count_append, none, Nat.add_zero]

theorem not_mem_firstLine (text : Text) : '\n' ∉ text.firstLine := by
  intro member
  have plain := List.all_eq_true.mp List.all_takeWhile _ member
  simp at plain

theorem exists_firstLine_append (text : Text) :
    ∃ rest, text = text.firstLine ++ rest ∧ (rest = [] ∨ ∃ more, rest = '\n' :: more) := by
  refine ⟨text.dropWhile (· != '\n'), List.takeWhile_append_dropWhile.symm, ?_⟩
  cases dropped : text.dropWhile (· != '\n') with
  | nil => exact .inl rfl
  | cons character more =>
      have feed := List.head?_dropWhile_not (· != '\n') text
      rw [dropped, List.head?_cons] at feed
      have equal : character = '\n' := by simpa using feed
      exact .inr ⟨more, by rw [equal]⟩

/-! ## The lines of a text -/

private theorem linesFrom_feed (start : Nat) (rest : Text) :
    linesFrom start ('\n' :: rest) = ⟨start, []⟩ :: linesFrom (start + 1) rest := by
  rw [linesFrom]
  exact if_pos rfl

private theorem exists_linesFrom_cons (start : Nat) {character : Char} (plain : character ≠ '\n')
    (rest : Text) :
    ∃ content others,
      linesFrom (start + character.utf8Size) rest =
        ⟨start + character.utf8Size, content⟩ :: others ∧
      linesFrom start (character :: rest) = ⟨start, character :: content⟩ :: others := by
  have first : ∀ start : Nat, ∀ text : Text, ∃ content others,
      linesFrom start text = ⟨start, content⟩ :: others := by
    intro start text
    cases text with
    | nil => exact ⟨[], [], rfl⟩
    | cons character rest =>
        rw [linesFrom]
        split
        · exact ⟨_, _, rfl⟩
        · split <;> exact ⟨_, _, rfl⟩
  rcases first (start + character.utf8Size) rest with ⟨content, others, equal⟩
  refine ⟨content, others, equal, ?_⟩
  rw [linesFrom, equal]
  exact if_neg plain

private theorem linesFrom_append_feed (start : Nat) (body rest : Text) :
    linesFrom start (body ++ '\n' :: rest) =
      linesFrom start body ++ linesFrom (start + body.byteLength + 1) rest := by
  induction body generalizing start with
  | nil => exact linesFrom_feed start rest
  | cons character body induction =>
      rw [List.cons_append, byteLength_cons, ← Nat.add_assoc]
      by_cases feed : character = '\n'
      · subst feed
        rw [linesFrom_feed, linesFrom_feed, induction, List.cons_append]
        rfl
      · have whole := exists_linesFrom_cons start feed (body ++ '\n' :: rest)
        have part := exists_linesFrom_cons start feed body
        rcases whole with ⟨content, others, wholeLater, whole⟩
        rcases part with ⟨bodyContent, bodyOthers, partLater, part⟩
        rw [induction, partLater, List.cons_append, List.cons.injEq, Line.mk.injEq] at wholeLater
        rw [whole, part, List.cons_append, wholeLater.1.2, wholeLater.2]

private theorem linesFrom_of_not_mem (start : Nat) {word : Text} (plain : '\n' ∉ word) :
    linesFrom start word = [⟨start, word⟩] := by
  induction word generalizing start with
  | nil => rfl
  | cons character word induction =>
      rw [List.mem_cons, not_or] at plain
      rcases exists_linesFrom_cons start (Ne.symm plain.1) word with ⟨content, others, later, whole⟩
      rw [induction _ plain.2, List.cons.injEq, Line.mk.injEq] at later
      rw [whole, ← later.1.2, ← later.2]

theorem length_linesFrom (start : Nat) (text : Text) :
    (linesFrom start text).length = text.count '\n' + 1 := by
  induction text generalizing start with
  | nil => rfl
  | cons character rest induction =>
      by_cases feed : character = '\n'
      · subst feed
        rw [linesFrom_feed, List.length_cons, induction, List.count_cons_self]
      · rcases exists_linesFrom_cons start feed rest with ⟨content, others, later, whole⟩
        have length := induction (start + character.utf8Size)
        rw [later] at length
        rw [whole, List.count_cons_of_ne feed, ← length]
        rfl

theorem linesFrom_within (start : Nat) (text : Text) :
    ∀ line ∈ linesFrom start text,
      start ≤ line.start ∧ line.start + line.content.byteLength ≤ start + text.byteLength := by
  induction text generalizing start with
  | nil =>
      intro line member
      rw [linesFrom, List.mem_singleton] at member
      subst line
      simp
  | cons character rest induction =>
      intro line member
      rw [byteLength_cons]
      by_cases feed : character = '\n'
      · subst feed
        rw [linesFrom_feed] at member
        rcases List.mem_cons.mp member with equal | member
        · subst line
          simp
        · have bounds := induction (start + 1) line member
          rw [utf8Size_feed]
          omega
      · rcases exists_linesFrom_cons start feed rest with ⟨content, others, later, whole⟩
        have bounds := induction (start + character.utf8Size)
        rw [later] at bounds
        rw [whole] at member
        rcases List.mem_cons.mp member with equal | member
        · have first := bounds _ List.mem_cons_self
          subst line
          simp only [byteLength_cons] at first ⊢
          omega
        · have further := bounds line (List.mem_cons_of_mem _ member)
          omega

theorem lines_append {lead word rest : Text} (complete : lead.EndsLine) (plain : '\n' ∉ word)
    (ends : rest = [] ∨ ∃ more, rest = '\n' :: more) :
    ∃ earlier later,
      lines (lead ++ (word ++ rest)) =
        earlier ++ ⟨lead.byteLength, dropFinalReturn word⟩ :: later ∧
      earlier.length = lead.count '\n' ∧
      (∀ line ∈ earlier, line.start ≤ lead.byteLength) ∧
      (∀ line ∈ later, lead.byteLength + word.byteLength < line.start) := by
  let trim : Line → Line := fun line => ⟨line.start, dropFinalReturn line.content⟩
  have front : ∃ earlier,
      linesFrom 0 (lead ++ (word ++ rest)) =
        earlier ++ linesFrom lead.byteLength (word ++ rest) ∧
      earlier.length = lead.count '\n' ∧ ∀ line ∈ earlier, line.start ≤ lead.byteLength := by
    rcases complete with empty | ⟨body, split⟩
    · subst empty
      exact ⟨[], rfl, rfl, by simp⟩
    · subst split
      refine ⟨linesFrom 0 body, ?_, ?_, ?_⟩
      · have separated := linesFrom_append_feed 0 body (word ++ rest)
        simpa using separated
      · simp [length_linesFrom]
      · intro line member
        have bounds := linesFrom_within 0 body line member
        simp only [byteLength_append]
        omega
  have back : ∃ later,
      linesFrom lead.byteLength (word ++ rest) = ⟨lead.byteLength, word⟩ :: later ∧
      ∀ line ∈ later, lead.byteLength + word.byteLength < line.start := by
    rcases ends with empty | ⟨more, split⟩
    · subst empty
      exact ⟨[], by rw [List.append_nil, linesFrom_of_not_mem _ plain], by simp⟩
    · subst split
      refine ⟨linesFrom (lead.byteLength + word.byteLength + 1) more, ?_, ?_⟩
      · rw [linesFrom_append_feed, linesFrom_of_not_mem _ plain, List.singleton_append]
      · intro line member
        have bounds := linesFrom_within _ more line member
        omega
  rcases front with ⟨earlier, frontSplit, count, before⟩
  rcases back with ⟨later, backSplit, after⟩
  refine ⟨earlier.map trim, later.map trim, ?_, ?_, ?_, ?_⟩
  · rw [lines, frontSplit, backSplit, List.map_append, List.map_cons]
  · rw [List.length_map, count]
  · intro line member
    rcases List.mem_map.mp member with ⟨whole, wholeMember, equal⟩
    subst line
    exact before whole wholeMember
  · intro line member
    rcases List.mem_map.mp member with ⟨whole, wholeMember, equal⟩
    subst line
    exact after whole wholeMember

/-! ## Positions -/

/-- Of items in ascending places, those at or before an offset end with the last one that is
reached. -/
theorem takeWhile_le_append {Item : Type} {place : Item → Nat} {earlier later : List Item}
    {here : Item} {offset : Nat} (before : ∀ other ∈ earlier, place other ≤ offset)
    (reached : place here ≤ offset) (after : ∀ other ∈ later, offset < place other) :
    (earlier ++ here :: later).takeWhile (place · ≤ offset) = earlier ++ [here] := by
  have none : later.takeWhile (place · ≤ offset) = [] := by
    cases later with
    | nil => rfl
    | cons next later =>
        have beyond := after next List.mem_cons_self
        exact List.takeWhile_cons_of_neg (by simp only [decide_eq_true_eq]; omega)
  rw [List.takeWhile_append_of_pos (by simpa using before), List.takeWhile_cons_of_pos, none]
  exact decide_eq_true reached

theorem unitPositionAt_of_lines {text : Text} {offset : Nat} {earlier later : List Line}
    {line : Line} (split : text.lines = earlier ++ line :: later)
    (before : ∀ other ∈ earlier, other.start ≤ offset) (here : line.start ≤ offset)
    (after : ∀ other ∈ later, offset < other.start) :
    text.unitPositionAt offset = ⟨earlier.length, line.column offset⟩ := by
  have reached : text.lines.takeWhile (·.start ≤ offset) = earlier ++ [line] := by
    rw [split]
    exact takeWhile_le_append before here after
  have number : text.lineNumber offset = earlier.length := by
    rw [lineNumber, reached, List.length_append, List.length_singleton, Nat.add_sub_cancel]
  have found : text.lines[earlier.length]? = some line := by
    rw [split]
    simp
  rw [unitPositionAt, number, found]

structure LineAt (text : Text) (offset : Nat) where
  lead : Text
  word : Text
  rest : Text
  text_eq : text = lead ++ (word ++ rest)
  complete : lead.EndsLine
  plain : '\n' ∉ word
  ends : rest = [] ∨ ∃ more, rest = '\n' :: more
  starts : lead.byteLength ≤ offset
  stops : rest = [] ∨ offset ≤ lead.byteLength + word.byteLength

private theorem exists_lineAt_append {before after : Text} {offset : Nat}
    (reached : before.byteLength ≤ offset)
    (next : ∀ character more, after = character :: more →
      offset < before.byteLength + character.utf8Size) :
    ∃ line : LineAt (before ++ after) offset,
      before = line.lead ++ before.lastLine ∧ line.word = before.lastLine ++ after.firstLine := by
  rcases exists_append_lastLine before with ⟨lead, complete, beforeSplit⟩
  rcases exists_firstLine_append after with ⟨rest, afterSplit, ends⟩
  have length : before.byteLength = lead.byteLength + before.lastLine.byteLength := by
    rw [← byteLength_append, ← beforeSplit]
  refine ⟨⟨lead, before.lastLine ++ after.firstLine, rest, ?_, complete, ?_, ends, by omega, ?_⟩,
    beforeSplit, rfl⟩
  · rw [List.append_assoc before.lastLine, ← afterSplit, ← List.append_assoc, ← beforeSplit]
  · rw [List.mem_append, not_or]
    exact ⟨not_mem_lastLine before, not_mem_firstLine after⟩
  · rw [byteLength_append]
    cases after with
    | nil =>
        left
        exact (List.append_eq_nil_iff.mp afterSplit.symm).2
    | cons character more =>
        right
        have beyond := next character more rfl
        by_cases feed : character = '\n'
        · rw [feed, utf8Size_feed] at beyond
          omega
        · have first : firstLine (character :: more) = character :: firstLine more := by
            rw [firstLine, List.takeWhile_cons_of_pos (by simp [feed]), ← firstLine]
          rw [first, byteLength_cons]
          omega

private theorem exists_split_at (text : Text) (offset : Nat) :
    ∃ before after, text = before ++ after ∧ before.byteLength ≤ offset ∧
      ∀ character more, after = character :: more →
        offset < before.byteLength + character.utf8Size := by
  induction text generalizing offset with
  | nil => exact ⟨[], [], rfl, Nat.zero_le _, nofun⟩
  | cons first rest induction =>
      by_cases fits : first.utf8Size ≤ offset
      · rcases induction (offset - first.utf8Size) with ⟨before, after, rfl, reached, next⟩
        refine ⟨first :: before, after, rfl, ?_, fun character more split => ?_⟩
        · rw [byteLength_cons]
          omega
        · have beyond := next character more split
          rw [byteLength_cons]
          omega
      · refine ⟨[], first :: rest, rfl, Nat.zero_le _, fun character more split => ?_⟩
        rw [← (List.cons.inj split).1, byteLength_nil]
        omega

theorem exists_lineAt (text : Text) (offset : Nat) : Nonempty (LineAt text offset) := by
  rcases exists_split_at text offset with ⟨before, after, rfl, reached, next⟩
  rcases exists_lineAt_append reached next with ⟨line, -⟩
  exact ⟨line⟩

namespace LineAt

variable {text : Text} {offset : Nat}

def before (line : LineAt text offset) : Text :=
  (dropFinalReturn line.word).takeBytes (offset - line.lead.byteLength)

theorem unitPositionAt_eq (line : LineAt text offset) :
    text.unitPositionAt offset = ⟨line.lead.count '\n', line.before.unitLength⟩ := by
  rcases lines_append line.complete line.plain line.ends with
    ⟨earlier, later, split, count, inFront, behind⟩
  rw [← line.text_eq] at split
  rw [unitPositionAt_of_lines split, count]
  · rfl
  · exact fun other member => Nat.le_trans (inFront other member) line.starts
  · exact line.starts
  · intro other member
    have start := behind other member
    rcases line.stops with last | within
    · -- No line begins behind the end of the text, so the line is the last one.
      have length : text.byteLength = line.lead.byteLength + line.word.byteLength := by
        conv => lhs; rw [line.text_eq, last]
        simp
      have listed : other ∈ text.lines := by
        rw [split]
        exact List.mem_append_right _ (List.mem_cons_of_mem _ member)
      rcases List.mem_map.mp listed with ⟨whole, wholeMember, rfl⟩
      have bounds := linesFrom_within 0 text whole wholeMember
      simp only at start
      omega
    · omega

end LineAt

theorem unitPositionAt_append (before rest : Text) :
    unitPositionAt (before ++ rest) before.byteLength =
      ⟨before.count '\n', unitLength
        ((dropFinalReturn (before.lastLine ++ rest.firstLine)).takeBytes
          before.lastLine.byteLength)⟩ := by
  have next : ∀ character more, rest = character :: more →
      before.byteLength < before.byteLength + character.utf8Size := fun character _ _ =>
    Nat.lt_add_of_pos_right character.utf8Size_pos
  rcases exists_lineAt_append (Nat.le_refl _) next with ⟨line, split, word⟩
  have length : before.byteLength - line.lead.byteLength = before.lastLine.byteLength := by
    have total := congrArg byteLength split
    rw [byteLength_append] at total
    omega
  rw [line.unitPositionAt_eq, LineAt.before, word, length, ← count_of_append_lastLine split]

/-! ## Content -/

/-- A character with the text `after` it belongs to the content of its line: it is no line feed, and
no carriage return in front of one or at the end. -/
def IsContent (character : Char) (after : Text) : Prop :=
  character ≠ '\n' ∧ ¬(character = '\r' ∧ (after = [] ∨ after.head? = some '\n'))

instance (character : Char) (after : Text) : Decidable (IsContent character after) :=
  inferInstanceAs (Decidable (_ ∧ _))

private theorem dropFinalReturn_append (before : Text) {rest : Text} (some : rest ≠ []) :
    dropFinalReturn (before ++ rest) = before ++ dropFinalReturn rest := by
  induction before with
  | nil => rfl
  | cons character before induction =>
      have more : before ++ rest ≠ [] := by simp [some]
      rw [List.cons_append, List.cons_append, ← induction]
      rcases List.exists_cons_of_ne_nil more with ⟨next, others, split⟩
      rw [split, dropFinalReturn]
      simp

private theorem dropFinalReturn_cons {character : Char} {rest : Text}
    (stays : ¬(character = '\r' ∧ rest = [])) :
    dropFinalReturn (character :: rest) = character :: dropFinalReturn rest := by
  rw [dropFinalReturn]
  intro equal empty
  exact stays ⟨equal, empty⟩

theorem dropFinalReturn_concat (front : Text) (last : Char) :
    dropFinalReturn (front ++ [last]) = if last = '\r' then front else front ++ [last] := by
  rw [dropFinalReturn_append front (List.cons_ne_nil _ _)]
  by_cases equal : last = '\r'
  · rw [if_pos equal, equal]
    exact List.append_nil front
  · rw [if_neg equal, dropFinalReturn_cons fun ends => equal ends.1]
    rfl

theorem exists_dropFinalReturn_append (word : Text) :
    ∃ tail, word = dropFinalReturn word ++ tail := by
  rcases List.eq_nil_or_concat word with rfl | ⟨front, last, rfl⟩
  · exact ⟨[], rfl⟩
  · rw [List.concat_eq_append, dropFinalReturn_concat]
    split
    · exact ⟨[last], rfl⟩
    · exact ⟨[], (List.append_nil _).symm⟩

theorem unitLength_append (before after : Text) :
    unitLength (before ++ after) = before.unitLength + after.unitLength := by
  induction before with
  | nil => simp [unitLength]
  | cons character before induction =>
      rw [List.cons_append, unitLength, unitLength, induction, Nat.add_assoc]

theorem unitSize_pos (character : Char) : 0 < unitSize character := by
  rw [unitSize]
  split <;> omega

/-- The column of a character that is no line feed measures all that stands before it on its
line. -/
theorem unitPositionAt_character (before after : Text) {character : Char}
    (plain : character ≠ '\n') :
    unitPositionAt (before ++ character :: after) before.byteLength =
      ⟨before.count '\n', unitLength before.lastLine⟩ := by
  have first : firstLine (character :: after) = character :: firstLine after := by
    rw [firstLine, List.takeWhile_cons_of_pos (by simp [plain]), ← firstLine]
  rw [unitPositionAt_append, first, dropFinalReturn_append _ (List.cons_ne_nil _ _),
    takeBytes_byteLength_append]

/-- A place behind a content character is on a later line, or in a column further right. -/
theorem unitPositionAt_behind {before between rest : Text} {character : Char}
    (content : IsContent character (between ++ rest))
    (sameLine : (unitPositionAt (before ++ character :: between ++ rest)
      (byteLength (before ++ character :: between))).line = before.count '\n') :
    unitLength before.lastLine < (unitPositionAt (before ++ character :: between ++ rest)
      (byteLength (before ++ character :: between))).column := by
  rw [unitPositionAt_append] at sameLine ⊢
  dsimp only
  simp only [List.count_append, List.count_cons_of_ne content.1] at sameLine
  have plain : '\n' ∉ character :: between := by
    rw [List.mem_cons, not_or]
    exact ⟨Ne.symm content.1, List.count_eq_zero.mp (by omega)⟩
  have stays : ¬(character = '\r' ∧ between ++ rest.firstLine = []) := by
    intro dropped
    rcases dropped with ⟨isReturn, nothing⟩
    rcases List.append_eq_nil_iff.mp nothing with ⟨noneBetween, noneLeft⟩
    subst noneBetween
    apply content.2
    refine ⟨isReturn, ?_⟩
    rcases exists_firstLine_append rest with ⟨more, split, ends⟩
    rw [noneLeft, List.nil_append] at split
    rcases ends with empty | ⟨further, feed⟩
    · exact .inl (split.trans empty)
    · exact .inr (by rw [List.nil_append, split, feed, List.head?_cons])
  have kept : (dropFinalReturn (character :: (between ++ rest.firstLine))).takeBytes
      (byteLength (character :: between)) =
        character :: (dropFinalReturn (between ++ rest.firstLine)).takeBytes
          (byteLength between) := by
    rw [dropFinalReturn_cons stays]
    exact takeBytes_append [character] _ _
  have size := unitSize_pos character
  rw [lastLine_append _ plain, List.append_assoc, List.cons_append, byteLength_append,
    dropFinalReturn_append _ (List.cons_ne_nil _ _), takeBytes_append, kept, unitLength_append,
    unitLength]
  omega

/-! ## Bounds -/

theorem unitLength_le_byteLength (text : Text) : text.unitLength ≤ text.byteLength := by
  induction text with
  | nil => exact Nat.le_refl 0
  | cons character rest induction =>
      have size : unitSize character ≤ character.utf8Size := by
        rw [unitSize]
        by_cases beyond : 0x10000 ≤ character.toNat
        · have four : character.utf8Size = 4 :=
            Char.utf8Size_eq_four_iff.mpr (UInt32.lt_iff_toNat_lt.mpr beyond)
          rw [if_pos beyond]
          omega
        · rw [if_neg beyond]
          exact character.utf8Size_pos
      rw [unitLength, byteLength_cons]
      omega

theorem count_le_byteLength (character : Char) (text : Text) :
    text.count character ≤ text.byteLength := by
  induction text with
  | nil => exact Nat.le_refl 0
  | cons first rest induction =>
      have size := first.utf8Size_pos
      rw [List.count_cons, byteLength_cons]
      split <;> omega

namespace LineAt

variable {text : Text} {offset : Nat}

theorem exists_text_eq (line : LineAt text offset) :
    ∃ after, text = line.lead ++ (dropFinalReturn line.word ++ after) := by
  rcases exists_dropFinalReturn_append line.word with ⟨tail, wordSplit⟩
  refine ⟨tail ++ line.rest, ?_⟩
  conv => lhs; rw [line.text_eq, wordSplit]
  rw [List.append_assoc]

theorem exists_append_before (line : LineAt text offset) :
    ∃ after, text = line.lead ++ (line.before ++ after) := by
  rcases line.exists_text_eq with ⟨after, split⟩
  rcases exists_takeBytes_append (dropFinalReturn line.word) (offset - line.lead.byteLength) with
    ⟨between, content⟩
  refine ⟨between ++ after, ?_⟩
  rw [before, ← List.append_assoc _ between, ← content]
  exact split

end LineAt

/-- No line and no column of a text has a number above the text's length. -/
theorem unitPositionAt_le (text : Text) (offset : Nat) :
    (text.unitPositionAt offset).line ≤ text.byteLength ∧
      (text.unitPositionAt offset).column ≤ text.byteLength := by
  rcases exists_lineAt text offset with ⟨line⟩
  rcases line.exists_append_before with ⟨after, split⟩
  have lines := count_le_byteLength '\n' line.lead
  have columns := unitLength_le_byteLength line.before
  have length : text.byteLength =
      line.lead.byteLength + (line.before.byteLength + after.byteLength) := by
    conv => lhs; rw [split]
    simp only [byteLength_append]
  rw [line.unitPositionAt_eq, length]
  exact ⟨by dsimp only; omega, by dsimp only; omega⟩

end Text

end Uncomment

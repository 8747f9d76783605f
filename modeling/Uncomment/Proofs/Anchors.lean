import Uncomment.Proofs.CodeUnits
import Uncomment.Proofs.Lines
import Uncomment.SourceMap.Anchor

/-! # Anchors lead back to the source

A character of the output is reached from an anchored place through a stretch that was copied as it
is and holds no line feed. Along that stretch both columns advance together, and no later anchor
stands on the line at or before the character. -/

namespace Uncomment

namespace SourceMap

open Text

/-! ## Anchored places of one segment -/

def lineEnds (passed : Nat) : Text → List Nat
  | [] => []
  | character :: rest =>
      let later := lineEnds (passed + character.utf8Size) rest
      if character = '\n' then (passed + 1) :: later else later

theorem lineEnds_append (passed : Nat) (before after : Text) :
    lineEnds passed (before ++ after) =
      lineEnds passed before ++ lineEnds (passed + before.byteLength) after := by
  induction before generalizing passed with
  | nil => rfl
  | cons character before induction =>
      rw [List.cons_append, lineEnds, lineEnds, induction, byteLength_cons, Nat.add_assoc]
      by_cases feed : character = '\n' <;> simp [feed]

theorem lineEnds_of_not_mem (passed : Nat) {word : Text} (plain : '\n' ∉ word) :
    lineEnds passed word = [] := by
  induction word generalizing passed with
  | nil => rfl
  | cons character word induction =>
      rw [List.mem_cons, not_or] at plain
      rw [lineEnds, induction _ plain.2]
      exact if_neg (Ne.symm plain.1)

/-- The last line that begins in whole lines begins at their end. -/
theorem exists_lineEnds_eq {lead : Text} (complete : lead.EndsLine) :
    ∃ earlier, 0 :: lineEnds 0 lead = earlier ++ [lead.byteLength] := by
  rcases complete with empty | ⟨body, feed⟩
  · subst empty
    exact ⟨[], rfl⟩
  · subst feed
    refine ⟨0 :: lineEnds 0 body, ?_⟩
    rw [lineEnds_append]
    simp [lineEnds]

theorem lineStarts_append (passed : Nat) (before : Text) {rest : Text} (some : rest ≠ []) :
    lineStarts passed (before ++ rest) =
      lineEnds passed before ++ lineStarts (passed + before.byteLength) rest := by
  induction before generalizing passed with
  | nil => rfl
  | cons character before induction =>
      have more : before ++ rest ≠ [] := by simp [some]
      rw [List.cons_append, lineStarts, lineEnds, induction, byteLength_cons, Nat.add_assoc]
      by_cases feed : character = '\n' <;> simp [feed, more]

theorem lineStarts_within (passed : Nat) (text : Text) :
    ∀ distance ∈ lineStarts passed text, ∃ before after,
      text = before ++ after ∧ distance = passed + before.byteLength := by
  induction text generalizing passed with
  | nil => simp [lineStarts]
  | cons character rest induction =>
      intro distance member
      have further : distance ∈ lineStarts (passed + character.utf8Size) rest →
          ∃ before after, character :: rest = before ++ after ∧
            distance = passed + byteLength before := by
        intro member
        rcases induction _ distance member with ⟨before, after, split, equal⟩
        refine ⟨character :: before, after, by rw [split, List.cons_append], ?_⟩
        rw [byteLength_cons, equal, Nat.add_assoc]
      rw [lineStarts] at member
      by_cases starts : character = '\n' ∧ rest ≠ []
      · simp only [if_pos starts] at member
        rcases List.mem_cons.mp member with equal | member
        · refine ⟨['\n'], rest, by rw [starts.1, List.singleton_append], ?_⟩
          simpa using equal
        · exact further member
      · simp only [if_neg starts] at member
        exact further member

private theorem exists_lineStarts_split (before after : Text) {character : Char}
    (plain : character ≠ '\n') :
    ∃ lead earlier later,
      before = lead ++ before.lastLine ∧
      0 :: lineStarts 0 (before ++ character :: after) = earlier ++ lead.byteLength :: later ∧
      ∀ distance ∈ later, ∃ between rest,
        after = between ++ rest ∧ distance = byteLength (before ++ character :: between) := by
  rcases exists_append_lastLine before with ⟨lead, complete, split⟩
  rcases exists_lineEnds_eq complete with ⟨earlier, start⟩
  have ends : lineEnds 0 before = lineEnds 0 lead := by
    rw [split, lineEnds_append, lineEnds_of_not_mem _ (not_mem_lastLine before), List.append_nil]
  refine ⟨lead, earlier, lineStarts before.byteLength (character :: after), split, ?_, ?_⟩
  · rw [lineStarts_append 0 before (List.cons_ne_nil _ _), ends, ← List.cons_append, start,
      Nat.zero_add, List.append_assoc, List.singleton_append]
  · intro distance member
    rw [lineStarts, if_neg (fun feed => plain feed.1)] at member
    rcases lineStarts_within _ after distance member with ⟨between, rest, afterSplit, equal⟩
    refine ⟨between, rest, afterSplit, ?_⟩
    rw [equal, byteLength_append, byteLength_cons, Nat.add_assoc]

/-! ## Anchored places of all segments -/

def copiedPiece (output origin : Nat) (kept : Text) : List Copied :=
  if kept = [] then []
  else (0 :: lineStarts 0 kept).map fun distance => ⟨output + distance, origin + distance⟩

private theorem copiedOf_slice (output : Nat) (front kept rest : Text) (some : kept ≠ []) :
    copiedOf (front ++ kept ++ rest) output
        ⟨front.byteLength, front.byteLength + kept.byteLength⟩ =
      copiedPiece output front.byteLength kept := by
  rw [copiedOf, copiedPiece, if_neg some, slice_append]

theorem copiedFrom_complementFrom_nil (output : Nat) (front kept : Text) :
    copiedFrom (front ++ kept) output
        (complementFrom front.byteLength (front.byteLength + kept.byteLength) []) =
      copiedPiece output front.byteLength kept := by
  by_cases empty : kept = []
  · subst empty
    simp [complementFrom, copiedFrom, copiedPiece]
  · have positive := (byteLength_pos_iff kept).mpr empty
    have copied := copiedOf_slice output front kept [] empty
    rw [List.append_nil] at copied
    rw [complementFrom, if_pos (by omega), copiedFrom, copiedFrom, copied, List.append_nil]

theorem copiedFrom_complementFrom_cons (output length : Nat) (front kept gone rest : Text)
    (later : List Span) :
    copiedFrom (front ++ (kept ++ gone ++ rest)) output
        (complementFrom front.byteLength length
          (⟨front.byteLength + kept.byteLength,
            front.byteLength + kept.byteLength + gone.byteLength⟩ :: later)) =
      copiedPiece output front.byteLength kept ++
        copiedFrom (front ++ (kept ++ gone ++ rest)) (output + kept.byteLength)
          (complementFrom (front.byteLength + kept.byteLength + gone.byteLength) length
            later) := by
  have further : max front.byteLength (front.byteLength + kept.byteLength + gone.byteLength) =
      front.byteLength + kept.byteLength + gone.byteLength := by omega
  rw [complementFrom]
  simp only [further]
  by_cases empty : kept = []
  · subst empty
    simp [copiedPiece]
  · have positive := (byteLength_pos_iff kept).mpr empty
    have copied := copiedOf_slice output front kept (gone ++ rest) empty
    rw [List.append_assoc, ← List.append_assoc kept] at copied
    rw [if_pos (by omega), copiedFrom, copied, Span.length, Nat.add_sub_cancel_left]

variable {offset : Nat} {spans : List Span} {text remainder : Text}

private theorem copiedPiece_within (output origin : Nat) (kept : Text) :
    ∀ place ∈ copiedPiece output origin kept, ∃ before after,
      kept = before ++ after ∧ place.output = output + before.byteLength := by
  intro place member
  rw [copiedPiece] at member
  split at member
  · cases member
  · rcases List.mem_map.mp member with ⟨distance, distanceMember, equal⟩
    subst place
    rcases List.mem_cons.mp distanceMember with zero | starts
    · subst zero
      exact ⟨[], kept, rfl, rfl⟩
    · rcases lineStarts_within 0 kept distance starts with ⟨before, after, split, equal⟩
      rw [Nat.zero_add] at equal
      exact ⟨before, after, split, by rw [equal]⟩

private theorem copied_within (cuts : Span.Cuts offset spans text remainder) :
    ∀ (front : Text) (output : Nat), front.byteLength = offset →
      ∀ place ∈ copiedFrom (front ++ text) output
          (complementFrom offset (offset + text.byteLength) spans),
        ∃ before after, remainder = before ++ after ∧
          place.output = output + before.byteLength := by
  induction cuts with
  | nil offset text =>
      intro front output length place member
      subst length
      rw [copiedFrom_complementFrom_nil] at member
      exact copiedPiece_within output _ text place member
  | @cons offset kept gone later rest remainder proper further induction =>
      intro front output length place member
      subst length
      rw [copiedFrom_complementFrom_cons] at member
      rcases List.mem_append.mp member with inPiece | inFurther
      · rcases copiedPiece_within output _ kept place inPiece with ⟨before, after, split, equal⟩
        exact ⟨before, after ++ remainder, by rw [split, List.append_assoc], equal⟩
      · have bounds := induction (front ++ kept ++ gone) (output + kept.byteLength)
          (by simp only [byteLength_append]) place
        simp only [List.append_assoc, byteLength_append, ← Nat.add_assoc] at bounds inFurther
        rcases bounds inFurther with ⟨before, after, split, equal⟩
        refine ⟨kept ++ before, after, by rw [split, List.append_assoc], ?_⟩
        rw [equal, byteLength_append, Nat.add_assoc]

/-! ## From an anchored place to a character -/

private structure Track (before : Text) (character : Char) (text : Text) where
  lead : Text
  word : Text
  textLead : Text
  textRest : Text
  before_eq : before = lead ++ word
  text_eq : text = textLead ++ word ++ character :: textRest
  plain : '\n' ∉ word

namespace Track

variable {before text : Text} {character : Char}

private def followedBy (track : Track before character text) (rest : Text) :
    Track before character (text ++ rest) where
  lead := track.lead
  word := track.word
  textLead := track.textLead
  textRest := track.textRest ++ rest
  before_eq := track.before_eq
  text_eq := by
    conv => lhs; rw [track.text_eq]
    rw [List.append_assoc, List.cons_append]
  plain := track.plain

private def precededBy (track : Track before character text) (output front : Text) :
    Track (output ++ before) character (front ++ text) where
  lead := output ++ track.lead
  word := track.word
  textLead := front ++ track.textLead
  textRest := track.textRest
  before_eq := by
    conv => lhs; rw [track.before_eq]
    rw [List.append_assoc]
  text_eq := by
    conv => lhs; rw [track.text_eq]
    simp only [List.append_assoc]
  plain := track.plain

end Track

/-- A track to a character of the remainder starts at an anchored place, ends at the place that the
character had in the text, and has no anchored place behind it up to the character. -/
private def Tracked (offset output : Nat) (spans : List Span) (text : Text) (copied : List Copied)
    (before after : Text) (character : Char) : Prop :=
  ∃ (track : Track before character text) (earlier later : List Copied),
    copied = earlier ++
      ⟨output + track.lead.byteLength, offset + track.textLead.byteLength⟩ :: later ∧
    ((text.placedFrom offset).filter fun place => Span.Outside spans place.offset)[before.length]? =
      some ⟨offset + (track.textLead ++ track.word).byteLength, character⟩ ∧
    ∀ place ∈ later, ∃ between rest, after = between ++ rest ∧
      place.output = output + byteLength (before ++ character :: between)

private theorem exists_copiedPiece_split (output origin : Nat) (before after : Text)
    {character : Char} (plain : character ≠ '\n') :
    ∃ (track : Track before character (before ++ character :: after)) (earlier later : List Copied),
      track.textLead = track.lead ∧
      copiedPiece output origin (before ++ character :: after) = earlier ++
        ⟨output + track.lead.byteLength, origin + track.lead.byteLength⟩ :: later ∧
      ∀ place ∈ later, ∃ between rest, after = between ++ rest ∧
        place.output = output + byteLength (before ++ character :: between) := by
  rcases exists_lineStarts_split before after plain with
    ⟨lead, earlier, later, split, starts, behind⟩
  refine ⟨⟨lead, before.lastLine, lead, after, split, by rw [← split],
    not_mem_lastLine before⟩, earlier.map fun distance => ⟨output + distance, origin + distance⟩,
    later.map fun distance => ⟨output + distance, origin + distance⟩, rfl, ?_, ?_⟩
  · rw [copiedPiece, if_neg (by simp), starts, List.map_append, List.map_cons]
  · intro place member
    rcases List.mem_map.mp member with ⟨distance, distanceMember, equal⟩
    subst place
    rcases behind distance distanceMember with ⟨between, rest, afterSplit, equal⟩
    exact ⟨between, rest, afterSplit, by rw [equal]⟩

private theorem length_placedFrom (offset : Nat) (text : Text) :
    (placedFrom offset text).length = text.length := by
  conv => rhs; rw [← map_character_placedFrom offset text]
  rw [List.length_map]

private theorem placedFrom_getElem? (offset : Nat) (before after : Text) (character : Char) :
    (placedFrom offset (before ++ character :: after))[before.length]? =
      some ⟨offset + before.byteLength, character⟩ := by
  induction before generalizing offset with
  | nil => rfl
  | cons first before induction =>
      rw [List.cons_append, placedFrom, List.length_cons, List.getElem?_cons_succ, induction,
        byteLength_cons, Nat.add_assoc]

private theorem split_append {first second before after : Text} {character : Char}
    (equal : first ++ second = before ++ character :: after) :
    (∃ rest, first = before ++ character :: rest ∧ after = rest ++ second) ∨
      ∃ lead, before = first ++ lead ∧ second = lead ++ character :: after := by
  rcases List.append_eq_append_iff.mp equal with
    ⟨lead, beforeSplit, split⟩ | ⟨rest, split, restSplit⟩
  · exact .inr ⟨lead, beforeSplit, split⟩
  · cases rest with
    | nil =>
        rw [List.append_nil] at split
        exact .inr ⟨[], by rw [split, List.append_nil], restSplit.symm⟩
    | cons next rest =>
        rw [List.cons_append, List.cons.injEq] at restSplit
        exact .inl ⟨rest, by rw [split, restSplit.1], restSplit.2⟩

private theorem tracked_nil (front : Text) (output : Nat) (before after : Text) {character : Char}
    (plain : character ≠ '\n') :
    Tracked front.byteLength output [] (before ++ character :: after)
      (copiedFrom (front ++ (before ++ character :: after)) output
        (complementFrom front.byteLength
          (front.byteLength + byteLength (before ++ character :: after)) []))
      before after character := by
  rcases exists_copiedPiece_split output front.byteLength before after plain with
    ⟨track, earlier, later, same, copied, behind⟩
  refine ⟨track, earlier, later, ?_, ?_, behind⟩
  · rw [copiedFrom_complementFrom_nil, copied, same]
  · rw [List.filter_eq_self.mpr (fun _ _ => decide_eq_true (Span.outside_of_lt (by simp))),
      placedFrom_getElem?, same, ← track.before_eq]

section FirstCut

variable {kept gone rest : Text} {later : List Span} {copied : List Copied} {output : Nat}
  {before after : Text} {character : Char}

private theorem tracked_before_cut {keptRest : Text} (plain : character ≠ '\n')
    (split : kept = before ++ character :: keptRest)
    (further : Span.Cuts (offset + kept.byteLength + gone.byteLength) later rest remainder)
    (within : ∀ place ∈ copied, ∃ passed left, remainder = passed ++ left ∧
      place.output = output + kept.byteLength + passed.byteLength) :
    Tracked offset output
      (⟨offset + kept.byteLength, offset + kept.byteLength + gone.byteLength⟩ :: later)
      (kept ++ gone ++ rest) (copiedPiece output offset kept ++ copied)
      before (keptRest ++ remainder) character := by
  subst split
  rcases exists_copiedPiece_split output offset before keptRest plain with
    ⟨track, earlier, others, same, piece, behind⟩
  refine ⟨(track.followedBy gone).followedBy rest, earlier, others ++ copied, ?_, ?_, ?_⟩
  · rw [piece, List.append_assoc, List.cons_append]
    simp only [Track.followedBy, same]
  · rw [Span.Cuts.filter_outside_cons Span.spreads_characters further,
      List.getElem?_append_left (by rw [length_placedFrom]; simp), placedFrom_getElem?]
    simp only [Track.followedBy, same, ← track.before_eq]
  · intro place member
    rcases List.mem_append.mp member with inPiece | inFurther
    · rcases behind place inPiece with ⟨between, left, restSplit, equal⟩
      exact ⟨between, left ++ remainder, by rw [restSplit, List.append_assoc], equal⟩
    · rcases within place inFurther with ⟨passed, left, restSplit, equal⟩
      refine ⟨keptRest ++ passed, left, by rw [restSplit, List.append_assoc], ?_⟩
      rw [equal]
      simp only [byteLength_append, byteLength_cons]
      omega

private theorem tracked_after_cut
    (further : Span.Cuts (offset + kept.byteLength + gone.byteLength) later rest remainder)
    (tracked : Tracked (offset + kept.byteLength + gone.byteLength) (output + kept.byteLength) later
      rest copied before after character) :
    Tracked offset output
      (⟨offset + kept.byteLength, offset + kept.byteLength + gone.byteLength⟩ :: later)
      (kept ++ gone ++ rest) (copiedPiece output offset kept ++ copied)
      (kept ++ before) after character := by
  rcases tracked with ⟨track, earlier, others, split, origin, behind⟩
  refine ⟨track.precededBy kept (kept ++ gone), copiedPiece output offset kept ++ earlier, others,
    ?_, ?_, ?_⟩
  · rw [split, List.append_assoc]
    simp only [Track.precededBy, byteLength_append, Nat.add_assoc]
  · rw [Span.Cuts.filter_outside_cons Span.spreads_characters further,
      List.getElem?_append_right (by rw [length_placedFrom]; simp), length_placedFrom,
      List.length_append, Nat.add_sub_cancel_left, origin]
    simp only [Track.precededBy, byteLength_append, Nat.add_assoc]
  · intro place member
    rcases behind place member with ⟨between, left, afterSplit, equal⟩
    refine ⟨between, left, afterSplit, ?_⟩
    rw [equal, List.append_assoc, byteLength_append kept, Nat.add_assoc]

end FirstCut

/-- Every character of the remainder other than a line feed is tracked. -/
private theorem tracked_of_cuts (cuts : Span.Cuts offset spans text remainder) :
    ∀ (front : Text) (output : Nat) (before after : Text) (character : Char),
      front.byteLength = offset → remainder = before ++ character :: after →
      character ≠ '\n' →
      Tracked offset output spans text
        (copiedFrom (front ++ text) output
          (complementFrom offset (offset + text.byteLength) spans)) before after character := by
  induction cuts with
  | nil offset text =>
      intro front output before after character length split plain
      subst length split
      exact tracked_nil front output before after plain
  | @cons offset kept gone spans rest remainder proper further induction =>
      intro front output before after character length split plain
      subst length
      have longer : (front ++ kept ++ gone).byteLength =
          front.byteLength + kept.byteLength + gone.byteLength := by
        rw [byteLength_append, byteLength_append]
      have total : front.byteLength + (kept ++ gone ++ rest).byteLength =
          front.byteLength + kept.byteLength + gone.byteLength + rest.byteLength := by
        simp only [byteLength_append, Nat.add_assoc]
      have regroup : front ++ (kept ++ gone ++ rest) = front ++ kept ++ gone ++ rest := by
        simp only [List.append_assoc]
      rw [copiedFrom_complementFrom_cons, total, regroup]
      rcases split_append split with ⟨keptRest, inFront, afterSplit⟩ | ⟨lead, beforeSplit, behind⟩
      · rw [afterSplit]
        exact tracked_before_cut plain inFront further
          (copied_within further (front ++ kept ++ gone) (output + kept.byteLength) longer)
      · rw [beforeSplit]
        exact tracked_after_cut further
          (induction (front ++ kept ++ gone) (output + kept.byteLength) lead after character longer
            behind plain)

/-! ## Looking a position up -/

/-- The last anchor on the line of a position that does not stand to the right of it. -/
def lookup? (anchors : List Anchor) (position : UnitPosition) : Option Anchor :=
  (anchors.filter fun anchor =>
    anchor.outputLine = position.line ∧ anchor.outputColumn ≤ position.column).getLast?

private theorem lookup?_append {earlier later : List Anchor} {anchor : Anchor}
    {position : UnitPosition} (sameLine : anchor.outputLine = position.line)
    (notRight : anchor.outputColumn ≤ position.column)
    (beyond : ∀ other ∈ later, other.outputLine = position.line →
      position.column < other.outputColumn) :
    lookup? (earlier ++ anchor :: later) position = some anchor := by
  have none : later.filter (fun other =>
      other.outputLine = position.line ∧ other.outputColumn ≤ position.column) = [] := by
    apply List.filter_eq_nil_iff.mpr
    intro other member reached
    have holds := of_decide_eq_true reached
    have right := beyond other member holds.1
    omega
  rw [lookup?, List.filter_append, List.filter_cons_of_pos (by simp [sameLine, notRight]), none,
    List.getLast?_concat]

end SourceMap

namespace Text

/-- The line and the column behind a text, as a reader of its characters counts them. -/
def endPosition (text : Text) : UnitPosition :=
  ⟨text.count '\n', text.lastLine.encodeUnits.length⟩

theorem endPosition_eq (text : Text) :
    text.endPosition = ⟨text.count '\n', unitLength text.lastLine⟩ := by
  rw [endPosition, length_encodeUnits]

theorem endPosition_append (lead : Text) {word : Text} (plain : '\n' ∉ word) :
    endPosition (lead ++ word) =
      ⟨lead.count '\n', unitLength lead.lastLine + unitLength word⟩ := by
  rw [endPosition_eq, List.count_append, List.count_eq_zero.mpr plain, lastLine_append lead plain,
    unitLength_append, Nat.add_zero]

end Text

namespace Anchor

def trace (anchor : Anchor) (position : Text.UnitPosition) : Text.UnitPosition where
  line := anchor.sourceLine
  column := anchor.sourceColumn + (position.column - anchor.outputColumn)

/-- Nothing is lost of the positions in a short text. -/
theorem stored_unitPositionAt {text : Text} (small : text.byteLength < UInt32.size)
    (offset : Nat) :
    stored (text.unitPositionAt offset).line = (text.unitPositionAt offset).line ∧
      stored (text.unitPositionAt offset).column = (text.unitPositionAt offset).column := by
  have bounds := text.unitPositionAt_le offset
  exact ⟨Nat.mod_eq_of_lt (by omega), Nat.mod_eq_of_lt (by omega)⟩

end Anchor

namespace SourceMap

open Text

theorem unitPositionAt_word (lead after : Text) {word : Text} {character : Char}
    (plainWord : '\n' ∉ word) (plain : character ≠ '\n') :
    unitPositionAt (lead ++ word ++ character :: after) lead.byteLength =
      ⟨lead.count '\n', unitLength lead.lastLine⟩ := by
  rw [List.append_assoc]
  cases word with
  | nil => exact unitPositionAt_character lead after plain
  | cons first word =>
      rw [List.mem_cons, not_or] at plainWord
      exact unitPositionAt_character lead (word ++ character :: after) (Ne.symm plainWord.1)

private theorem tie_word {lead textLead word after textRest : Text} {character : Char}
    (plainWord : '\n' ∉ word) (plain : character ≠ '\n')
    (outputSmall : byteLength (lead ++ word ++ character :: after) < UInt32.size)
    (sourceSmall : byteLength (textLead ++ word ++ character :: textRest) < UInt32.size) :
    Anchor.tie (unitPositionAt (lead ++ word ++ character :: after) lead.byteLength)
        (unitPositionAt (textLead ++ word ++ character :: textRest) textLead.byteLength) =
      ⟨lead.count '\n', unitLength lead.lastLine,
        textLead.count '\n', unitLength textLead.lastLine⟩ := by
  rw [List.append_assoc] at outputSmall sourceSmall
  have output := Anchor.stored_unitPositionAt outputSmall lead.byteLength
  have source := Anchor.stored_unitPositionAt sourceSmall textLead.byteLength
  rw [← List.append_assoc, unitPositionAt_word _ _ plainWord plain] at output source
  rw [unitPositionAt_word _ _ plainWord plain, unitPositionAt_word _ _ plainWord plain, Anchor.tie,
    output.1, output.2, source.1, source.2]

private theorem tie_behind {before between rest : Text} {character : Char} (origin : UnitPosition)
    (content : IsContent character (between ++ rest))
    (small : byteLength (before ++ character :: (between ++ rest)) < UInt32.size)
    (sameLine : (Anchor.tie (unitPositionAt (before ++ character :: (between ++ rest))
      (byteLength (before ++ character :: between))) origin).outputLine = before.count '\n') :
    unitLength before.lastLine <
      (Anchor.tie (unitPositionAt (before ++ character :: (between ++ rest))
        (byteLength (before ++ character :: between))) origin).outputColumn := by
  rw [← List.cons_append, ← List.append_assoc] at small sameLine ⊢
  have stored := Anchor.stored_unitPositionAt small
    (byteLength (before ++ character :: between))
  rw [Anchor.tie, stored.1] at sameLine
  rw [Anchor.tie, stored.2]
  exact unitPositionAt_behind content sameLine

private theorem lookup?_of_tracked {source before after : Text} {removed : List Span}
    {character : Char} (sourceSmall : source.byteLength < UInt32.size)
    (outputSmall : byteLength (before ++ character :: after) < UInt32.size)
    (content : IsContent character after)
    (tracked : Tracked 0 0 removed source
      (copiedFrom source 0 (complement source.byteLength removed)) before after character) :
    ∃ lead rest anchor, source = lead ++ character :: rest ∧
      (source.outside removed)[before.length]? = some ⟨lead.byteLength, character⟩ ∧
      lookup? (anchors source (before ++ character :: after) removed) before.endPosition =
        some anchor ∧
      anchor.trace before.endPosition = lead.endPosition := by
  rcases tracked with ⟨⟨lead, word, textLead, textRest, beforeSplit, textSplit, plain⟩, earlier,
    later, copied, kept, behind⟩
  subst beforeSplit textSplit
  simp only [Nat.zero_add] at copied kept behind
  refine ⟨textLead ++ word, textRest, ⟨lead.count '\n', unitLength lead.lastLine,
    textLead.count '\n', unitLength textLead.lastLine⟩, rfl, kept, ?_, ?_⟩
  · rw [anchors, copied, List.map_append, List.map_cons,
      tie_word plain content.1 outputSmall sourceSmall, endPosition_append lead plain]
    apply lookup?_append
    · rfl
    · exact Nat.le_add_right _ _
    · intro other member sameLine
      rcases List.mem_map.mp member with ⟨place, placeMember, equal⟩
      rcases behind place placeMember with ⟨between, rest, afterSplit, output⟩
      subst other afterSplit
      rw [← endPosition_append lead plain, endPosition_eq] at sameLine ⊢
      rw [output] at sameLine ⊢
      exact tie_behind _ content outputSmall sameLine
  · rw [endPosition_append lead plain, endPosition_append textLead plain, Anchor.trace,
      Nat.add_sub_cancel_left]

/-- The anchors of an erasure lead every content character back to its place in the source. A place
that the text `before` it ends at is looked up by its line and its column; what the anchor says of
it are the line and the column at which the text before the same character ends in the source. -/
theorem trace_lookup_anchors (source : Text) (spans : List Span)
    (small : source.byteLength < UInt32.size) {before after : Text} {character : Char}
    (split : (source.erase spans).remainder = before ++ character :: after)
    (content : IsContent character after) :
    ∃ lead rest anchor, source = lead ++ character :: rest ∧
      (source.outside (source.erase spans).removed)[before.length]? =
        some ⟨lead.byteLength, character⟩ ∧
      lookup? (anchors source (source.erase spans).remainder (source.erase spans).removed)
        before.endPosition = some anchor ∧
      anchor.trace before.endPosition = lead.endPosition := by
  have lengths := byteLength_remainder_add source spans
  have tracked := tracked_of_cuts (erase_cuts source spans) [] 0 before after character rfl split
    content.1
  rw [List.nil_append, Nat.zero_add] at tracked
  rw [split] at lengths ⊢
  exact lookup?_of_tracked small (by omega) content tracked

/-- Two comments stand before `x`, which comes from the second line and the fifth column. -/
theorem trace_lookup_twoComments :
    let source : Text := ['/', '/', '\r', '\n', '🙂', '/', '*', '*', '/', 'x']
    let erasure := source.erase [⟨0, 2⟩, ⟨8, 12⟩, ⟨9, 12⟩]
    source.byteLength < UInt32.size ∧ erasure.remainder = ['\r', '\n', '🙂'] ++ 'x' :: [] ∧
      IsContent 'x' [] ∧
      ∃ lead rest anchor, source = lead ++ 'x' :: rest ∧ lead.byteLength = 12 ∧
        lookup? (anchors source erasure.remainder erasure.removed) ⟨1, 2⟩ = some anchor ∧
        anchor = ⟨1, 2, 1, 6⟩ ∧ anchor.trace ⟨1, 2⟩ = ⟨1, 6⟩ ∧ lead.endPosition = ⟨1, 6⟩ := by
  intro source erasure
  have cut : erasure = ⟨['\r', '\n', '🙂', 'x'], [⟨0, 2⟩, ⟨8, 12⟩]⟩ := by
    simp only [erasure, erase]
    rw [Span.select_of_pairwise (by decide)]
    decide
  have small : source.byteLength < UInt32.size := by decide
  have split : erasure.remainder = ['\r', '\n', '🙂'] ++ 'x' :: [] := by rw [cut]; rfl
  have content : IsContent 'x' [] := by decide
  have behind : endPosition ['\r', '\n', '🙂'] = ⟨1, 2⟩ := by decide
  rcases trace_lookup_anchors source _ small split content with
    ⟨lead, rest, anchor, sourceSplit, origin, found, traced⟩
  change (source.outside erasure.removed)[3]? = _ at origin
  change lookup? (anchors source erasure.remainder erasure.removed) _ = _ at found
  rw [behind] at found traced
  have place : (source.outside erasure.removed)[3]? = some ⟨12, 'x'⟩ := by
    rw [cut]
    decide
  rw [place, Option.some_inj, Placed.mk.injEq] at origin
  have anchored : anchor = ⟨1, 2, 1, 6⟩ := by
    rw [cut] at found
    exact Option.some.inj (found.symm.trans (by decide))
  have traceEnd : anchor.trace ⟨1, 2⟩ = ⟨1, 6⟩ := by rw [anchored]; rfl
  exact ⟨small, split, content, lead, rest, anchor, sourceSplit, origin.1.symm, found,
    anchored, traceEnd, traced.symm.trans traceEnd⟩

end SourceMap

end Uncomment

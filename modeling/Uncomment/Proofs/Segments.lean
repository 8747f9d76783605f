import Uncomment.Proofs.Anchors

/-! # Kept segments

The segments between the removed spans hold every byte that was kept and no other one, and no two of
them touch. Written one after the other they make up the remainder, so the position that runs along
with them is, before each segment, the byte of the output to which the segment was copied. -/

namespace Uncomment

/-! ## Slices put together -/

namespace Text

def slices? (text : Text) : List Span → Option Text
  | [] => some []
  | span :: later => do
      let part ← text.slice? span.start span.stop
      let others ← text.slices? later
      some (part ++ others)

example : slices? ['a', 'é', 'b'] [⟨3, 4⟩, ⟨0, 1⟩] = some ['b', 'a'] := by decide

private theorem byteLength_of_slice? {text part : Text} {start stop : Nat}
    (sliced : text.slice? start stop = some part) : part.byteLength = stop - start := by
  rw [slice?] at sliced
  by_cases bounds : start ≤ stop ∧ text.isBoundary start = true ∧ text.isBoundary stop = true
  · rw [if_pos bounds] at sliced
    rcases bounds with ⟨ordered, startBoundary, stopBoundary⟩
    rcases (isBoundary_iff _ _).mp startBoundary with ⟨before, rest, rfl, rfl⟩
    rcases split_after stopBoundary ordered with ⟨middle, after, rfl, rfl⟩
    rw [← List.append_assoc, slice_append] at sliced
    cases sliced
    omega
  · rw [if_neg bounds] at sliced
    cases sliced

variable {text joined : Text}

theorem slices?_cons_eq_some_iff {span : Span} {later : List Span} :
    text.slices? (span :: later) = some joined ↔
      ∃ part others, text.slice? span.start span.stop = some part ∧
        text.slices? later = some others ∧ joined = part ++ others := by
  simp only [slices?, Option.bind_eq_bind, Option.bind_eq_some_iff, Option.some.injEq]
  constructor
  · intro parts
    rcases parts with ⟨part, sliced, others, furtherSliced, equal⟩
    exact ⟨part, others, sliced, furtherSliced, equal.symm⟩
  · intro parts
    rcases parts with ⟨part, others, sliced, furtherSliced, equal⟩
    exact ⟨part, sliced, others, furtherSliced, equal.symm⟩

theorem exists_of_slices?_append {earlier later : List Span}
    (sliced : text.slices? (earlier ++ later) = some joined) :
    ∃ before after, text.slices? earlier = some before ∧ text.slices? later = some after ∧
      joined = before ++ after := by
  induction earlier generalizing joined with
  | nil => exact ⟨[], joined, rfl, sliced, rfl⟩
  | cons span earlier induction =>
      rcases slices?_cons_eq_some_iff.mp sliced with ⟨part, others, first, further, rfl⟩
      rcases induction further with ⟨before, after, front, back, rfl⟩
      exact ⟨part ++ before, after, slices?_cons_eq_some_iff.mpr ⟨part, before, first, front, rfl⟩,
        back, (List.append_assoc _ _ _).symm⟩

theorem byteLength_of_slices? {spans : List Span} (sliced : text.slices? spans = some joined) :
    joined.byteLength = Span.totalLength spans := by
  induction spans generalizing joined with
  | nil =>
      cases sliced
      rfl
  | cons span later induction =>
      rcases slices?_cons_eq_some_iff.mp sliced with ⟨part, others, first, further, rfl⟩
      rw [byteLength_append, byteLength_of_slice? first, induction further, Span.totalLength,
        Span.length]

end Text

namespace SourceMap

open Text

/-! ## Segments of a cut -/

def pieceAt (offset : Nat) (kept : Text) : List Span :=
  if kept = [] then [] else [⟨offset, offset + kept.byteLength⟩]

private theorem mem_pieceAt_iff {offset : Nat} {kept : Text} {segment : Span} :
    segment ∈ pieceAt offset kept ↔
      0 < kept.byteLength ∧ segment = ⟨offset, offset + kept.byteLength⟩ := by
  rw [pieceAt, byteLength_pos_iff]
  split <;> simp [*]

private theorem pairwise_pieceAt (offset : Nat) (kept : Text) (Related : Span → Span → Prop) :
    (pieceAt offset kept).Pairwise Related := by
  rw [pieceAt]
  split
  · exact .nil
  · exact List.pairwise_singleton _ _

theorem complementFrom_nil (offset : Nat) (kept : Text) :
    complementFrom offset (offset + kept.byteLength) [] = pieceAt offset kept := by
  have positive := byteLength_pos_iff kept
  rw [complementFrom, pieceAt]
  by_cases empty : kept = []
  · subst empty
    simp
  · rw [if_neg empty, if_pos]
    have kept := positive.mpr empty
    omega

theorem complementFrom_cons (offset : Nat) (kept gone rest : Text) (later : List Span) :
    complementFrom offset (offset + (kept ++ gone ++ rest).byteLength)
        (⟨offset + kept.byteLength, offset + kept.byteLength + gone.byteLength⟩ :: later) =
      pieceAt offset kept ++
        complementFrom (offset + kept.byteLength + gone.byteLength)
          (offset + kept.byteLength + gone.byteLength + rest.byteLength) later := by
  have positive := byteLength_pos_iff kept
  have further : max offset (offset + kept.byteLength + gone.byteLength) =
      offset + kept.byteLength + gone.byteLength := by omega
  rw [complementFrom, pieceAt, further, byteLength_append, byteLength_append]
  simp only [← Nat.add_assoc]
  by_cases empty : kept = []
  · subst empty
    simp
  · have some := positive.mpr empty
    rw [if_neg empty, if_pos (by omega), List.singleton_append]

variable {offset : Nat} {removed : List Span} {text remainder : Text}

theorem proper_of_mem_complementFrom (cuts : Span.Cuts offset removed text remainder) :
    ∀ segment ∈ complementFrom offset (offset + text.byteLength) removed,
      offset ≤ segment.start ∧ segment.start < segment.stop := by
  induction cuts with
  | nil offset text =>
      intro segment member
      rw [complementFrom_nil, mem_pieceAt_iff] at member
      rcases member with ⟨positive, rfl⟩
      exact ⟨Nat.le_refl _, Nat.lt_add_of_pos_right positive⟩
  | cons offset kept gone proper further induction =>
      intro segment member
      rw [complementFrom_cons] at member
      rcases List.mem_append.mp member with inPiece | inFurther
      · rcases mem_pieceAt_iff.mp inPiece with ⟨positive, rfl⟩
        exact ⟨Nat.le_refl _, Nat.lt_add_of_pos_right positive⟩
      · have bounds := induction segment inFurther
        exact ⟨by omega, bounds.2⟩

/-- A removed byte directly follows each segment but the last. -/
theorem pairwise_complementFrom (cuts : Span.Cuts offset removed text remainder) :
    (complementFrom offset (offset + text.byteLength) removed).Pairwise fun first second =>
      first.stop < second.start ∧ ¬Span.Outside removed first.stop := by
  induction cuts with
  | nil offset text =>
      rw [complementFrom_nil]
      exact pairwise_pieceAt _ _ _
  | @cons offset kept gone later rest remainder proper further induction =>
      have positive := (byteLength_pos_iff gone).mpr proper
      rw [complementFrom_cons]
      refine List.pairwise_append.mpr ⟨pairwise_pieceAt _ _ _, ?_, ?_⟩
      · refine induction.imp fun placed => ⟨placed.1, fun outside => placed.2 ?_⟩
        exact fun span member => outside span (List.mem_cons_of_mem _ member)
      · intro first inPiece second inFurther
        rcases mem_pieceAt_iff.mp inPiece with ⟨-, rfl⟩
        have bound := (proper_of_mem_complementFrom further second inFurther).1
        refine ⟨by dsimp only; omega, fun outside => ?_⟩
        exact outside _ List.mem_cons_self ⟨Nat.le_refl _, by dsimp only; omega⟩

private theorem exists_contains_pieceAt_iff {offset byte : Nat} {kept : Text} :
    (∃ segment ∈ pieceAt offset kept, segment.Contains byte) ↔
      offset ≤ byte ∧ byte < offset + kept.byteLength := by
  constructor
  · intro held
    rcases held with ⟨segment, member, contains⟩
    rcases mem_pieceAt_iff.mp member with ⟨-, rfl⟩
    exact contains
  · intro inside
    exact ⟨_, mem_pieceAt_iff.mpr ⟨by omega, rfl⟩, inside⟩

theorem exists_contains_complementFrom_iff (cuts : Span.Cuts offset removed text remainder)
    (byte : Nat) :
    (∃ segment ∈ complementFrom offset (offset + text.byteLength) removed,
        segment.Contains byte) ↔
      offset ≤ byte ∧ byte < offset + text.byteLength ∧ Span.Outside removed byte := by
  induction cuts with
  | nil offset text =>
      have outside : Span.Outside [] byte := Span.outside_of_lt (by simp)
      rw [complementFrom_nil, exists_contains_pieceAt_iff]
      simp only [outside, and_true]
  | @cons offset kept gone later rest remainder proper further induction =>
      -- A byte of the kept part lies before every cut, any other one behind the first.
      have before : byte < offset + kept.byteLength → Span.Outside later byte := fun inKept =>
        Span.outside_of_lt fun span member => by
          have bound := further.le_start span member
          omega
      rw [complementFrom_cons]
      simp only [List.mem_append, or_and_right, exists_or]
      rw [exists_contains_pieceAt_iff, induction]
      simp only [Span.Outside, List.forall_mem_cons, Span.Contains, byteLength_append, not_and]
        at before ⊢
      constructor
      · intro held
        rcases held with inKept | inRest
        · exact ⟨inKept.1, by omega, by omega, before inKept.2⟩
        · exact ⟨by omega, by omega, by omega, inRest.2.2⟩
      · intro kept
        rcases kept with ⟨lower, upper, notGone, outside⟩
        by_cases inKept : byte < offset + kept.byteLength
        · exact .inl ⟨lower, inKept⟩
        · exact .inr ⟨by omega, by omega, outside⟩

private theorem slices?_pieceAt_append {front kept rest others : Text} {later : List Span}
    (sliced : slices? (front ++ kept ++ rest) later = some others) :
    slices? (front ++ kept ++ rest) (pieceAt front.byteLength kept ++ later) =
      some (kept ++ others) := by
  rw [pieceAt]
  by_cases empty : kept = []
  · rw [if_pos empty, List.nil_append, sliced, empty, List.nil_append]
  · rw [if_neg empty]
    exact slices?_cons_eq_some_iff.mpr ⟨kept, others, slice?_append _ _ _, sliced, rfl⟩

/-- The slices between the cuts are what a cut text keeps, whatever stands in front of it. -/
theorem slices?_complementFrom (cuts : Span.Cuts offset removed text remainder) :
    ∀ front : Text, front.byteLength = offset →
      slices? (front ++ text) (complementFrom offset (offset + text.byteLength) removed) =
        some remainder := by
  induction cuts with
  | nil offset text =>
      intro front length
      subst length
      have sliced : slices? (front ++ text ++ []) (pieceAt front.byteLength text ++ []) =
          some (text ++ []) := slices?_pieceAt_append rfl
      rw [complementFrom_nil]
      simpa only [List.append_nil] using sliced
  | @cons offset kept gone later rest remainder proper further induction =>
      intro front length
      subst length
      have sliced := induction (front ++ kept ++ gone) (by simp only [byteLength_append])
      rw [complementFrom_cons]
      rw [List.append_assoc (front ++ kept)] at sliced
      rw [List.append_assoc kept, ← List.append_assoc front]
      exact slices?_pieceAt_append sliced

/-! ## The running position -/

/-- The mapping loop stands as many bytes into the output as the segments behind it have. -/
theorem copiedFrom_append (source : Text) (output : Nat) (earlier later : List Span) :
    copiedFrom source output (earlier ++ later) =
      copiedFrom source output earlier ++
        copiedFrom source (output + Span.totalLength earlier) later := by
  induction earlier generalizing output with
  | nil => rfl
  | cons segment earlier induction =>
      rw [List.cons_append, copiedFrom, copiedFrom, induction, Span.totalLength,
        List.append_assoc, Nat.add_assoc]

/-- The segments that erasing keeps. None is empty, they ascend with a removed byte between any two,
and they hold exactly the bytes outside the removed spans. Their slices make up the remainder. The
mapping loop gets to each of them at the byte of the remainder where its slice begins, and ends at
the remainder's end. -/
theorem complement_spells_remainder (source : Text) (spans : List Span) :
    let removed := (source.erase spans).removed
    let remainder := (source.erase spans).remainder
    let segments := complement source.byteLength removed
    (∀ segment ∈ segments, segment.start < segment.stop) ∧
      (segments.Pairwise fun first second => first.start < second.start ∧
        ∃ byte, first.stop ≤ byte ∧ byte < second.start ∧ ¬Span.Outside removed byte) ∧
      (∀ byte, (∃ segment ∈ segments, segment.Contains byte) ↔
        byte < source.byteLength ∧ Span.Outside removed byte) ∧
      source.slices? segments = some remainder ∧
      Span.totalLength segments = remainder.byteLength ∧
      ∀ earlier segment later, segments = earlier ++ segment :: later →
        ∃ before part after, remainder = before ++ part ++ after ∧
          source.slices? earlier = some before ∧
          source.slice? segment.start segment.stop = some part ∧
          source.slices? later = some after ∧
          before.byteLength = Span.totalLength earlier ∧
          copiedFrom source 0 segments =
            copiedFrom source 0 earlier ++ copiedOf source before.byteLength segment ++
              copiedFrom source (before ++ part).byteLength later := by
  intro removed remainder segments
  have cuts := erase_cuts source spans
  have whole : segments = complementFrom 0 (0 + source.byteLength) removed := by
    rw [Nat.zero_add]
    rfl
  have proper : ∀ segment ∈ segments, segment.start < segment.stop := fun segment member =>
    (proper_of_mem_complementFrom cuts segment (whole ▸ member)).2
  have sliced : source.slices? segments = some remainder := by
    rw [whole]
    exact slices?_complementFrom cuts [] rfl
  refine ⟨proper, ?_, ?_, sliced, (byteLength_of_slices? sliced).symm, ?_⟩
  · have apart := pairwise_complementFrom cuts
    rw [← whole] at apart
    refine (List.Pairwise.and_mem.mp apart).imp ?_
    intro first second placed
    rcases placed with ⟨firstMember, -, behind, covered⟩
    exact ⟨Nat.lt_trans (proper first firstMember) behind, first.stop, Nat.le_refl _, behind,
      covered⟩
  · intro byte
    rw [whole, exists_contains_complementFrom_iff cuts, Nat.zero_add]
    exact and_iff_right (Nat.zero_le byte)
  · intro earlier segment later split
    rw [split] at sliced
    rcases exists_of_slices?_append sliced with ⟨before, others, front, back, joined⟩
    rcases slices?_cons_eq_some_iff.mp back with ⟨part, after, middle, last, rfl⟩
    have position := byteLength_of_slices? front
    refine ⟨before, part, after, by rw [joined, List.append_assoc], front, middle, last, position,
      ?_⟩
    rw [split, copiedFrom_append, copiedFrom, Nat.zero_add, ← position, byteLength_append,
      byteLength_of_slice? middle, Span.length, List.append_assoc]

def mixedSource : Text := ['x', 'é', 'b', '🙂', 'あ']

/-- One span splits a character, and the two that are cut touch. -/
theorem complement_spells_mixedSource :
    let erasure := mixedSource.erase [⟨2, 4⟩, ⟨3, 4⟩, ⟨4, 8⟩]
    let segments := complement mixedSource.byteLength erasure.removed
    segments = [⟨0, 3⟩] ++ ⟨8, 11⟩ :: [] ∧
      (⟨8, 11⟩ : Span) ∈ segments ∧ 8 < 11 ∧
      (∃ segment ∈ segments, segment.Contains 9) ∧
      ∃ before part after, erasure.remainder = before ++ part ++ after ∧
        mixedSource.slice? 8 11 = some part ∧ before.byteLength = 3 := by
  intro erasure segments
  have cut : erasure.removed = [⟨3, 4⟩, ⟨4, 8⟩] := by
    simp only [erasure, Text.erase]
    rw [Span.select_of_pairwise (by decide)]
    decide
  have split : segments = [⟨0, 3⟩] ++ ⟨8, 11⟩ :: [] := by
    simp only [segments, cut]
    decide
  have member : (⟨8, 11⟩ : Span) ∈ segments := by
    rw [split]
    decide
  rcases complement_spells_remainder mixedSource [⟨2, 4⟩, ⟨3, 4⟩, ⟨4, 8⟩] with
    ⟨proper, -, covers, -, -, copied⟩
  have outside : Span.Outside erasure.removed 9 := by
    rw [cut]
    decide
  rcases copied _ _ _ split with ⟨before, part, after, joined, -, sliced, -, position, -⟩
  exact ⟨split, member, proper _ member, (covers 9).mpr ⟨by decide, outside⟩, before, part, after,
    joined, sliced, position⟩

end SourceMap

end Uncomment

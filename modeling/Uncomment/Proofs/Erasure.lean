import Uncomment.Proofs.Selection

/-! # What erasing removes and what it keeps

The spans that are cut divide the text into stretches that are kept and stretches that are gone.
`Span.Cuts` is that division, and every fact about the remainder follows by induction on it. -/

namespace Uncomment

/-! ## Places of characters -/

structure Placed where
  offset : Nat
  character : Char
  deriving DecidableEq, Repr

namespace Text

def placedFrom (offset : Nat) : Text → List Placed
  | [] => []
  | character :: rest => ⟨offset, character⟩ :: placedFrom (offset + character.utf8Size) rest

private theorem placedFrom_append (offset : Nat) (before after : Text) :
    placedFrom offset (before ++ after) =
      before.placedFrom offset ++ after.placedFrom (offset + before.byteLength) := by
  induction before generalizing offset with
  | nil => simp [placedFrom]
  | cons character before induction =>
      rw [List.cons_append, placedFrom, placedFrom, List.cons_append, induction, byteLength_cons,
        Nat.add_assoc]

private theorem mem_placedFrom {offset : Nat} {text : Text} {place : Placed}
    (member : place ∈ text.placedFrom offset) :
    offset ≤ place.offset ∧ place.offset < offset + text.byteLength := by
  induction text generalizing offset with
  | nil => cases member
  | cons character rest induction =>
      have size := character.utf8Size_pos
      rw [byteLength_cons]
      rcases List.mem_cons.mp member with equal | member
      · subst place
        simp only [Nat.le_refl, true_and]
        omega
      · have bounds := induction member
        omega

theorem map_character_placedFrom (offset : Nat) (text : Text) :
    (text.placedFrom offset).map (·.character) = text := by
  induction text generalizing offset with
  | nil => rfl
  | cons character rest induction => rw [placedFrom, List.map_cons, induction]

end Text

/-! ## Places outside spans -/

namespace Span

def Outside (spans : List Span) (position : Nat) : Prop :=
  ∀ span ∈ spans, ¬span.Contains position

instance (spans : List Span) (position : Nat) : Decidable (Outside spans position) :=
  inferInstanceAs (Decidable (∀ span ∈ spans, ¬span.Contains position))

theorem outside_of_lt {spans : List Span} {position : Nat}
    (before : ∀ span ∈ spans, position < span.start) : Outside spans position := by
  intro span member contains
  have start := before span member
  have inside := contains.1
  omega

private theorem outside_cons_iff {span : Span} {later : List Span} {position : Nat}
    (after : span.stop ≤ position) :
    Outside (span :: later) position ↔ Outside later position := by
  constructor
  · intro outside other member
    exact outside other (List.mem_cons_of_mem span member)
  · intro outside other member
    rcases List.mem_cons.mp member with equal | member
    · subst other
      intro contains
      have inside := contains.2
      omega
    · exact outside other member

end Span

def Text.outside (text : Text) (spans : List Span) : List Placed :=
  (text.placedFrom 0).filter fun place => Span.Outside spans place.offset

def Bytes.outside (bytes : Bytes) (spans : List Span) : Bytes :=
  (bytes.zipIdx.filter fun byte => Span.Outside spans byte.2).map (·.1)

/-! ## Cuts -/

namespace Span

/-- Ascending spans cut a text that begins at byte `offset`, and leave the remainder. -/
inductive Cuts : (offset : Nat) → List Span → (text remainder : Text) → Prop
  | nil (offset : Nat) (text : Text) : Cuts offset [] text text
  | cons (offset : Nat) (kept gone : Text) {later : List Span} {rest remainder : Text}
      (proper : gone ≠ [])
      (further : Cuts (offset + kept.byteLength + gone.byteLength) later rest remainder) :
      Cuts offset
        (⟨offset + kept.byteLength, offset + kept.byteLength + gone.byteLength⟩ :: later)
        (kept ++ gone ++ rest) (kept ++ remainder)

theorem cutFrom_cons (offset : Nat) (kept gone rest : Text) (later : List Span) :
    cutFrom offset
        (⟨offset + kept.byteLength, offset + kept.byteLength + gone.byteLength⟩ :: later)
        (kept ++ gone ++ rest) =
      kept ++ cutFrom (offset + kept.byteLength + gone.byteLength) later rest := by
  rw [cutFrom, Nat.add_sub_cancel_left, Nat.add_assoc, Nat.add_sub_cancel_left]
  rw [← Text.byteLength_append, Text.dropBytes_byteLength_append, List.append_assoc,
    Text.takeBytes_byteLength_append]

/-- A valid span that does not begin in the first part of a text divides the second. -/
theorem exists_cut_of_isValidIn {span : Span} {before rest : Text}
    (valid : span.isValidIn (before ++ rest) = true) (further : before.byteLength ≤ span.start) :
    ∃ kept gone after, rest = kept ++ gone ++ after ∧ gone ≠ [] ∧
      span = ⟨before.byteLength + kept.byteLength,
        before.byteLength + kept.byteLength + gone.byteLength⟩ := by
  rcases span with ⟨start, stop⟩
  rcases (isValidIn_iff _ _).mp valid with ⟨proper, _, startBoundary, stopBoundary⟩
  rcases Text.split_after startBoundary further with ⟨kept, beyond, rfl, startEqual⟩
  change start < stop at proper
  change start = before.byteLength + kept.byteLength at startEqual
  rw [← List.append_assoc] at stopBoundary
  rcases Text.split_after stopBoundary
      (by rw [Text.byteLength_append, ← startEqual]; exact Nat.le_of_lt proper) with
    ⟨gone, after, rfl, stopEqual⟩
  change stop = _ at stopEqual
  rw [Text.byteLength_append] at stopEqual
  refine ⟨kept, gone, after, (List.append_assoc _ _ _).symm, ?_, by rw [startEqual, stopEqual]⟩
  rw [← Text.byteLength_pos_iff]
  omega

theorem cuts_cutFrom {spans : List Span} (before rest : Text)
    (valid : ∀ span ∈ spans, span.isValidIn (before ++ rest) = true)
    (further : ∀ span ∈ spans, before.byteLength ≤ span.start)
    (disjoint : spans.Pairwise fun first second => first.stop ≤ second.start) :
    Cuts before.byteLength spans rest (cutFrom before.byteLength spans rest) := by
  induction spans generalizing before rest with
  | nil => exact .nil _ _
  | cons span later induction =>
      rcases List.pairwise_cons.mp disjoint with ⟨headFirst, laterDisjoint⟩
      rcases exists_cut_of_isValidIn (valid _ List.mem_cons_self) (further _ List.mem_cons_self)
        with ⟨kept, gone, rest, rfl, nonempty, rfl⟩
      have laterCuts := induction (before ++ kept ++ gone) rest
        (fun span member => by
          have spanValid := valid span (List.mem_cons_of_mem _ member)
          simpa only [List.append_assoc] using spanValid)
        (fun span member => by
          simpa only [Text.byteLength_append] using headFirst span member)
        laterDisjoint
      rw [Text.byteLength_append, Text.byteLength_append] at laterCuts
      rw [cutFrom_cons]
      exact .cons _ kept gone nonempty laterCuts

namespace Cuts

variable {offset : Nat} {spans : List Span} {text remainder : Text}

theorem le_start (cuts : Cuts offset spans text remainder) :
    ∀ span ∈ spans, offset ≤ span.start := by
  induction cuts with
  | nil => simp
  | cons offset kept gone proper further induction =>
      intro span member
      rcases List.mem_cons.mp member with equal | member
      · subst span
        exact Nat.le_add_right _ _
      · have start := induction span member
        omega

theorem byteLength_add (cuts : Cuts offset spans text remainder) :
    remainder.byteLength + totalLength spans = text.byteLength := by
  induction cuts with
  | nil => rfl
  | cons offset kept gone proper further induction =>
      rw [totalLength, length, Nat.add_sub_cancel_left, Text.byteLength_append,
        Text.byteLength_append, Text.byteLength_append]
      omega

end Cuts

/-! ## The remainder lies outside the cuts

A text may be spread over byte positions by its characters or by its bytes. Either way the items
outside the spans make up the remainder. -/

section Spread

variable {Item Value : Type}

/-- The items of a text stand at positions in it, and their values depend on the text alone. -/
structure Spreads (spread : Nat → Text → List Item) (position : Item → Nat)
    (value : Item → Value) (render : Text → List Value) : Prop where
  append : ∀ offset before after, spread offset (before ++ after) =
    spread offset before ++ spread (offset + before.byteLength) after
  within : ∀ offset text, ∀ item ∈ spread offset text,
    offset ≤ position item ∧ position item < offset + text.byteLength
  values : ∀ offset text, (spread offset text).map value = render text

variable {spread : Nat → Text → List Item} {position : Item → Nat} {value : Item → Value}
  {render : Text → List Value} {offset : Nat} {spans : List Span} {text remainder : Text}

theorem Cuts.filter_outside_cons (spreads : Spreads spread position value render)
    {kept gone rest : Text} {later : List Span}
    (further : Cuts (offset + kept.byteLength + gone.byteLength) later rest remainder) :
    (spread offset (kept ++ gone ++ rest)).filter (fun item => Outside
        (⟨offset + kept.byteLength, offset + kept.byteLength + gone.byteLength⟩ :: later)
        (position item)) =
      spread offset kept ++
        (spread (offset + kept.byteLength + gone.byteLength) rest).filter fun item =>
          Outside later (position item) := by
  rw [spreads.append, spreads.append, Text.byteLength_append, ← Nat.add_assoc, List.filter_append,
    List.filter_append]
  have keptStays : (spread offset kept).filter (fun item => Outside
      (⟨offset + kept.byteLength, offset + kept.byteLength + gone.byteLength⟩ :: later)
      (position item)) = spread offset kept := by
    apply List.filter_eq_self.mpr
    intro item member
    have bounds := spreads.within _ _ item member
    apply decide_eq_true
    apply outside_of_lt
    intro span spanMember
    rcases List.mem_cons.mp spanMember with equal | spanMember
    · subst span
      exact bounds.2
    · have start := further.le_start span spanMember
      omega
  have goneLeaves : (spread (offset + kept.byteLength) gone).filter (fun item => Outside
      (⟨offset + kept.byteLength, offset + kept.byteLength + gone.byteLength⟩ :: later)
      (position item)) = [] := by
    apply List.filter_eq_nil_iff.mpr
    intro item member outside
    exact of_decide_eq_true outside _ List.mem_cons_self (spreads.within _ _ item member)
  rw [keptStays, goneLeaves, List.append_nil]
  congr 1
  apply List.filter_congr
  intro item member
  rw [decide_eq_decide]
  exact outside_cons_iff (spreads.within _ _ item member).1

theorem Cuts.map_filter_outside (spreads : Spreads spread position value render)
    (cuts : Cuts offset spans text remainder) :
    ((spread offset text).filter fun item => Outside spans (position item)).map value =
      render remainder := by
  induction cuts with
  | nil offset text =>
      rw [List.filter_eq_self.mpr (fun item _ => decide_eq_true (outside_of_lt (by simp)))]
      exact spreads.values offset text
  | cons offset kept gone proper further induction =>
      rw [filter_outside_cons spreads further, List.map_append, induction,
        ← spreads.values 0 (kept ++ _), spreads.append, List.map_append, spreads.values,
        spreads.values, spreads.values]

end Spread

theorem spreads_characters :
    Spreads Text.placedFrom Placed.offset Placed.character id where
  append := Text.placedFrom_append
  within _ _ _ member := Text.mem_placedFrom member
  values := Text.map_character_placedFrom

theorem spreads_bytes :
    Spreads (fun offset text => text.encode.zipIdx offset) Prod.snd Prod.fst Text.encode where
  append offset before after := by
    rw [Text.encode_append, List.zipIdx_append, Text.length_encode]
  within offset text item member := by
    rw [← Text.length_encode]
    exact ⟨List.le_snd_of_mem_zipIdx member, List.snd_lt_add_of_mem_zipIdx member⟩
  values offset text := List.zipIdx_map_fst offset text.encode

end Span

/-! ## Erasing -/

namespace Text

theorem erase_cuts (text : Text) (spans : List Span) :
    Span.Cuts 0 (text.erase spans).removed text (text.erase spans).remainder := by
  have disjoint : (Span.select text spans).Pairwise fun first second =>
      first.stop ≤ second.start := by
    rw [← Span.map_chosen, List.pairwise_map]
    exact Span.pairwise_chosen
  have valid : ∀ span ∈ Span.select text spans, span.isValidIn ([] ++ text) = true := by
    rw [← Span.map_chosen]
    intro span member
    rcases List.mem_map.mp member with ⟨occurrence, selected, rfl⟩
    exact (Span.isValidIn_iff _ _).mpr (Span.valid_of_mem_chosen selected)
  exact Span.cuts_cutFrom [] text valid (fun _ _ => Nat.zero_le _) disjoint

theorem remainder_eq_outside (text : Text) (spans : List Span) :
    (text.erase spans).remainder =
      (text.outside (text.erase spans).removed).map (·.character) :=
  ((erase_cuts text spans).map_filter_outside Span.spreads_characters).symm

theorem encode_remainder (text : Text) (spans : List Span) :
    (text.erase spans).remainder.encode =
      Bytes.outside text.encode (text.erase spans).removed :=
  ((erase_cuts text spans).map_filter_outside Span.spreads_bytes).symm

theorem byteLength_remainder_add (text : Text) (spans : List Span) :
    (text.erase spans).remainder.byteLength + (text.erase spans).removedBytes =
      text.byteLength :=
  (erase_cuts text spans).byteLength_add

/-- What erasing cuts, and what it leaves. -/
theorem erase_cuts_selection (text : Text) (spans : List Span) :
    (∃ chosen : List (Fin spans.length),
      (text.erase spans).removed = chosen.map spans.get ∧ Span.Selection text spans chosen) ∧
    (text.erase spans).remainder =
      (text.outside (text.erase spans).removed).map (·.character) ∧
    (text.erase spans).remainder.byteLength + (text.erase spans).removedBytes =
      text.byteLength ∧
    (text.erase spans).removedBytes = Span.totalLength (text.erase spans).removed :=
  ⟨⟨Span.chosen text spans, (Span.map_chosen text spans).symm, Span.selection_chosen text spans⟩,
    remainder_eq_outside text spans, byteLength_remainder_add text spans, rfl⟩

end Text

end Uncomment

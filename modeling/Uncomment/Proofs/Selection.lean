import Uncomment.Proofs.Text
import Uncomment.Span.Erasure

/-! # Which spans are cut

The same span may occur several times in a list, so the spans that are cut are followed here as
occurrences: places of the list. -/

namespace Uncomment

namespace Span

/-! ## Bytes in spans -/

def Contains (span : Span) (position : Nat) : Prop :=
  span.start ≤ position ∧ position < span.stop

instance (span : Span) (position : Nat) : Decidable (span.Contains position) :=
  inferInstanceAs (Decidable (_ ∧ _))

/-- A span of whole characters of a text, at least one. -/
structure IsWholeIn (text : Text) (span : Span) : Prop where
  proper : span.start < span.stop
  inside : span.stop ≤ text.byteLength
  start : text.isBoundary span.start = true
  stop : text.isBoundary span.stop = true

theorem isValidIn_iff (text : Text) (span : Span) :
    span.isValidIn text = true ↔ span.IsWholeIn text := by
  simp only [isValidIn, Bool.and_eq_true, decide_eq_true_eq]
  constructor
  · intro valid
    rcases valid with ⟨⟨proper, start⟩, stop⟩
    exact ⟨proper, Text.le_byteLength_of_isBoundary stop, start, stop⟩
  · intro valid
    rcases valid with ⟨proper, _, start, stop⟩
    exact ⟨⟨proper, start⟩, stop⟩

theorem precedes_iff (first second : Span) :
    first.precedes second = true ↔
      first.start < second.start ∨ first.start = second.start ∧ first.stop ≤ second.stop := by
  simp only [precedes, Bool.or_eq_true, Bool.and_eq_true, decide_eq_true_eq, beq_iff_eq]

/-! ## Selecting items by their spans

`selectBy` selects from any items as `selectFrom` does from spans. An item keeps its identity here,
also beside another one with the same span. -/

section Items

variable {Item : Type} (span : Item → Span)

def selectBy (cursor : Nat) : List Item → List Item
  | [] => []
  | item :: later =>
      if (span item).start < cursor then
        selectBy cursor later
      else
        item :: selectBy (span item).stop later

theorem map_selectBy (cursor : Nat) (items : List Item) :
    (selectBy span cursor items).map span = selectFrom cursor (items.map span) := by
  induction items generalizing cursor with
  | nil => rfl
  | cons item later induction =>
      rw [selectBy, List.map_cons, selectFrom]
      split
      · exact induction cursor
      · rw [List.map_cons, induction]

theorem selectBy_sublist (cursor : Nat) (items : List Item) :
    (selectBy span cursor items).Sublist items := by
  induction items generalizing cursor with
  | nil => exact .slnil
  | cons item later induction =>
      rw [selectBy]
      split
      · exact (induction cursor).cons item
      · exact (induction _).cons_cons item

variable {span} {cursor : Nat} {items : List Item}

private theorem le_start_of_mem_selectBy
    (proper : ∀ item ∈ items, (span item).start < (span item).stop) :
    ∀ item ∈ selectBy span cursor items, cursor ≤ (span item).start := by
  induction items generalizing cursor with
  | nil => simp [selectBy]
  | cons head later induction =>
      have headProper := proper head List.mem_cons_self
      have laterProper := fun item member => proper item (List.mem_cons_of_mem head member)
      intro item member
      rw [selectBy] at member
      split at member
      · exact induction laterProper item member
      · rcases List.mem_cons.mp member with equal | member
        · subst item
          omega
        · have atStop := induction laterProper item member
          omega

theorem pairwise_selectBy
    (proper : ∀ item ∈ items, (span item).start < (span item).stop) :
    (selectBy span cursor items).Pairwise fun first second =>
      (span first).stop ≤ (span second).start := by
  induction items generalizing cursor with
  | nil => exact .nil
  | cons head later induction =>
      have laterProper := fun item member => proper item (List.mem_cons_of_mem head member)
      rw [selectBy]
      split
      · exact induction laterProper
      · exact .cons (le_start_of_mem_selectBy laterProper) (induction laterProper)

theorem covered_of_not_mem_selectBy {Before : Item → Item → Prop}
    (ordered : items.Pairwise Before)
    (ascending : ∀ first second, Before first second → (span first).start ≤ (span second).start)
    {item : Item} (member : item ∈ items) (leftOut : item ∉ selectBy span cursor items) :
    (span item).start < cursor ∨
      ∃ other ∈ selectBy span cursor items,
        Before other item ∧ (span other).Contains (span item).start := by
  induction items generalizing cursor with
  | nil => cases member
  | cons head later induction =>
      rcases List.pairwise_cons.mp ordered with ⟨headFirst, laterOrdered⟩
      rw [selectBy] at leftOut ⊢
      by_cases passed : (span head).start < cursor
      · rw [if_pos passed] at leftOut ⊢
        rcases List.mem_cons.mp member with equal | member
        · subst item
          exact .inl passed
        · exact induction laterOrdered member leftOut
      · rw [if_neg passed] at leftOut ⊢
        rcases List.mem_cons.mp member with equal | member
        · exact absurd (equal ▸ List.mem_cons_self) leftOut
        · have notLater := fun inside => leftOut (List.mem_cons_of_mem head inside)
          rcases induction laterOrdered member notLater with inside | ⟨other, selected, facts⟩
          · have before := headFirst item member
            exact .inr ⟨head, List.mem_cons_self, before, ascending head item before, inside⟩
          · exact .inr ⟨other, List.mem_cons_of_mem head selected, facts⟩

end Items

/-! ## Stable sorting -/

section Keys

variable {Item : Type} (key : Item → Nat)

theorem key_le_trans (first second third : Item) (before : decide (key first ≤ key second) = true)
    (after : decide (key second ≤ key third) = true) : decide (key first ≤ key third) = true := by
  rw [decide_eq_true_eq] at before after ⊢
  exact Nat.le_trans before after

theorem key_le_total (first second : Item) :
    (decide (key first ≤ key second) || decide (key second ≤ key first)) = true := by
  rw [Bool.or_eq_true, decide_eq_true_eq, decide_eq_true_eq]
  exact Nat.le_total _ _

end Keys

private theorem pairwise_mergeSort_by {Item : Type} (key : Item → Nat) (Before : Item → Item → Prop)
    {items : List Item} (ordered : items.Pairwise Before) :
    (items.mergeSort fun first second => key first ≤ key second).Pairwise
      fun first second => key first < key second ∨ key first = key second ∧ Before first second := by
  induction items with
  | nil => simp
  | cons item later induction =>
      rcases List.pairwise_cons.mp ordered with ⟨itemFirst, laterOrdered⟩
      rcases List.mergeSort_cons (key_le_trans key) (key_le_total key) item later with
        ⟨below, above, whole, rest, smaller⟩
      have sorted := List.pairwise_mergeSort (key_le_trans key) (key_le_total key) (item :: later)
      have laterSorted := induction laterOrdered
      rw [rest] at laterSorted
      rw [whole] at sorted ⊢
      rcases List.pairwise_append.mp laterSorted with ⟨belowSorted, aboveSorted, across⟩
      have aboveLarger := (List.pairwise_cons.mp (List.pairwise_append.mp sorted).2.1).1
      have aboveLater : ∀ other ∈ above, other ∈ later := fun other member =>
        List.mem_mergeSort.mp (rest ▸ List.mem_append_right below member)
      refine List.pairwise_append.mpr ⟨belowSorted, List.pairwise_cons.mpr ⟨?_, aboveSorted⟩, ?_⟩
      · intro other member
        have larger := aboveLarger other member
        rw [decide_eq_true_eq] at larger
        rcases Nat.lt_or_eq_of_le larger with less | equal
        · exact .inl less
        · exact .inr ⟨equal, itemFirst other (aboveLater other member)⟩
      · intro first firstBelow second secondAbove
        rcases List.mem_cons.mp secondAbove with equal | member
        · subst second
          have less := smaller first firstBelow
          simp only [Bool.not_eq_true', decide_eq_false_iff_not] at less
          exact .inl (by omega)
        · exact across first firstBelow second member

/-! ## The occurrences that are cut -/

/-- Which occurrences of a list of spans are cut out of a text: valid ones, one behind the other. A
valid occurrence is left out exactly when it begins inside another one that is cut, and of several
that begin at one byte only the first can be cut. -/
structure Selection (text : Text) (spans : List Span) (chosen : List (Fin spans.length)) : Prop where
  valid : ∀ occurrence ∈ chosen, (spans.get occurrence).IsWholeIn text
  ascending : chosen.Pairwise fun first second =>
    (spans.get first).start < (spans.get second).start ∧
      (spans.get first).stop ≤ (spans.get second).start
  leftOut_iff : ∀ occurrence, (spans.get occurrence).IsWholeIn text →
    (occurrence ∉ chosen ↔ ∃ other ∈ chosen, other ≠ occurrence ∧
      (spans.get other).Contains (spans.get occurrence).start)
  first : ∀ occurrence ∈ chosen, ∀ earlier, (spans.get earlier).IsWholeIn text →
    (spans.get earlier).start = (spans.get occurrence).start → occurrence ≤ earlier

def ranked (text : Text) (spans : List Span) : List (Fin spans.length) :=
  ((List.finRange spans.length).filter fun occurrence =>
    (spans.get occurrence).isValidIn text).mergeSort fun first second =>
      (spans.get first).start ≤ (spans.get second).start

def chosen (text : Text) (spans : List Span) : List (Fin spans.length) :=
  selectBy spans.get 0 (ranked text spans)

def RanksBefore (spans : List Span) (first second : Fin spans.length) : Prop :=
  (spans.get first).start < (spans.get second).start ∨
    (spans.get first).start = (spans.get second).start ∧ first < second

theorem select_of_pairwise {text : Text} {spans : List Span}
    (sorted : (spans.filter (isValidIn text)).Pairwise fun first second =>
      first.start ≤ second.start) :
    select text spans = selectFrom 0 (spans.filter (isValidIn text)) := by
  have unchanged : sortByStart (spans.filter (isValidIn text)) = spans.filter (isValidIn text) := by
    apply List.mergeSort_of_pairwise
    apply sorted.imp
    intro first second ascending
    exact decide_eq_true ascending
  rw [select, unchanged]

section Occurrences

variable (text : Text) (spans : List Span)

private theorem map_ranked :
    (ranked text spans).map spans.get = sortByStart (spans.filter (isValidIn text)) := by
  have all : (List.finRange spans.length).map spans.get = spans := by
    apply List.ext_getElem <;> simp
  have sorted := List.map_mergeSort (f := spans.get)
    (s := fun first second : Span => decide (first.start ≤ second.start))
    (l := (List.finRange spans.length).filter fun occurrence =>
      (spans.get occurrence).isValidIn text) (fun _ _ _ _ => rfl)
  rw [ranked, sorted, sortByStart]
  conv => rhs; rw [← all, List.filter_map]
  rfl

theorem map_chosen : (chosen text spans).map spans.get = select text spans := by
  rw [chosen, map_selectBy, map_ranked, select]

private theorem pairwise_ranked : (ranked text spans).Pairwise (RanksBefore spans) :=
  pairwise_mergeSort_by _ _ ((List.pairwise_lt_finRange _).filter _)

private theorem mem_ranked_iff (occurrence : Fin spans.length) :
    occurrence ∈ ranked text spans ↔ (spans.get occurrence).IsWholeIn text := by
  rw [ranked, List.mem_mergeSort, List.mem_filter, ← isValidIn_iff]
  exact and_iff_right (List.mem_finRange occurrence)

variable {text spans}

theorem valid_of_mem_chosen {occurrence : Fin spans.length}
    (member : occurrence ∈ chosen text spans) :
    (spans.get occurrence).IsWholeIn text :=
  (mem_ranked_iff text spans occurrence).mp ((selectBy_sublist _ _ _).subset member)

private theorem proper_of_mem_ranked : ∀ occurrence ∈ ranked text spans,
    (spans.get occurrence).start < (spans.get occurrence).stop := by
  intro occurrence member
  exact ((mem_ranked_iff _ _ _).mp member).proper

theorem pairwise_chosen : (chosen text spans).Pairwise fun first second =>
    (spans.get first).stop ≤ (spans.get second).start :=
  pairwise_selectBy proper_of_mem_ranked

theorem not_contains_of_mem_chosen {first second : Fin spans.length}
    (firstMember : first ∈ chosen text spans) (secondMember : second ∈ chosen text spans)
    (different : first ≠ second) :
    ¬(spans.get first).Contains (spans.get second).start := by
  have separate : (chosen text spans).Pairwise fun first second =>
      first ≠ second → ¬(spans.get first).Contains (spans.get second).start := by
    refine pairwise_chosen.imp ?_
    intro first second behind _ contains
    have inside := contains.2
    omega
  have separateBack : (chosen text spans).Pairwise fun first second =>
      second ≠ first → ¬(spans.get second).Contains (spans.get first).start := by
    refine (List.Pairwise.and_mem.mp pairwise_chosen).imp ?_
    intro first second placed _ contains
    rcases placed with ⟨firstMember, _, behind⟩
    have inside := contains.1
    have proper := proper_of_mem_ranked first ((selectBy_sublist _ _ _).subset firstMember)
    omega
  exact separate.forall_of_forall_of_flip (fun _ _ same => absurd rfl same) separateBack
    firstMember secondMember different

theorem covered_of_not_mem_chosen {occurrence : Fin spans.length}
    (valid : (spans.get occurrence).IsWholeIn text)
    (leftOut : occurrence ∉ chosen text spans) :
    ∃ other ∈ chosen text spans, RanksBefore spans other occurrence ∧
      (spans.get other).Contains (spans.get occurrence).start := by
  have covered := covered_of_not_mem_selectBy (pairwise_ranked text spans)
    (fun first second before => by
      rcases before with less | ⟨equal, -⟩
      · exact Nat.le_of_lt less
      · exact Nat.le_of_eq equal)
    ((mem_ranked_iff text spans occurrence).mpr valid) leftOut
  rcases covered with negative | covered
  · exact absurd negative (Nat.not_lt_zero _)
  · exact covered

theorem le_of_mem_chosen {occurrence earlier : Fin spans.length}
    (member : occurrence ∈ chosen text spans)
    (valid : (spans.get earlier).IsWholeIn text)
    (same : (spans.get earlier).start = (spans.get occurrence).start) :
    occurrence ≤ earlier := by
  have proper := (valid_of_mem_chosen member).proper
  by_cases selected : earlier ∈ chosen text spans
  · by_cases equal : earlier = occurrence
    · exact Nat.le_of_eq (congrArg Fin.val equal.symm)
    · exact absurd ⟨Nat.le_of_eq same, same ▸ valid.proper⟩
        (not_contains_of_mem_chosen selected member equal)
  · rcases covered_of_not_mem_chosen valid selected with ⟨other, otherMember, before, contains⟩
    by_cases equal : other = occurrence
    · subst other
      rcases before with less | ⟨-, less⟩
      · omega
      · exact Nat.le_of_lt less
    · exact absurd (same ▸ contains) (not_contains_of_mem_chosen otherMember member equal)

theorem selection_chosen (text : Text) (spans : List Span) :
    Selection text spans (chosen text spans) where
  valid occurrence member := valid_of_mem_chosen member
  ascending := by
    refine (List.Pairwise.and_mem.mp pairwise_chosen).imp ?_
    intro first second placed
    rcases placed with ⟨firstMember, _, behind⟩
    have proper := proper_of_mem_ranked first ((selectBy_sublist _ _ _).subset firstMember)
    exact ⟨by omega, behind⟩
  leftOut_iff occurrence valid := by
    constructor
    · intro leftOut
      rcases covered_of_not_mem_chosen valid leftOut with ⟨other, member, -, contains⟩
      exact ⟨other, member, fun equal => leftOut (equal ▸ member), contains⟩
    · intro covered selected
      rcases covered with ⟨other, member, different, contains⟩
      exact not_contains_of_mem_chosen member selected different contains
  first _ member _ valid same := le_of_mem_chosen member valid same

end Occurrences

end Span

end Uncomment

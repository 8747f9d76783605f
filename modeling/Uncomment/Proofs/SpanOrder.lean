import Uncomment.Proofs.CodeUnits
import Uncomment.Proofs.Stripping

/-! # The order of spans

Erasing looks at the starts of spans alone, and at their order only where starts are equal. What it
removed can be erased again, at once or span by span, with the same outcome. Comments are sorted by
both ends first, so their order never matters. -/

namespace Uncomment

namespace Span

/-! ## Stable sorting -/

section Keys

variable {Item : Type} {key : Item → Nat}

private theorem filter_mergeSort_by (items : List Item) (value : Nat) :
    (items.mergeSort fun first second => key first ≤ key second).filter (key · = value) =
      items.filter (key · = value) := by
  have sameKey : (items.filter (key · = value)).Pairwise fun first second =>
      decide (key first ≤ key second) = true := by
    apply List.pairwise_of_forall_mem_list
    intro first firstMember second secondMember
    have firstKey := of_decide_eq_true (List.mem_filter.mp firstMember).2
    have secondKey := of_decide_eq_true (List.mem_filter.mp secondMember).2
    exact decide_eq_true (by omega)
  have kept := (List.sublist_mergeSort (key_le_trans key) (key_le_total key) sameKey
    List.filter_sublist).filter (key · = value)
  rw [List.filter_filter] at kept
  simp only [Bool.and_self] at kept
  have length := ((List.mergeSort_perm items fun first second => key first ≤ key second).filter
    (key · = value)).length_eq
  exact (kept.eq_of_length length.symm).symm

private theorem mem_iff_of_filter_eq {first second : List Item}
    (agree : ∀ value, first.filter (key · = value) = second.filter (key · = value)) (item : Item) :
    item ∈ first ↔ item ∈ second := by
  have same : item ∈ first.filter (key · = key item) ↔ item ∈ second.filter (key · = key item) := by
    rw [agree]
  simpa only [List.mem_filter, decide_true, and_true] using same

private theorem key_head_le {head item : Item} {later : List Item}
    (ascends : (head :: later).Pairwise fun first second => key first ≤ key second)
    (member : item ∈ head :: later) : key head ≤ key item := by
  cases List.mem_cons.mp member with
  | inl same => exact Nat.le_of_eq (congrArg key same.symm)
  | inr inside => exact (List.pairwise_cons.mp ascends).1 item inside

private theorem eq_of_filter_eq {first second : List Item}
    (firstAscends : first.Pairwise fun item other => key item ≤ key other)
    (secondAscends : second.Pairwise fun item other => key item ≤ key other)
    (agree : ∀ value, first.filter (key · = value) = second.filter (key · = value)) :
    first = second := by
  induction first generalizing second with
  | nil =>
      cases second with
      | nil => rfl
      | cons item later => simpa using agree (key item)
  | cons item later induction =>
      cases second with
      | nil => simpa using agree (key item)
      | cons other others =>
          have inFirst := (mem_iff_of_filter_eq agree other).mpr List.mem_cons_self
          have inSecond := (mem_iff_of_filter_eq agree item).mp List.mem_cons_self
          -- Each head is in the other list, so neither has a smaller key.
          have sameKey : key item = key other :=
            Nat.le_antisymm (key_head_le firstAscends inFirst) (key_head_le secondAscends inSecond)
          have heads := agree (key item)
          simp only [List.filter_cons, sameKey, decide_true, if_true] at heads
          have same := (List.cons.inj heads).1
          subst same
          congr 1
          apply induction firstAscends.of_cons secondAscends.of_cons
          intro value
          have whole := agree value
          rw [List.filter_cons, List.filter_cons] at whole
          split at whole
          · exact (List.cons.inj whole).2
          · exact whole

end Keys

/-! ## Rearrangements -/

/-- The same spans in an order that may differ, except among spans with one start. -/
structure Rearranges (others spans : List Span) : Prop where
  perm : others.Perm spans
  ties : ∀ start, others.filter (·.start = start) = spans.filter (·.start = start)

theorem sortByStart_of_ties {first second : List Span}
    (ties : ∀ start, first.filter (·.start = start) = second.filter (·.start = start)) :
    sortByStart first = sortByStart second := by
  have ascends : ∀ spans : List Span, (sortByStart spans).Pairwise fun span other =>
      span.start ≤ other.start := by
    intro spans
    apply (List.pairwise_mergeSort (key_le_trans Span.start) (key_le_total Span.start) spans).imp
    exact of_decide_eq_true
  apply eq_of_filter_eq (ascends first) (ascends second)
  intro start
  rw [sortByStart, sortByStart, filter_mergeSort_by, filter_mergeSort_by, ties]

theorem Rearranges.select_eq {others spans : List Span} (rearranges : Rearranges others spans)
    (text : Text) : select text others = select text spans := by
  have commute : ∀ (start : Nat) (spans : List Span),
      (spans.filter (isValidIn text)).filter (·.start = start) =
        (spans.filter (·.start = start)).filter (isValidIn text) := by
    intro start spans
    rw [List.filter_filter, List.filter_filter]
    simp only [Bool.and_comm]
  rw [select, select]
  congr 1
  apply sortByStart_of_ties
  intro start
  rw [commute, commute, rearranges.ties]

/-! ## Sorting by both ends -/

theorem precedes_trans (first second third : Span) (before : first.precedes second = true)
    (after : second.precedes third = true) : first.precedes third = true := by
  rw [precedes_iff] at before after ⊢
  omega

theorem precedes_total (first second : Span) :
    (first.precedes second || second.precedes first) = true := by
  rw [Bool.or_eq_true, precedes_iff, precedes_iff]
  omega

theorem precedes_antisymm {first second : Span} (before : first.precedes second = true)
    (after : second.precedes first = true) : first = second := by
  rw [precedes_iff] at before after
  cases first
  cases second
  simp only [mk.injEq] at before after ⊢
  omega

theorem pairwise_sort (spans : List Span) : (sort spans).Pairwise (·.precedes ·) :=
  List.pairwise_mergeSort precedes_trans precedes_total spans

theorem sort_of_perm {others spans : List Span} (perm : others.Perm spans) :
    sort others = sort spans := by
  apply List.Perm.eq_of_pairwise (fun _ _ _ _ => precedes_antisymm) (pairwise_sort others)
    (pairwise_sort spans)
  exact (List.mergeSort_perm others precedes).trans
    (perm.trans (List.mergeSort_perm spans precedes).symm)

private theorem mem_of_mem_select_sort {text : Text} {spans : List Span} {removed : Span}
    (member : removed ∈ select text (sort spans)) : removed ∈ spans := by
  rw [← map_chosen] at member
  obtain ⟨occurrence, -, rfl⟩ := List.mem_map.mp member
  exact List.mem_mergeSort.mp ((sort spans).get_mem occurrence)

/-- Of the spans with one start, sorting by both ends leaves only the shortest to be cut. -/
theorem stop_le_of_mem_select_sort {text : Text} {spans : List Span} {removed other : Span}
    (member : removed ∈ select text (sort spans)) (otherMember : other ∈ spans)
    (valid : other.isValidIn text = true) (sameStart : other.start = removed.start) :
    removed.stop ≤ other.stop := by
  rw [← map_chosen] at member
  obtain ⟨occurrence, chosen, rfl⟩ := List.mem_map.mp member
  have sorted : other ∈ sort spans := List.mem_mergeSort.mpr otherMember
  obtain ⟨place, rfl⟩ := List.mem_iff_get.mp sorted
  have earlier := le_of_mem_chosen chosen ((isValidIn_iff _ _).mp valid) sameStart
  rcases Nat.lt_or_eq_of_le earlier with before | same
  · have ascends := List.pairwise_iff_getElem.mp (pairwise_sort spans)
    have ordered := ascends _ _ occurrence.2 place.2 before
    have notBefore := Nat.not_lt_of_le (Nat.le_of_eq sameStart)
    exact (((precedes_iff _ _).mp ordered).resolve_left notBefore).2
  · have equal : occurrence = place := Fin.ext same
    subst equal
    exact Nat.le_refl _

end Span

/-! ## Erasing again -/

namespace Text

theorem erase_rearranged (text : Text) {others spans : List Span}
    (rearranges : Span.Rearranges others spans) : text.erase others = text.erase spans := by
  rw [erase, erase, rearranges.select_eq]

/-- What was cut is valid, ascends and does not overlap, so all of it is cut again. -/
theorem erase_removed (text : Text) (spans : List Span) :
    text.erase (text.erase spans).removed = text.erase spans := by
  have ascending := ascending_removed text spans
  have kept : (text.erase spans).removed.filter (Span.isValidIn text) =
      (text.erase spans).removed :=
    List.filter_eq_self.mpr (valid_of_mem_removed text spans)
  have sorted : ((text.erase spans).removed.filter (Span.isValidIn text)).Pairwise
      fun first second => first.start ≤ second.start := by
    rw [kept]
    exact ascending.imp fun placed => Nat.le_of_lt placed.1
  have again : Span.select text (text.erase spans).removed = (text.erase spans).removed := by
    rw [Span.select_of_pairwise sorted, kept]
    exact Span.selectFrom_of_ordered (fun _ _ => Nat.zero_le _) (ascending.imp And.right)
  rw [erase, again]
  rfl

end Text

/-! ## One span at a time -/

def Bytes.delete (bytes : Bytes) (span : Span) : Bytes :=
  bytes.take span.start ++ bytes.drop span.stop

theorem Text.delete_encode (before gone after : Text) :
    Bytes.delete (before ++ gone ++ after).encode
        ⟨before.byteLength, before.byteLength + gone.byteLength⟩ =
      (before ++ after).encode := by
  have start := length_encode before
  have stop := length_encode (before ++ gone)
  rw [byteLength_append, encode_append] at stop
  rw [Bytes.delete, encode_append, encode_append, encode_append, List.drop_left' stop,
    List.append_assoc, List.take_left' start]

/-- Deleting from the last cut to the first moves nothing that is still to be deleted. -/
theorem Span.Cuts.foldr_delete {offset : Nat} {spans : List Span} {text remainder : Text}
    (cuts : Cuts offset spans text remainder) (front : Text)
    (starts : front.byteLength = offset) :
    spans.foldr (fun span bytes => bytes.delete span) (front ++ text).encode =
      (front ++ remainder).encode := by
  induction cuts generalizing front with
  | nil => rfl
  | @cons offset kept gone later rest remainder proper further induction =>
      have shifted := induction (front ++ kept ++ gone) (by simp [starts, Nat.add_assoc])
      subst starts
      have whole : front ++ (kept ++ gone ++ rest) = front ++ kept ++ gone ++ rest := by simp
      rw [List.foldr_cons, whole, shifted, ← Text.byteLength_append, Text.delete_encode,
        List.append_assoc]

theorem Text.foldr_delete_removed (text : Text) (spans : List Span) :
    (text.erase spans).removed.foldr (fun span bytes => bytes.delete span) text.encode =
      (text.erase spans).remainder.encode :=
  (erase_cuts text spans).foldr_delete [] rfl

/-! ## Comments in any order -/

namespace Stripped

variable {source : Text} {comments others : List Comment}

theorem ofComments_of_perm (perm : others.Perm comments) :
    ofComments source others = ofComments source comments := by
  have sorted : Span.sort (others.map (·.span)) = Span.sort (comments.map (·.span)) :=
    Span.sort_of_perm (perm.map _)
  rw [ofComments_eq_byErasure, ofComments_eq_byErasure, byErasure, byErasure, sorted,
    perm.length_eq]

theorem shortest_of_mem_removed {removed : Span}
    (member : removed ∈ (ofComments source comments).removed) :
    (∃ comment ∈ comments, comment.span = removed) ∧
      ∀ comment ∈ comments, comment.span.isValidIn source = true →
        comment.span.start = removed.start → removed.stop ≤ comment.span.stop := by
  rw [ofComments_eq_byErasure] at member
  change removed ∈ Span.select source (Span.sort (comments.map (·.span))) at member
  constructor
  · exact List.mem_map.mp (Span.mem_of_mem_select_sort member)
  · intro comment commentMember valid sameStart
    exact Span.stop_le_of_mem_select_sort member (List.mem_map_of_mem commentMember) valid sameStart

end Stripped

/-- Erasing depends on the order of spans only where starts are equal, and erasing what was removed,
at once or from the last span to the first, has the same outcome. Stripping does not depend on the
order of comments at all: of the comments with one start, it removes the shortest. -/
theorem Text.erase_ignores_order (text : Text) (spans : List Span) :
    (∀ others, Span.Rearranges others spans → text.erase others = text.erase spans) ∧
      text.erase (text.erase spans).removed = text.erase spans ∧
      (text.erase spans).removed.foldr (fun span bytes => bytes.delete span) text.encode =
        (text.erase spans).remainder.encode ∧
      ∀ (parse : Parser) (options : StripOptions) (resolution : Resolution),
        Resolution.find parse text options.dialect options.parse = .ok resolution →
        ∀ comments, comments.Perm resolution.comments →
          strip parse text options = .ok (.ofComments text comments) ∧
            ∀ removed ∈ (Stripped.ofComments text comments).removed,
              (∃ comment ∈ comments, comment.span = removed) ∧
                ∀ comment ∈ comments, comment.span.isValidIn text = true →
                  comment.span.start = removed.start → removed.stop ≤ comment.span.stop := by
  refine ⟨fun _ => erase_rearranged text, erase_removed text spans,
    foldr_delete_removed text spans, ?_⟩
  intro parse options resolution found comments perm
  constructor
  · rw [strip, found, Stripped.ofComments_of_perm perm]
  · intro removed member
    exact Stripped.shortest_of_mem_removed member

def overlaidSource : Text := ['a', '/', '*', '*', '/', '*', '/']

def overlaidTree : Tree :=
  .node ⟨"program", true, false, false, false, ⟨0, 7⟩, []⟩ <| .ofList [
    .node ⟨"identifier", true, false, false, false, ⟨0, 1⟩, []⟩ .nil,
    .node ⟨"comment", true, false, false, false, ⟨1, 7⟩, []⟩ .nil,
    .node ⟨"comment", true, false, false, false, ⟨1, 5⟩, []⟩ .nil]

theorem Text.erase_ignores_order_overlaidSource :
    Span.Rearranges [⟨1, 5⟩, ⟨1, 7⟩, ⟨5, 7⟩] [⟨5, 7⟩, ⟨1, 5⟩, ⟨1, 7⟩] ∧
      overlaidSource.erase [⟨1, 5⟩, ⟨1, 7⟩, ⟨5, 7⟩] =
        overlaidSource.erase [⟨5, 7⟩, ⟨1, 5⟩, ⟨1, 7⟩] ∧
      ∃ resolution, Resolution.find (fun _ _ => some overlaidTree) overlaidSource (some .empty) {} =
          .ok resolution ∧
        List.Perm [⟨.block, ⟨1, 5⟩⟩, ⟨.block, ⟨1, 7⟩⟩] resolution.comments ∧
        strip (fun _ _ => some overlaidTree) overlaidSource { dialect := some .empty } =
          .ok ⟨['a', '*', '/'], 2, 4, [⟨1, 5⟩]⟩ := by
  have rearranges : Span.Rearranges [⟨1, 5⟩, ⟨1, 7⟩, ⟨5, 7⟩] [⟨5, 7⟩, ⟨1, 5⟩, ⟨1, 7⟩] := by
    refine ⟨by decide, ?_⟩
    intro start
    by_cases one : start = 1
    · subst one
      rfl
    · simp [List.filter_cons, Ne.symm one]
  have fits : overlaidTree.fit overlaidSource .empty {} = .ok .script := by
    rw [Tree.fit_eq_ok_iff]
    decide
  have comments : overlaidTree.comments overlaidSource = [⟨.block, ⟨1, 7⟩⟩, ⟨.block, ⟨1, 5⟩⟩] := by
    rw [Tree.comments_eq]
    decide
  have found : Resolution.find (fun _ _ => some overlaidTree) overlaidSource (some .empty) {} =
      .ok ⟨.empty, overlaidTree, .script, overlaidTree.comments overlaidSource⟩ :=
    Resolution.find_some_of_fit rfl fits
  have swapped : List.Perm [⟨.block, ⟨1, 5⟩⟩, ⟨.block, ⟨1, 7⟩⟩]
      (overlaidTree.comments overlaidSource) := by
    rw [comments]
    exact .swap _ _ _
  obtain ⟨reordered, -, -, stripped⟩ :=
    erase_ignores_order overlaidSource [⟨5, 7⟩, ⟨1, 5⟩, ⟨1, 7⟩]
  have succeeds := (stripped _ { dialect := some .empty } _ found _ swapped).1
  have sorted : Span.sort [⟨1, 5⟩, ⟨1, 7⟩] = [⟨1, 5⟩, ⟨1, 7⟩] :=
    List.mergeSort_of_pairwise (by decide)
  have shortest : Span.select overlaidSource [⟨1, 5⟩, ⟨1, 7⟩] = [⟨1, 5⟩] := by
    rw [Span.select_of_pairwise (by decide)]
    decide
  rw [Stripped.ofComments_eq_byErasure, Stripped.byErasure, List.map_cons, List.map_cons,
    List.map_nil, sorted, Text.erase, shortest] at succeeds
  exact ⟨rearranges, reordered _ rearranges, _, found, swapped, succeeds⟩

end Uncomment

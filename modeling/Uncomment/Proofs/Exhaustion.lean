import Mathlib.Data.List.Induction
import Uncomment.Proofs.DefaultSearch
import Uncomment.Proofs.ErrorFlags
import Uncomment.Proofs.Inclusion
import Uncomment.Proofs.SeparateSearches

/-! # Where an exhausted search points

When no default dialect fits, every one of them has left an attempt. A dialect that covers another
one fails at no earlier node, so where nodes are listed in the order of their starts, it fails at no
smaller offset. The two dialects that cover all others therefore point furthest into the source, and
the last dialect, which others cover, points no further than those. -/

namespace Uncomment

/-! ## Nodes in the order of their starts -/

namespace Tree

/-- In document order no node starts before an earlier one. -/
def StartsInOrder (tree : Tree) : Prop :=
  tree.sites.Pairwise fun first second => first.node.span.start ≤ second.node.span.start

variable {source : Text} {options : ParseOptions} {tree : Tree} {richer plainer : Dialect}

theorem StartsInOrder.start_le (ordered : tree.StartsInOrder) {first second : Nat}
    {site other : Site} (isFirst : tree.sites[first]? = some site)
    (isSecond : tree.sites[second]? = some other) (before : first ≤ second) :
    site.node.span.start ≤ other.node.span.start := by
  obtain ⟨firstInside, rfl⟩ := List.getElem?_eq_some_iff.mp isFirst
  obtain ⟨secondInside, rfl⟩ := List.getElem?_eq_some_iff.mp isSecond
  rcases Nat.lt_or_eq_of_le before with earlier | same
  · exact List.pairwise_iff_getElem.mp ordered first second firstInside secondInside earlier
  · subst same
    exact Nat.le_refl _

theorem RefusedAt.offset_eq {number : Nat} {site : Site}
    (refusedAt : tree.RefusedAt source richer options number site) {diagnostic : Diagnostic}
    (refused : tree.fit source richer options = .error diagnostic) :
    diagnostic.offset = site.node.span.start := by
  obtain ⟨problem, diagnosed⟩ := refusedAt.diagnosed
  rw [refused] at diagnosed
  rw [Except.error.inj diagnosed]
  rfl

theorem StartsInOrder.offset_le_of_covers (ordered : tree.StartsInOrder)
    (covers : richer.Covers plainer) {far near : Diagnostic}
    (refused : tree.fit source richer options = .error far)
    (refusedToo : tree.fit source plainer options = .error near) : near.offset ≤ far.offset := by
  obtain ⟨number, site, earlier, other, refusedAt, otherAt, before⟩ :=
    exists_refusedAt_le_of_covers covers refused
  rw [refusedAt.offset_eq refused, otherAt.offset_eq refusedToo]
  exact ordered.start_le otherAt.place refusedAt.place before

end Tree

namespace Parser

def StartsInOrder (parse : Parser) (source : Text) : Prop :=
  ∀ grammar tree, parse source grammar = some tree → tree.StartsInOrder

def FlagsErrors (parse : Parser) (source : Text) : Prop :=
  ∀ grammar tree, parse source grammar = some tree → tree.FlagsErrors

end Parser

/-! ## The furthest attempt -/

namespace SearchFailure

private theorem furthest?_concat (earlier : List Attempt) (last : Attempt) :
    furthest? (earlier ++ [last]) = some
      (match furthest? earlier with
      | none => last
      | some best => if best.diagnostic.offset ≤ last.diagnostic.offset then last else best) := by
  rw [furthest?, List.foldl_append, List.foldl_cons, List.foldl_nil, ← furthest?]
  cases furthest? earlier with
  | none => rfl
  | some best =>
      dsimp only
      split <;> rfl

private theorem exists_furthest? {attempts : List Attempt} (made : attempts ≠ []) :
    ∃ furthest ∈ attempts, furthest? attempts = some furthest ∧
      ∀ other ∈ attempts, other.diagnostic.offset ≤ furthest.diagnostic.offset := by
  induction attempts using List.reverseRecOn with
  | nil => exact absurd rfl made
  | append_singleton earlier last induction =>
      rw [furthest?_concat]
      simp only [List.forall_mem_append, List.forall_mem_singleton]
      by_cases none : earlier = []
      · subst none
        exact ⟨last, List.mem_singleton_self last, rfl, by simp, Nat.le_refl _⟩
      · obtain ⟨best, member, isBest, bound⟩ := induction none
        rw [isBest]
        dsimp only
        by_cases further : best.diagnostic.offset ≤ last.diagnostic.offset
        · rw [if_pos further]
          refine ⟨last, List.mem_append_right _ (List.mem_singleton_self last), rfl, ?_,
            Nat.le_refl _⟩
          intro other otherMember
          exact Nat.le_trans (bound other otherMember) further
        · rw [if_neg further]
          exact ⟨best, List.mem_append_left _ member, rfl, bound, Nat.le_of_not_le further⟩

end SearchFailure

/-! ## Attempts of an exhausted search -/

/-- Every other default dialect in the untyped grammar covers the last one. -/
theorem Dialect.defaultCovers_eight :
    ∀ number ∈ [2, 3, 6, 7], DefaultCovers number 8 := by
  decide +kernel

namespace Resolution

variable {parse : Parser} {source : Text} {options : ParseOptions}

private theorem attemptAfresh_of_noTree {dialect : Dialect}
    (noTree : parse source dialect.grammar = none) :
    attemptAfresh parse source options dialect =
      .error ⟨dialect, .ofWhole (.noTree dialect.grammar)⟩ := by
  rw [attemptAfresh, noTree]
  rfl

theorem fit_of_attemptAfresh {dialect : Dialect} {tree : Tree}
    (parsed : parse source dialect.grammar = some tree) {failed : Attempt}
    (fails : attemptAfresh parse source options dialect = .error failed) :
    tree.fit source dialect options = .error failed.diagnostic := by
  rw [attemptAfresh, parsed, attempt] at fails
  cases fits : tree.fit source dialect options with
  | ok sourceKind => rw [fits] at fails; cases fails
  | error diagnostic => rw [fits] at fails; cases fails; rfl

theorem offset_le_of_covers (ordered : parse.StartsInOrder source) {richer plainer : Dialect}
    (covers : richer.Covers plainer) (sameGrammar : richer.grammar = plainer.grammar)
    {far near : Attempt} (fails : attemptAfresh parse source options richer = .error far)
    (failsToo : attemptAfresh parse source options plainer = .error near) :
    near.diagnostic.offset ≤ far.diagnostic.offset := by
  cases parsed : parse source richer.grammar with
  | none =>
      rw [attemptAfresh_of_noTree (sameGrammar ▸ parsed)] at failsToo
      cases failsToo
      exact Nat.zero_le _
  | some tree =>
      apply (ordered _ tree parsed).offset_le_of_covers covers (fit_of_attemptAfresh parsed fails)
      exact fit_of_attemptAfresh (sameGrammar ▸ parsed) failsToo

variable {failure : SearchFailure} (fails : find parse source none options = .error failure)

include fails

theorem map_dialect_of_find_none : failure.attempts.map (·.dialect) = Dialect.defaults := by
  rw [find_none_eq_findSeparately] at fails
  exact map_dialect_attempts fails

theorem attemptAfresh_of_mem_attempts :
    ∀ attempt ∈ failure.attempts,
      attemptAfresh parse source options attempt.dialect = .error attempt := by
  have separately := fails
  rw [find_none_eq_findSeparately, findSeparately_eq_error_iff, ← map_dialect_of_find_none fails,
    List.map_map, List.map_inj_left] at separately
  intro attempt member
  obtain ⟨other, failed, same⟩ := (find_some_eq_error_iff _ _).mp (separately attempt member)
  cases same
  exact failed

private theorem length_attempts : failure.attempts.length = 9 := by
  rw [← List.length_map (·.dialect), map_dialect_of_find_none fails]
  decide

theorem exists_attempt {number : Nat} (inside : number < 9) :
    ∃ attempt, failure.attempts[number]? = some attempt :=
  ⟨_, List.getElem?_eq_getElem (length_attempts fails ▸ inside)⟩

theorem defaults_of_attempt {number : Nat} {attempt : Attempt}
    (made : failure.attempts[number]? = some attempt) :
    Dialect.defaults[number]? = some attempt.dialect := by
  rw [← map_dialect_of_find_none fails, List.getElem?_map, made]
  rfl

theorem offset_le_of_defaultCovers (ordered : parse.StartsInOrder source) {richer plainer : Nat}
    (covers : Dialect.DefaultCovers richer plainer) {far near : Attempt}
    (isFar : failure.attempts[richer]? = some far)
    (isNear : failure.attempts[plainer]? = some near) :
    near.diagnostic.offset ≤ far.diagnostic.offset := by
  obtain ⟨rich, isRich, plain, isPlain, sameGrammar, covers⟩ := covers
  have richSame := Option.mem_unique isRich (defaults_of_attempt fails isFar)
  have plainSame := Option.mem_unique isPlain (defaults_of_attempt fails isNear)
  subst richSame plainSame
  exact offset_le_of_covers ordered covers sameGrammar
    (attemptAfresh_of_mem_attempts fails far (List.mem_of_getElem? isFar))
    (attemptAfresh_of_mem_attempts fails near (List.mem_of_getElem? isNear))

/-- Attempts with one grammar agree on the first syntax error of its tree. -/
theorem diagnostic_of_syntaxError (flags : parse.FlagsErrors source) {tree : Tree} {culprit : Site}
    (first : tree.sites.find? (·.node.isSyntaxError) = some culprit) :
    ∀ attempt ∈ failure.attempts, parse source attempt.dialect.grammar = some tree →
      attempt.diagnostic = .ofNode source culprit.node (.ofSyntaxError culprit.node) := by
  intro attempt member parsed
  have refused := fit_of_attemptAfresh parsed (attemptAfresh_of_mem_attempts fails attempt member)
  rw [(flags _ tree parsed).fit_of_find? first] at refused
  exact (Except.error.inj refused).symm

theorem furthest_offset (ordered : parse.StartsInOrder source) {typed untyped : Attempt}
    (isTyped : failure.attempts[4]? = some typed)
    (isUntyped : failure.attempts[6]? = some untyped) :
    ∃ furthest, failure.chosen? .furthest = some furthest ∧
      furthest.diagnostic.offset = max typed.diagnostic.offset untyped.diagnostic.offset := by
  obtain ⟨furthest, member, isFurthest, bound⟩ :=
    SearchFailure.exists_furthest? (List.ne_nil_of_mem (List.mem_of_getElem? isTyped))
  obtain ⟨number, isNumber⟩ := List.mem_iff_getElem?.mp member
  have inside : number < 9 := length_attempts fails ▸ (List.getElem?_eq_some_iff.mp isNumber).1
  refine ⟨furthest, isFurthest, Nat.le_antisymm ?_ ?_⟩
  · rcases Dialect.defaultCovers_four_or_six number inside with covers | covers
    · apply Nat.le_trans (offset_le_of_defaultCovers fails ordered covers isTyped isNumber)
      exact Nat.le_max_left _ _
    · apply Nat.le_trans (offset_le_of_defaultCovers fails ordered covers isUntyped isNumber)
      exact Nat.le_max_right _ _
  · exact Nat.max_le.mpr ⟨bound typed (List.mem_of_getElem? isTyped),
      bound untyped (List.mem_of_getElem? isUntyped)⟩

omit fails

/-- A search that exhausts the default dialects points furthest where one of two dialects does, and
its last attempt points no further than those of its grammar. Syntax errors are reported alike by
all dialects of a grammar. -/
theorem exhausted_search_points (parse : Parser) (source : Text) (options : ParseOptions)
    (failure : SearchFailure) (ordered : parse.StartsInOrder source)
    (flags : parse.FlagsErrors source)
    (fails : find parse source none options = .error failure) :
    failure.attempts.map (·.dialect) = Dialect.defaults ∧
      failure.attempts.length = 9 ∧
      (∃ furthest typed untyped, failure.chosen? .furthest = some furthest ∧
        failure.attempts[4]? = some typed ∧ failure.attempts[6]? = some untyped ∧
        furthest.diagnostic.offset = max typed.diagnostic.offset untyped.diagnostic.offset) ∧
      (∃ last, failure.chosen? .last = some last ∧ failure.attempts[8]? = some last ∧
        ∀ number ∈ [2, 3, 6, 7], ∃ other, failure.attempts[number]? = some other ∧
          last.diagnostic.offset ≤ other.diagnostic.offset) ∧
      ∀ grammar tree culprit, parse source grammar = some tree →
        tree.sites.find? (·.node.isSyntaxError) = some culprit →
        ∀ attempt ∈ failure.attempts, attempt.dialect.grammar = grammar →
          attempt.diagnostic = .ofNode source culprit.node (.ofSyntaxError culprit.node) := by
  obtain ⟨typed, isTyped⟩ := exists_attempt fails (by decide : 4 < 9)
  obtain ⟨untyped, isUntyped⟩ := exists_attempt fails (by decide : 6 < 9)
  obtain ⟨last, isLast⟩ := exists_attempt fails (by decide : 8 < 9)
  obtain ⟨furthest, isFurthest, offset⟩ := furthest_offset fails ordered isTyped isUntyped
  have chosenLast : failure.chosen? .last = some last := by
    rw [SearchFailure.chosen?, List.getLast?_eq_getElem?, length_attempts fails]
    exact isLast
  refine ⟨map_dialect_of_find_none fails, length_attempts fails,
    ⟨furthest, typed, untyped, isFurthest, isTyped, isUntyped, offset⟩,
    ⟨last, chosenLast, isLast, ?_⟩, ?_⟩
  · intro number member
    have covers := Dialect.defaultCovers_eight number member
    have inside : ∀ number ∈ [2, 3, 6, 7], number < 9 := by decide
    obtain ⟨other, isOther⟩ := exists_attempt fails (inside number member)
    exact ⟨other, isOther, offset_le_of_defaultCovers fails ordered covers isOther isLast⟩
  · intro grammar tree culprit parsed first attempt member hosted
    subst hosted
    exact diagnostic_of_syntaxError fails flags first attempt member parsed

def unfinishedSource : Text := "let a: number = 1;\nlet b = ;\n".toList

def unfinishedParser : Parser
  -- Only the untyped grammar marks the annotation.
  | _, .javascript => some <|
      .node ⟨"program", true, false, false, true, ⟨0, 29⟩, []⟩ <| .ofList [
        .node ⟨"lexical_declaration", true, false, false, true, ⟨0, 18⟩, []⟩ <| .ofList [
          .node ⟨"ERROR", true, true, false, true, ⟨5, 13⟩, []⟩ .nil]]
  | _, _ => some <|
      .node ⟨"program", true, false, false, true, ⟨0, 29⟩, []⟩ <| .ofList [
        .node ⟨"lexical_declaration", true, false, false, false, ⟨0, 18⟩, []⟩ .nil,
        .node ⟨"lexical_declaration", true, false, false, true, ⟨19, 28⟩, []⟩ <| .ofList [
          .node ⟨"ERROR", true, true, false, true, ⟨25, 26⟩, []⟩ .nil]]

theorem exhausted_search_points_unfinishedSource :
    unfinishedParser.StartsInOrder unfinishedSource ∧
      unfinishedParser.FlagsErrors unfinishedSource ∧
      ∃ failure, find unfinishedParser unfinishedSource none {} = .error failure ∧
        ∃ furthest last, failure.chosen? .furthest = some furthest ∧
          furthest.diagnostic.offset = 25 ∧
          failure.chosen? .last = some last ∧ last.diagnostic.offset = 5 := by
  have ordered : unfinishedParser.StartsInOrder unfinishedSource := by
    intro grammar tree parsed
    cases grammar <;> cases parsed <;> unfold Tree.StartsInOrder <;> decide
  have flags : unfinishedParser.FlagsErrors unfinishedSource := by
    intro grammar tree parsed
    cases grammar <;> cases parsed <;> unfold Tree.FlagsErrors <;> decide
  have hasError : ∀ grammar tree, unfinishedParser unfinishedSource grammar = some tree →
      tree.root.hasError = true := by
    intro grammar tree parsed
    cases grammar <;> cases parsed <;> rfl
  refine ⟨ordered, flags, ?_⟩
  cases fails : find unfinishedParser unfinishedSource none {} with
  | ok resolution =>
      obtain ⟨_, _, ⟨tree, _, parsed, fits⟩, _⟩ := find_none_eq_ok fails
      have noError := ((Tree.fit_eq_ok_iff _ _ _ _ _).mp fits).1
      rw [hasError _ tree parsed] at noError
      cases noError
  | error failure =>
      obtain ⟨_, _, ⟨furthest, typed, untyped, isFurthest, isTyped, isUntyped, offset⟩,
        ⟨last, chosenLast, isLast, _⟩, alike⟩ :=
        exhausted_search_points unfinishedParser unfinishedSource {} failure ordered flags fails
      have hosted : ∀ (number : Nat) (attempt : Attempt) (grammar : Grammar),
          failure.attempts[number]? = some attempt →
          Dialect.defaults[number]?.map Dialect.grammar = some grammar →
          attempt ∈ failure.attempts ∧ attempt.dialect.grammar = grammar := by
        intro number attempt grammar made isGrammar
        rw [defaults_of_attempt fails made] at isGrammar
        exact ⟨List.mem_of_getElem? made, Option.some.inj isGrammar⟩
      have typedHost := hosted 4 typed .tsx isTyped (by decide)
      have untypedHost := hosted 6 untyped .javascript isUntyped (by decide)
      have lastHost := hosted 8 last .javascript isLast (by decide)
      have typedAt := alike .tsx _ _ rfl rfl typed typedHost.1 typedHost.2
      have untypedAt := alike .javascript _ _ rfl rfl untyped untypedHost.1 untypedHost.2
      have lastAt := alike .javascript _ _ rfl rfl last lastHost.1 lastHost.2
      rw [typedAt, untypedAt] at offset
      exact ⟨failure, rfl, furthest, last, isFurthest, offset, chosenLast, by rw [lastAt]; rfl⟩

end Resolution

end Uncomment

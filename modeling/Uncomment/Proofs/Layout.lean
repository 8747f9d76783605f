import Uncomment.Proofs.Erasure
import Uncomment.Proofs.Traversal

/-! # Where comments stand

A parser hands over trees whose spans nest. The comments of such a tree are leaves, so their spans
stand one behind the other in document order. -/

namespace Uncomment

/-! ## Spans one behind the other -/

namespace Span

structure Arranged (source : Text) (low high : Nat) (spans : List Span) : Prop where
  inside : ∀ span ∈ spans, low ≤ span.start ∧ span.start ≤ span.stop ∧ span.stop ≤ high ∧
    source.isBoundary span.start = true ∧ source.isBoundary span.stop = true
  ordered : spans.Pairwise fun first second => first.stop ≤ second.start

variable {source : Text} {low middle high : Nat} {first second spans : List Span}

private theorem arranged_nil : Arranged source low high [] where
  inside := by simp
  ordered := .nil

theorem Arranged.append (before : Arranged source low middle first)
    (after : Arranged source middle high second) (lower : low ≤ middle) (upper : middle ≤ high) :
    Arranged source low high (first ++ second) where
  inside := by
    intro span member
    rcases List.mem_append.mp member with member | member
    · rcases before.inside span member with ⟨bound, proper, limit, boundaries⟩
      exact ⟨bound, proper, by omega, boundaries⟩
    · rcases after.inside span member with ⟨bound, proper, limit, boundaries⟩
      exact ⟨by omega, proper, limit, boundaries⟩
  ordered := by
    refine List.pairwise_append.mpr ⟨before.ordered, after.ordered, ?_⟩
    intro span member other otherMember
    have limit := (before.inside span member).2.2.1
    have bound := (after.inside other otherMember).1
    omega

theorem Arranged.lower (arranged : Arranged source middle high spans) (bound : low ≤ middle) :
    Arranged source low high spans where
  inside span member := by
    rcases arranged.inside span member with ⟨start, rest⟩
    exact ⟨by omega, rest⟩
  ordered := arranged.ordered

theorem sort_of_arranged (arranged : Arranged source low high spans) : sort spans = spans := by
  apply List.mergeSort_of_pairwise
  refine (List.Pairwise.and_mem.mp arranged.ordered).imp ?_
  intro first second placed
  rcases placed with ⟨firstMember, secondMember, behind⟩
  have firstProper := (arranged.inside first firstMember).2.1
  have secondProper := (arranged.inside second secondMember).2.1
  rw [precedes_iff]
  omega

theorem selectFrom_of_ordered {cursor : Nat} (further : ∀ span ∈ spans, cursor ≤ span.start)
    (ordered : spans.Pairwise fun first second => first.stop ≤ second.start) :
    selectFrom cursor spans = spans := by
  induction spans generalizing cursor with
  | nil => rfl
  | cons span later induction =>
      rcases List.pairwise_cons.mp ordered with ⟨behind, laterOrdered⟩
      have bound := further span List.mem_cons_self
      rw [selectFrom, if_neg (by omega), induction behind laterOrdered]

theorem select_of_arranged (arranged : Arranged source low high spans) :
    select source spans = spans.filter fun span => span.start < span.stop := by
  have valid :
      spans.filter (isValidIn source) = spans.filter fun span => span.start < span.stop := by
    apply List.filter_congr
    intro span member
    rcases arranged.inside span member with ⟨-, -, -, start, stop⟩
    rw [isValidIn, start, stop, Bool.and_true, Bool.and_true]
  have ordered := arranged.ordered.filter fun span => span.start < span.stop
  have sorted : (spans.filter (isValidIn source)).Pairwise fun first second =>
      first.start ≤ second.start := by
    rw [valid]
    refine (List.Pairwise.and_mem.mp ordered).imp ?_
    intro first second placed
    rcases placed with ⟨firstMember, _, behind⟩
    have proper := of_decide_eq_true (List.mem_filter.mp firstMember).2
    omega
  rw [select_of_pairwise sorted, valid]
  exact selectFrom_of_ordered (fun _ _ => Nat.zero_le _) ordered

theorem outside_filter_iff (position : Nat) :
    Outside (spans.filter fun span => span.start < span.stop) position ↔ Outside spans position := by
  constructor
  · intro outside span member contains
    have inside : span.start < span.stop := Nat.lt_of_le_of_lt contains.1 contains.2
    exact outside span (List.mem_filter.mpr ⟨member, decide_eq_true inside⟩) contains
  · intro outside span member
    exact outside span (List.mem_filter.mp member).1

end Span

/-! ## Nested trees -/

def Node.isComment (node : Node) : Bool :=
  node.kind == "comment" || node.kind == "html_comment"

mutual
/-- The spans of a tree nest in a source: each lies in it on boundaries, children lie in their
parent, in order and without overlap, and comments have none. -/
def Tree.NestsIn (source : Text) : Tree → Prop
  | .node root children =>
      root.span.start ≤ root.span.stop ∧ root.span.stop ≤ source.byteLength ∧
        source.isBoundary root.span.start = true ∧ source.isBoundary root.span.stop = true ∧
        (root.isComment = true → children = .nil) ∧
        children.NestsBetween source root.span.start root.span.stop

def Forest.NestsBetween (source : Text) (low high : Nat) : Forest → Prop
  | .nil => True
  | .cons first rest =>
      low ≤ first.root.span.start ∧ first.root.span.stop ≤ high ∧ first.NestsIn source ∧
        rest.NestsBetween source first.root.span.stop high
end

def Site.commentSpans (sites : List Site) : List Span :=
  (sites.filter (·.node.isComment)).map (·.node.span)

theorem Site.commentSpans_append (first second : List Site) :
    commentSpans (first ++ second) = commentSpans first ++ commentSpans second := by
  rw [commentSpans, List.filter_append, List.map_append, commentSpans, commentSpans]

def Tree.commentSpans (tree : Tree) : List Span :=
  Site.commentSpans tree.sites

mutual
theorem Tree.arranged_sitesBelow (source : Text) (ancestors : List Tree) :
    ∀ tree : Tree, tree.NestsIn source →
      Span.Arranged source tree.root.span.start tree.root.span.stop
        (Site.commentSpans (tree.sitesBelow ancestors))
  | .node root children, nests => by
      rcases nests with ⟨proper, inside, start, stop, leaf, between⟩
      have below := Forest.arranged_sitesBelow source (.node root children :: ancestors)
        root.span.start root.span.stop children between
      rw [Tree.sitesBelow, ← List.singleton_append, Site.commentSpans_append]
      cases comment : root.isComment with
      | false =>
          have none : Site.commentSpans [⟨.node root children, ancestors⟩] = [] := by
            simp [Site.commentSpans, Site.node, Tree.root, comment]
          rw [none, List.nil_append]
          exact below
      | true =>
          have single : Site.commentSpans [⟨.node root children, ancestors⟩] = [root.span] := by
            simp [Site.commentSpans, Site.node, Tree.root, comment]
          rw [single, leaf comment]
          exact {
            inside := by
              intro span member
              rw [List.mem_singleton.mp member]
              exact ⟨Nat.le_refl _, proper, Nat.le_refl _, start, stop⟩
            ordered := List.pairwise_singleton _ _ }

theorem Forest.arranged_sitesBelow (source : Text) (ancestors : List Tree) (low high : Nat) :
    ∀ forest : Forest, forest.NestsBetween source low high →
      Span.Arranged source low high (Site.commentSpans (forest.sitesBelow ancestors))
  | .nil, _ => Span.arranged_nil
  | .cons first rest, nests => by
      rcases nests with ⟨lower, upper, firstNests, restNests⟩
      have proper : first.root.span.start ≤ first.root.span.stop := by
        cases first
        exact firstNests.1
      have firstArranged := Tree.arranged_sitesBelow source ancestors first firstNests
      have restArranged := Forest.arranged_sitesBelow source ancestors
        first.root.span.stop high rest restNests
      rw [Forest.sitesBelow, Site.commentSpans_append]
      exact (firstArranged.lower lower).append restArranged (by omega) upper
end

theorem Tree.arranged_commentSpans {source : Text} {tree : Tree} (nests : tree.NestsIn source) :
    Span.Arranged source tree.root.span.start tree.root.span.stop tree.commentSpans :=
  Tree.arranged_sitesBelow source [] tree nests

/-! ## Collected comments -/

theorem Site.map_span_comment? (source : Text) (site : Site) :
    (site.comment? source).map (·.span) =
      if site.node.isComment then some site.node.span else none := by
  have kind : site.node.kind = site.kind := rfl
  rw [Node.isComment, kind, comment?]
  by_cases html : site.kind = "html_comment"
  · simp [html]
  by_cases comment : site.kind = "comment"
  · simp only [comment, beq_self_eq_true, Bool.true_or, if_true]
    split
    · rfl
    · split <;> rfl
  · simp [html, comment]

theorem Tree.map_span_comments (source : Text) (tree : Tree) :
    (tree.comments source).map (·.span) = tree.commentSpans := by
  rw [comments_eq, commentSpans, List.map_filterMap]
  induction tree.sites with
  | nil => rfl
  | cons site later induction =>
      rw [List.filterMap_cons, Site.map_span_comment?, induction, Site.commentSpans,
        Site.commentSpans, List.filter_cons]
      cases site.node.isComment <;> rfl

end Uncomment

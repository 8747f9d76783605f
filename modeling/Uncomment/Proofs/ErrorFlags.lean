import Uncomment.Proofs.Refusal

/-! # Error flags

A parser flags a node when a syntax error is marked on it or below it. The traversal for the first
syntax error leaves out what lies below a node without the flag. With accurate flags it leaves out
no mark, and finds the first one in document order. -/

namespace Uncomment

/-! ## Trees in trees -/

mutual
/-- The trees below a tree do not depend on those around it. -/
theorem Tree.map_tree_sitesBelow (first second : List Tree) :
    ∀ tree : Tree, (tree.sitesBelow first).map Site.tree = (tree.sitesBelow second).map Site.tree
  | .node root children => by
      rw [Tree.sitesBelow, Tree.sitesBelow, List.map_cons, List.map_cons,
        Forest.map_tree_sitesBelow]

theorem Forest.map_tree_sitesBelow (first second : List Tree) :
    ∀ forest : Forest,
      (forest.sitesBelow first).map Site.tree = (forest.sitesBelow second).map Site.tree
  | .nil => rfl
  | .cons next rest => by
      rw [Forest.sitesBelow, Forest.sitesBelow, List.map_append, List.map_append,
        Tree.map_tree_sitesBelow first second next, Forest.map_tree_sitesBelow first second rest]
end

namespace Tree

def Holds (outer inner : Tree) : Prop :=
  inner ∈ outer.sites.map Site.tree

private theorem holds_of_mem_childForest {root : Node} {children : Forest} {ancestors : List Tree}
    {site : Site} (member : site ∈ children.sitesBelow ancestors) :
    Holds (.node root children) site.tree := by
  rw [Holds, sites, sitesBelow, List.map_cons, Forest.map_tree_sitesBelow _ ancestors]
  exact List.mem_cons_of_mem _ (List.mem_map_of_mem member)

end Tree

mutual
/-- The trees around a site of a tree are in the tree and hold the site's own, unless they are
around the whole tree. -/
theorem Tree.holds_of_mem_ancestors (ancestors : List Tree) :
    ∀ tree : Tree, ∀ site ∈ tree.sitesBelow ancestors, ∀ around ∈ site.ancestors,
      around ∈ ancestors ∨
        around ∈ (tree.sitesBelow ancestors).map Site.tree ∧ around.Holds site.tree
  | .node root children, site, member, around, above => by
      cases List.mem_cons.mp member with
      | inl isRoot =>
          subst site
          exact .inl above
      | inr below =>
          have deeper := Forest.holds_of_mem_ancestors (.node root children :: ancestors) children
            site below around above
          rw [Tree.sitesBelow, List.map_cons, List.mem_cons]
          cases deeper with
          | inr inside => exact .inr ⟨.inr inside.1, inside.2⟩
          | inl outside =>
              cases List.mem_cons.mp outside with
              | inr further => exact .inl further
              | inl isRoot =>
                  subst around
                  exact .inr ⟨.inl rfl, Tree.holds_of_mem_childForest below⟩

theorem Forest.holds_of_mem_ancestors (ancestors : List Tree) :
    ∀ forest : Forest, ∀ site ∈ forest.sitesBelow ancestors, ∀ around ∈ site.ancestors,
      around ∈ ancestors ∨
        around ∈ (forest.sitesBelow ancestors).map Site.tree ∧ around.Holds site.tree
  | .nil, _, member, _, _ => nomatch member
  | .cons first rest, site, member, around, above => by
      rw [Forest.sitesBelow, List.map_append, List.mem_append]
      cases List.mem_append.mp member with
      | inl inFirst =>
          exact (Tree.holds_of_mem_ancestors ancestors first site inFirst around above).imp_right
            (And.imp_left .inl)
      | inr inRest =>
          exact (Forest.holds_of_mem_ancestors ancestors rest site inRest around above).imp_right
            (And.imp_left .inr)
end

/-! ## Accurate flags -/

namespace Tree

/-- A node has the error flag exactly when a syntax error is marked on it or below it. -/
def FlagsErrors (tree : Tree) : Prop :=
  ∀ site ∈ tree.sites,
    site.node.hasError = true ↔ ∃ below ∈ site.tree.sites, below.node.isSyntaxError = true

variable {tree : Tree} (flags : tree.FlagsErrors)

include flags

theorem FlagsErrors.hasError_iff :
    tree.root.hasError = true ↔ ∃ site ∈ tree.sites, site.node.isSyntaxError = true :=
  flags ⟨tree, []⟩ (List.mem_of_getElem? tree.sites_head)

/-- The flags lead to every node that marks a syntax error. -/
theorem FlagsErrors.hasError_of_mem_ancestors {site : Site} (member : site ∈ tree.sites)
    (marks : site.node.isSyntaxError = true) :
    ∀ around ∈ site.ancestors, around.root.hasError = true := by
  intro around above
  have inside := (holds_of_mem_ancestors [] tree site member around above).resolve_left
    List.not_mem_nil
  obtain ⟨place, placeMember, rfl⟩ := List.mem_map.mp inside.1
  obtain ⟨below, belowMember, same⟩ := List.mem_map.mp inside.2
  apply (flags place placeMember).mpr
  refine ⟨below, belowMember, ?_⟩
  rw [Site.node, same]
  exact marks

theorem FlagsErrors.find?_marksError :
    tree.sites.find? Site.marksError = tree.sites.find? (·.node.isSyntaxError) := by
  have led : ∀ site ∈ tree.sites, site.marksError = site.node.isSyntaxError := by
    intro site member
    cases marks : site.node.isSyntaxError with
    | false => rw [Site.marksError, marks, Bool.and_false]
    | true =>
        have all := List.all_eq_true.mpr (flags.hasError_of_mem_ancestors member marks)
        rw [Site.marksError, marks, all, Bool.and_true]
  rw [← List.head?_filter, List.filter_congr led, List.head?_filter]

/-- The traversal that leaves out nodes without the flag finds the first mark of all. -/
theorem FlagsErrors.syntaxError?_eq :
    tree.syntaxError? = (tree.sites.find? (·.node.isSyntaxError)).map Site.node := by
  rw [Tree.syntaxError?_eq, flags.find?_marksError]

/-- A tree with a syntax error is refused for the first one, whatever the dialect. -/
theorem FlagsErrors.fit_of_find? {culprit : Site}
    (first : tree.sites.find? (·.node.isSyntaxError) = some culprit) (source : Text)
    (dialect : Dialect) (options : ParseOptions) :
    tree.fit source dialect options =
      .error (.ofNode source culprit.node (.ofSyntaxError culprit.node)) := by
  have marks := List.find?_some first
  have hasError : tree.root.hasError = true :=
    flags.hasError_iff.mpr ⟨culprit, List.mem_of_find?_eq_some first, marks⟩
  rw [fit, if_pos hasError, flags.syntaxError?_eq, first]
  rfl

omit flags

/-! ## The first mark -/

def firstMark? (enters : Tree → Bool) (tree : Tree) : Option Site :=
  let visit (_ : Unit) (cursor : Cursor) : Except Site Unit :=
    if cursor.site.node.isSyntaxError then .error cursor.site else .ok ()
  match Cursor.traverse enters visit () (.start tree) with
  | .error culprit => some culprit
  | .ok () => none

theorem firstMark?_eq (enters : Tree → Bool) (tree : Tree) :
    tree.firstMark? enters =
      (tree.sites.filter fun site => site.ancestors.all enters).find? (·.node.isSyntaxError) := by
  have visit : (fun (_ : Unit) (cursor : Cursor) =>
      if cursor.site.node.isSyntaxError then (.error cursor.site : Except Site Unit) else .ok ()) =
        fun _ cursor =>
          (Option.guard (·.node.isSyntaxError) cursor.site).elim (.ok ()) .error := by
    funext _ cursor
    cases marks : cursor.site.node.isSyntaxError <;> simp [Option.guard, marks]
  rw [firstMark?, visit, Cursor.traverse_refuse, List.findSome?_guard]
  cases (tree.sites.filter fun site => site.ancestors.all enters).find? (·.node.isSyntaxError) <;>
    rfl

theorem firstMark?_all (tree : Tree) :
    tree.firstMark? (fun _ => true) = tree.sites.find? (·.node.isSyntaxError) := by
  have entered : tree.sites.filter (fun site => site.ancestors.all fun _ => true) = tree.sites := by
    simp
  rw [firstMark?_eq, entered]

theorem firstMark?_hasError (tree : Tree) :
    tree.firstMark? (·.root.hasError) = tree.sites.find? Site.marksError := by
  rw [firstMark?_eq, find?_marksError]

/-- With accurate flags a tree with an error is refused at its first mark, where the traversal that
follows the flags and the one of the whole tree end alike. A tree without an error has no mark. -/
theorem first_syntaxError (tree : Tree) (flags : tree.FlagsErrors) :
    (tree.root.hasError = true → ∃ before culprit after,
      tree.sites = before ++ culprit :: after ∧
      (∀ other ∈ before, other.node.isError = false ∧ other.node.isMissing = false) ∧
      (culprit.node.isError = true ∨ culprit.node.isMissing = true) ∧
      tree.firstMark? (·.root.hasError) = some culprit ∧
      tree.firstMark? (fun _ => true) = some culprit ∧
      tree.syntaxError? = some culprit.node ∧
      ∀ source dialect options, tree.fit source dialect options =
        .error (.ofNode source culprit.node (.ofSyntaxError culprit.node))) ∧
    (tree.root.hasError = false →
      ∀ site ∈ tree.sites, site.node.isError = false ∧ site.node.isMissing = false) := by
  have unmarked : ∀ site : Site, site.node.isSyntaxError = false →
      site.node.isError = false ∧ site.node.isMissing = false := by
    intro site
    rw [Node.isSyntaxError, Bool.or_eq_false_iff]
    exact id
  constructor
  · intro hasError
    rcases flags.hasError_iff.mp hasError with ⟨marked, member, marks⟩
    have found : (tree.sites.find? (·.node.isSyntaxError)).isSome = true :=
      List.find?_isSome.mpr ⟨marked, member, marks⟩
    rcases Option.isSome_iff_exists.mp found with ⟨culprit, first⟩
    rcases List.find?_eq_some_iff_append.mp first with
      ⟨culpritMarks, before, after, split, notBefore⟩
    refine ⟨before, culprit, after, split, ?_, ?_, ?_, ?_, ?_, flags.fit_of_find? first⟩
    · intro other otherMember
      apply unmarked
      simpa using notBefore other otherMember
    · rwa [Node.isSyntaxError, Bool.or_eq_true] at culpritMarks
    · rw [firstMark?_hasError, flags.find?_marksError, first]
    · rw [firstMark?_all, first]
    · rw [flags.syntaxError?_eq, first]
      rfl
  · intro noError site member
    apply unmarked
    rw [← Bool.not_eq_true]
    intro marks
    rw [flags.hasError_iff.mpr ⟨site, member, marks⟩] at noError
    cases noError

def unclosedTree : Tree :=
  -- The parser gave up on the last part, and within it on another.
  .node ⟨"program", true, false, false, true, ⟨0, 14⟩, []⟩ <| .ofList [
    .node ⟨"call_expression", true, false, false, false, ⟨0, 3⟩, []⟩ <| .ofList [
      .node ⟨"identifier", true, false, false, false, ⟨0, 1⟩, []⟩ .nil],
    .node ⟨"call_expression", true, false, false, true, ⟨5, 7⟩, []⟩ <| .ofList [
      .node ⟨"identifier", true, false, false, false, ⟨5, 6⟩, []⟩ .nil,
      .node ⟨"arguments", true, false, false, true, ⟨6, 7⟩, []⟩ <| .ofList [
        .node ⟨"(", false, false, false, false, ⟨6, 7⟩, []⟩ .nil,
        .node ⟨")", false, false, true, true, ⟨7, 7⟩, []⟩ .nil]],
    .node ⟨"ERROR", true, true, false, true, ⟨9, 14⟩, []⟩ <| .ofList [
      .node ⟨"ERROR", true, true, false, true, ⟨9, 10⟩, []⟩ .nil]]

def calledTree : Tree :=
  .node ⟨"program", true, false, false, false, ⟨0, 3⟩, []⟩ <| .ofList [
    .node ⟨"call_expression", true, false, false, false, ⟨0, 3⟩, []⟩ <| .ofList [
      .node ⟨"identifier", true, false, false, false, ⟨0, 1⟩, []⟩ .nil]]

theorem first_syntaxError_unclosedTree :
    (unclosedTree.FlagsErrors ∧ unclosedTree.root.hasError = true ∧
      unclosedTree.syntaxError? = some ⟨")", false, false, true, true, ⟨7, 7⟩, []⟩ ∧
      unclosedTree.fit "f(); g(; ((( \n".toList .empty {} =
        .error ⟨.missing ")" false, 7, 1, 7⟩) ∧
    calledTree.FlagsErrors ∧ calledTree.root.hasError = false ∧
      ∀ site ∈ calledTree.sites, site.node.isError = false ∧ site.node.isMissing = false := by
  have flags : unclosedTree.FlagsErrors := by
    unfold FlagsErrors
    decide
  have cleanFlags : calledTree.FlagsErrors := by
    unfold FlagsErrors
    decide
  rcases (first_syntaxError unclosedTree flags).1 rfl with
    ⟨before, culprit, after, -, -, -, -, whole, found, refused⟩
  have isCulprit : culprit.node = ⟨")", false, false, true, true, ⟨7, 7⟩, []⟩ := by
    have first : (unclosedTree.sites.find? (·.node.isSyntaxError)).map Site.node =
        some ⟨")", false, false, true, true, ⟨7, 7⟩, []⟩ := by decide
    rw [← firstMark?_all, whole] at first
    exact Option.some.inj first
  refine ⟨⟨flags, rfl, isCulprit ▸ found, ?_⟩, cleanFlags, rfl,
    (first_syntaxError calledTree cleanFlags).2 rfl⟩
  rw [refused, isCulprit]
  exact congrArg Except.error (by decide)

end Tree

end Uncomment

import Uncomment.Proofs.Traversal

/-! # Where a tree is refused

The nodes of a tree are numbered in document order. A tree that does not fit a dialect is refused at
the node its diagnostic is about: the first syntax error that the error flags lead to or, in a tree
without errors, the first node that uses a refused feature. -/

namespace Uncomment

/-! ## Nodes that a traversal enters -/

mutual
theorem Tree.suffix_ancestors (ancestors : List Tree) :
    ∀ tree : Tree, ∀ site ∈ tree.sitesBelow ancestors, ancestors <:+ site.ancestors
  | .node root children, site, member => by
      rcases List.mem_cons.mp member with equal | member
      · subst site
        exact List.suffix_refl _
      · exact (List.suffix_cons _ _).trans (Forest.suffix_ancestors _ children site member)

theorem Forest.suffix_ancestors (ancestors : List Tree) :
    ∀ forest : Forest, ∀ site ∈ forest.sitesBelow ancestors, ancestors <:+ site.ancestors
  | .nil, _, member => nomatch member
  | .cons first rest, site, member => by
      rcases List.mem_append.mp member with member | member
      · exact Tree.suffix_ancestors ancestors first site member
      · exact Forest.suffix_ancestors ancestors rest site member
end

mutual
/-- A traversal stops at the nodes of which it entered every ancestor. -/
theorem Tree.map_site_stops_entered (enters : Tree → Bool) (later : Forest) (above : List Frame)
    (level : Int) (entered : (above.map (·.tree)).all enters = true) :
    ∀ tree : Tree, (tree.stops enters later above level).map Cursor.site =
      (tree.sitesBelow (above.map (·.tree))).filter fun site => site.ancestors.all enters
  | .node root children => by
      rw [Tree.stops, Tree.sitesBelow, List.filter_cons_of_pos (by exact entered), List.map_cons]
      congr 1
      by_cases enter : enters (.node root children) = true
      · rw [if_pos enter]
        exact Forest.map_site_stops_entered enters _ _
          (by rw [List.map_cons, List.all_cons, enter, entered]; rfl) children
      · rw [if_neg enter, List.map_nil, eq_comm, List.filter_eq_nil_iff]
        intro site member all
        have around := (Forest.suffix_ancestors _ children site member).subset List.mem_cons_self
        exact enter (List.all_eq_true.mp all _ around)

theorem Forest.map_site_stops_entered (enters : Tree → Bool) (above : List Frame) (level : Int)
    (entered : (above.map (·.tree)).all enters = true) :
    ∀ forest : Forest, (forest.stops enters above level).map Cursor.site =
      (forest.sitesBelow (above.map (·.tree))).filter fun site => site.ancestors.all enters
  | .nil => rfl
  | .cons first rest => by
      rw [Forest.stops, Forest.sitesBelow, List.map_append, List.filter_append,
        Tree.map_site_stops_entered enters _ _ _ entered,
        Forest.map_site_stops_entered enters _ _ entered]
end

/-- A traversal that ends with the first refusal asks the nodes of which it entered every ancestor,
in document order. -/
theorem Cursor.traverse_refuse {Refusal : Type} (enters : Tree → Bool)
    (refusal? : Site → Option Refusal) (tree : Tree) :
    Cursor.traverse enters (fun _ cursor => (refusal? cursor.site).elim (.ok ()) .error) ()
        (.start tree) =
      ((tree.sites.filter fun site => site.ancestors.all enters).findSome? refusal?).elim
        (.ok ()) .error := by
  have stops : (tree.stops enters .nil [] 0).map Cursor.site =
      tree.sites.filter fun site => site.ancestors.all enters :=
    Tree.map_site_stops_entered _ .nil [] 0 rfl tree
  rw [Cursor.traverse_eq_foldlM, Cursor.stopsFrom_start, ← stops, List.findSome?_map]
  exact foldlM_refuse (fun cursor : Cursor => refusal? cursor.site) _

/-! ## The first syntax error -/

def Site.marksError (site : Site) : Bool :=
  site.ancestors.all (·.root.hasError) && site.node.isSyntaxError

theorem Tree.find?_marksError (tree : Tree) :
    (tree.sites.filter fun site => site.ancestors.all (·.root.hasError)).find?
        (·.node.isSyntaxError) = tree.sites.find? Site.marksError := by
  rw [List.find?_filter]
  congr 1
  funext site
  simp only [Site.marksError, Bool.decide_and, Bool.decide_eq_true]

theorem Tree.syntaxError?_eq (tree : Tree) :
    tree.syntaxError? = (tree.sites.find? Site.marksError).map Site.node := by
  let visited : List Site := tree.sites.filter fun site => site.ancestors.all (·.root.hasError)
  let culprit? (site : Site) : Option Node :=
    (Option.guard (·.node.isSyntaxError) site).map Site.node
  have found : visited.findSome? culprit? = (tree.sites.find? Site.marksError).map Site.node := by
    rw [← tree.find?_marksError, ← List.findSome?_guard, List.map_findSome?]
    rfl
  have visit : (fun (_ : Unit) (cursor : Cursor) =>
      if cursor.tree.root.isSyntaxError then (.error cursor.tree.root : Except Node Unit)
      else .ok ()) = fun _ cursor => (culprit? cursor.site).elim (.ok ()) .error := by
    funext _ cursor
    cases marks : cursor.tree.root.isSyntaxError <;>
      simp [culprit?, Option.guard, Cursor.site, Site.node, marks]
  rw [syntaxError?, visit, Cursor.traverse_refuse, ← found]
  cases visited.findSome? culprit? <;> rfl

/-! ## Numbers of refused nodes -/

namespace Tree

def refusedNumber? (source : Text) (dialect : Dialect) (options : ParseOptions) (tree : Tree) :
    Option Nat :=
  if tree.root.hasError then
    some ((tree.sites.findIdx? Site.marksError).getD 0)
  else
    tree.sites.findIdx? fun site =>
      (site.problem? source ⟨dialect, options, tree.sourceKind options.sourceType⟩).isSome

/-- A tree is refused at the node in its place with this number, and the diagnostic is about it. -/
structure RefusedAt (source : Text) (dialect : Dialect) (options : ParseOptions) (tree : Tree)
    (number : Nat) (site : Site) : Prop where
  first : tree.refusedNumber? source dialect options = some number
  place : tree.sites[number]? = some site
  diagnosed : ∃ problem, tree.fit source dialect options = .error (.ofNode source site.node problem)

theorem sites_head (tree : Tree) : tree.sites[0]? = some ⟨tree, []⟩ := by
  cases tree
  rfl

private theorem findIdx?_append_cons {Item : Type} {holds : Item → Bool} {before : List Item}
    {item : Item} (after : List Item) (here : holds item = true)
    (notBefore : ∀ other ∈ before, holds other = false) :
    (before ++ item :: after).findIdx? holds = some before.length := by
  rw [List.findIdx?_append, List.findIdx?_eq_none_iff.mpr notBefore, List.findIdx?_cons,
    if_pos here]
  simp

variable {source : Text} {dialect : Dialect} {options : ParseOptions} {tree : Tree}

private theorem exists_refusedAt_of_hasError (hasError : tree.root.hasError = true) :
    ∃ number site, tree.RefusedAt source dialect options number site := by
  have number : tree.refusedNumber? source dialect options =
      some ((tree.sites.findIdx? Site.marksError).getD 0) := by
    rw [refusedNumber?, if_pos hasError]
  have fit : tree.fit source dialect options =
      .error (.ofNode source (tree.syntaxError?.getD tree.root)
        (.ofSyntaxError (tree.syntaxError?.getD tree.root))) := by
    rw [Tree.fit, if_pos hasError]
  rw [syntaxError?_eq] at fit
  cases marked : tree.sites.find? Site.marksError with
  | none =>
      have index := List.findIdx?_eq_none_iff.mpr (by simpa using marked)
      rw [index] at number
      rw [marked] at fit
      exact ⟨0, ⟨tree, []⟩, number, tree.sites_head, _, fit⟩
  | some site =>
      rcases List.find?_eq_some_iff_append.mp marked with ⟨marks, before, after, split, notBefore⟩
      have index := findIdx?_append_cons after marks (by simpa using notBefore)
      rw [← split] at index
      rw [index] at number
      rw [marked] at fit
      exact ⟨before.length, site, number, by rw [split]; simp, _, fit⟩

/-- Without syntax errors a tree is refused for the first node that uses a refused feature. -/
theorem exists_problem_of_noError (noError : tree.root.hasError = false) {diagnostic : Diagnostic}
    (refused : tree.fit source dialect options = .error diagnostic) :
    ∃ before site after problem, tree.sites = before ++ site :: after ∧
      (∀ other ∈ before, other.problem? source
        ⟨dialect, options, tree.sourceKind options.sourceType⟩ = none) ∧
      site.problem? source ⟨dialect, options, tree.sourceKind options.sourceType⟩ = some problem ∧
      diagnostic = .ofNode source site.node problem ∧
      tree.RefusedAt source dialect options before.length site := by
  let setting : Setting := ⟨dialect, options, tree.sourceKind options.sourceType⟩
  have number : tree.refusedNumber? source dialect options =
      tree.sites.findIdx? fun site => (site.problem? source setting).isSome := by
    rw [refusedNumber?, noError]
    rfl
  have fit : tree.fit source dialect options =
      (tree.fitFeatures source setting).map fun _ => setting.sourceKind := by
    rw [Tree.fit, noError]
    rfl
  have found : tree.sites.findSome? (Site.refusal? source setting) = some diagnostic := by
    rw [fit, fitFeatures_eq] at refused
    cases found : tree.sites.findSome? (Site.refusal? source setting) with
    | none => rw [found] at refused; cases refused
    | some other => rw [found] at refused; cases refused; rfl
  rcases List.findSome?_eq_some_iff.mp found with ⟨before, site, after, split, here, notBefore⟩
  rcases Option.map_eq_some_iff.mp here with ⟨problem, uses, rfl⟩
  have admitted : ∀ other ∈ before, other.problem? source setting = none := by
    intro other member
    have none := notBefore other member
    rwa [Site.refusal?, Option.map_eq_none_iff] at none
  have index : tree.sites.findIdx? (fun site => (site.problem? source setting).isSome) =
      some before.length := by
    rw [split]
    exact findIdx?_append_cons after (by rw [uses]; rfl)
      (fun other member => by rw [admitted other member]; rfl)
  exact ⟨before, site, after, problem, split, admitted, uses, rfl,
    number.trans index, by rw [split]; simp, problem, refused⟩

private theorem exists_refusedAt_of_noError (noError : tree.root.hasError = false)
    {diagnostic : Diagnostic} (refused : tree.fit source dialect options = .error diagnostic) :
    ∃ number site, tree.RefusedAt source dialect options number site := by
  rcases exists_problem_of_noError noError refused with ⟨before, site, _, _, _, _, _, _, refusedAt⟩
  exact ⟨before.length, site, refusedAt⟩

/-- Every tree that does not fit is refused at one of its nodes. -/
theorem exists_refusedAt {diagnostic : Diagnostic}
    (refused : tree.fit source dialect options = .error diagnostic) :
    ∃ number site, tree.RefusedAt source dialect options number site := by
  cases flag : tree.root.hasError with
  | true => exact exists_refusedAt_of_hasError flag
  | false => exact exists_refusedAt_of_noError flag refused

end Tree

end Uncomment

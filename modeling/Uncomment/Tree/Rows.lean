import Uncomment.Tree.Basic

/-! # Trees from rows

A tree written as the list of its nodes in document order, each with its depth. -/

namespace Uncomment

namespace Tree

/-- Put a node in front of the trees that follow it: those deeper than the node are its children. -/
def attach (row : Nat × Node) (later : List (Nat × Tree)) : List (Nat × Tree) :=
  let (below, others) := later.span fun other => row.1 < other.1
  (row.1, .node row.2 (.ofList (below.map (·.2)))) :: others

def ofRows? (rows : List (Nat × Node)) : Option Tree :=
  match rows.foldr attach [] with
  | (_, tree) :: _ => some tree
  | [] => none

def rows (tree : Tree) : List (Nat × Node) :=
  tree.sites.map fun site => (site.depth, site.node)

end Tree

end Uncomment

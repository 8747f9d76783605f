import Uncomment.Span.Basic

/-! # Syntax trees

A syntax tree as a parser hands it over: nodes with a kind, a span and error flags, and below each
its children in order. `Tree.sites` lists the nodes in document order, each with its ancestors. -/

namespace Uncomment

structure Node where
  /-- The name of the node's grammar rule, or the text of a token that has no rule. -/
  kind : String
  isNamed : Bool
  isError : Bool
  /-- The parser supplied the node where the source lacks it. -/
  isMissing : Bool
  /-- An error or a missing node is this node or lies below it. -/
  hasError : Bool
  span : Span
  /-- The fields of the parent that this node fills. -/
  fields : List String
  deriving DecidableEq, Repr

namespace Node

def text (source : Text) (node : Node) : Text :=
  source.slice node.span.start node.span.stop

def isSyntaxError (node : Node) : Bool :=
  node.isError || node.isMissing

end Node

/-! ## Trees and forests -/

mutual
inductive Tree where
  | node (root : Node) (children : Forest)

inductive Forest where
  | nil
  | cons (first : Tree) (rest : Forest)
end

deriving instance DecidableEq for Tree
deriving instance DecidableEq for Forest
deriving instance Repr for Tree
deriving instance Repr for Forest

namespace Forest

def ofList : List Tree → Forest
  | [] => .nil
  | first :: rest => .cons first (ofList rest)

def toList : Forest → List Tree
  | .nil => []
  | .cons first rest => first :: rest.toList

@[simp] theorem toList_ofList (trees : List Tree) : (ofList trees).toList = trees := by
  induction trees with
  | nil => rfl
  | cons first rest induction => simp [ofList, toList, induction]

end Forest

namespace Tree

def root : Tree → Node
  | .node root _ => root

def childForest : Tree → Forest
  | .node _ children => children

def children (tree : Tree) : List Tree :=
  tree.childForest.toList

def kind (tree : Tree) : String :=
  tree.root.kind

def childInField? (tree : Tree) (field : String) : Option Tree :=
  tree.children.find? fun child => child.root.fields.contains field

end Tree

/-! ## Size -/

mutual
def Tree.size : Tree → Nat
  | .node _ children => children.size + 1

def Forest.size : Forest → Nat
  | .nil => 0
  | .cons first rest => first.size + rest.size
end

/-! ## Document order -/

/-- A node in its place: the tree it roots, and the trees around it, the nearest first. -/
structure Site where
  tree : Tree
  ancestors : List Tree
  deriving DecidableEq, Repr

namespace Site

def node (site : Site) : Node :=
  site.tree.root

def kind (site : Site) : String :=
  site.tree.kind

def parent? (site : Site) : Option Tree :=
  site.ancestors.head?

def hasParentOfKind (site : Site) (kind : String) : Bool :=
  site.parent?.any (·.kind == kind)

def depth (site : Site) : Nat :=
  site.ancestors.length

end Site

mutual
def Tree.sitesBelow (ancestors : List Tree) : Tree → List Site
  | .node root children =>
      ⟨.node root children, ancestors⟩ ::
        children.sitesBelow (.node root children :: ancestors)

def Forest.sitesBelow (ancestors : List Tree) : Forest → List Site
  | .nil => []
  | .cons first rest => first.sitesBelow ancestors ++ rest.sitesBelow ancestors
end

def Tree.sites (tree : Tree) : List Site :=
  tree.sitesBelow []

end Uncomment

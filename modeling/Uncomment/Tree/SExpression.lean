import Uncomment.Tree.Basic

/-! # Trees as S-expressions

Named nodes in nested parentheses, each after the fields it fills. -/

namespace Uncomment

def Node.expressionHead (node : Node) : String :=
  if node.isMissing then
    if node.isNamed then "MISSING " ++ node.kind else "MISSING \"" ++ node.kind ++ "\""
  else
    node.kind

mutual

def Tree.expressions : Tree → List String
  | .node root children =>
      let inner := children.expressions
      if root.isNamed || root.isMissing then
        [String.join (root.fields.map (· ++ ": ")) ++ "(" ++
          " ".intercalate (root.expressionHead :: inner) ++ ")"]
      else
        inner

def Forest.expressions : Forest → List String
  | .nil => []
  | .cons first rest => first.expressions ++ rest.expressions

end

def Tree.sExpression (tree : Tree) : String :=
  " ".intercalate tree.expressions

end Uncomment

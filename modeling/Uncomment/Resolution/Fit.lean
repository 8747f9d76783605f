import Uncomment.Resolution.Feature
import Uncomment.Tree.Cursor

/-! # Fitting a tree to a dialect

A tree fits a dialect when it has no syntax error and none of its nodes uses a refused feature. The
diagnostic of a tree that does not fit is the first in document order. -/

namespace Uncomment

namespace Tree

/-- The first node that marks a syntax error. The traversal leaves out what lies below a
node without errors. -/
def syntaxError? (tree : Tree) : Option Node :=
  let visit (_ : Unit) (cursor : Cursor) : Except Node Unit :=
    if cursor.tree.root.isSyntaxError then .error cursor.tree.root else .ok ()
  match Cursor.traverse (·.root.hasError) visit () (.start tree) with
  | .error culprit => some culprit
  | .ok () => none

def isModule (tree : Tree) : Bool :=
  tree.children.any fun child => child.root.isNamed &&
    ["import_statement", "export_statement"].contains child.kind

def sourceKind (tree : Tree) : SourceType → SourceKind
  | .module => .module
  | .script => .script
  | .unambiguous => if tree.isModule then .module else .script

def fitFeatures (source : Text) (setting : Setting) (tree : Tree) : Except Diagnostic Unit :=
  let visit (_ : Unit) (cursor : Cursor) : Except Diagnostic Unit :=
    match cursor.site.problem? source setting with
    | some problem => .error (.ofNode source cursor.tree.root problem)
    | none => .ok ()
  Cursor.traverse (fun _ => true) visit () (.start tree)

/-- The kind of a source whose tree fits a dialect, or the first reason why it does not. -/
def fit (source : Text) (dialect : Dialect) (options : ParseOptions) (tree : Tree) :
    Except Diagnostic SourceKind :=
  if tree.root.hasError then
    let culprit := tree.syntaxError?.getD tree.root
    .error (.ofNode source culprit (.ofSyntaxError culprit))
  else
    let sourceKind := tree.sourceKind options.sourceType
    (tree.fitFeatures source ⟨dialect, options, sourceKind⟩).map fun _ => sourceKind

end Tree

end Uncomment

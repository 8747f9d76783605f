import Uncomment.Dialect.Basic
import Uncomment.Text.Basic
import Uncomment.Tree.Basic

/-! # Diagnostics

A problem is a reason to refuse a source, and a diagnostic is a problem with its place. Lines count
from 1, columns are bytes and count from 0. -/

namespace Uncomment

inductive Problem
  | unexpectedToken
  /-- The parser had to supply a node of this kind. -/
  | missing (kind : String) (isNamed : Bool)
  /-- The syntax needs a plugin that the dialect lacks. -/
  | requires (plugin : Plugin)
  /-- A decorator needs one of the conventions for decorators. -/
  | requiresDecorators
  /-- A decorator stands after `export`, where the dialect wants it before. -/
  | decoratorAfterExport
  /-- A decorator stands before `export`, where the dialect wants it after. -/
  | decoratorBeforeExport
  /-- Syntax of static types that Flow lacks. -/
  | typescriptOnly (kind : String)
  | returnOutsideFunction
  | awaitOutsideFunction
  /-- An `import` or `export` in a source that is taken for a script. -/
  | moduleSyntaxInScript
  /-- An `import` or `export` below the top level. -/
  | nestedModuleSyntax
  /-- The parser gave up on the whole source. -/
  | noTree (grammar : Grammar)
  | other (words : String)
  deriving DecidableEq, Repr

namespace Problem

def message : Problem → String
  | .unexpectedToken => "Unexpected token"
  | .missing kind true => "Missing " ++ kind
  | .missing kind false => "Missing `" ++ kind ++ "`"
  | .requires plugin =>
      "Support for the experimental syntax '" ++ plugin.name ++ "' isn't currently enabled"
  | .requiresDecorators =>
      "This experimental syntax requires enabling one of the following parser plugin(s): " ++
        "\"decorators\", \"decorators-legacy\""
  | .decoratorAfterExport =>
      "Decorators must be placed *before* the 'export' keyword. " ++
        "You can set the 'decoratorsBeforeExport' option to false " ++
        "to use the 'export @decorator class \x7b\x7d' syntax"
  | .decoratorBeforeExport =>
      "Decorators must be placed *after* the 'export' keyword. " ++
        "You can set the 'decoratorsBeforeExport' option to true " ++
        "to use the '@decorator export class \x7b\x7d' syntax"
  | .typescriptOnly kind =>
      "Unexpected token, `" ++ kind ++ "` is TypeScript-only syntax"
  | .returnOutsideFunction => "'return' outside of function"
  | .awaitOutsideFunction =>
      "'await' is only allowed within async functions and at the top levels of modules"
  | .moduleSyntaxInScript =>
      "'import' and 'export' may appear only with 'sourceType: \"module\"'"
  | .nestedModuleSyntax => "'import' and 'export' may only appear at the top level"
  | .noTree grammar => "tree-sitter-" ++ grammar.name ++ " produced no tree"
  | .other words => words

def ofSyntaxError (node : Node) : Problem :=
  if node.isMissing then .missing node.kind node.isNamed else .unexpectedToken

end Problem

structure Diagnostic where
  problem : Problem
  offset : Nat
  line : Nat
  column : Nat
  deriving DecidableEq, Repr

namespace Diagnostic

def ofNode (source : Text) (node : Node) (problem : Problem) : Diagnostic :=
  let position := source.positionAt node.span.start
  { problem := problem
    offset := node.span.start
    line := position.line + 1
    column := position.column }

def ofWhole (problem : Problem) : Diagnostic :=
  { problem := problem, offset := 0, line := 1, column := 0 }

def display (diagnostic : Diagnostic) : String :=
  diagnostic.problem.message ++ " (" ++ toString diagnostic.line ++ ":" ++
    toString diagnostic.column ++ ")"

end Diagnostic

end Uncomment

import Uncomment.Resolution.Diagnostic
import Uncomment.Resolution.Options
import Uncomment.Tree.Basic

/-! # Features

The grammars accept more than a dialect or the options may allow. A feature is what a node uses
beyond the plain language, and `Feature.problem?` says whether it is refused. Which feature a node
uses depends on the tree alone. -/

namespace Uncomment

inductive Placement
  | beforeExport
  | afterExport
  /-- The class is not exported, or what is decorated is no class. -/
  | free
  deriving DecidableEq, Repr

namespace Placement

def all : List Placement :=
  [.beforeExport, .afterExport, .free]

theorem mem_all (placement : Placement) : placement ∈ all := by
  cases placement <;> decide

end Placement

inductive Feature
  | extension (plugin : Plugin)
  /-- A class field with a public name, which static types allow as well as class properties. -/
  | publicField
  | decorator (placement : Placement)
  /-- Syntax of static types that Flow lacks. -/
  | typescriptOnly (kind : String)
  | outerAwait
  | outerReturn
  | moduleSyntax (atTopLevel : Bool)
  deriving DecidableEq, Repr

/-! ## Kinds of node -/

namespace Node

def isClass (node : Node) : Bool :=
  ["class", "class_declaration", "abstract_class_declaration"].contains node.kind

def isFunction (node : Node) : Bool :=
  ["function_declaration", "function_expression", "function", "generator_function_declaration",
    "generator_function", "arrow_function", "method_definition"].contains node.kind

/-- Syntax that the typed grammars accept and Flow lacks. Some of its kinds are spelled like
keywords, and those are nodes without a name. -/
def isTypescriptOnly (node : Node) : Bool :=
  node.isNamed &&
    ["enum_declaration", "internal_module", "module", "accessibility_modifier",
      "abstract_class_declaration", "non_null_expression",
      "satisfies_expression"].contains node.kind

end Node

namespace Site

def isWithinFunction (site : Site) : Bool :=
  site.ancestors.any (·.root.isFunction)

/-- A decorator of an exported class is a child of the class when it follows `export`, and of the
export statement when it precedes it. -/
def decoratorPlacement (site : Site) : Placement :=
  match site.ancestors with
  | parent :: above =>
      if parent.kind = "export_statement" then
        .beforeExport
      else if parent.root.isClass &&
          above.head?.any (·.kind == "export_statement") then
        .afterExport
      else
        .free
  | [] => .free

def hasPrivateName (site : Site) : Bool :=
  ((site.tree.childInField? "property").or (site.tree.childInField? "name")).any
    (·.kind == "private_property_identifier")

def hasFieldOfKind (site : Site) (field kind : String) : Bool :=
  (site.tree.childInField? field).any (·.kind == kind)

/-! ## The feature of a node -/

def usedIf (condition : Bool) (feature : Feature) : Option Feature :=
  if condition then some feature else none

def objectSpread? (site : Site) : Option Feature :=
  usedIf (site.hasParentOfKind "object" || site.hasParentOfKind "object_pattern")
    (.extension .objectRestSpread)

def privateNamePlugin (site : Site) : Plugin :=
  if site.hasParentOfKind "method_definition" then .classPrivateMethods
  else .classPrivateProperties

def feature? (source : Text) (site : Site) : Option Feature :=
  let node := site.node
  if node.isTypescriptOnly then
    some (.typescriptOnly node.kind)
  else
    match node.kind with
    | "jsx_element" => some (.extension .jsx)
    | "jsx_self_closing_element" => some (.extension .jsx)
    | "decorator" => some (.decorator site.decoratorPlacement)
    | "field_definition" => usedIf (!site.hasPrivateName) .publicField
    | "public_field_definition" => usedIf (!site.hasPrivateName) .publicField
    | "private_property_identifier" => some (.extension site.privateNamePlugin)
    | "call_expression" =>
        usedIf (site.hasFieldOfKind "function" "import") (.extension .dynamicImport)
    | "catch_clause" =>
        usedIf (site.tree.childInField? "parameter").isNone (.extension .optionalCatchBinding)
    | "optional_chain" => some (.extension .optionalChaining)
    | "binary_expression" =>
        usedIf (site.hasFieldOfKind "operator" "??") (.extension .nullishCoalescingOperator)
    | "spread_element" => site.objectSpread?
    | "rest_pattern" => site.objectSpread?
    | "number" => usedIf ((node.text source).contains '_') (.extension .numericSeparator)
    | "meta_property" =>
        usedIf ("import".toList.isPrefixOf (node.text source)) (.extension .importMeta)
    | "await_expression" => usedIf (!site.isWithinFunction) .outerAwait
    | "return_statement" => usedIf (!site.isWithinFunction) .outerReturn
    | "import_statement" => some (.moduleSyntax (site.hasParentOfKind "program"))
    | "export_statement" => some (.moduleSyntax (site.hasParentOfKind "program"))
    | _ => none

end Site

/-! ## Refusals -/

structure Setting where
  dialect : Dialect
  options : ParseOptions
  sourceKind : SourceKind
  deriving DecidableEq

namespace Feature

def refuseUnless (allowed : Prop) [Decidable allowed] (problem : Problem) : Option Problem :=
  if allowed then none else some problem

def decoratorProblem? (dialect : Dialect) (placement : Placement) : Option Problem :=
  match dialect.decorators?, placement with
  | none, _ => some .requiresDecorators
  | some (.decorators true), .afterExport => some .decoratorAfterExport
  | some (.decorators false), .beforeExport => some .decoratorBeforeExport
  | some _, _ => none

def problem? (setting : Setting) : Feature → Option Problem
  | .extension plugin => refuseUnless (plugin ∈ setting.dialect) (.requires plugin)
  | .publicField =>
      refuseUnless (.typescript ∈ setting.dialect ∨ .classProperties ∈ setting.dialect)
        (.requires .classProperties)
  | .decorator placement => decoratorProblem? setting.dialect placement
  | .typescriptOnly kind =>
      refuseUnless (.typescript ∈ setting.dialect ∨ .flow ∉ setting.dialect) (.typescriptOnly kind)
  | .outerAwait =>
      refuseUnless (setting.options.allowAwaitOutsideFunction = true ∨
          (.topLevelAwait ∈ setting.dialect ∧ setting.sourceKind = .module))
        .awaitOutsideFunction
  | .outerReturn =>
      refuseUnless (setting.options.allowReturnOutsideFunction = true) .returnOutsideFunction
  | .moduleSyntax atTopLevel =>
      if setting.options.sourceType = .script then
        some .moduleSyntaxInScript
      else
        refuseUnless (atTopLevel = true ∨ setting.options.allowImportExportEverywhere = true)
          .nestedModuleSyntax

end Feature

def Site.problem? (source : Text) (setting : Setting) (site : Site) : Option Problem :=
  (site.feature? source).bind (·.problem? setting)

end Uncomment

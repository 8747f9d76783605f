/-! # Plugins

A plugin is a named extension of the language. -/

namespace Uncomment

inductive Plugin
  | jsx
  | typescript
  | flow
  | flowComments
  /-- Standard decorators, written before the `export` keyword of a class or after it. -/
  | decorators (beforeExport : Bool)
  | decoratorsLegacy
  | classProperties
  | classPrivateProperties
  | classPrivateMethods
  | dynamicImport
  | optionalCatchBinding
  | optionalChaining
  | nullishCoalescingOperator
  | objectRestSpread
  | topLevelAwait
  | throwExpressions
  | numericSeparator
  | importMeta
  | exportDefaultFrom
  | doExpressions
  | functionBind
  deriving DecidableEq, Repr

structure UnknownPlugin where
  name : String
  deriving DecidableEq, Repr

def UnknownPlugin.message (unknown : UnknownPlugin) : String :=
  "unknown parser plugin: " ++ unknown.name

namespace Plugin

/-! ## Names -/

def name : Plugin → String
  -- The two placements of decorators share a name.
  | .jsx => "jsx"
  | .typescript => "typescript"
  | .flow => "flow"
  | .flowComments => "flowComments"
  | .decorators _ => "decorators"
  | .decoratorsLegacy => "decorators-legacy"
  | .classProperties => "classProperties"
  | .classPrivateProperties => "classPrivateProperties"
  | .classPrivateMethods => "classPrivateMethods"
  | .dynamicImport => "dynamicImport"
  | .optionalCatchBinding => "optionalCatchBinding"
  | .optionalChaining => "optionalChaining"
  | .nullishCoalescingOperator => "nullishCoalescingOperator"
  | .objectRestSpread => "objectRestSpread"
  | .topLevelAwait => "topLevelAwait"
  | .throwExpressions => "throwExpressions"
  | .numericSeparator => "numericSeparator"
  | .importMeta => "importMeta"
  | .exportDefaultFrom => "exportDefaultFrom"
  | .doExpressions => "doExpressions"
  | .functionBind => "functionBind"

/-- The plugin that a name selects. The canonical name of decorators selects those before `export`;
`decorators-after-export` selects the others. -/
def ofName : String → Except UnknownPlugin Plugin
  | "jsx" => .ok .jsx
  | "typescript" => .ok .typescript
  | "flow" => .ok .flow
  | "flowComments" => .ok .flowComments
  | "decorators" => .ok (.decorators true)
  | "decorators-after-export" => .ok (.decorators false)
  | "decorators-legacy" => .ok .decoratorsLegacy
  | "classProperties" => .ok .classProperties
  | "classPrivateProperties" => .ok .classPrivateProperties
  | "classPrivateMethods" => .ok .classPrivateMethods
  | "dynamicImport" => .ok .dynamicImport
  | "optionalCatchBinding" => .ok .optionalCatchBinding
  | "optionalChaining" => .ok .optionalChaining
  | "nullishCoalescingOperator" => .ok .nullishCoalescingOperator
  | "objectRestSpread" => .ok .objectRestSpread
  | "topLevelAwait" => .ok .topLevelAwait
  | "throwExpressions" => .ok .throwExpressions
  | "numericSeparator" => .ok .numericSeparator
  | "importMeta" => .ok .importMeta
  | "exportDefaultFrom" => .ok .exportDefaultFrom
  | "doExpressions" => .ok .doExpressions
  | "functionBind" => .ok .functionBind
  | other => .error ⟨other⟩

/-! ## Kinds of plugin -/

def common : List Plugin :=
  [.classProperties, .classPrivateProperties, .classPrivateMethods, .dynamicImport,
    .optionalCatchBinding, .optionalChaining, .nullishCoalescingOperator, .objectRestSpread,
    .topLevelAwait, .throwExpressions, .numericSeparator, .importMeta, .exportDefaultFrom,
    .doExpressions, .functionBind]

def isCommon (plugin : Plugin) : Bool :=
  common.contains plugin

def isDecorators : Plugin → Bool
  | .decorators _ => true
  | .decoratorsLegacy => true
  | _ => false

/-- Two plugins can stand in one dialect when they differ and are not both decorator conventions. -/
def Compatible (first second : Plugin) : Prop :=
  first ≠ second ∧ ¬(first.isDecorators ∧ second.isDecorators)

instance (first second : Plugin) : Decidable (Compatible first second) :=
  inferInstanceAs (Decidable (_ ∧ _))

end Plugin

end Uncomment

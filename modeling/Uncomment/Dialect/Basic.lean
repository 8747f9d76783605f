import Uncomment.Dialect.Plugin
import Uncomment.Grammar

/-! # Dialects

A dialect is an ordered set of plugins with at most one convention for decorators. The default
dialects are the ones a search tries, in order. -/

namespace Uncomment

/-- An ordered set of plugins, any two of them compatible. -/
structure Dialect where
  plugins : List Plugin
  compatible : plugins.Pairwise Plugin.Compatible
  deriving DecidableEq

namespace Dialect

/-! ## Building dialects -/

def empty : Dialect where
  plugins := []
  compatible := .nil

def insert (dialect : Dialect) (plugin : Plugin) : Dialect :=
  if fits : ∀ present ∈ dialect.plugins, present.Compatible plugin then
    { plugins := dialect.plugins ++ [plugin]
      compatible := by
        refine List.pairwise_append.mpr ⟨dialect.compatible, List.pairwise_singleton _ _, ?_⟩
        intro present member added isAdded
        rw [List.mem_singleton] at isAdded
        exact isAdded ▸ fits present member }
  else
    dialect

/-- The first occurrence of every plugin of a list, and of its decorator conventions the first. -/
def ofList (plugins : List Plugin) : Dialect :=
  plugins.foldl insert empty

def ofNames (names : List String) : Except UnknownPlugin Dialect :=
  (names.mapM Plugin.ofName).map ofList

example : (ofList [.jsx, .decoratorsLegacy, .jsx, .decorators true]).plugins =
    [.jsx, .decoratorsLegacy] := by decide

/-! ## Reading dialects -/

instance : Membership Plugin Dialect where
  mem dialect plugin := plugin ∈ dialect.plugins

instance (plugin : Plugin) (dialect : Dialect) : Decidable (plugin ∈ dialect) :=
  inferInstanceAs (Decidable (plugin ∈ dialect.plugins))

def decorators? (dialect : Dialect) : Option Plugin :=
  dialect.plugins.find? (·.isDecorators)

def grammar (dialect : Dialect) : Grammar :=
  -- The untyped grammar always reads markup.
  if .typescript ∈ dialect ∨ .flow ∈ dialect then
    if .jsx ∈ dialect then .tsx else .typescript
  else
    .javascript

def name (dialect : Dialect) : String :=
  match dialect.plugins.filter (fun plugin => !plugin.isCommon) with
  | [] => "base"
  | special => "+".intercalate (special.map Plugin.name)

/-! ## The default search -/

def defaultLanguages : List (List Plugin) :=
  [[.jsx, .typescript], [.jsx, .flow, .flowComments], [.jsx], []]

def defaultDecorators : List Plugin :=
  [.decorators true, .decoratorsLegacy]

/-- The nine dialects of the default search: every convention for decorators with every language
extension and the common plugins, and at last the common plugins alone. -/
def defaults : List Dialect :=
  (defaultDecorators.flatMap fun decorators =>
    defaultLanguages.map fun language => ofList (decorators :: language ++ Plugin.common)) ++
  [ofList Plugin.common]

example : defaults.length = 9 := by decide

end Dialect

end Uncomment

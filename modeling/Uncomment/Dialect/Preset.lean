import Uncomment.Dialect.Basic

/-! # Presets

A preset is a dialect with a short name, to be chosen by hand in place of the default search. -/

namespace Uncomment

inductive Preset
  | typescript
  | flow
  | jsx
  | plain
  | minimal
  deriving DecidableEq, Repr

namespace Preset

def all : List Preset :=
  [.typescript, .flow, .jsx, .plain, .minimal]

def name : Preset → String
  | .typescript => "typescript"
  | .flow => "flow"
  | .jsx => "jsx"
  | .plain => "plain"
  | .minimal => "minimal"

def ofName? (name : String) : Option Preset :=
  all.find? (·.name == name)

def language : Preset → List Plugin
  | .typescript => [.jsx, .typescript]
  | .flow => [.jsx, .flow, .flowComments]
  | .jsx => [.jsx]
  | .plain => []
  | .minimal => []

def decorators (preset : Preset) (legacy : Bool) : List Plugin :=
  if preset = .minimal then []
  else if legacy then [.decoratorsLegacy]
  else [.decorators true]

def dialect (preset : Preset) (legacy : Bool) : Dialect :=
  .ofList (preset.decorators legacy ++ preset.language ++ Plugin.common)

example : (dialect .flow true).name = "decorators-legacy+jsx+flow+flowComments" := by
  decide +kernel

end Preset

end Uncomment

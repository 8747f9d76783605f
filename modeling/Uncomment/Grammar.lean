/-! # Grammars

The three grammars that host every dialect. -/

namespace Uncomment

inductive Grammar
  /-- The script grammar, which always reads markup. -/
  | javascript
  /-- The typed grammar without markup. -/
  | typescript
  /-- The typed grammar with markup. -/
  | tsx
  deriving DecidableEq, Repr

namespace Grammar

def all : List Grammar :=
  [.javascript, .typescript, .tsx]

def name : Grammar → String
  | .javascript => "javascript"
  | .typescript => "typescript"
  | .tsx => "tsx"

def ofName? (name : String) : Option Grammar :=
  all.find? (·.name == name)

theorem mem_all (grammar : Grammar) : grammar ∈ all := by
  cases grammar <;> decide

end Grammar

end Uncomment

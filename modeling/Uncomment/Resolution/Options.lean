/-! # Parse options

What a source is taken for, and which constructs are tolerated outside their usual place. -/

namespace Uncomment

inductive SourceType
  | module
  | script
  /-- A module if an `import` or `export` stands at its top level, and else a script. -/
  | unambiguous
  deriving DecidableEq, Repr

inductive SourceKind
  | module
  | script
  deriving DecidableEq, Repr

def SourceKind.name : SourceKind → String
  | .module => "Module"
  | .script => "Script"

structure ParseOptions where
  sourceType : SourceType := .unambiguous
  allowAwaitOutsideFunction : Bool := true
  allowReturnOutsideFunction : Bool := true
  allowImportExportEverywhere : Bool := true
  deriving DecidableEq, Repr

inductive FailureChoice
  | last
  /-- The one that failed furthest into the source. -/
  | furthest
  deriving DecidableEq, Repr

end Uncomment

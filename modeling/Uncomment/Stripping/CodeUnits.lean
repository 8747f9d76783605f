import Uncomment.Json.Basic
import Uncomment.Stripping.SourceMap
import Uncomment.Text.CodeUnits

/-! # Stripping for script callers

Script callers index texts by UTF-16 code units and hand over their options as a JSON object. -/

namespace Uncomment

/-! ## Results in code units -/

structure ScriptResult where
  code : Text
  commentCount : Nat
  removedUnits : Nat
  removed : List Span
  deriving DecidableEq, Repr

namespace ScriptResult

def convertSpans (source : Text) : OffsetConverter → List Span → List Span
  | _, [] => []
  | converter, span :: later =>
      let (start, converter) := converter.convert source span.start
      let (stop, converter) := converter.convert source span.stop
      ⟨start, stop⟩ :: convertSpans source converter later

def ofStripped (source : Text) (stripped : Stripped) : ScriptResult :=
  let removed := convertSpans source .start stripped.removed
  { code := stripped.code
    commentCount := stripped.commentCount
    removedUnits := Span.totalLength removed
    removed := removed }

end ScriptResult

/-! ## Options -/

structure ScriptOptions where
  filename : Option String := none
  /-- The names of the plugins of the only dialect to try. -/
  dialect : Option (List String) := none
  reportFurthestError : Option Bool := none
  deriving DecidableEq, Repr

inductive ScriptOptionsError
  | wrongType
  | unknownPlugin (unknown : UnknownPlugin)
  deriving DecidableEq, Repr

namespace ScriptOptions

def readMember (options : Json) (name : String) (read : Json → Option α) :
    Except ScriptOptionsError (Option α) :=
  match options.member? name with
  | none => .ok none
  | some value =>
      match read value with
      | some result => .ok (some result)
      | none => .error .wrongType

/-- The options that a JSON value holds. A member that is null counts as missing, and so does the
whole value; members of other names are ignored. -/
def ofJson : Json → Except ScriptOptionsError ScriptOptions
  | .null => .ok {}
  | .object members => do
      let options := Json.object members
      return {
        filename := ← readMember options "filename" Json.string?
        dialect := ← readMember options "dialect" fun value =>
          value.array?.bind fun names => names.mapM Json.string?
        reportFurthestError := ← readMember options "reportFurthestError" Json.boolean? }
  | _ => .error .wrongType

def toStripOptions (options : ScriptOptions) : Except ScriptOptionsError StripOptions := do
  let dialect ← match options.dialect with
    | some names => ((Dialect.ofNames names).map some).mapError .unknownPlugin
    | none => .ok none
  return {
    filename := options.filename
    dialect := dialect
    failureChoice := if options.reportFurthestError.getD false then .furthest else .last }

end ScriptOptions

end Uncomment

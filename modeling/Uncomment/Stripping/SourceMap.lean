import Uncomment.SourceMap.Basic
import Uncomment.Stripping.Basic

/-! # Stripping with a source map -/

namespace Uncomment

structure StrippedWithMap where
  stripped : Stripped
  sourceMap : String
  deriving DecidableEq, Repr

def Stripped.sourceMap (stripped : Stripped) (sourceName : String) (source : Text) : String :=
  SourceMap.render sourceName source stripped.code stripped.removed

def stripWithMap (parse : Parser) (source : Text) (options : StripOptions) :
    Except StripFailure StrippedWithMap :=
  (strip parse source options).map fun stripped =>
    ⟨stripped, stripped.sourceMap options.sourceName source⟩

end Uncomment

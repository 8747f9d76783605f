import Uncomment.Json.Printer
import Uncomment.SourceMap.Anchor
import Uncomment.SourceMap.Vlq

/-! # Source maps

A source map of version 3 with one source. Its mappings list the anchors: a semicolon for each line
step of the output and a comma between anchors of one line. Each anchor is written as four
quantities: the output column, counted from the previous anchor of the line, the number of the
source, and the source line and column, both counted from the previous anchor. -/

namespace Uncomment

namespace SourceMap

/-! ## Mappings -/

def origin : Anchor := ⟨0, 0, 0, 0⟩

def encodeAnchor (previous anchor : Anchor) : Text :=
  -- The only source has number 0, so its number never changes.
  Vlq.encode ((anchor.outputColumn : Int) - previous.outputColumn) ++
    Vlq.encode 0 ++
    Vlq.encode ((anchor.sourceLine : Int) - previous.sourceLine) ++
    Vlq.encode ((anchor.sourceColumn : Int) - previous.sourceColumn)

def encodeOnNewLine (previous anchor : Anchor) : Text :=
  List.replicate (anchor.outputLine - previous.outputLine) ';' ++
    encodeAnchor { previous with outputColumn := 0 } anchor

/-- The anchors that follow `previous`. One that is equal to the one before it is not written. -/
def encodeAfter (previous : Anchor) : List Anchor → Text
  | [] => []
  | anchor :: later =>
      if anchor.outputLine ≠ previous.outputLine then
        encodeOnNewLine previous anchor ++ encodeAfter anchor later
      else if anchor = previous then
        encodeAfter anchor later
      else
        ',' :: (encodeAnchor previous anchor ++ encodeAfter anchor later)

def mappings : List Anchor → Text
  | [] => []
  | anchor :: later => encodeOnNewLine origin anchor ++ encodeAfter anchor later

example : mappings [⟨0, 2, 0, 9⟩, ⟨1, 0, 1, 4⟩] = "EAAS;AACL".toList := by cbv

/-! ## Documents -/

def document (sourceName : String) (source output : Text) (removed : List Span) : Json :=
  .object [
    ("version", .number 3),
    ("sources", .array [.string sourceName]),
    ("sourcesContent", .array [.string (String.ofList source)]),
    ("names", .array []),
    ("mappings", .string (String.ofList (mappings (anchors source output removed))))]

def render (sourceName : String) (source output : Text) (removed : List Span) : String :=
  (document sourceName source output removed).compact

end SourceMap

end Uncomment

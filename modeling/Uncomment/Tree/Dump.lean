import Uncomment.Text.Utf8
import Uncomment.Tree.Cursor

/-! # Printing trees

A dump has one line per node, in document order and indented by depth. -/

namespace Uncomment

namespace Tree

/-! ## Dumps -/

def escapeLineFeeds (text : Text) : Text :=
  text.flatMap fun character => if character = '\n' then ['\\', 'n'] else [character]

def dumpWidth : Nat := 80

def dumpText (source : Text) (span : Span) : Text :=
  match source.slice? span.start span.stop with
  | some text => (escapeLineFeeds text).takeBytes dumpWidth
  | none => "<non-utf8>".toList

/-- The line of a node: two blanks for each level, the kind, the span, the position counted from
line 1, and the text. -/
def dumpLine (source : Text) (level : Int) (node : Node) : String :=
  let position := source.positionAt node.span.start
  "".pushn ' ' (2 * level.toNat) ++ node.kind ++ " [" ++ node.span.display ++ "] (" ++
    toString (position.line + 1) ++ ":" ++ toString position.column ++ ") \"" ++
    String.ofList (dumpText source node.span) ++ "\""

def dump (source : Text) (tree : Tree) : List String :=
  let visit (lines : List String) (cursor : Cursor) : Except Empty (List String) :=
    .ok (lines ++ [dumpLine source cursor.level cursor.tree.root])
  match Cursor.traverse (fun _ => true) visit [] (.start tree) with
  | .ok lines => lines

end Tree

end Uncomment

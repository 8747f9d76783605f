import Uncomment.Tree.Cursor

/-! # Comments

The comment tokens of a tree. -/

namespace Uncomment

inductive CommentKind
  /-- From two slashes to the end of the line. -/
  | line
  /-- Between a slash with a star and a star with a slash. -/
  | block
  /-- From an HTML comment mark at the start of a line to its end. -/
  | html
  /-- Inside the braces of a markup expression. -/
  | markup
  deriving DecidableEq, Repr

def CommentKind.name : CommentKind → String
  | .line => "Line"
  | .block => "Block"
  | .html => "Html"
  | .markup => "Markup"

structure Comment where
  kind : CommentKind
  span : Span
  deriving DecidableEq, Repr

namespace Site

def comment? (source : Text) (site : Site) : Option Comment :=
  let span := site.node.span
  match site.kind with
  | "html_comment" => some ⟨.html, span⟩
  | "comment" =>
      if site.hasParentOfKind "jsx_expression" then
        some ⟨.markup, span⟩
      else if ['/', '/'].isPrefixOf (source.dropBytes span.start) then
        some ⟨.line, span⟩
      else
        some ⟨.block, span⟩
  | _ => none

end Site

def Tree.comments (source : Text) (tree : Tree) : List Comment :=
  let visit (comments : List Comment) (cursor : Cursor) : Except Empty (List Comment) :=
    .ok (comments ++ (cursor.site.comment? source).toList)
  match Cursor.traverse (fun _ => true) visit [] (.start tree) with
  | .ok comments => comments

end Uncomment

import Uncomment.Proofs.Await
import Uncomment.Proofs.Layout

/-! # Kinds of comments

A comment is described as markup when it is all that stands between the braces of a markup
expression. The comments of a tree are listed as described but for this: one that shares the braces
with something else is listed as markup too. -/

namespace Uncomment

/-! ## Two slashes -/

namespace Text

def beginsLineComment (text : Text) : Bool :=
  ['/', '/'].isPrefixOf text

theorem beginsLineComment_cons (character : Char) (rest : Text) :
    beginsLineComment (character :: rest) = true ↔ character = '/' ∧ rest.head? = some '/' := by
  cases rest with
  | nil => simp [beginsLineComment, List.isPrefixOf]
  | cons next later =>
      simp only [beginsLineComment, List.isPrefixOf, Bool.and_true, Bool.and_eq_true, beq_iff_eq,
        List.head?_cons, Option.some.injEq]
      exact and_congr eq_comm eq_comm

private theorem head?_takeBytes_eq_slash (text : Text) (bytes : Nat) :
    (text.takeBytes bytes).head? = some '/' ↔ text.head? = some '/' ∧ 1 ≤ bytes := by
  cases text with
  | nil => simp [takeBytes]
  | cons character rest =>
      have positive := character.utf8Size_pos
      rw [takeBytes]
      by_cases fits : character.utf8Size ≤ bytes
      · have reached : 1 ≤ bytes := by omega
        simp [fits, reached]
      · rw [if_neg fits]
        simp only [List.head?_nil, List.head?_cons, reduceCtorEq, Option.some.injEq, false_iff]
        rintro ⟨rfl, reached⟩
        exact fits reached

/-- Two slashes at a position are part of every slice from there that has two bytes. -/
theorem beginsLineComment_slice (text : Text) (start stop : Nat) :
    (text.slice start stop).beginsLineComment = true ↔
      (text.dropBytes start).beginsLineComment = true ∧ start + 2 ≤ stop := by
  induction text generalizing start stop with
  | nil => simp [slice, takeBytes, dropBytes, beginsLineComment]
  | cons character rest induction =>
      have positive := character.utf8Size_pos
      rw [slice, takeBytes]
      by_cases behind : character.utf8Size ≤ start
      · -- The character lies before both ends, or the slice ends before it begins.
        rw [dropBytes, if_pos behind]
        by_cases reached : character.utf8Size ≤ stop
        · have shifted := induction (start - character.utf8Size) (stop - character.utf8Size)
          rw [if_pos reached, dropBytes, if_pos behind, ← slice, shifted]
          refine and_congr_right fun _ => ?_
          omega
        · rw [if_neg reached]
          simp only [dropBytes, beginsLineComment, List.isPrefixOf, Bool.false_eq_true, false_iff]
          omega
      · rw [dropBytes.eq_def (character :: rest)]
        simp only [if_neg behind]
        rw [beginsLineComment_cons]
        by_cases reached : character.utf8Size ≤ stop
        · rw [if_pos reached, dropBytes, if_neg behind, beginsLineComment_cons,
            head?_takeBytes_eq_slash]
          constructor
          · rintro ⟨rfl, begins, further⟩
            have size : ('/' : Char).utf8Size = 1 := rfl
            exact ⟨⟨rfl, begins⟩, by omega⟩
          · rintro ⟨⟨rfl, begins⟩, further⟩
            have size : ('/' : Char).utf8Size = 1 := rfl
            exact ⟨rfl, begins, by omega⟩
        · rw [if_neg reached]
          simp only [dropBytes, beginsLineComment, List.isPrefixOf, Bool.false_eq_true, false_iff]
          rintro ⟨⟨rfl, -⟩, further⟩
          have size : ('/' : Char).utf8Size = 1 := rfl
          omega

end Text

/-! ## Described kinds -/

def CommentKind.decided (isHtml inMarkup beginsLine : Bool) : CommentKind :=
  if isHtml then .html
  else if inMarkup then .markup
  else if beginsLine then .line
  else .block

/-- A token that is judged by narrower tests keeps its kind when each test that decided on it still
holds. -/
theorem CommentKind.decided_eq_iff {inMarkup alone begins textBegins : Bool}
    (narrower : alone = true → inMarkup = true) (shorter : textBegins = true → begins = true) :
    decided false inMarkup begins = decided false alone textBegins ↔
      (inMarkup = true → alone = true) ∧
        (inMarkup = false → begins = true → textBegins = true) := by
  revert narrower shorter
  cases inMarkup <;> cases alone <;> cases begins <;> cases textBegins <;> decide

namespace Site

def inMarkup (site : Site) : Bool :=
  site.hasParentOfKind "jsx_expression"

/-- The children of the parent, a markup expression, are two braces and the site's tree between
them. -/
def isSoleContent (site : Site) : Bool :=
  site.inMarkup && site.parent?.any fun parent =>
    match parent.children with
    | [opening, content, closing] =>
        opening.kind == "\x7b" && content = site.tree && closing.kind == "\x7d"
    | _ => false

def listedComment (source : Text) (site : Site) : Comment where
  kind := .decided (site.kind == "html_comment") site.inMarkup
    (source.dropBytes site.node.span.start).beginsLineComment
  span := site.node.span

def describedComment (source : Text) (site : Site) : Comment where
  kind := .decided (site.kind == "html_comment") site.isSoleContent
    (site.node.text source).beginsLineComment
  span := site.node.span

theorem isComment_iff (site : Site) :
    site.node.isComment = true ↔ site.kind = "comment" ∨ site.kind = "html_comment" := by
  rw [Node.isComment, Bool.or_eq_true, beq_iff_eq, beq_iff_eq]
  rfl

theorem comment?_eq (source : Text) (site : Site) :
    site.comment? source =
      if site.node.isComment then some (site.listedComment source) else none := by
  simp only [isComment_iff]
  rw [comment?, listedComment]
  by_cases html : site.kind = "html_comment"
  · simp [html, CommentKind.decided]
  by_cases comment : site.kind = "comment"
  · have isComment : site.kind = "comment" ∨ site.kind = "html_comment" := .inl comment
    have notHtml : ("comment" == "html_comment") = false := by decide
    rw [if_pos isComment, comment, notHtml, inMarkup, Text.beginsLineComment]
    cases site.hasParentOfKind "jsx_expression" with
    | true => rfl
    | false => cases List.isPrefixOf ['/', '/'] (source.dropBytes site.node.span.start) <;> rfl
  · simp [html, comment]

theorem inMarkup_of_isSoleContent {site : Site} (sole : site.isSoleContent = true) :
    site.inMarkup = true :=
  (Bool.and_eq_true_iff.mp sole).1

/-- A comment is listed as described unless it shares the braces with something else, or is too
short for the slashes it stands at. -/
theorem listedComment_eq_iff (source : Text) (site : Site) :
    site.listedComment source = site.describedComment source ↔
      site.kind ≠ "html_comment" →
        (site.inMarkup = true → site.isSoleContent = true) ∧
        (site.inMarkup = false →
          (source.dropBytes site.node.span.start).beginsLineComment = true →
            site.node.span.start + 2 ≤ site.node.span.stop) := by
  have slice := Text.beginsLineComment_slice source site.node.span.start site.node.span.stop
  rw [← Node.text] at slice
  rw [listedComment, describedComment, Comment.mk.injEq, and_iff_left rfl]
  by_cases html : site.kind = "html_comment"
  · rw [html]
    exact ⟨fun _ other => absurd rfl other, fun _ => rfl⟩
  · rw [beq_false_of_ne html, CommentKind.decided_eq_iff inMarkup_of_isSoleContent
      fun begins => (slice.mp begins).1, forall_prop_of_true html]
    refine and_congr_right fun _ => forall_congr' fun _ => forall_congr' fun begins => ?_
    rw [slice, and_iff_right begins]

end Site

/-! ## Lists of comments -/

namespace Tree

def commentSites (tree : Tree) : List Site :=
  tree.sites.filter (·.node.isComment)

theorem comments_eq_map (source : Text) (tree : Tree) :
    tree.comments source = tree.commentSites.map (Site.listedComment source) := by
  rw [comments_eq, commentSites]
  induction tree.sites with
  | nil => rfl
  | cons site later induction =>
      rw [List.filterMap_cons, Site.comment?_eq, List.filter_cons, induction]
      cases site.node.isComment <;> rfl

/-- The comments of a tree are its nodes of the two kinds of comment, each once and in document
order. They have the kinds they are described with exactly when every comment in markup is the sole
content of its braces, and every other one that stands at two slashes has at least their two
bytes. -/
theorem comments_as_described_iff (source : Text) (tree : Tree) :
    tree.comments source = tree.commentSites.map (Site.listedComment source) ∧
    (tree.comments source = tree.commentSites.map (Site.describedComment source) ↔
      ∀ site ∈ tree.sites, site.kind = "comment" →
        (site.inMarkup = true → site.isSoleContent = true) ∧
        (site.inMarkup = false →
          (source.dropBytes site.node.span.start).beginsLineComment = true →
            site.node.span.start + 2 ≤ site.node.span.stop)) := by
  refine ⟨comments_eq_map source tree, ?_⟩
  rw [comments_eq_map, List.map_inj_left]
  simp only [Site.listedComment_eq_iff, commentSites, List.mem_filter, Site.isComment_iff]
  constructor
  · intro alike site member comment
    exact alike site ⟨member, .inl comment⟩ (by rw [comment]; decide)
  · rintro alike site ⟨member, comment | html⟩ notHtml
    · exact alike site member comment
    · exact absurd html notHtml

def trailedSource : Text :=
  "<a>\x7bx /* trailing */\x7d</a>;\n".toList

def trailedTree : Tree :=
  .plain "program" 0 27 [
    .plain "expression_statement" 0 26 [
      .plain "jsx_element" 0 25 [
        .plain "jsx_opening_element" 0 3 [.token "<" 0, .plain "identifier" 1 2 [], .token ">" 2],
        .plain "jsx_expression" 3 21 [
          .token "\x7b" 3, .plain "identifier" 4 5 [], .plain "comment" 6 20 [],
          .token "\x7d" 20],
        .plain "jsx_closing_element" 21 25 [
          .token "</" 21, .plain "identifier" 23 24 [], .token ">" 24]],
      .token ";" 25]]

/-- A comment that is not alone in markup is described as a block and listed as markup. -/
theorem comments_trailedTree :
    trailedTree.commentSites.map (Site.describedComment trailedSource) = [⟨.block, ⟨6, 20⟩⟩] ∧
      trailedTree.comments trailedSource = [⟨.markup, ⟨6, 20⟩⟩] := by
  constructor
  · decide
  · rw [comments_eq_map]
    decide

end Tree

end Uncomment

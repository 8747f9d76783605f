import Uncomment.Proofs.Layout
import Uncomment.Proofs.Search
import Uncomment.Stripping.Basic

/-! # Stripping removes the comments

Whatever a source is stripped of are the comments of its tree, and everything else stays. -/

namespace Uncomment

/-! ## Cutting nothing -/

theorem Span.totalLength_eq_zero_iff {spans : List Span}
    (proper : ∀ span ∈ spans, span.start < span.stop) :
    totalLength spans = 0 ↔ spans = [] := by
  cases spans with
  | nil => simp [totalLength]
  | cons span later =>
      have positive := proper span List.mem_cons_self
      simp only [totalLength, length, reduceCtorEq, iff_false]
      omega

namespace Text

theorem remainder_eq_iff (text : Text) (spans : List Span) :
    (text.erase spans).remainder = text ↔ (text.erase spans).removed = [] := by
  have cuts := erase_cuts text spans
  constructor
  · intro same
    have proper : ∀ span ∈ (text.erase spans).removed, span.start < span.stop := by
      intro span member
      rw [erase, ← Span.map_chosen] at member
      rcases List.mem_map.mp member with ⟨occurrence, selected, rfl⟩
      exact (Span.valid_of_mem_chosen selected).proper
    have lengths := cuts.byteLength_add
    rw [same] at lengths
    exact (Span.totalLength_eq_zero_iff proper).mp (by omega)
  · intro nothing
    rw [nothing] at cuts
    generalize (text.erase spans).remainder = remainder at cuts ⊢
    cases cuts
    rfl

end Text

namespace Stripped

def byErasure (source : Text) (comments : List Comment) : Stripped :=
  let erasure := source.erase (Span.sort (comments.map (·.span)))
  { code := erasure.remainder
    commentCount := comments.length
    removedBytes := erasure.removedBytes
    removed := erasure.removed }

theorem ofComments_eq_byErasure (source : Text) (comments : List Comment) :
    ofComments source comments = byErasure source comments := by
  cases comments with
  | nil =>
      have nothing : (source.erase (Span.sort [])).removed = [] := by
        simp [Text.erase, Span.select, Span.sort, Span.sortByStart, Span.selectFrom]
      rw [byErasure, List.map_nil, (Text.remainder_eq_iff _ _).mpr nothing,
        Erasure.removedBytes, nothing]
      rfl
  | cons comment later => rfl

end Stripped

variable {parse : Parser} {source : Text} {options : StripOptions} {stripped : Stripped}

theorem exists_find_of_strip (succeeds : strip parse source options = .ok stripped) :
    ∃ resolution, Resolution.find parse source options.dialect options.parse = .ok resolution ∧
      stripped = .byErasure source resolution.comments := by
  rw [strip] at succeeds
  cases found : Resolution.find parse source options.dialect options.parse with
  | error cause =>
      rw [found] at succeeds
      cases succeeds
  | ok resolution =>
      rw [found] at succeeds
      refine ⟨resolution, rfl, ?_⟩
      rw [← Stripped.ofComments_eq_byErasure]
      exact (Except.ok.inj succeeds).symm

def Parser.Nests (parse : Parser) (source : Text) : Prop :=
  ∀ grammar tree, parse source grammar = some tree → tree.NestsIn source

theorem strip_of_fit {dialect : Dialect} {tree : Tree} {sourceKind : SourceKind}
    (given : options.dialect = some dialect) (parsed : parse source dialect.grammar = some tree)
    (fits : tree.fit source dialect options.parse = .ok sourceKind) :
    strip parse source options = .ok (.byErasure source (tree.comments source)) := by
  rw [← Stripped.ofComments_eq_byErasure, strip, given, Resolution.find_some_of_fit parsed fits]

/-- Stripping removes exactly the comments of the tree that fits. -/
theorem strip_removes_comments (parse : Parser) (source : Text) (options : StripOptions)
    (stripped : Stripped) (nests : parse.Nests source)
    (succeeds : strip parse source options = .ok stripped) :
    ∃ resolution, Resolution.find parse source options.dialect options.parse = .ok resolution ∧
      parse source resolution.dialect.grammar = some resolution.tree ∧
      stripped.removed =
        resolution.tree.commentSpans.filter (fun span => span.start < span.stop) ∧
      stripped.code.encode = Bytes.outside source.encode resolution.tree.commentSpans ∧
      stripped.commentCount = resolution.tree.commentSpans.length ∧
      stripped.removedBytes = Span.totalLength stripped.removed ∧
      stripped.code.byteLength + stripped.removedBytes = source.byteLength ∧
      stripped = .byErasure source resolution.comments ∧
      (stripped.code = source ↔ stripped.removed = []) := by
  rcases exists_find_of_strip succeeds with ⟨resolution, found, rfl⟩
  rcases Resolution.parse_of_find found with ⟨parsed, comments⟩
  have arranged := Tree.arranged_commentSpans (nests _ _ parsed)
  have spans : resolution.comments.map (·.span) = resolution.tree.commentSpans := by
    rw [comments, Tree.map_span_comments]
  have sorted : Span.sort (resolution.comments.map (·.span)) = resolution.tree.commentSpans := by
    rw [spans, Span.sort_of_arranged arranged]
  have removed : (source.erase resolution.tree.commentSpans).removed =
      resolution.tree.commentSpans.filter fun span => span.start < span.stop :=
    Span.select_of_arranged arranged
  rw [Stripped.byErasure, sorted]
  refine ⟨resolution, found, parsed, removed, ?_, ?_, rfl, Text.byteLength_remainder_add _ _, ?_,
    Text.remainder_eq_iff _ _⟩
  · change (source.erase resolution.tree.commentSpans).remainder.encode = _
    rw [Text.encode_remainder, removed, Bytes.outside, Bytes.outside]
    simp only [Span.outside_filter_iff]
  · change resolution.comments.length = _
    rw [← spans, List.length_map]
  · rw [Stripped.byErasure, sorted]

def commentedSource : Text := ['é', '/', '*', 'x', '*', '/', '\n', '/', '/', 'y']

def commentedTree : Tree :=
  .node ⟨"program", true, false, false, false, ⟨0, 11⟩, []⟩ <| .ofList [
    .node ⟨"identifier", true, false, false, false, ⟨0, 2⟩, []⟩ .nil,
    .node ⟨"comment", true, false, false, false, ⟨2, 7⟩, []⟩ .nil,
    .node ⟨"html_comment", true, false, false, false, ⟨7, 7⟩, []⟩ .nil,
    .node ⟨"comment", true, false, false, false, ⟨8, 11⟩, []⟩ .nil]

theorem strip_commentedSource :
    Parser.Nests (fun _ _ => some commentedTree) commentedSource ∧
      strip (fun _ _ => some commentedTree) commentedSource { dialect := some .empty } =
        .ok ⟨['é', '\n'], 3, 8, [⟨2, 7⟩, ⟨8, 11⟩]⟩ ∧
      ∃ resolution, Resolution.find (fun _ _ => some commentedTree) commentedSource
          (some .empty) {} = .ok resolution ∧
        [⟨2, 7⟩, ⟨8, 11⟩] =
          resolution.tree.commentSpans.filter fun span => span.start < span.stop := by
  have nests : Parser.Nests (fun _ _ => some commentedTree) commentedSource := by
    intro grammar tree parsed
    cases parsed
    have boundaries : ∀ position ∈ [0, 2, 7, 8, 11],
        commentedSource.isBoundary position = true := by
      decide
    have length : commentedSource.byteLength = 11 := by decide
    simp only [List.forall_mem_cons] at boundaries
    simp [commentedTree, Tree.NestsIn, Forest.ofList, Forest.NestsBetween, Tree.root,
      Node.isComment, boundaries, length]
  have fits : commentedTree.fit commentedSource .empty {} = .ok .script := by
    rw [Tree.fit_eq_ok_iff]
    decide
  have comments : commentedTree.comments commentedSource =
      [⟨.block, ⟨2, 7⟩⟩, ⟨.html, ⟨7, 7⟩⟩, ⟨.line, ⟨8, 11⟩⟩] := by
    rw [Tree.comments_eq]
    decide
  have succeeds : strip (fun _ _ => some commentedTree) commentedSource
      { dialect := some .empty } = .ok ⟨['é', '\n'], 3, 8, [⟨2, 7⟩, ⟨8, 11⟩]⟩ := by
    have arranged := Tree.arranged_commentSpans (nests .javascript commentedTree rfl)
    have spans : [⟨2, 7⟩, ⟨7, 7⟩, ⟨8, 11⟩] = commentedTree.commentSpans := by decide
    rw [strip_of_fit rfl rfl fits, comments, Stripped.byErasure]
    simp only [List.map_cons, List.map_nil]
    rw [spans, Span.sort_of_arranged arranged, Text.erase, Span.select_of_arranged arranged]
    rfl
  rcases strip_removes_comments _ _ _ _ nests succeeds with ⟨resolution, found, _, removed, _⟩
  exact ⟨nests, succeeds, resolution, found, removed⟩

/-! ## A source that is one comment, and sources without any -/

def commentTree : Tree :=
  .node ⟨"program", true, false, false, false, ⟨0, 2⟩, []⟩ <| .ofList [
    .node ⟨"comment", true, false, false, false, ⟨0, 2⟩, []⟩ .nil]

def plainTree (source : Text) : Tree :=
  .node ⟨"program", true, false, false, false, ⟨0, source.byteLength⟩, []⟩ .nil

def slashesParser (source : Text) (_ : Grammar) : Option Tree :=
  if source = ['/', '/'] then some commentTree else some (plainTree source)

private theorem fit_commentTree (dialect : Dialect) :
    commentTree.fit ['/', '/'] dialect {} = .ok .script := by
  have featureless : ∀ site ∈ commentTree.sites, site.feature? ['/', '/'] = none := by decide
  rw [Tree.fit_eq_ok_iff]
  refine ⟨rfl, rfl, fun site member => ?_⟩
  rw [Site.problem?, featureless site member]
  rfl

theorem fit_plainTree (source : Text) (dialect : Dialect) :
    (plainTree source).fit source dialect {} = .ok .script := by
  rw [Tree.fit_eq_ok_iff]
  refine ⟨rfl, rfl, fun site member => ?_⟩
  rw [List.mem_singleton.mp member]
  rfl

theorem strip_slashes {dialect : Dialect} (given : options.dialect = some dialect)
    (parsed : parse ['/', '/'] dialect.grammar = some commentTree) (plain : options.parse = {}) :
    strip parse ['/', '/'] options = .ok ⟨[], 1, 2, [⟨0, 2⟩]⟩ := by
  have fits : commentTree.fit ['/', '/'] dialect options.parse = .ok .script := by
    rw [plain]
    exact fit_commentTree dialect
  have erased : Stripped.byErasure ['/', '/'] (commentTree.comments ['/', '/']) =
      ⟨[], 1, 2, [⟨0, 2⟩]⟩ := by
    rw [Tree.comments_eq]
    decide +kernel
  rw [strip_of_fit given parsed fits, erased]

theorem strip_plain {dialect : Dialect} (given : options.dialect = some dialect)
    (parsed : parse source dialect.grammar = some (plainTree source)) (plain : options.parse = {}) :
    strip parse source options = .ok ⟨source, 0, 0, []⟩ := by
  have fits : (plainTree source).fit source dialect options.parse = .ok .script := by
    rw [plain]
    exact fit_plainTree source dialect
  have bare : (plainTree source).comments source = [] := by
    rw [Tree.comments_eq]
    rfl
  rw [strip_of_fit given parsed fits, bare, ← Stripped.ofComments_eq_byErasure]
  rfl

end Uncomment

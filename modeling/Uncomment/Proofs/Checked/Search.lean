import Uncomment.Proofs.Checked.Basic
import Uncomment.Proofs.Checked.Bytes
import Uncomment.Proofs.Search

/-! # Searching with checked steps

A search reads bytes of the source at three kinds of node, a number, a meta property and a comment,
and keeps the parser's answers in numbered places. All that is asked of a tree is that its spans lie
in the source and are not reversed. -/

namespace Uncomment

/-! ## The algorithms -/

def Grammar.number : Grammar → Nat
  | .javascript => 0
  | .typescript => 1
  | .tsx => 2

abbrev ParseSlots := List (Option (Option Tree))

namespace ParseSlots

def empty : ParseSlots :=
  List.replicate Grammar.all.length none

def checkedAsk (parse : Parser) (source : Text) (grammar : Grammar) (slots : ParseSlots) :
    Checked (Option Tree × ParseSlots) := do
  match ← Checked.item slots grammar.number with
  | some answer => .ok (answer, slots)
  | none =>
      let answer := parse source grammar
      .ok (answer, slots.set grammar.number (some answer))

end ParseSlots

namespace Site

def checkedBytes (source : Text) (site : Site) : Checked Bytes :=
  Checked.slice source.encode site.node.span.start site.node.span.stop

def checkedFeature? (source : Text) (site : Site) : Checked (Option Feature) :=
  if site.kind = "number" then
    (site.checkedBytes source).map fun bytes =>
      usedIf (bytes.contains (Text.lowByte '_')) (.extension .numericSeparator)
  else if site.kind = "meta_property" then
    (site.checkedBytes source).map fun bytes =>
      usedIf (("import".toList.map Text.lowByte).isPrefixOf bytes) (.extension .importMeta)
  else
    .ok (site.feature? [])

def checkedRefusal? (source : Text) (setting : Setting) (site : Site) :
    Option (Fault ⊕ Diagnostic) :=
  match site.checkedFeature? source with
  | .error fault => some (.inl fault)
  | .ok feature? =>
      (feature?.bind (·.problem? setting)).map fun problem =>
        .inr (.ofNode source site.node problem)

def checkedComment? (source : Text) (site : Site) : Checked (Option Comment) :=
  let span := site.node.span
  if site.kind = "html_comment" then
    .ok (some ⟨.html, span⟩)
  else if site.kind = "comment" then
    if site.hasParentOfKind "jsx_expression" then
      .ok (some ⟨.markup, span⟩)
    else
      (Checked.slice source.encode span.start source.encode.length).map fun bytes =>
        let slashes := ['/', '/'].map Text.lowByte
        some ⟨if slashes.isPrefixOf bytes then .line else .block, span⟩
  else
    .ok none

end Site

namespace Tree

def checkedComments (source : Text) (tree : Tree) : Checked (List Comment) :=
  let visit (comments : List Comment) (cursor : Cursor) : Checked (List Comment) :=
    (cursor.site.checkedComment? source).map fun comment? => comments ++ comment?.toList
  Cursor.traverse (fun _ => true) visit [] (.start tree)

def checkedFitFeatures (source : Text) (setting : Setting) (tree : Tree) :
    Checked (Except Diagnostic Unit) :=
  let visit (_ : Unit) (cursor : Cursor) : Except (Fault ⊕ Diagnostic) Unit :=
    (cursor.site.checkedRefusal? source setting).elim (.ok ()) .error
  match Cursor.traverse (fun _ => true) visit () (.start tree) with
  | .ok () => .ok (.ok ())
  | .error (.inl fault) => .error fault
  | .error (.inr diagnostic) => .ok (.error diagnostic)

def checkedFit (source : Text) (dialect : Dialect) (options : ParseOptions) (tree : Tree) :
    Checked (Except Diagnostic SourceKind) :=
  if tree.root.hasError then
    let culprit := tree.syntaxError?.getD tree.root
    .ok (.error (.ofNode source culprit (.ofSyntaxError culprit)))
  else
    let sourceKind := tree.sourceKind options.sourceType
    (tree.checkedFitFeatures source ⟨dialect, options, sourceKind⟩).map fun fits =>
      fits.map fun _ => sourceKind

end Tree

namespace Resolution

def checkedAttempt (source : Text) (options : ParseOptions) (dialect : Dialect)
    (answer : Option Tree) : Checked (Except Attempt Resolution) :=
  match answer with
  | none => .ok (.error ⟨dialect, .ofWhole (.noTree dialect.grammar)⟩)
  | some tree => do
      match ← tree.checkedFit source dialect options with
      | .ok sourceKind =>
          let comments ← tree.checkedComments source
          .ok (.ok ⟨dialect, tree, sourceKind, comments⟩)
      | .error diagnostic => .ok (.error ⟨dialect, diagnostic⟩)

def checkedSearch (parse : Parser) (source : Text) (options : ParseOptions) (slots : ParseSlots)
    (failed : List Attempt) : List Dialect → Checked (Except SearchFailure Resolution)
  | [] => .ok (.error ⟨failed⟩)
  | dialect :: rest => do
      let (answer, slots) ← slots.checkedAsk parse source dialect.grammar
      match ← checkedAttempt source options dialect answer with
      | .ok resolved => .ok (.ok resolved)
      | .error failure => checkedSearch parse source options slots (failed ++ [failure]) rest

def checkedFind (parse : Parser) (source : Text) (dialect : Option Dialect)
    (options : ParseOptions) : Checked (Except SearchFailure Resolution) :=
  match dialect with
  | some dialect => checkedSearch parse source options .empty [] [dialect]
  | none => checkedSearch parse source options .empty [] Dialect.defaults

end Resolution

/-! ## Spans in bounds -/

def Span.LiesIn (source : Text) (span : Span) : Prop :=
  span.start ≤ span.stop ∧ span.stop ≤ source.byteLength

instance (source : Text) (span : Span) : Decidable (span.LiesIn source) :=
  inferInstanceAs (Decidable (span.start ≤ span.stop ∧ span.stop ≤ source.byteLength))

/-- The spans of a tree are not reversed and lie in the source, in whatever places. -/
def Tree.LiesIn (source : Text) (tree : Tree) : Prop :=
  ∀ site ∈ tree.sites, site.node.span.LiesIn source

instance (source : Text) (tree : Tree) : Decidable (tree.LiesIn source) :=
  inferInstanceAs (Decidable (∀ site ∈ tree.sites, site.node.span.LiesIn source))

def Parser.StaysIn (parse : Parser) (source : Text) : Prop :=
  ∀ grammar tree, parse source grammar = some tree → tree.LiesIn source

namespace Site

variable {source : Text} {site : Site}

theorem feature?_eq_of_kind (notNumber : site.kind ≠ "number")
    (notMeta : site.kind ≠ "meta_property") (source : Text) :
    site.feature? source = site.feature? [] := by
  rw [feature?, feature?]
  split
  · rfl
  · split <;> first | rfl | contradiction

private theorem feature?_of_number (number : site.kind = "number") (source : Text) :
    site.feature? source =
      usedIf ((site.node.text source).contains '_') (.extension .numericSeparator) := by
  have nodeKind : site.node.kind = "number" := number
  simp [feature?, Node.isTypescriptOnly, nodeKind]

private theorem feature?_of_metaProperty (isMeta : site.kind = "meta_property") (source : Text) :
    site.feature? source =
      usedIf ("import".toList.isPrefixOf (site.node.text source)) (.extension .importMeta) := by
  have nodeKind : site.node.kind = "meta_property" := isMeta
  simp [feature?, Node.isTypescriptOnly, nodeKind]

theorem checkedFeature?_eq (inside : site.node.span.LiesIn source) :
    site.checkedFeature? source = .ok (site.feature? source) := by
  have shows : Text.Shows (site.node.text source)
      ((source.encode.take site.node.span.stop).drop site.node.span.start) :=
    source.shows_slice site.node.span.start site.node.span.stop
  have bytes : site.checkedBytes source =
      .ok ((source.encode.take site.node.span.stop).drop site.node.span.start) :=
    Checked.slice_of_le inside.1 (source.length_encode.symm ▸ inside.2)
  rw [checkedFeature?]
  by_cases number : site.kind = "number"
  · rw [if_pos number, bytes, feature?_of_number number, ← shows.contains_eq (by decide)]
    rfl
  · rw [if_neg number]
    by_cases isMeta : site.kind = "meta_property"
    · rw [if_pos isMeta, bytes, feature?_of_metaProperty isMeta, ← shows.isPrefixOf_eq (by decide)]
      rfl
    · rw [if_neg isMeta, feature?_eq_of_kind number isMeta source]

theorem checkedRefusal?_eq (inside : site.node.span.LiesIn source) (setting : Setting) :
    site.checkedRefusal? source setting = (site.refusal? source setting).map .inr := by
  rw [checkedRefusal?, checkedFeature?_eq inside, refusal?, problem?, Option.map_map]
  rfl

theorem checkedComment?_eq (inside : site.node.span.LiesIn source) :
    site.checkedComment? source = .ok (site.comment? source) := by
  have start : site.node.span.start ≤ source.encode.length := by
    rw [source.length_encode]
    exact Nat.le_trans inside.1 inside.2
  have shows := source.shows_suffix site.node.span.start
  rw [checkedComment?]
  by_cases isHtml : site.kind = "html_comment"
  · simp only [comment?, isHtml, if_true]
  · rw [if_neg isHtml]
    by_cases isComment : site.kind = "comment"
    · have slashes : (['/', '/'].map Text.lowByte).isPrefixOf
          (source.encode.drop site.node.span.start) =
            ['/', '/'].isPrefixOf (source.dropBytes site.node.span.start) :=
        shows.isPrefixOf_eq (by decide)
      simp only [comment?, isComment, if_true, ← slashes]
      split
      · rfl
      · rw [Checked.slice_of_le start (Nat.le_refl _), List.take_length]
        simp only [Except.map]
        split <;> rfl
    · simp [comment?, isComment]

/-- A comment that begins behind the end of its source is a fault. -/
example : checkedComment? ['x']
    ⟨.node ⟨"comment", true, false, false, false, ⟨2, 2⟩, []⟩ .nil, []⟩ = .error (.slice 2 1) := rfl

end Site

private theorem findSome?_congr {Item Value : Type} {first second : Item → Option Value}
    {items : List Item} (same : ∀ item ∈ items, first item = second item) :
    items.findSome? first = items.findSome? second := by
  induction items with
  | nil => rfl
  | cons item later induction =>
      rw [List.findSome?_cons, List.findSome?_cons, same item List.mem_cons_self,
        induction fun other member => same other (List.mem_cons_of_mem _ member)]

namespace Tree

variable {source : Text} {tree : Tree}

theorem checkedComments_eq (inside : tree.LiesIn source) :
    tree.checkedComments source = .ok (tree.comments source) := by
  have collected := foldlM_collect
    (fun site member => Site.checkedComment?_eq (inside site member)) []
  rw [← Cursor.traverse_start_eq_foldlM, List.nil_append, ← comments_eq] at collected
  exact collected

theorem checkedFitFeatures_eq (inside : tree.LiesIn source) (setting : Setting) :
    tree.checkedFitFeatures source setting = .ok (tree.fitFeatures source setting) := by
  have refusals : tree.sites.findSome? (Site.checkedRefusal? source setting) =
      (tree.sites.findSome? (Site.refusal? source setting)).map .inr := by
    rw [List.map_findSome?]
    exact findSome?_congr fun site member =>
      Site.checkedRefusal?_eq (inside site member) setting
  have checked := foldlM_refuse (Site.checkedRefusal? source setting) tree.sites
  rw [← Cursor.traverse_start_eq_foldlM, refusals] at checked
  rw [checkedFitFeatures, checked, fitFeatures_eq]
  cases tree.sites.findSome? (Site.refusal? source setting) <;> rfl

theorem checkedFit_eq (inside : tree.LiesIn source) (dialect : Dialect) (options : ParseOptions) :
    tree.checkedFit source dialect options = .ok (tree.fit source dialect options) := by
  rw [checkedFit, fit]
  split
  · rfl
  · dsimp only
    rw [checkedFitFeatures_eq inside]
    rfl

end Tree

/-! ## Searches -/

theorem Grammar.number_inj {first second : Grammar} :
    first.number = second.number ↔ first = second := by
  cases first <;> cases second <;> decide

namespace ParseSlots

def Mirrors (slots : ParseSlots) (memo : ParseMemo) : Prop :=
  ∀ grammar : Grammar, slots[grammar.number]? = some (memo.answer? grammar)

theorem mirrors_empty : Mirrors .empty .empty := by
  intro grammar
  cases grammar <;> rfl

theorem exists_checkedAsk_eq {slots : ParseSlots} {memo : ParseMemo} (mirrors : slots.Mirrors memo)
    (parse : Parser) (source : Text) (grammar : Grammar) :
    ∃ next, slots.checkedAsk parse source grammar =
        .ok ((memo.ask parse source grammar).1, next) ∧
      Mirrors next (memo.ask parse source grammar).2 := by
  rw [checkedAsk, Checked.item_of_getElem? (mirrors grammar), Checked.ok_bind, ParseMemo.ask]
  cases answered : memo.answer? grammar with
  | some answer => exact ⟨slots, rfl, mirrors⟩
  | none =>
      refine ⟨slots.set grammar.number (some (parse source grammar)), rfl, fun other => ?_⟩
      rw [ParseMemo.answer?, List.lookup_append]
      by_cases same : other = grammar
      · subst same
        have bound := (List.getElem?_eq_some_iff.mp (mirrors other)).1
        rw [ParseMemo.answer?] at answered
        rw [List.getElem?_set_self bound, answered, List.lookup_cons_self, Option.none_or]
      · have apart : grammar.number ≠ other.number := fun equal =>
          same (Grammar.number_inj.mp equal).symm
        rw [List.getElem?_set_ne apart, mirrors other, ParseMemo.answer?, List.lookup_cons,
          beq_false_of_ne same, List.lookup_nil, Option.or_none]

end ParseSlots

namespace Resolution

variable {parse : Parser} {source : Text}

theorem checkedAttempt_eq {answer : Option Tree} (inside : ∀ tree ∈ answer, tree.LiesIn source)
    (options : ParseOptions) (dialect : Dialect) :
    checkedAttempt source options dialect answer = .ok (attempt source options dialect answer) := by
  cases answer with
  | none => rfl
  | some tree =>
      rw [checkedAttempt, Tree.checkedFit_eq (inside tree rfl), Checked.ok_bind, attempt]
      cases tree.fit source dialect options with
      | error diagnostic => rfl
      | ok sourceKind =>
          dsimp only
          rw [Tree.checkedComments_eq (inside tree rfl), Checked.ok_bind]

theorem checkedSearch_eq (stays : parse.StaysIn source) (options : ParseOptions)
    {slots : ParseSlots} {memo : ParseMemo} (mirrors : slots.Mirrors memo)
    (remembers : memo.Remembers parse source) (failed : List Attempt) (dialects : List Dialect) :
    checkedSearch parse source options slots failed dialects =
      .ok (search parse source options memo failed dialects) := by
  induction dialects generalizing slots memo failed with
  | nil => rfl
  | cons dialect later induction =>
      rcases ParseSlots.exists_checkedAsk_eq mirrors parse source dialect.grammar with
        ⟨next, asked, nextMirrors⟩
      have inside : ∀ tree ∈ (memo.ask parse source dialect.grammar).1, tree.LiesIn source := by
        rw [ParseMemo.ask_fst remembers]
        exact stays dialect.grammar
      rw [checkedSearch, asked, Checked.ok_bind]
      dsimp only
      rw [checkedAttempt_eq inside, Checked.ok_bind, search]
      dsimp only
      cases attempt source options dialect (memo.ask parse source dialect.grammar).1 with
      | ok resolved => rfl
      | error failure =>
          exact induction nextMirrors (ParseMemo.remembers_ask remembers dialect.grammar) _

theorem checkedFind_eq (stays : parse.StaysIn source) (dialect : Option Dialect)
    (options : ParseOptions) :
    checkedFind parse source dialect options = .ok (find parse source dialect options) := by
  cases dialect with
  | some dialect =>
      exact checkedSearch_eq stays options ParseSlots.mirrors_empty ParseMemo.remembers_empty _ _
  | none =>
      exact checkedSearch_eq stays options ParseSlots.mirrors_empty ParseMemo.remembers_empty _ _

end Resolution

end Uncomment

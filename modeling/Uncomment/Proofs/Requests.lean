import Uncomment.Proofs.Inclusion
import Uncomment.Proofs.PluginNames
import Uncomment.Proofs.SeparateSearches

/-! # Plugins that diagnostics ask for

A diagnostic can name a plugin without which a node is refused. The dialect with that plugin is not
refused at this node nor at an earlier one, so enabling one named plugin after the other comes to an
end. -/

namespace Uncomment

/-! ## Dialects with one more plugin -/

namespace Dialect

def enable (dialect : Dialect) (plugin : Plugin) : Dialect :=
  .ofList (dialect.plugins ++ [plugin])

theorem plugins_enable {dialect : Dialect} {plugin : Plugin} (added : plugin ∉ dialect)
    (plain : plugin.isDecorators = false) :
    (dialect.enable plugin).plugins = dialect.plugins ++ [plugin] := by
  have compatible : (dialect.plugins ++ [plugin]).Pairwise Plugin.Compatible := by
    refine List.pairwise_append.mpr ⟨dialect.compatible, List.pairwise_singleton _ _, ?_⟩
    intro present member other isPlugin
    rw [List.mem_singleton.mp isPlugin]
    exact ⟨fun same => added (same ▸ member), fun both => by simp [plain] at both⟩
  exact @plugins_foldl_insert empty _ compatible

theorem mem_enable_iff {dialect : Dialect} {plugin : Plugin} (added : plugin ∉ dialect)
    (plain : plugin.isDecorators = false) (other : Plugin) :
    other ∈ dialect.enable plugin ↔ other ∈ dialect ∨ other = plugin := by
  change other ∈ (dialect.enable plugin).plugins ↔ other ∈ dialect.plugins ∨ _
  rw [plugins_enable added plain, List.mem_append, List.mem_singleton]

end Dialect

/-! ## Messages -/

namespace Problem

def request (name : String) : String :=
  "Support for the experimental syntax '" ++ name ++ "' isn't currently enabled"

private theorem request_injective {first second : String} (same : request first = request second) :
    first = second :=
  (String.append_right_inj _).mp ((String.append_left_inj _).mp same)

private theorem head?_ofList (letter : Char) (rest : Text) :
    (String.ofList (letter :: rest)).toList.head? = some letter := by
  rw [String.toList_ofList]
  rfl

private theorem head?_append {front : String} {letter : Char}
    (begins : front.toList.head? = some letter) (rest : String) :
    (front ++ rest).toList.head? = some letter := by
  rw [String.toList_append, List.head?_append, begins]
  rfl

private theorem ne_request {words : String} {letter : Char}
    (begins : words.toList.head? = some letter) (other : letter ≠ 'S') (name : String) :
    words ≠ request name := by
  intro same
  have requestBegins : (request name).toList.head? = some 'S' :=
    head?_append (head?_append (head?_ofList _ _) name) _
  rw [← same, begins] at requestBegins
  exact other (Option.some.inj requestBegins)

def mayRequest : Problem → Bool
  | .requires _ => true
  | .other _ => true
  | _ => false

/-- No other message begins with the letter that a request begins with. -/
theorem message_ne_request {problem : Problem} (plain : problem.mayRequest = false)
    (name : String) : problem.message ≠ request name := by
  cases problem with
  | requires _ | other _ => cases plain
  | missing kind isNamed =>
      cases isNamed with
      | true => exact ne_request (head?_append (head?_ofList _ _) _) (by decide) name
      | false =>
          exact ne_request (head?_append (head?_append (head?_ofList _ _) _) _) (by decide) name
  | requiresDecorators => exact ne_request (head?_append (head?_ofList _ _) _) (by decide) name
  | typescriptOnly _ | noTree _ | decoratorAfterExport | decoratorBeforeExport =>
      exact ne_request (head?_append (head?_append (head?_ofList _ _) _) _) (by decide) name
  | unexpectedToken | returnOutsideFunction | awaitOutsideFunction | moduleSyntaxInScript
  | nestedModuleSyntax => exact ne_request (head?_ofList _ _) (by decide) name

end Problem

/-! ## Features that need a missing plugin -/

theorem Plugin.isDecorators_of_gated : ∀ plugin ∈ Plugin.gated, plugin.isDecorators = false := by
  decide

theorem Plugin.ofName_name_of_gated {plugin : Plugin} (gated : plugin ∈ Plugin.gated) :
    Plugin.ofName plugin.name = .ok plugin := by
  rw [Plugin.ofName_name, Plugin.named_of_not_isDecorators (isDecorators_of_gated plugin gated)]

namespace Feature

theorem refuseUnless_eq_some_iff (allowed : Prop) [Decidable allowed] (problem other : Problem) :
    refuseUnless allowed problem = some other ↔ ¬allowed ∧ problem = other := by
  rw [refuseUnless]
  split <;> simp_all

/-- A refusal that names a plugin names one that nodes can need, and nothing else is missing. -/
theorem missing_of_request {setting : Setting} {feature : Feature} (gated : feature.IsGated)
    {problem : Problem} {name : String} (refused : feature.problem? setting = some problem)
    (asks : problem.message = Problem.request name) :
    ∃ plugin ∈ Plugin.gated, plugin.name = name ∧ plugin ∉ setting.dialect ∧
      ∀ richer : Setting, plugin ∈ richer.dialect → feature.problem? richer = none := by
  have mayRequest : problem.mayRequest = true :=
    Bool.of_not_eq_false fun plain => Problem.message_ne_request plain name asks
  cases feature with
  | extension plugin =>
      rw [problem?, refuseUnless_eq_some_iff] at refused
      rcases refused with ⟨missing, rfl⟩
      refine ⟨plugin, gated, Problem.request_injective asks, missing, fun richer added => ?_⟩
      rw [problem?, refuseUnless_eq_none_iff]
      exact added
  | publicField =>
      rw [problem?, refuseUnless_eq_some_iff] at refused
      rcases refused with ⟨missing, rfl⟩
      refine ⟨.classProperties, by decide, Problem.request_injective asks,
        fun present => missing (.inr present), fun richer added => ?_⟩
      rw [problem?, refuseUnless_eq_none_iff]
      exact .inr added
  | decorator placement =>
      simp only [problem?, decoratorProblem?] at refused
      split at refused <;> cases refused <;> cases mayRequest
  | moduleSyntax atTopLevel =>
      simp only [problem?] at refused
      split at refused
      · cases refused
        cases mayRequest
      · rcases (refuseUnless_eq_some_iff _ _ _).mp refused with ⟨-, rfl⟩
        cases mayRequest
  | typescriptOnly _ | outerAwait | outerReturn =>
      rw [problem?, refuseUnless_eq_some_iff] at refused
      rcases refused with ⟨-, rfl⟩
      cases mayRequest

end Feature

/-! ## Refused trees -/

namespace Tree

variable {source : Text} {dialect : Dialect} {options : ParseOptions} {tree : Tree}
  {diagnostic : Diagnostic} {name : String}

theorem noError_of_request (refused : tree.fit source dialect options = .error diagnostic)
    (asks : diagnostic.problem.message = Problem.request name) : tree.root.hasError = false := by
  cases flag : tree.root.hasError with
  | false => rfl
  | true =>
      rw [fit, if_pos flag] at refused
      cases refused
      change (Problem.ofSyntaxError _).message = _ at asks
      rw [Problem.ofSyntaxError] at asks
      split at asks <;> exact absurd asks (Problem.message_ne_request rfl name)

/-- A request names a plugin that the refused node lacks. With it neither this node nor one before
it is refused. -/
theorem exists_missing_of_request (refused : tree.fit source dialect options = .error diagnostic)
    (asks : diagnostic.problem.message = Problem.request name) :
    ∃ plugin ∈ Plugin.gated, plugin.name = name ∧ plugin ∉ dialect ∧
      ∃ before site after, tree.sites = before ++ site :: after ∧
        tree.RefusedAt source dialect options before.length site ∧
        ∀ richer : Dialect, richer.Covers dialect → plugin ∈ richer →
          ∀ other ∈ before ++ [site], other.problem? source
            ⟨richer, options, tree.sourceKind options.sourceType⟩ = none := by
  rcases exists_problem_of_noError (noError_of_request refused asks) refused with
    ⟨before, site, after, problem, split, admitted, uses, rfl, refusedAt⟩
  rcases Option.bind_eq_some_iff.mp uses with ⟨feature, isFeature, featureRefused⟩
  rcases Feature.missing_of_request (Site.isGated_of_feature? isFeature) featureRefused asks with
    ⟨plugin, gated, named, missing, admits⟩
  refine ⟨plugin, gated, named, missing, before, site, after, split, refusedAt, ?_⟩
  intro richer covers added other member
  rcases List.mem_append.mp member with member | member
  · exact Site.problem?_eq_none_of_covers covers (admitted other member)
  · rw [List.mem_singleton.mp member, Site.problem?, isFeature]
    exact admits ⟨richer, _, _⟩ added

/-- A dialect that admits the first nodes of a tree accepts it or refuses it at a later node. -/
theorem refusedAt_behind (noError : tree.root.hasError = false) {before after : List Site}
    {site : Site} (split : tree.sites = before ++ site :: after)
    (admitted : ∀ other ∈ before ++ [site], other.problem? source
      ⟨dialect, options, tree.sourceKind options.sourceType⟩ = none) :
    (∃ sourceKind, tree.fit source dialect options = .ok sourceKind) ∨
      ∃ number later, tree.RefusedAt source dialect options number later ∧
        before.length < number := by
  cases fits : tree.fit source dialect options with
  | ok sourceKind => exact .inl ⟨sourceKind, rfl⟩
  | error other =>
      rcases exists_problem_of_noError noError fits with
        ⟨front, later, rest, problem, splitToo, -, uses, -, refusedAt⟩
      refine .inr ⟨front.length, later, refusedAt, Nat.lt_of_not_le fun inFront => ?_⟩
      have place := refusedAt.place
      rw [split, List.append_cons, List.getElem?_append_left (by simp; omega)] at place
      rw [admitted later (List.mem_of_getElem? place)] at uses
      cases uses

end Tree

/-! ## Enabling one plugin after the other -/

namespace Dialect

def missing (dialect : Dialect) : Nat :=
  (Plugin.gated.filter (· ∉ dialect)).length

private theorem missing_le (dialect : Dialect) : dialect.missing ≤ Plugin.gated.length :=
  List.length_filter_le _ _

theorem missing_enable_lt {dialect : Dialect} {plugin : Plugin} (gated : plugin ∈ Plugin.gated)
    (lacks : plugin ∉ dialect) : (dialect.enable plugin).missing < dialect.missing := by
  have added := mem_enable_iff lacks (Plugin.isDecorators_of_gated plugin gated)
  have fewer : Plugin.gated.filter (· ∉ dialect.enable plugin) =
      (Plugin.gated.filter (· ∉ dialect)).filter (· ≠ plugin) := by
    rw [List.filter_filter]
    refine List.filter_congr fun other _ => ?_
    rw [← Bool.decide_and, decide_eq_decide, added other, not_or, and_comm]
  rw [missing, fewer, missing, List.length_filter_lt_length_iff_exists]
  exact ⟨plugin, List.mem_filter.mpr ⟨gated, decide_eq_true lacks⟩, by simp⟩

end Dialect

namespace Resolution

/-- A search under one dialect alone fails because a plugin of this name is missing. -/
def Requests (parse : Parser) (source : Text) (options : ParseOptions) (dialect : Dialect)
    (name : String) : Prop :=
  ∃ failure, find parse source (some dialect) options = .error failure ∧
    ∃ attempt ∈ failure.attempts, attempt.diagnostic.problem.message = Problem.request name

/-- One dialect becomes another in so many rounds, when each round enables the plugin that the
search before it asks for. -/
inductive EnabledTo (parse : Parser) (source : Text) (options : ParseOptions) :
    (rounds : Nat) → (first last : Dialect) → Prop
  | done (dialect : Dialect) : EnabledTo parse source options 0 dialect dialect
  | next {rounds : Nat} {dialect last : Dialect} {name : String} {plugin : Plugin}
      (requests : Requests parse source options dialect name)
      (named : Plugin.ofName name = .ok plugin)
      (further : EnabledTo parse source options rounds (dialect.enable plugin) last) :
      EnabledTo parse source options (rounds + 1) dialect last

variable {parse : Parser} {source : Text} {options : ParseOptions} {dialect last : Dialect}
  {name : String}

theorem exists_gated_of_requests (requests : Requests parse source options dialect name) :
    ∃ plugin ∈ Plugin.gated, Plugin.ofName name = .ok plugin ∧ plugin ∉ dialect := by
  rcases requests with ⟨failure, failed, attempt, member, asks⟩
  rcases (find_some_eq_error_iff _ _).mp failed with ⟨only, tried, rfl⟩
  rw [List.mem_singleton.mp member] at asks
  rw [attemptAfresh, Resolution.attempt.eq_def] at tried
  cases parsed : parse source dialect.grammar with
  | none =>
      rw [parsed] at tried
      cases tried
      exact absurd asks (Problem.message_ne_request rfl name)
  | some tree =>
      simp only [parsed] at tried
      cases fits : tree.fit source dialect options with
      | ok sourceKind =>
          rw [fits] at tried
          cases tried
      | error diagnostic =>
          rw [fits] at tried
          cases tried
          rcases Tree.exists_missing_of_request fits asks with ⟨plugin, gated, rfl, lacks, -⟩
          exact ⟨plugin, gated, Plugin.ofName_name_of_gated gated, lacks⟩

/-- Every round enables a plugin that was missing. -/
theorem rounds_add_missing_le {rounds : Nat}
    (enabled : EnabledTo parse source options rounds dialect last) :
    rounds + last.missing ≤ dialect.missing := by
  induction enabled with
  | done => omega
  | next requests named further induction =>
      rcases exists_gated_of_requests requests with ⟨plugin, gated, namedToo, lacks⟩
      have same := Except.ok.inj (named.symm.trans namedToo)
      subst same
      have fewer := Dialect.missing_enable_lt gated lacks
      omega

theorem exists_enabledTo_settled (dialect : Dialect) :
    ∃ rounds last, EnabledTo parse source options rounds dialect last ∧
      ∀ name, ¬Requests parse source options last name := by
  induction equal : dialect.missing using Nat.strongRecOn generalizing dialect with
  | _ missing induction =>
      by_cases settled : ∃ name, Requests parse source options dialect name
      · rcases settled with ⟨name, requests⟩
        rcases exists_gated_of_requests requests with ⟨plugin, gated, named, lacks⟩
        have fewer := Dialect.missing_enable_lt gated lacks
        rcases induction _ (equal ▸ fewer) _ rfl with ⟨rounds, last, further, isSettled⟩
        exact ⟨rounds + 1, last, .next requests named further, isSettled⟩
      · exact ⟨0, dialect, .done dialect, fun name requests => settled ⟨name, requests⟩⟩

/-- A request names a plugin that is known and that the dialect lacks. With this plugin a dialect of
the same grammar accepts the tree or refuses it at a later node. Enabling what is asked for ends
after as many rounds as there are plugins to ask for: the search then succeeds or fails for another
reason. -/
theorem requests_lead_on (parse : Parser) (source : Text) (options : ParseOptions) :
    (∀ (tree : Tree) (dialect : Dialect) (diagnostic : Diagnostic) (name : String),
      tree.fit source dialect options = .error diagnostic →
      diagnostic.problem.message = Problem.request name →
        ∃ plugin, Plugin.ofName name = .ok plugin ∧ plugin ∉ dialect ∧
          ∃ number site, tree.RefusedAt source dialect options number site ∧
            ((dialect.enable plugin).grammar = dialect.grammar →
              (∃ sourceKind, tree.fit source (dialect.enable plugin) options = .ok sourceKind) ∨
                ∃ later other, tree.RefusedAt source (dialect.enable plugin) options later other ∧
                  number < later)) ∧
    ∀ dialect : Dialect,
      (∀ rounds last, EnabledTo parse source options rounds dialect last →
        rounds ≤ Plugin.gated.length) ∧
      ∃ rounds last, EnabledTo parse source options rounds dialect last ∧
        ((∃ resolution, find parse source (some last) options = .ok resolution) ∨
          ∃ failure, find parse source (some last) options = .error failure ∧
            ∀ attempt ∈ failure.attempts, ∀ name,
              attempt.diagnostic.problem.message ≠ Problem.request name) := by
  constructor
  · intro tree dialect diagnostic name refused asks
    rcases Tree.exists_missing_of_request refused asks with
      ⟨plugin, gated, rfl, lacks, before, site, after, split, refusedAt, admitted⟩
    refine ⟨plugin, Plugin.ofName_name_of_gated gated, lacks, before.length, site, refusedAt, ?_⟩
    intro sameGrammar
    have added := Dialect.mem_enable_iff lacks (Plugin.isDecorators_of_gated plugin gated)
    have covers := Dialect.covers_of_included
      (fun other present => (added other).mpr (.inl present)) sameGrammar.symm
    exact Tree.refusedAt_behind (Tree.noError_of_request refused asks) split
      (admitted _ covers ((added plugin).mpr (.inr rfl)))
  · intro dialect
    constructor
    · intro rounds last enabled
      have bound := rounds_add_missing_le enabled
      have all := dialect.missing_le
      omega
    · rcases @exists_enabledTo_settled parse source options dialect with
        ⟨rounds, last, enabled, settled⟩
      refine ⟨rounds, last, enabled, ?_⟩
      cases found : find parse source (some last) options with
      | ok resolution => exact .inl ⟨resolution, rfl⟩
      | error failure =>
          exact .inr ⟨failure, rfl, fun attempt member name asks =>
            settled name ⟨failure, found, attempt, member, asks⟩⟩

def fieldTree : Tree :=
  -- A public field whose value is an optional chain.
  .node ⟨"program", true, false, false, false, ⟨0, 20⟩, []⟩ <| .ofList [
    .node ⟨"class_declaration", true, false, false, false, ⟨0, 20⟩, []⟩ <| .ofList [
      .node ⟨"field_definition", true, false, false, false, ⟨10, 18⟩, []⟩ <| .ofList [
        .node ⟨"property_identifier", true, false, false, false, ⟨10, 11⟩, ["property"]⟩ .nil,
        .node ⟨"member_expression", true, false, false, false, ⟨14, 18⟩, []⟩ <| .ofList [
          .node ⟨"optional_chain", true, false, false, false, ⟨15, 17⟩, []⟩ .nil]]]]

theorem requests_lead_on_fieldTree :
    (∃ diagnostic, fieldTree.fit [] .empty {} = .error diagnostic ∧
      diagnostic.problem.message = Problem.request "classProperties") ∧
    (∃ number site later other, fieldTree.RefusedAt [] .empty {} number site ∧
      fieldTree.RefusedAt [] (.enable .empty .classProperties) {} later other ∧ number < later) ∧
    ∃ rounds last, EnabledTo (fun _ _ => some fieldTree) [] {} rounds .empty last ∧
      rounds ≤ 16 := by
  have refused : fieldTree.fit [] .empty {} = .error ⟨.requires .classProperties, 10, 1, 10⟩ := by
    rw [Tree.fit, if_neg (by decide)]
    dsimp only
    rw [Tree.fitFeatures_eq]
    rfl
  have refusedAgain : fieldTree.fit [] (.enable .empty .classProperties) {} =
      .error ⟨.requires .optionalChaining, 15, 1, 15⟩ := by
    rw [Tree.fit, if_neg (by decide)]
    dsimp only
    rw [Tree.fitFeatures_eq]
    rfl
  rcases requests_lead_on (fun _ _ => some fieldTree) [] {} with ⟨leads, ends⟩
  refine ⟨⟨_, refused, rfl⟩, ?_, ?_⟩
  · rcases leads fieldTree .empty _ "classProperties" refused rfl with
      ⟨plugin, named, -, number, site, refusedAt, further⟩
    cases named
    rcases further (by decide) with ⟨sourceKind, fits⟩ | ⟨later, other, refusedLater, behind⟩
    · rw [refusedAgain] at fits
      cases fits
    · exact ⟨number, site, later, other, refusedAt, refusedLater, behind⟩
  · rcases ends .empty with ⟨bounded, rounds, last, enabled, -⟩
    exact ⟨rounds, last, enabled, bounded rounds last enabled⟩

end Resolution

end Uncomment

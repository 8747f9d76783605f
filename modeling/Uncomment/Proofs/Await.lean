import Uncomment.Proofs.Admission

/-! # Where `await` may stand

Without the option for it, an `await` needs a function around it or the top level of a module. Any
function will do: the one nearest to an accepted `await` need not be asynchronous. -/

namespace Uncomment

/-! ## Functions around a node -/

def Tree.isAsync (tree : Tree) : Bool :=
  tree.children.any fun child => !child.root.isNamed && child.kind == "async"

namespace Site

def isAwait (site : Site) : Bool :=
  site.kind == "await_expression"

def nearestFunction? (site : Site) : Option Tree :=
  site.ancestors.find? (·.root.isFunction)

theorem nearestFunction?_eq_none_iff (site : Site) :
    site.nearestFunction? = none ↔ site.isWithinFunction = false := by
  rw [nearestFunction?, List.find?_eq_none, isWithinFunction, List.any_eq_false]

/-- An `await` belongs to an asynchronous function or, outside functions, to a module whose dialect
has `await` at the top level. -/
def AwaitsProperly (dialect : Dialect) (sourceKind : SourceKind) (site : Site) : Prop :=
  (∃ function, site.nearestFunction? = some function ∧ function.isAsync = true) ∨
    (site.nearestFunction? = none ∧ .topLevelAwait ∈ dialect ∧ sourceKind = .module)

/-! ## The feature of an `await` -/

private theorem feature?_of_isAwait (source : Text) {site : Site} (isAwait : site.isAwait = true) :
    site.feature? source = usedIf (!site.isWithinFunction) .outerAwait := by
  have kind : site.node.kind = "await_expression" := eq_of_beq isAwait
  simp [feature?, Node.isTypescriptOnly, kind]

theorem feature?_eq_outerAwait_iff (source : Text) (site : Site) :
    site.feature? source = some .outerAwait ↔
      site.isAwait = true ∧ site.isWithinFunction = false := by
  constructor
  · intro used
    rw [feature?] at used
    split at used
    · cases used
    · split at used
      all_goals
        simp only [objectSpread?, usedIf_eq_some_iff, Option.some.injEq, reduceCtorEq, and_false,
          Bool.not_eq_true'] at used
      next kind => exact ⟨beq_iff_eq.mpr kind, used.1⟩
  · intro outer
    rw [feature?_of_isAwait source outer.1, outer.2]
    rfl

end Site

/-! ## What the option decides -/

namespace Feature

variable {setting : Setting}

private theorem problem?_allowAwait {feature : Feature} (other : feature ≠ .outerAwait)
    (dialect : Dialect) (options : ParseOptions) (sourceKind : SourceKind) (first second : Bool) :
    feature.problem? ⟨dialect, { options with allowAwaitOutsideFunction := first }, sourceKind⟩ =
      feature.problem?
        ⟨dialect, { options with allowAwaitOutsideFunction := second }, sourceKind⟩ := by
  cases feature with
  | outerAwait => exact absurd rfl other
  | _ => rfl

end Feature

variable (source : Text) (dialect : Dialect) (options : ParseOptions) (tree : Tree)
  (sourceKind : SourceKind)

theorem Site.problem?_strict_iff (site : Site) :
    site.problem? source
        ⟨dialect, { options with allowAwaitOutsideFunction := false }, sourceKind⟩ = none ↔
      site.problem? source
          ⟨dialect, { options with allowAwaitOutsideFunction := true }, sourceKind⟩ = none ∧
        (site.isAwait = true → site.isWithinFunction = true ∨
          (.topLevelAwait ∈ dialect ∧ sourceKind = .module)) := by
  by_cases outer : site.feature? source = some .outerAwait
  · have facts := (site.feature?_eq_outerAwait_iff source).mp outer
    simp only [Site.problem?, outer, Option.bind_some, Feature.problem?,
      Feature.refuseUnless_eq_none_iff, facts.1, facts.2, Bool.false_eq_true, false_or, true_or,
      true_and, forall_const]
  · have same : site.problem? source
        ⟨dialect, { options with allowAwaitOutsideFunction := false }, sourceKind⟩ =
        site.problem? source
          ⟨dialect, { options with allowAwaitOutsideFunction := true }, sourceKind⟩ := by
      rw [Site.problem?, Site.problem?]
      cases used : site.feature? source with
      | none => rfl
      | some feature =>
          have other : feature ≠ .outerAwait := fun equal => outer (equal ▸ used)
          exact Feature.problem?_allowAwait other _ _ _ _ _
    have allowed : site.isAwait = true → site.isWithinFunction = true := by
      intro isAwait
      cases within : site.isWithinFunction with
      | true => rfl
      | false => exact absurd ((site.feature?_eq_outerAwait_iff source).mpr ⟨isAwait, within⟩) outer
    rw [same]
    exact ⟨fun admitted => ⟨admitted, fun isAwait => .inl (allowed isAwait)⟩, And.left⟩

/-- Without the option for it, just those trees are refused in addition in which an `await` has no
function around it and is not at the top level of a module. -/
theorem Tree.fit_strict_iff :
    tree.fit source dialect { options with allowAwaitOutsideFunction := false } =
        .ok sourceKind ↔
      tree.fit source dialect { options with allowAwaitOutsideFunction := true } =
          .ok sourceKind ∧
        ∀ site ∈ tree.sites, site.isAwait = true → site.isWithinFunction = true ∨
          (.topLevelAwait ∈ dialect ∧ sourceKind = .module) := by
  simp only [fit_eq_ok_iff, Site.problem?_strict_iff source dialect options]
  constructor
  · intro fits
    rcases fits with ⟨noError, kind, admitted⟩
    exact ⟨⟨noError, kind, fun site member => (admitted site member).1⟩,
      fun site member => (admitted site member).2⟩
  · intro fits
    rcases fits with ⟨⟨noError, kind, admitted⟩, awaits⟩
    exact ⟨noError, kind, fun site member => ⟨admitted site member, awaits site member⟩⟩

/-! ## Accepted trees -/

variable {source dialect options tree sourceKind}

theorem Tree.topLevel_of_fit (strict : options.allowAwaitOutsideFunction = false)
    (fits : tree.fit source dialect options = .ok sourceKind) {site : Site}
    (member : site ∈ tree.sites) (isAwait : site.isAwait = true)
    (outside : site.nearestFunction? = none) :
    .topLevelAwait ∈ dialect ∧ sourceKind = .module := by
  have same : { options with allowAwaitOutsideFunction := false } = options := by
    rw [← strict]
  rw [← same, fit_strict_iff] at fits
  rw [site.nearestFunction?_eq_none_iff] at outside
  rcases fits.2 site member isAwait with within | topLevel
  · rw [outside] at within
    cases within
  · exact topLevel

/-- In an accepted tree every `await` outside functions is at the top level of a module, and all
stand properly exactly when no function nearest to one lacks `async`. -/
theorem Tree.awaits_of_fit (source : Text) (dialect : Dialect) (options : ParseOptions)
    (tree : Tree) (sourceKind : SourceKind) (strict : options.allowAwaitOutsideFunction = false)
    (fits : tree.fit source dialect options = .ok sourceKind) :
    (∀ site ∈ tree.sites, site.isAwait = true → site.nearestFunction? = none →
      .topLevelAwait ∈ dialect ∧ sourceKind = .module) ∧
    ((∀ site ∈ tree.sites, site.isAwait = true → site.AwaitsProperly dialect sourceKind) ↔
      ∀ site ∈ tree.sites, site.isAwait = true → ∀ function,
        site.nearestFunction? = some function → function.isAsync = true) := by
  refine ⟨fun site member isAwait => topLevel_of_fit strict fits member isAwait, ?_, ?_⟩
  · intro proper site member isAwait function nearest
    rcases proper site member isAwait with ⟨other, otherNearest, isAsync⟩ | ⟨outside, -⟩
    · rw [nearest] at otherNearest
      exact Option.some.inj otherNearest ▸ isAsync
    · rw [nearest] at outside
      cases outside
  · intro asynchronous site member isAwait
    cases nearest : site.nearestFunction? with
    | some function =>
        exact .inl ⟨function, nearest, asynchronous site member isAwait function nearest⟩
    | none =>
        exact .inr ⟨nearest, topLevel_of_fit strict fits member isAwait nearest⟩

def Tree.plain (kind : String) (start stop : Nat) (children : List Tree) : Tree :=
  .node ⟨kind, true, false, false, false, ⟨start, stop⟩, []⟩ (.ofList children)

def Tree.token (text : String) (start : Nat) : Tree :=
  .node ⟨text, false, false, false, false, ⟨start, start + text.length⟩, []⟩ .nil

def properTree : Tree :=
  -- `export {}; await a; function f() { return async () => await b; }`
  .plain "program" 0 64 [
    .plain "export_statement" 0 10 [],
    .plain "await_expression" 11 18 [],
    .plain "function_declaration" 20 64 [
      .token "function" 20,
      .plain "return_statement" 35 62 [
        .plain "arrow_function" 42 61 [
          .token "async" 42,
          .plain "await_expression" 54 61 []]]]]

theorem awaits_of_fit_properTree :
    properTree.fit [] (.ofList [.topLevelAwait]) { allowAwaitOutsideFunction := false } =
        .ok .module ∧
      ∀ site ∈ properTree.sites, site.isAwait = true →
        site.AwaitsProperly (.ofList [.topLevelAwait]) .module := by
  have fits : properTree.fit [] (.ofList [.topLevelAwait])
      { allowAwaitOutsideFunction := false } = .ok .module := by
    rw [Tree.fit_eq_ok_iff]
    decide
  have asynchronous : ∀ site ∈ properTree.sites, site.isAwait = true →
      site.nearestFunction?.all (·.isAsync) = true := by
    decide
  refine ⟨fits, (Tree.awaits_of_fit _ _ _ _ _ rfl fits).2.mpr ?_⟩
  intro site member isAwait function nearest
  have isAsync := asynchronous site member isAwait
  rw [nearest] at isAsync
  exact isAsync

def awaitTree : Tree :=
  -- `function f() { await x; }`
  .plain "program" 0 26 [
    .plain "function_declaration" 0 25 [
      .token "function" 0,
      .plain "identifier" 9 10 [],
      .plain "formal_parameters" 10 12 [.token "(" 10, .token ")" 11],
      .plain "statement_block" 13 25 [
        .token "\x7b" 13,
        .plain "expression_statement" 15 23 [
          .plain "await_expression" 15 22 [.token "await" 15, .plain "identifier" 21 22 []],
          .token ";" 22],
        .token "\x7d" 24]]]

/-- An `await` in a function that is not asynchronous is accepted. -/
theorem fit_awaitTree :
    awaitTree.fit "function f() \x7b await x; \x7d\n".toList .empty
        { allowAwaitOutsideFunction := false } = .ok .script ∧
      ¬∀ site ∈ awaitTree.sites, site.isAwait = true → site.AwaitsProperly .empty .script := by
  constructor
  · rw [Tree.fit_eq_ok_iff]
    decide
  · intro proper
    have some : ∃ site ∈ awaitTree.sites, site.isAwait = true ∧
        site.nearestFunction?.any (fun function => !function.isAsync) = true := by
      decide
    rcases some with ⟨site, member, isAwait, notAsync⟩
    rcases proper site member isAwait with ⟨function, nearest, isAsync⟩ | ⟨outside, -⟩
    · rw [nearest] at notAsync
      simp [isAsync] at notAsync
    · rw [outside] at notAsync
      cases notAsync

end Uncomment

import Uncomment.Proofs.Traversal

/-! # What dialects admit

One dialect covers another when it refuses no feature that the other admits. A tree that fits a
dialect then fits every dialect that covers it, node by node. -/

namespace Uncomment

/-! ## Features that nodes can use -/

namespace Plugin

def gated : List Plugin :=
  .jsx :: common

end Plugin

namespace Feature

def IsGated : Feature → Prop
  | .extension plugin => plugin ∈ Plugin.gated
  | _ => True

end Feature

namespace Site

theorem usedIf_eq_some_iff (condition : Bool) (feature used : Feature) :
    usedIf condition feature = some used ↔ condition = true ∧ feature = used := by
  cases condition <;> simp [usedIf]

private theorem privateNamePlugin_mem_gated (site : Site) :
    site.privateNamePlugin ∈ Plugin.gated := by
  rw [privateNamePlugin]
  split <;> decide

theorem isGated_of_feature? {source : Text} {site : Site} {feature : Feature}
    (used : site.feature? source = some feature) : feature.IsGated := by
  have named := privateNamePlugin_mem_gated site
  rw [feature?] at used
  split at used
  · rw [← Option.some.inj used]
    trivial
  · split at used
    all_goals
      simp only [objectSpread?, usedIf_eq_some_iff, Option.some.injEq, reduceCtorEq] at used
    all_goals simp only [← used, Feature.IsGated, named]
    all_goals decide

end Site

/-! ## Dialects that cover others -/

namespace Dialect

/-- The richer dialect admits every feature that the plainer one admits. -/
structure Covers (richer plainer : Dialect) : Prop where
  extensions : ∀ plugin ∈ Plugin.gated, plugin ∈ plainer → plugin ∈ richer
  fields : .typescript ∈ plainer ∨ .classProperties ∈ plainer →
    .typescript ∈ richer ∨ .classProperties ∈ richer
  staticTypes : .typescript ∈ plainer ∨ .flow ∉ plainer → .typescript ∈ richer ∨ .flow ∉ richer
  decorators : ∀ placement ∈ Placement.all, Feature.decoratorProblem? plainer placement = none →
    Feature.decoratorProblem? richer placement = none

instance (richer plainer : Dialect) : Decidable (Covers richer plainer) :=
  decidable_of_iff
    ((∀ plugin ∈ Plugin.gated, plugin ∈ plainer → plugin ∈ richer) ∧
      (.typescript ∈ plainer ∨ .classProperties ∈ plainer →
        .typescript ∈ richer ∨ .classProperties ∈ richer) ∧
      (.typescript ∈ plainer ∨ .flow ∉ plainer → .typescript ∈ richer ∨ .flow ∉ richer) ∧
      ∀ placement ∈ Placement.all, Feature.decoratorProblem? plainer placement = none →
        Feature.decoratorProblem? richer placement = none)
    ⟨fun ⟨extensions, fields, staticTypes, decorators⟩ =>
        ⟨extensions, fields, staticTypes, decorators⟩,
      fun covers => ⟨covers.extensions, covers.fields, covers.staticTypes, covers.decorators⟩⟩

end Dialect

namespace Feature

theorem refuseUnless_eq_none_iff (allowed : Prop) [Decidable allowed] (problem : Problem) :
    refuseUnless allowed problem = none ↔ allowed := by
  rw [refuseUnless]
  split <;> simp_all

theorem problem?_eq_none_of_covers {richer plainer : Dialect} (covers : richer.Covers plainer)
    {options : ParseOptions} {sourceKind : SourceKind} {feature : Feature}
    (gated : feature.IsGated)
    (admitted : feature.problem? ⟨plainer, options, sourceKind⟩ = none) :
    feature.problem? ⟨richer, options, sourceKind⟩ = none := by
  cases feature with
  | extension plugin =>
      rw [problem?, refuseUnless_eq_none_iff] at admitted ⊢
      exact covers.extensions plugin gated admitted
  | publicField =>
      rw [problem?, refuseUnless_eq_none_iff] at admitted ⊢
      exact covers.fields admitted
  | decorator placement => exact covers.decorators placement (Placement.mem_all placement) admitted
  | typescriptOnly kind =>
      rw [problem?, refuseUnless_eq_none_iff] at admitted ⊢
      exact covers.staticTypes admitted
  | outerAwait =>
      rw [problem?, refuseUnless_eq_none_iff] at admitted ⊢
      refine admitted.imp_right (And.imp_left ?_)
      exact covers.extensions .topLevelAwait (by decide)
  | outerReturn => exact admitted
  | moduleSyntax atTopLevel => exact admitted

end Feature

/-! ## Fitting a covering dialect -/

theorem Site.problem?_eq_none_of_covers {richer plainer : Dialect}
    (covers : richer.Covers plainer) {source : Text} {options : ParseOptions}
    {sourceKind : SourceKind} {site : Site}
    (admitted : site.problem? source ⟨plainer, options, sourceKind⟩ = none) :
    site.problem? source ⟨richer, options, sourceKind⟩ = none := by
  rw [Site.problem?, Option.bind_eq_none_iff] at admitted ⊢
  intro feature used
  exact Feature.problem?_eq_none_of_covers covers (isGated_of_feature? used)
    (admitted feature used)

namespace Tree

variable (source : Text) (dialect : Dialect) (options : ParseOptions) (tree : Tree)

theorem fit_eq_ok_iff (sourceKind : SourceKind) :
    tree.fit source dialect options = .ok sourceKind ↔
      tree.root.hasError = false ∧ sourceKind = tree.sourceKind options.sourceType ∧
        ∀ site ∈ tree.sites, site.problem? source ⟨dialect, options, sourceKind⟩ = none := by
  rw [fit]
  dsimp only
  by_cases hasError : tree.root.hasError = true
  · simp [hasError]
  · rw [if_neg hasError]
    constructor
    · intro fits
      cases checked : tree.fitFeatures source
          ⟨dialect, options, tree.sourceKind options.sourceType⟩ with
      | error diagnostic => rw [checked] at fits; cases fits
      | ok done =>
          rw [checked] at fits
          cases fits
          exact ⟨Bool.not_eq_true _ ▸ hasError, rfl,
            (fitFeatures_eq_ok_iff _ _ _).mp checked⟩
    · intro fits
      rcases fits with ⟨_, rfl, admitted⟩
      rw [(fitFeatures_eq_ok_iff _ _ _).mpr admitted]
      rfl

variable {source dialect options tree}

theorem fit_of_covers {richer plainer : Dialect} (covers : richer.Covers plainer)
    {sourceKind : SourceKind} (fits : tree.fit source plainer options = .ok sourceKind) :
    tree.fit source richer options = .ok sourceKind := by
  rw [fit_eq_ok_iff] at fits ⊢
  refine ⟨fits.1, fits.2.1, fun site member => ?_⟩
  exact Site.problem?_eq_none_of_covers covers (fits.2.2 site member)

end Tree

end Uncomment

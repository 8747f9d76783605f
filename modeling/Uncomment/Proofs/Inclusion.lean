import Uncomment.Proofs.Admission
import Uncomment.Proofs.Refusal
import Uncomment.Resolution.Search

/-! # Dialects that include others

A dialect includes another when it has all its plugins. Among the dialects of one grammar, one that
includes another covers it: more plugins never refuse a tree that fewer accept. -/

namespace Uncomment

namespace Dialect

/-! ## What a dialect has -/

private theorem eq_of_isDecorators {dialect : Dialect} {first second : Plugin}
    (hasFirst : first ∈ dialect) (hasSecond : second ∈ dialect)
    (firstDecorators : first.isDecorators = true)
    (secondDecorators : second.isDecorators = true) : first = second := by
  have apart : dialect.plugins.Pairwise fun first second =>
      first.isDecorators = true → second.isDecorators = true → first = second := by
    refine dialect.compatible.imp ?_
    intro first second compatible firstDecorators secondDecorators
    exact absurd ⟨firstDecorators, secondDecorators⟩ compatible.2
  have apartBack : dialect.plugins.Pairwise fun first second =>
      second.isDecorators = true → first.isDecorators = true → second = first :=
    apart.imp fun same secondDecorators firstDecorators =>
      (same firstDecorators secondDecorators).symm
  exact apart.forall_of_forall_of_flip (fun _ _ _ _ => rfl) apartBack hasFirst hasSecond
    firstDecorators secondDecorators

theorem decorators?_eq_some_iff (dialect : Dialect) (plugin : Plugin) :
    dialect.decorators? = some plugin ↔ plugin ∈ dialect ∧ plugin.isDecorators = true := by
  constructor
  · intro found
    exact ⟨List.mem_of_find?_eq_some found, List.find?_some found⟩
  · intro convention
    cases found : dialect.decorators? with
    | none => exact absurd convention.2 (List.find?_eq_none.mp found plugin convention.1)
    | some other =>
        have same := eq_of_isDecorators (List.mem_of_find?_eq_some found) convention.1
          (List.find?_some found) convention.2
        rw [same]

theorem grammar_eq_javascript_iff (dialect : Dialect) :
    dialect.grammar = .javascript ↔ .typescript ∉ dialect ∧ .flow ∉ dialect := by
  rw [grammar, ← not_or]
  by_cases typed : .typescript ∈ dialect ∨ .flow ∈ dialect
  · rw [if_pos typed]
    split <;> simp [typed]
  · simp [typed]

theorem grammar_eq_of_same {first second : Dialect}
    (same : ∀ plugin, plugin ∈ first ↔ plugin ∈ second) : first.grammar = second.grammar := by
  simp only [grammar, same]

/-! ## Inclusion -/

section Inclusion

variable {plainer richer : Dialect} (included : ∀ plugin ∈ plainer, plugin ∈ richer)

include included

/-- A dialect has one convention for decorators at most, so including it means having the same. -/
theorem decorators?_of_included {plugin : Plugin} (convention : plainer.decorators? = some plugin) :
    richer.decorators? = some plugin := by
  rw [decorators?_eq_some_iff] at convention ⊢
  exact ⟨included plugin convention.1, convention.2⟩

theorem covers_of_included (sameGrammar : plainer.grammar = richer.grammar) :
    richer.Covers plainer where
  extensions plugin _ := included plugin
  fields := Or.imp (included _) (included _)
  staticTypes := by
    intro allowed
    by_cases typed : .typescript ∈ plainer
    · exact .inl (included _ typed)
    · -- Without static types and Flow the grammar is the untyped one, which hosts no Flow.
      have untyped := (grammar_eq_javascript_iff plainer).mpr ⟨typed, allowed.resolve_left typed⟩
      rw [sameGrammar, grammar_eq_javascript_iff] at untyped
      exact .inr untyped.2
  decorators placement _ admitted := by
    cases convention : plainer.decorators? with
    | none => simp [Feature.decoratorProblem?, convention] at admitted
    | some plugin =>
        have same := (decorators?_of_included included convention).trans convention.symm
        unfold Feature.decoratorProblem? at admitted ⊢
        rw [same]
        exact admitted

end Inclusion

end Dialect

/-! ## Refusals -/

namespace Tree

private theorem exists_findIdx?_le {Item : Type} {weaker stronger : Item → Bool}
    (implies : ∀ item, stronger item = true → weaker item = true) {items : List Item}
    {number : Nat} (found : items.findIdx? stronger = some number) :
    ∃ earlier ≤ number, items.findIdx? weaker = some earlier := by
  rcases List.findIdx?_eq_some_iff_getElem.mp found with ⟨inside, holds, -⟩
  cases first : items.findIdx? weaker with
  | none =>
      have never := List.findIdx?_eq_none_iff.mp first _ (List.getElem_mem inside)
      rw [implies _ holds] at never
      cases never
  | some earlier =>
      refine ⟨earlier, Nat.le_of_not_lt fun later => ?_, rfl⟩
      rcases List.findIdx?_eq_some_iff_getElem.mp first with ⟨_, _, notBefore⟩
      exact notBefore number later (implies _ holds)

variable {source : Text} {options : ParseOptions} {tree : Tree} {plainer richer : Dialect}

/-- A dialect that covers another refuses no tree at an earlier node. -/
theorem exists_refusedNumber?_le_of_covers (covers : richer.Covers plainer) {number : Nat}
    (refused : tree.refusedNumber? source richer options = some number) :
    ∃ earlier ≤ number, tree.refusedNumber? source plainer options = some earlier := by
  rw [refusedNumber?] at refused ⊢
  by_cases hasError : tree.root.hasError = true
  · rw [if_pos hasError] at refused ⊢
    exact ⟨number, Nat.le_refl _, refused⟩
  · rw [if_neg hasError] at refused ⊢
    refine exists_findIdx?_le ?_ refused
    intro site uses
    cases admitted : site.problem? source
        ⟨plainer, options, tree.sourceKind options.sourceType⟩ with
    | some problem => rfl
    | none =>
        rw [Site.problem?_eq_none_of_covers covers admitted] at uses
        cases uses

theorem exists_refusedAt_le_of_covers (covers : richer.Covers plainer) {diagnostic : Diagnostic}
    (refused : tree.fit source richer options = .error diagnostic) :
    ∃ number site earlier other, tree.RefusedAt source richer options number site ∧
      tree.RefusedAt source plainer options earlier other ∧ earlier ≤ number := by
  rcases exists_refusedAt refused with ⟨number, site, refusedAt⟩
  have refusedToo : ∃ other, tree.fit source plainer options = .error other := by
    cases fits : tree.fit source plainer options with
    | error other => exact ⟨other, rfl⟩
    | ok sourceKind =>
        rw [fit_of_covers covers fits] at refused
        cases refused
  rcases refusedToo with ⟨_, refusedToo⟩
  rcases exists_refusedAt refusedToo with ⟨earlier, other, otherAt⟩
  rcases exists_refusedNumber?_le_of_covers covers refusedAt.first with ⟨first, bound, isFirst⟩
  have same := Option.some.inj (isFirst.symm.trans otherAt.first)
  exact ⟨number, site, earlier, other, refusedAt, otherAt, same ▸ bound⟩

end Tree

/-! ## More plugins accept more -/

namespace Resolution

variable {source : Text} {options : ParseOptions} {tree : Tree} {plainer richer : Dialect}

theorem attempt_of_covers (covers : richer.Covers plainer) {resolution : Resolution}
    (success : attempt source options plainer (some tree) = .ok resolution) :
    attempt source options richer (some tree) = .ok { resolution with dialect := richer } := by
  rw [attempt] at success ⊢
  cases fits : tree.fit source plainer options with
  | error diagnostic => rw [fits] at success; cases success
  | ok sourceKind =>
      rw [fits] at success
      rw [Tree.fit_of_covers covers fits]
      cases success
      rfl

/-- A dialect that includes another one of the same grammar accepts every tree that the other
accepts, with the same result, and is refused at no earlier node. The order of plugins does not
matter. -/
theorem acceptance_grows_with_plugins (source : Text) (options : ParseOptions) (tree : Tree) :
    (∀ plainer richer : Dialect, plainer.grammar = richer.grammar →
      (∀ plugin ∈ plainer, plugin ∈ richer) →
      (∀ sourceKind, tree.fit source plainer options = .ok sourceKind →
        tree.fit source richer options = .ok sourceKind) ∧
      (∀ resolution, attempt source options plainer (some tree) = .ok resolution →
        attempt source options richer (some tree) = .ok { resolution with dialect := richer }) ∧
      (∀ diagnostic, tree.fit source richer options = .error diagnostic →
        ∃ number site earlier other, tree.RefusedAt source richer options number site ∧
          tree.RefusedAt source plainer options earlier other ∧ earlier ≤ number)) ∧
    (∀ first second : Dialect, first.plugins.Perm second.plugins →
      first.grammar = second.grammar ∧
        ∀ sourceKind, tree.fit source first options = .ok sourceKind ↔
          tree.fit source second options = .ok sourceKind) := by
  constructor
  · intro plainer richer sameGrammar included
    have covers := Dialect.covers_of_included included sameGrammar
    exact ⟨fun _ fits => Tree.fit_of_covers covers fits,
      fun _ success => attempt_of_covers covers success,
      fun _ refused => Tree.exists_refusedAt_le_of_covers covers refused⟩
  · intro first second reordered
    have same : ∀ plugin, plugin ∈ first ↔ plugin ∈ second := fun _ => reordered.mem_iff
    have sameGrammar := Dialect.grammar_eq_of_same same
    have forward := Dialect.covers_of_included (fun plugin => (same plugin).mp) sameGrammar
    have back := Dialect.covers_of_included (fun plugin => (same plugin).mpr) sameGrammar.symm
    exact ⟨sameGrammar, fun _ => ⟨Tree.fit_of_covers forward, Tree.fit_of_covers back⟩⟩

def annotatedSource : Text := "enum E{} @d class A{}".toList

def annotatedTree : Tree :=
  .node ⟨"program", true, false, false, false, ⟨0, 21⟩, []⟩ <| .ofList [
    .node ⟨"enum_declaration", true, false, false, false, ⟨0, 8⟩, []⟩ .nil,
    .node ⟨"class_declaration", true, false, false, false, ⟨9, 21⟩, []⟩ <| .ofList [
      .node ⟨"decorator", true, false, false, false, ⟨9, 11⟩, []⟩ .nil]]

theorem acceptance_grows_annotatedTree :
    (Dialect.ofList [.jsx, .flow]).grammar = (Dialect.ofList [.flow, .typescript, .jsx]).grammar ∧
      (∀ plugin ∈ Dialect.ofList [.jsx, .flow],
        plugin ∈ Dialect.ofList [.flow, .typescript, .jsx]) ∧
      (∃ diagnostic, annotatedTree.fit annotatedSource (.ofList [.flow, .typescript, .jsx]) {} =
        .error diagnostic) ∧
      (∃ number site earlier other,
        annotatedTree.RefusedAt annotatedSource (.ofList [.flow, .typescript, .jsx]) {} number
            site ∧
          annotatedTree.RefusedAt annotatedSource (.ofList [.jsx, .flow]) {} earlier other ∧
          earlier ≤ number) ∧
      (Dialect.ofList [.jsx, .typescript, .decoratorsLegacy]).plugins.Perm
        (Dialect.ofList [.decoratorsLegacy, .jsx, .typescript]).plugins ∧
      annotatedTree.fit annotatedSource (.ofList [.jsx, .typescript, .decoratorsLegacy]) {} =
        .ok .script ∧
      annotatedTree.fit annotatedSource (.ofList [.decoratorsLegacy, .jsx, .typescript]) {} =
        .ok .script := by
  rcases acceptance_grows_with_plugins annotatedSource {} annotatedTree with ⟨grows, reorders⟩
  have sameGrammar : (Dialect.ofList [.jsx, .flow]).grammar =
      (Dialect.ofList [.flow, .typescript, .jsx]).grammar := by
    decide
  have included : ∀ plugin ∈ (Dialect.ofList [.jsx, .flow]).plugins,
      plugin ∈ (Dialect.ofList [.flow, .typescript, .jsx]).plugins := by
    decide
  have refused : annotatedTree.fit annotatedSource (.ofList [.flow, .typescript, .jsx]) {} =
      .error ⟨.requiresDecorators, 9, 1, 9⟩ := by
    rw [Tree.fit, if_neg (by decide)]
    dsimp only
    rw [Tree.fitFeatures_eq]
    rfl
  have reordered : (Dialect.ofList [.jsx, .typescript, .decoratorsLegacy]).plugins.Perm
      (Dialect.ofList [.decoratorsLegacy, .jsx, .typescript]).plugins := by
    decide
  have fits : annotatedTree.fit annotatedSource
      (.ofList [.jsx, .typescript, .decoratorsLegacy]) {} = .ok .script := by
    rw [Tree.fit_eq_ok_iff]
    decide
  rcases grows _ _ sameGrammar included with ⟨_, _, refusals⟩
  exact ⟨sameGrammar, included, ⟨_, refused⟩, refusals _ refused, reordered, fits,
    ((reorders _ _ reordered).2 _).mp fits⟩

end Resolution

end Uncomment

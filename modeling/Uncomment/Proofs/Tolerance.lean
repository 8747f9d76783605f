import Uncomment.Proofs.SeparateSearches

/-! # More tolerant options

Options tolerate what others tolerate when they allow all that the others allow and are no less
ready to take a source for a module. They never refuse what the others accept. -/

namespace Uncomment

/-! ## Comparing options -/

def SourceType.rank : SourceType → Nat
  | .script => 0
  | .unambiguous => 1
  | .module => 2

namespace ParseOptions

structure Tolerates (tolerant strict : ParseOptions) : Prop where
  outerAwait : strict.allowAwaitOutsideFunction = true → tolerant.allowAwaitOutsideFunction = true
  outerReturn :
    strict.allowReturnOutsideFunction = true → tolerant.allowReturnOutsideFunction = true
  nestedModuleSyntax :
    strict.allowImportExportEverywhere = true → tolerant.allowImportExportEverywhere = true
  sourceType : strict.sourceType.rank ≤ tolerant.sourceType.rank

variable {tolerant strict : ParseOptions}

theorem Tolerates.script_of_script (tolerates : tolerant.Tolerates strict)
    (script : tolerant.sourceType = .script) : strict.sourceType = .script := by
  have rank := tolerates.sourceType
  rw [script] at rank
  cases type : strict.sourceType with
  | script => rfl
  | unambiguous | module =>
      rw [type] at rank
      cases rank

end ParseOptions

/-! ## Kinds of source -/

theorem Forest.mem_sitesBelow_of_mem {child : Tree} (ancestors : List Tree) :
    ∀ forest : Forest, child ∈ forest.toList → ⟨child, ancestors⟩ ∈ forest.sitesBelow ancestors
  | .nil, member => nomatch member
  | .cons (.node root children) rest, member => by
      rcases List.mem_cons.mp member with rfl | member
      · exact List.mem_append_left _ List.mem_cons_self
      · exact List.mem_append_right _ (mem_sitesBelow_of_mem ancestors rest member)

theorem Tree.mem_sites_of_mem_children {tree child : Tree} (member : child ∈ tree.children) :
    ⟨child, [tree]⟩ ∈ tree.sites := by
  cases tree with
  | node root children =>
      exact List.mem_cons_of_mem _ (Forest.mem_sitesBelow_of_mem _ children member)

/-- An `import` or an `export` is module syntax wherever it stands. -/
theorem Site.feature?_of_moduleSyntax (source : Text) {site : Site}
    (kind : site.kind ∈ ["import_statement", "export_statement"]) :
    site.feature? source = some (.moduleSyntax (site.hasParentOfKind "program")) := by
  simp only [List.mem_cons, List.not_mem_nil, or_false] at kind
  have nodeKind : site.node.kind = site.kind := rfl
  rcases kind with kind | kind <;>
    simp [feature?, Node.isTypescriptOnly, nodeKind, kind]

namespace Tree

variable {source : Text} {dialect : Dialect} {tolerant strict : ParseOptions} {tree : Tree}
  {sourceKind : SourceKind}

private theorem isModule_eq_false_of_fit (script : strict.sourceType = .script)
    (fits : tree.fit source dialect strict = .ok sourceKind) : tree.isModule = false := by
  rw [isModule, List.any_eq_false]
  intro child member isModuleSyntax
  rw [Bool.and_eq_true, List.contains_iff_mem] at isModuleSyntax
  have admitted := ((fit_eq_ok_iff _ _ _ _ _).mp fits).2.2 _ (mem_sites_of_mem_children member)
  have feature : Site.feature? source ⟨child, [tree]⟩ = some (.moduleSyntax _) :=
    Site.feature?_of_moduleSyntax source isModuleSyntax.2
  rw [Site.problem?, feature, Option.bind_some, Feature.problem?, if_pos script] at admitted
  cases admitted

/-- The kind of a source that fits changes only when the source is taken for a module. -/
theorem sourceKind_of_tolerates (tolerates : tolerant.Tolerates strict)
    (fits : tree.fit source dialect strict = .ok sourceKind) :
    tree.sourceKind tolerant.sourceType = sourceKind ∨ tolerant.sourceType = .module := by
  have kind := ((fit_eq_ok_iff _ _ _ _ _).mp fits).2.1
  rw [kind]
  cases type : tolerant.sourceType with
  | module => exact .inr rfl
  | script => rw [tolerates.script_of_script type]; exact .inl rfl
  | unambiguous =>
      refine .inl ?_
      cases strictType : strict.sourceType with
      | unambiguous => rfl
      | script =>
          simp [Tree.sourceKind, isModule_eq_false_of_fit strictType fits]
      | module =>
          have rank := tolerates.sourceType
          rw [type, strictType] at rank
          cases Nat.le_of_succ_le_succ rank

end Tree

/-! ## Tolerated features -/

theorem Feature.problem?_eq_none_of_tolerates {tolerant strict : ParseOptions}
    (tolerates : tolerant.Tolerates strict) {dialect : Dialect} {before after : SourceKind}
    (staysModule : before = .module → after = .module) {feature : Feature}
    (admitted : feature.problem? ⟨dialect, strict, before⟩ = none) :
    feature.problem? ⟨dialect, tolerant, after⟩ = none := by
  cases feature with
  | outerAwait =>
      rw [problem?, refuseUnless_eq_none_iff] at admitted ⊢
      exact admitted.imp tolerates.outerAwait (And.imp_right staysModule)
  | outerReturn =>
      rw [problem?, refuseUnless_eq_none_iff] at admitted ⊢
      exact tolerates.outerReturn admitted
  | moduleSyntax atTopLevel =>
      rw [problem?] at admitted ⊢
      by_cases script : strict.sourceType = .script
      · rw [if_pos script] at admitted
        cases admitted
      · rw [if_neg script, refuseUnless_eq_none_iff] at admitted
        rw [if_neg fun after => script (tolerates.script_of_script after),
          refuseUnless_eq_none_iff]
        exact admitted.imp_right tolerates.nestedModuleSyntax
  | extension _ | publicField | decorator _ | typescriptOnly _ => exact admitted

theorem Tree.fit_of_tolerates {source : Text} {dialect : Dialect}
    {tolerant strict : ParseOptions} {tree : Tree} {sourceKind : SourceKind}
    (tolerates : tolerant.Tolerates strict)
    (fits : tree.fit source dialect strict = .ok sourceKind) :
    tree.fit source dialect tolerant = .ok (tree.sourceKind tolerant.sourceType) := by
  have staysModule : sourceKind = .module → tree.sourceKind tolerant.sourceType = .module := by
    intro isModule
    rcases sourceKind_of_tolerates tolerates fits with same | taken
    · exact same.trans isModule
    · rw [taken]
      rfl
  rw [fit_eq_ok_iff] at fits ⊢
  refine ⟨fits.1, rfl, fun site member => ?_⟩
  have admitted := fits.2.2 site member
  rw [Site.problem?, Option.bind_eq_none_iff] at admitted ⊢
  intro feature used
  exact Feature.problem?_eq_none_of_tolerates tolerates staysModule (admitted feature used)

/-! ## Searches -/

theorem Dialect.nodup_defaults : Dialect.defaults.Nodup := by
  decide +kernel

namespace Resolution

variable {parse : Parser} {source : Text} {tolerant strict : ParseOptions}

theorem accepts_of_tolerates (tolerates : tolerant.Tolerates strict) {dialect : Dialect}
    (accepted : Accepts parse source strict dialect) : Accepts parse source tolerant dialect := by
  rcases accepted with ⟨tree, sourceKind, parsed, fits⟩
  exact ⟨tree, _, parsed, Tree.fit_of_tolerates tolerates fits⟩

theorem exists_winner_of_tolerates (tolerates : tolerant.Tolerates strict)
    {resolution : Resolution} (found : find parse source none strict = .ok resolution) :
    ∃ winner, find parse source none tolerant = .ok winner ∧
      winner.dialect ∈ Dialect.defaults ∧
      Dialect.defaults.idxOf winner.dialect ≤ Dialect.defaults.idxOf resolution.dialect := by
  rcases find_none_eq_ok found with ⟨number, isNumber, accepted, -⟩
  have acceptedToo := accepts_of_tolerates tolerates accepted
  rcases exists_find_none_of_accepts (List.mem_of_getElem? isNumber) acceptedToo with
    ⟨winner, foundToo⟩
  rcases find_none_eq_ok foundToo with ⟨place, isPlace, -, refused⟩
  have inFront : place ≤ number := Nat.le_of_not_lt fun later =>
    refused number later resolution.dialect isNumber acceptedToo
  have idxOf : ∀ index dialect, Dialect.defaults[index]? = some dialect →
      Dialect.defaults.idxOf dialect = index := by
    intro index dialect isIndex
    rcases List.getElem?_eq_some_iff.mp isIndex with ⟨inside, rfl⟩
    exact Dialect.nodup_defaults.idxOf_getElem index inside
  refine ⟨winner, foundToo, List.mem_of_getElem? isPlace, ?_⟩
  rw [idxOf _ _ isPlace, idxOf _ _ isNumber]
  exact inFront

/-- Options that tolerate more accept what strict ones accept, and the kind of the source changes
only when it is then taken for a module. A default search that succeeds under strict options
succeeds under tolerant ones, at the same place of the list or an earlier one. -/
theorem acceptance_grows_with_tolerance (tolerant strict : ParseOptions)
    (tolerates : tolerant.Tolerates strict) :
    (∀ (source : Text) (dialect : Dialect) (tree : Tree) (sourceKind : SourceKind),
      tree.fit source dialect strict = .ok sourceKind →
        ∃ other, tree.fit source dialect tolerant = .ok other ∧
          (other = sourceKind ∨ tolerant.sourceType = .module)) ∧
    (∀ parse source resolution, find parse source none strict = .ok resolution →
      ∃ winner, find parse source none tolerant = .ok winner ∧
        winner.dialect ∈ Dialect.defaults ∧
        Dialect.defaults.idxOf winner.dialect ≤ Dialect.defaults.idxOf resolution.dialect) :=
  ⟨fun _ _ _ _ fits => ⟨_, Tree.fit_of_tolerates tolerates fits,
      Tree.sourceKind_of_tolerates tolerates fits⟩,
    fun _ _ _ found => exists_winner_of_tolerates tolerates found⟩

def awaitingParser : Parser
  | _, .javascript => some (.node ⟨"program", true, false, false, false, ⟨0, 0⟩, []⟩ .nil)
  | _, _ => some <| .node ⟨"program", true, false, false, false, ⟨0, 0⟩, []⟩ <| .ofList [
      .node ⟨"await_expression", true, false, false, false, ⟨0, 0⟩, []⟩ .nil]

theorem acceptance_grows_awaitingParser :
    ParseOptions.Tolerates ⟨.module, false, false, false⟩ ⟨.script, false, false, false⟩ ∧
      ∃ resolution winner,
        find awaitingParser [] none ⟨.script, false, false, false⟩ = .ok resolution ∧
        Dialect.defaults.idxOf resolution.dialect = 2 ∧
        find awaitingParser [] none ⟨.module, false, false, false⟩ = .ok winner ∧
        Dialect.defaults.idxOf winner.dialect ≤ 2 := by
  have tolerates : ParseOptions.Tolerates ⟨.module, false, false, false⟩
      ⟨.script, false, false, false⟩ :=
    ⟨id, id, id, by decide⟩
  let tree : Tree := .node ⟨"program", true, false, false, false, ⟨0, 0⟩, []⟩ .nil
  let dialect : Dialect := .ofList (.decorators true :: .jsx :: Plugin.common)
  have fits : tree.fit [] dialect ⟨.script, false, false, false⟩ = .ok .script := by
    rw [Tree.fit_eq_ok_iff]
    decide
  have alone : find awaitingParser [] (some dialect) ⟨.script, false, false, false⟩ =
      .ok ⟨dialect, tree, .script, tree.comments []⟩ := by
    rw [find_some_eq_ok_iff, attemptAfresh_eq_ok_iff]
    exact ⟨tree, .script, rfl, fits, rfl⟩
  have refused : ∀ earlier ∈ Dialect.defaults.take 2, ∃ failure,
      find awaitingParser [] (some earlier) ⟨.script, false, false, false⟩ = .error failure := by
    intro earlier member
    have unfit : ∀ tree ∈ awaitingParser [] earlier.grammar, ∃ site ∈ tree.sites,
        site.problem? [] ⟨earlier, ⟨.script, false, false, false⟩, .script⟩ ≠ none := by
      revert earlier
      decide
    cases tried : find awaitingParser [] (some earlier) ⟨.script, false, false, false⟩ with
    | error failure => exact ⟨failure, rfl⟩
    | ok resolution =>
        rw [find_some_eq_ok_iff, attemptAfresh_eq_ok_iff] at tried
        rcases tried with ⟨tree, sourceKind, parsed, fits, -⟩
        rcases unfit tree parsed with ⟨site, member, problem⟩
        rcases (Tree.fit_eq_ok_iff _ _ _ _ _).mp fits with ⟨-, rfl, admitted⟩
        exact absurd (admitted site member) problem
  have found := (findSeparately_eq_ok_iff Dialect.defaults _).mpr
    ⟨Dialect.defaults.take 2, dialect, Dialect.defaults.drop 3, rfl, alone, refused⟩
  rw [← find_none_eq_findSeparately] at found
  have place : Dialect.defaults.idxOf dialect = 2 := by decide +kernel
  rcases (acceptance_grows_with_tolerance _ _ tolerates).2 _ _ _ found with
    ⟨winner, foundToo, -, inFront⟩
  exact ⟨tolerates, _, winner, found, place, foundToo, place ▸ inFront⟩

end Resolution

end Uncomment

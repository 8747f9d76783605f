import Uncomment.Dialect.Preset
import Uncomment.Proofs.DefaultSearch
import Uncomment.Proofs.SeparateSearches
import Uncomment.Proofs.Stripping

/-! # Presets and the default search

Every preset is a default dialect, so what a preset strips is stripped without one too. The results
are the same where the preset has types and standard decorators: such a dialect shares its grammar
with the first default dialect, and the first one covers it. -/

namespace Uncomment

/-! ## Searches that a preset settles -/

theorem Preset.dialect_mem_defaults (preset : Preset) (legacy : Bool) :
    preset.dialect legacy ∈ Dialect.defaults := by
  cases preset <;> cases legacy <;> decide +kernel

namespace Resolution

variable {parse : Parser} {source : Text} {options : ParseOptions}

theorem not_accepts_of_problem {dialect : Dialect} {tree : Tree} {site : Site}
    (parsed : parse source dialect.grammar = some tree) (member : site ∈ tree.sites)
    (problem : site.problem? source ⟨dialect, options, tree.sourceKind options.sourceType⟩ ≠ none) :
    ¬Accepts parse source options dialect := by
  intro accepted
  rcases accepted with ⟨other, sourceKind, parsedToo, fits⟩
  rw [parsed] at parsedToo
  cases parsedToo
  rcases (Tree.fit_eq_ok_iff _ _ _ _ _).mp fits with ⟨-, rfl, admitted⟩
  exact problem (admitted site member)

private theorem winner_of_acceptsDefault_zero (accepted : AcceptsDefault parse source options 0) :
    ∃ winner, find parse source none options = .ok winner ∧
      Dialect.defaults[0]? = some winner.dialect := by
  rcases accepted with ⟨dialect, number, accepts⟩
  rcases exists_find_none_of_accepts (List.mem_of_getElem? number) accepts with ⟨winner, found⟩
  rcases exists_winner found with ⟨place, -, isPlace, refused⟩
  have first : place = 0 := Nat.eq_zero_of_not_pos fun later =>
    refused 0 later ⟨dialect, number, accepts⟩
  exact ⟨winner, found, first ▸ isPlace⟩

/-- The first default dialect answers for all that it covers under its own grammar: their trees are
the same, and so are the comments. -/
theorem find_none_of_covered {plainer : Nat} {dialect : Dialect}
    (covers : Dialect.DefaultCovers 0 plainer)
    (number : Dialect.defaults[plainer]? = some dialect) {resolution : Resolution}
    (found : find parse source (some dialect) options = .ok resolution) :
    ∃ winner, find parse source none options = .ok winner ∧
      winner.tree = resolution.tree ∧ winner.comments = resolution.comments := by
  have accepted : AcceptsDefault parse source options plainer :=
    ⟨dialect, number, (accepts_iff_find_some dialect).mpr ⟨resolution, found⟩⟩
  rcases winner_of_acceptsDefault_zero (acceptsDefault_of_covers covers accepted) with
    ⟨winner, foundToo, first⟩
  have sameGrammar : winner.dialect.grammar = resolution.dialect.grammar := by
    rcases covers with ⟨rich, isFirst, plain, isNumber, sameGrammar, -⟩
    rw [dialect_of_find_some found, ← Option.mem_unique isFirst first,
      ← Option.mem_unique isNumber number, sameGrammar]
  rcases parse_of_find found with ⟨parsed, comments⟩
  rcases parse_of_find foundToo with ⟨parsedToo, commentsToo⟩
  have sameTree : winner.tree = resolution.tree := by
    rw [sameGrammar, parsed] at parsedToo
    exact (Option.some.inj parsedToo).symm
  exact ⟨winner, foundToo, sameTree, by rw [comments, commentsToo, sameTree]⟩

end Resolution

/-! ## Stripping with a preset -/

theorem strip_of_find {parse : Parser} {source : Text} {options : StripOptions}
    {resolution : Resolution}
    (found : Resolution.find parse source options.dialect options.parse = .ok resolution) :
    strip parse source options = .ok (.byErasure source resolution.comments) := by
  rw [← Stripped.ofComments_eq_byErasure, strip, found]

namespace Preset

def typed : List Preset :=
  [.typescript, .flow]

variable {preset : Preset} {parse : Parser} {source : Text} {options : StripOptions}
  {stripped : Stripped}

theorem defaultCovers_of_typed (isTyped : preset ∈ typed) :
    ∃ number, Dialect.DefaultCovers 0 number ∧
      Dialect.defaults[number]? = some (preset.dialect false) := by
  simp only [typed, List.mem_cons, List.not_mem_nil, or_false] at isTyped
  rcases isTyped with rfl | rfl
  · exact ⟨0, by decide +kernel, by decide +kernel⟩
  · exact ⟨1, Dialect.defaultCovers_of_mem (0, 1) (by decide), by decide +kernel⟩

theorem exists_strip_of_preset {legacy : Bool}
    (succeeds : strip parse source { options with dialect := some (preset.dialect legacy) } =
      .ok stripped) :
    ∃ other, strip parse source { options with dialect := none } = .ok other := by
  rcases exists_find_of_strip succeeds with ⟨resolution, found, -⟩
  have accepts : Resolution.Accepts parse source options.parse (preset.dialect legacy) :=
    (Resolution.accepts_iff_find_some _).mpr ⟨resolution, found⟩
  rcases Resolution.exists_find_none_of_accepts (preset.dialect_mem_defaults legacy) accepts
    with ⟨winner, foundToo⟩
  exact ⟨_, strip_of_find foundToo⟩

theorem strip_of_typed (isTyped : preset ∈ typed)
    (succeeds : strip parse source { options with dialect := some (preset.dialect false) } =
      .ok stripped) :
    strip parse source { options with dialect := none } = .ok stripped := by
  rcases exists_find_of_strip succeeds with ⟨resolution, found, rfl⟩
  rcases defaultCovers_of_typed isTyped with ⟨number, covers, isNumber⟩
  rcases Resolution.find_none_of_covered covers isNumber found with
    ⟨winner, foundToo, -, comments⟩
  rw [strip_of_find foundToo, comments]

/-! ## Where the results differ -/

/-- The default search gives the same result as a preset, whatever the parser. -/
def Agrees (preset : Preset) (legacy : Bool) : Prop :=
  ∀ (parse : Parser) (source : Text) (options : StripOptions) (stripped : Stripped),
    strip parse source { options with dialect := some (preset.dialect legacy) } = .ok stripped →
      strip parse source { options with dialect := none } = .ok stripped

def decoratedTree : Tree :=
  .node ⟨"program", true, false, false, false, ⟨0, 2⟩, []⟩ <| .ofList [
    .node ⟨"export_statement", true, false, false, false, ⟨0, 0⟩, []⟩ <| .ofList [
      .node ⟨"class_declaration", true, false, false, false, ⟨0, 0⟩, []⟩ <| .ofList [
        .node ⟨"decorator", true, false, false, false, ⟨0, 0⟩, []⟩ .nil]],
    .node ⟨"comment", true, false, false, false, ⟨0, 2⟩, []⟩ .nil]

def untypedCommentParser : Parser
  -- Only the untyped grammar sees a comment.
  | _, .javascript => some commentTree
  | _, _ => some (plainTree ['/', '/'])

def typedDecoratorParser : Parser
  -- Only the typed grammars see the decorator and the comment.
  | _, .javascript => some (plainTree ['/', '/'])
  | _, _ => some decoratedTree

private theorem not_agrees_of_untyped (untyped : preset ∉ typed) (legacy : Bool) :
    ¬preset.Agrees legacy := by
  intro agrees
  have grammar : (preset.dialect legacy).grammar = .javascript := by
    revert untyped
    cases preset <;> cases legacy <;> decide
  have parsed : untypedCommentParser ['/', '/'] (preset.dialect legacy).grammar =
      some commentTree := by
    rw [grammar]
    rfl
  have withPreset := agrees untypedCommentParser _ {} _ (strip_slashes rfl parsed rfl)
  have bareStrips : strip untypedCommentParser ['/', '/']
      { dialect := some (dialect .typescript false) } = .ok ⟨['/', '/'], 0, 0, []⟩ :=
    strip_plain rfl rfl rfl
  have withTypes := @strip_of_typed .typescript _ _ {} _ List.mem_cons_self bareStrips
  cases withPreset.symm.trans withTypes

private theorem not_accepts_typedDecoratorParser {number : Nat} (inFront : number < 2)
    {dialect : Dialect} (isNumber : Dialect.defaults[number]? = some dialect) :
    ¬Resolution.Accepts typedDecoratorParser ['/', '/'] {} dialect := by
  have decorated : ∀ number < 2, ∀ dialect ∈ Dialect.defaults[number]?, dialect.grammar = .tsx ∧
      ∃ site ∈ decoratedTree.sites, site.problem? ['/', '/'] ⟨dialect, {}, .module⟩ ≠ none := by
    decide +kernel
  rcases decorated number inFront dialect isNumber with ⟨grammar, site, member, problem⟩
  exact Resolution.not_accepts_of_problem (by rw [grammar]; rfl) member problem

private theorem comments_of_typedDecoratorParser {winner : Resolution}
    (found : Resolution.find typedDecoratorParser ['/', '/'] none {} = .ok winner) :
    winner.comments = [] := by
  rcases Resolution.find_none_eq_ok found with ⟨number, isNumber, accepted, refused⟩
  have markup : Resolution.Accepts typedDecoratorParser ['/', '/'] {} (dialect .jsx false) :=
    ⟨plainTree ['/', '/'], .script, rfl, fit_plainTree _ _⟩
  have second : Dialect.defaults[2]? = some (dialect .jsx false) := by decide +kernel
  have place : number = 2 := by
    have notLater : ¬2 < number := fun later => refused 2 later _ second markup
    have notEarlier : ¬number < 2 := fun earlier =>
      not_accepts_typedDecoratorParser earlier isNumber accepted
    omega
  subst place
  rcases Resolution.parse_of_find found with ⟨parsed, comments⟩
  have bare : some (plainTree ['/', '/']) = some winner.tree := by
    rw [← parsed, ← Option.some.inj (second.symm.trans isNumber)]
    rfl
  rw [comments, ← Option.some.inj bare, Tree.comments_eq]
  decide

private theorem not_agrees_of_legacy (isTyped : preset ∈ typed) : ¬preset.Agrees true := by
  intro agrees
  have fits : (preset.dialect true).grammar = .tsx ∧
      decoratedTree.fit ['/', '/'] (preset.dialect true) {} = .ok .module := by
    rw [Tree.fit_eq_ok_iff]
    revert isTyped
    cases preset <;> decide +kernel
  have parsed : typedDecoratorParser ['/', '/'] (preset.dialect true).grammar =
      some decoratedTree := by
    rw [fits.1]
    rfl
  have withPreset := agrees _ _ {} _ (strip_of_fit rfl parsed fits.2)
  rcases exists_find_of_strip withPreset with ⟨winner, found, same⟩
  have count := congrArg Stripped.commentCount same
  rw [Stripped.byErasure, Stripped.byErasure, comments_of_typedDecoratorParser found,
    Tree.comments_eq] at count
  revert count
  decide

theorem agrees_iff (legacy : Bool) : preset.Agrees legacy ↔ preset ∈ typed ∧ legacy = false := by
  constructor
  · intro agrees
    by_cases isTyped : preset ∈ typed
    · cases legacy with
      | false => exact ⟨isTyped, rfl⟩
      | true => exact absurd agrees (not_agrees_of_legacy isTyped)
    · exact absurd agrees (not_agrees_of_untyped isTyped legacy)
  · rintro ⟨isTyped, rfl⟩
    exact fun _ _ _ _ => strip_of_typed isTyped

/-- What a preset strips, the default search strips too. Whatever the parser, the results are the
same for the presets with types when their decorators are the standard ones, and for no others. -/
theorem presets_agree_with_default_search (preset : Preset) (legacy : Bool) :
    (∀ (parse : Parser) (source : Text) (options : StripOptions) (stripped : Stripped),
      strip parse source { options with dialect := some (preset.dialect legacy) } =
          .ok stripped →
        ∃ other, strip parse source { options with dialect := none } = .ok other) ∧
    (preset.Agrees legacy ↔ preset ∈ [.typescript, .flow] ∧ legacy = false) :=
  ⟨fun _ _ _ _ succeeds => exists_strip_of_preset succeeds, agrees_iff legacy⟩

theorem presets_agree_commentTree :
    strip (fun _ _ => some commentTree) ['/', '/'] { dialect := some (dialect .flow false) } =
        .ok ⟨[], 1, 2, [⟨0, 2⟩]⟩ ∧
      strip (fun _ _ => some commentTree) ['/', '/'] {} = .ok ⟨[], 1, 2, [⟨0, 2⟩]⟩ ∧
      ∃ other, strip untypedCommentParser ['/', '/'] {} = .ok other := by
  have flow : strip (fun _ _ => some commentTree) ['/', '/']
      { dialect := some (dialect .flow false) } = .ok ⟨[], 1, 2, [⟨0, 2⟩]⟩ :=
    strip_slashes rfl rfl rfl
  have minimal : strip untypedCommentParser ['/', '/']
      { dialect := some (dialect .minimal false) } = .ok ⟨[], 1, 2, [⟨0, 2⟩]⟩ :=
    strip_slashes rfl rfl rfl
  exact ⟨flow, (presets_agree_with_default_search .flow false).2.mpr ⟨by decide, rfl⟩ _ _ {} _ flow,
    (presets_agree_with_default_search .minimal false).1 _ _ {} _ minimal⟩

end Preset

end Uncomment

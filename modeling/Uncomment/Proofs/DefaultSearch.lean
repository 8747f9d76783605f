import Uncomment.Proofs.Search

/-! # The default search

Each default dialect but four is covered by an earlier one of the same grammar, so it never wins.
Two of them together cover all others: they alone decide whether a search succeeds. -/

namespace Uncomment

namespace Dialect

/-- One default dialect covers another of the same grammar. Both are given by their numbers. -/
def DefaultCovers (richer plainer : Nat) : Prop :=
  ∃ rich ∈ defaults[richer]?, ∃ plain ∈ defaults[plainer]?,
    rich.grammar = plain.grammar ∧ rich.Covers plain

instance (richer plainer : Nat) : Decidable (DefaultCovers richer plainer) :=
  inferInstanceAs (Decidable (∃ rich ∈ defaults[richer]?, ∃ plain ∈ defaults[plainer]?,
    rich.grammar = plain.grammar ∧ rich.Covers plain))

/-- Static types cover Flow, markup covers none, and a convention for decorators covers none. -/
theorem defaultCovers_of_mem :
    ∀ pair ∈ [(0, 1), (2, 3), (4, 5), (6, 7), (2, 8)],
      DefaultCovers pair.1 pair.2 := by
  decide +kernel

/-- Legacy decorators with static types cover every dialect for types, and legacy decorators with
markup cover every other one. -/
theorem defaultCovers_four_or_six :
    ∀ number < 9, DefaultCovers 4 number ∨ DefaultCovers 6 number := by
  decide +kernel

end Dialect

namespace Resolution

def AcceptsDefault (parse : Parser) (source : Text) (options : ParseOptions) (number : Nat) :
    Prop :=
  ∃ dialect ∈ Dialect.defaults[number]?, Accepts parse source options dialect

variable {parse : Parser} {source : Text} {options : ParseOptions}

theorem acceptsDefault_of_covers {richer plainer : Nat}
    (covers : Dialect.DefaultCovers richer plainer)
    (accepted : AcceptsDefault parse source options plainer) :
    AcceptsDefault parse source options richer := by
  rcases covers with ⟨rich, richNumber, plain, plainNumber, sameGrammar, covers⟩
  rcases accepted with ⟨dialect, number, accepted⟩
  have same : dialect = plain := Option.mem_unique number plainNumber
  subst same
  exact ⟨rich, richNumber, accepts_of_covers covers sameGrammar accepted⟩

theorem acceptsDefault_lt {number : Nat}
    (accepted : AcceptsDefault parse source options number) : number < 9 := by
  rcases accepted with ⟨dialect, found, -⟩
  exact (List.getElem?_eq_some_iff.mp found).1

theorem acceptsDefault_four_or_six {number : Nat}
    (accepted : AcceptsDefault parse source options number) :
    AcceptsDefault parse source options 4 ∨ AcceptsDefault parse source options 6 := by
  rcases Dialect.defaultCovers_four_or_six number (acceptsDefault_lt accepted) with typed | untyped
  · exact .inl (acceptsDefault_of_covers typed accepted)
  · exact .inr (acceptsDefault_of_covers untyped accepted)

private theorem exists_earlier_covers {number : Nat} (member : number ∈ [1, 3, 5, 7, 8]) :
    ∃ earlier < number, Dialect.DefaultCovers earlier number := by
  have covers := Dialect.defaultCovers_of_mem
  simp only [List.mem_cons, List.not_mem_nil, or_false] at member
  rcases member with rfl | rfl | rfl | rfl | rfl
  · exact ⟨0, by decide, covers (0, 1) (by decide)⟩
  · exact ⟨2, by decide, covers (2, 3) (by decide)⟩
  · exact ⟨4, by decide, covers (4, 5) (by decide)⟩
  · exact ⟨6, by decide, covers (6, 7) (by decide)⟩
  · exact ⟨2, by decide, covers (2, 8) (by decide)⟩

theorem exists_find_none_iff :
    (∃ resolution, find parse source none options = .ok resolution) ↔
      AcceptsDefault parse source options 4 ∨ AcceptsDefault parse source options 6 := by
  constructor
  · intro succeeds
    rcases succeeds with ⟨resolution, found⟩
    rcases find_none_eq_ok found with ⟨number, isNumber, accepted, -⟩
    exact acceptsDefault_four_or_six ⟨resolution.dialect, isNumber, accepted⟩
  · intro acceptsOne
    rcases acceptsOne with ⟨dialect, number, accepted⟩ | ⟨dialect, number, accepted⟩
    · exact exists_find_none_of_accepts (List.mem_of_getElem? number) accepted
    · exact exists_find_none_of_accepts (List.mem_of_getElem? number) accepted

theorem exists_winner {resolution : Resolution}
    (found : find parse source none options = .ok resolution) :
    ∃ number ∈ [0, 2, 4, 6], Dialect.defaults[number]? = some resolution.dialect ∧
      ∀ earlier < number, ¬AcceptsDefault parse source options earlier := by
  rcases find_none_eq_ok found with ⟨number, isNumber, accepted, refused⟩
  have acceptsNumber : AcceptsDefault parse source options number :=
    ⟨resolution.dialect, isNumber, accepted⟩
  have refusedDefault : ∀ earlier < number, ¬AcceptsDefault parse source options earlier := by
    intro earlier inFront accepts
    rcases accepts with ⟨other, isOther, otherAccepted⟩
    exact refused earlier inFront other isOther otherAccepted
  have notCovered : number ∉ [1, 3, 5, 7, 8] := by
    intro member
    rcases exists_earlier_covers member with ⟨earlier, inFront, covers⟩
    exact refusedDefault earlier inFront (acceptsDefault_of_covers covers acceptsNumber)
  have bound := acceptsDefault_lt acceptsNumber
  refine ⟨number, ?_, isNumber, refusedDefault⟩
  simp only [List.mem_cons, List.not_mem_nil, or_false, not_or] at notCovered ⊢
  omega

/-- A dialect is accepted, as its grammar has a tree that fits it, when a search for it alone
succeeds. A default search succeeds exactly under two of its dialects, and five never win. -/
theorem default_search_dominance (parse : Parser) (source : Text) (options : ParseOptions) :
    (∀ dialect, Accepts parse source options dialect ↔
      ∃ resolution, find parse source (some dialect) options = .ok resolution) ∧
    Dialect.defaults[4]? =
      some (.ofList (.decoratorsLegacy :: .jsx :: .typescript :: Plugin.common)) ∧
    Dialect.defaults[6]? = some (.ofList (.decoratorsLegacy :: .jsx :: Plugin.common)) ∧
    ((∃ resolution, find parse source none options = .ok resolution) ↔
      AcceptsDefault parse source options 4 ∨ AcceptsDefault parse source options 6) ∧
    (∀ resolution, find parse source none options = .ok resolution →
      ∃ number ∈ [0, 2, 4, 6], Dialect.defaults[number]? = some resolution.dialect ∧
        ∀ earlier < number, ¬AcceptsDefault parse source options earlier) ∧
    (∀ number ∈ [1, 3, 5, 7, 8], ∀ dialect ∈ Dialect.defaults[number]?,
      Accepts parse source options dialect →
        ∃ earlier < number, ∃ other ∈ Dialect.defaults[earlier]?,
          other.grammar = dialect.grammar ∧ Accepts parse source options other) := by
  refine ⟨accepts_iff_find_some, rfl, rfl, exists_find_none_iff,
    fun resolution found => exists_winner found, ?_⟩
  intro number member dialect isNumber accepted
  rcases exists_earlier_covers member with
    ⟨earlier, inFront, rich, isRich, plain, isPlain, sameGrammar, covers⟩
  have same : dialect = plain := Option.mem_unique isNumber isPlain
  subst same
  exact ⟨earlier, inFront, rich, isRich, sameGrammar,
    accepts_of_covers covers sameGrammar accepted⟩

end Resolution

end Uncomment

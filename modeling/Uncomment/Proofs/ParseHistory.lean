import Uncomment.Proofs.Checked.Search

/-! # Histories of a memo

Whatever a memo is asked, it answers as the parser answered the first question about the same
grammar. Questions about other grammars never show in an answer, and the parser hears one question
for each grammar at most. -/

namespace Uncomment

namespace ParseMemo

/-! ## Answers by the first lookup -/

def firstSource? (lookups : List (Text × Grammar)) (grammar : Grammar) : Option Text :=
  (lookups.find? (·.2 == grammar)).map (·.1)

/-- What a memo answers under a grammar in the course of lookups: what it remembers, or else what
the parser says to the first of them. -/
def settledAnswer (parse : Parser) (memo : ParseMemo) (lookups : List (Text × Grammar))
    (grammar : Grammar) : Option Tree :=
  (memo.answer? grammar).getD ((firstSource? lookups grammar).bind fun source =>
    parse source grammar)

variable {parse : Parser} {memo : ParseMemo}

private theorem ask_of_some {grammar : Grammar} {answer : Option Tree}
    (remembered : memo.answer? grammar = some answer) (source : Text) :
    memo.ask parse source grammar = (answer, memo) := by
  rw [ask, remembered]

private theorem ask_of_none {grammar : Grammar} (fresh : memo.answer? grammar = none)
    (source : Text) :
    memo.ask parse source grammar =
      (parse source grammar, ⟨memo.answers ++ [(grammar, parse source grammar)]⟩) := by
  rw [ask, fresh]

theorem answer?_ask (source : Text) (grammar other : Grammar) :
    (memo.ask parse source grammar).2.answer? other =
      if other = grammar then some (memo.ask parse source grammar).1 else memo.answer? other := by
  cases answered : memo.answer? grammar with
  | some answer =>
      rw [ask_of_some answered]
      by_cases same : other = grammar
      · rw [if_pos same, same, answered]
      · rw [if_neg same]
  | none =>
      rw [ask_of_none answered, answer?, List.lookup_append, ← answer?]
      by_cases same : other = grammar
      · subst same
        rw [if_pos rfl, answered, List.lookup_cons_self, Option.none_or]
      · rw [if_neg same, List.lookup_cons, beq_false_of_ne same, List.lookup_nil, Option.or_none]

private theorem ask_fst_eq_settledAnswer (source : Text) (grammar : Grammar)
    (later : List (Text × Grammar)) :
    (memo.ask parse source grammar).1 =
      settledAnswer parse memo ((source, grammar) :: later) grammar := by
  have first : ((source, grammar) :: later).find? (·.2 == grammar) = some (source, grammar) :=
    List.find?_cons_of_pos (beq_self_eq_true grammar)
  rw [settledAnswer, firstSource?, first]
  cases answered : memo.answer? grammar with
  | some answer => rw [ask_of_some answered, Option.getD_some]
  | none =>
      rw [ask_of_none answered]
      rfl

private theorem settledAnswer_cons (source : Text) (grammar : Grammar)
    (later : List (Text × Grammar)) (other : Grammar) :
    settledAnswer parse memo ((source, grammar) :: later) other =
      settledAnswer parse (memo.ask parse source grammar).2 later other := by
  rw [settledAnswer.eq_def parse (memo.ask parse source grammar).2, answer?_ask]
  by_cases same : other = grammar
  · rw [if_pos same, same, Option.getD_some, ask_fst_eq_settledAnswer source grammar later]
  · rw [if_neg same]
    have passed : ((source, grammar) :: later).find? (·.2 == other) = later.find? (·.2 == other) :=
      List.find?_cons_of_neg (by simpa using Ne.symm same)
    rw [settledAnswer, firstSource?, passed, ← firstSource?]

private theorem askAll_cons (source : Text) (grammar : Grammar) (later : List (Text × Grammar)) :
    askAll parse memo ((source, grammar) :: later) =
      (memo.ask parse source grammar).1 ::
        askAll parse (memo.ask parse source grammar).2 later := rfl

theorem askAll_eq_map (lookups : List (Text × Grammar)) :
    askAll parse memo lookups =
      lookups.map fun lookup => settledAnswer parse memo lookups lookup.2 := by
  induction lookups generalizing memo with
  | nil => rfl
  | cons lookup later induction =>
      rcases lookup with ⟨source, grammar⟩
      rw [askAll_cons, List.map_cons, ← ask_fst_eq_settledAnswer]
      simp only [induction, settledAnswer_cons]

theorem settledAnswer_of_find? {lookups : List (Text × Grammar)} {grammar : Grammar}
    {origin : Text} (found : lookups.find? (·.2 == grammar) = some (origin, grammar)) :
    settledAnswer parse .empty lookups grammar = parse origin grammar := by
  rw [settledAnswer, firstSource?, found]
  rfl

private theorem exists_find?_of_mem {lookups : List (Text × Grammar)} {lookup : Text × Grammar}
    (member : lookup ∈ lookups) :
    ∃ origin, lookups.find? (·.2 == lookup.2) = some (origin, lookup.2) ∧
      (origin, lookup.2) ∈ lookups := by
  cases found : lookups.find? (·.2 == lookup.2) with
  | none => exact absurd (beq_self_eq_true lookup.2) (List.find?_eq_none.mp found lookup member)
  | some first =>
      have holds := List.find?_some found
      have same : first.2 = lookup.2 := eq_of_beq holds
      exact ⟨first.1, by rw [← same], same ▸ List.mem_of_find?_eq_some found⟩

theorem askAll_getElem? (before after : List (Text × Grammar)) (lookup : Text × Grammar) :
    ∃ origin, (before ++ [lookup]).find? (·.2 == lookup.2) = some (origin, lookup.2) ∧
      (askAll parse .empty (before ++ lookup :: after))[before.length]? =
        some (parse origin lookup.2) := by
  rcases exists_find?_of_mem (List.mem_append_right before (List.mem_singleton_self lookup)) with
    ⟨origin, found, -⟩
  have whole : (before ++ lookup :: after).find? (·.2 == lookup.2) = some (origin, lookup.2) := by
    rw [← List.singleton_append, ← List.append_assoc, List.find?_append, found, Option.some_or]
  refine ⟨origin, found, ?_⟩
  rw [askAll_eq_map, List.getElem?_map, List.getElem?_append_right (Nat.le_refl _), Nat.sub_self,
    List.getElem?_cons_zero, Option.map_some, settledAnswer_of_find? whole]

/-! ## Lookups under other grammars -/

theorem firstSource?_filter (lookups : List (Text × Grammar)) (grammar : Grammar) :
    firstSource? (lookups.filter (·.2 == grammar)) grammar = firstSource? lookups grammar := by
  rw [firstSource?, List.find?_filter, firstSource?]
  simp only [and_self, Bool.decide_eq_true]

/-- The answers under one grammar are those to its own lookups alone. -/
theorem askAll_filter (lookups : List (Text × Grammar)) (grammar : Grammar) :
    ((lookups.zip (askAll parse .empty lookups)).filter (·.1.2 == grammar)).map (·.2) =
      askAll parse .empty (lookups.filter (·.2 == grammar)) := by
  rw [askAll_eq_map, askAll_eq_map, ← List.map_prod_left_eq_zip, List.filter_map, List.map_map]
  apply List.map_congr_left
  intro lookup member
  have same : lookup.2 = grammar := eq_of_beq (List.mem_filter.mp member).2
  simp only [Function.comp_apply, settledAnswer, same, firstSource?_filter]

/-- Lookups that share a source are answered as by the parser. -/
theorem askAll_of_source (source : Text) (grammars : List Grammar) :
    askAll parse .empty (grammars.map (Prod.mk source)) = grammars.map (parse source) := by
  rw [askAll_eq_map, List.map_map]
  apply List.map_congr_left
  intro grammar member
  have lookedUp : (source, grammar) ∈ grammars.map (Prod.mk source) := List.mem_map_of_mem member
  rcases exists_find?_of_mem lookedUp with ⟨origin, found, originMember⟩
  rcases List.mem_map.mp originMember with ⟨other, -, same⟩
  rw [Function.comp_apply, settledAnswer_of_find? found, (Prod.mk.inj same).1]

/-! ## Questions to the parser -/

section Effects

variable {Effect : Type → Type} [Monad Effect]

def askWith (parse : Text → Grammar → Effect (Option Tree)) (source : Text) (grammar : Grammar)
    (memo : ParseMemo) : Effect (Option Tree × ParseMemo) :=
  match memo.answer? grammar with
  | some answer => pure (answer, memo)
  | none => do
      let answer ← parse source grammar
      pure (answer, ⟨memo.answers ++ [(grammar, answer)]⟩)

def askAllWith (parse : Text → Grammar → Effect (Option Tree)) :
    ParseMemo → List (Text × Grammar) → Effect (List (Option Tree))
  | _, [] => pure []
  | memo, (source, grammar) :: rest => do
      let (answer, memo) ← memo.askWith parse source grammar
      let answers ← askAllWith parse memo rest
      pure (answer :: answers)

private theorem askWith_pure [LawfulMonad Effect] (source : Text) (grammar : Grammar) :
    memo.askWith (fun source grammar => (pure (parse source grammar) : Effect (Option Tree))) source
      grammar = pure (memo.ask parse source grammar) := by
  rw [askWith, ask]
  cases memo.answer? grammar with
  | some answer => rfl
  | none => rw [pure_bind]

/-- In front of a parser that does nothing but answer, lookups are those of `askAll`. -/
theorem askAllWith_pure [LawfulMonad Effect] (lookups : List (Text × Grammar)) :
    askAllWith (fun source grammar => (pure (parse source grammar) : Effect (Option Tree))) memo
      lookups = pure (askAll parse memo lookups) := by
  induction lookups generalizing memo with
  | nil => rfl
  | cons lookup later induction =>
      rcases lookup with ⟨source, grammar⟩
      simp only [askAllWith, askAll, askWith_pure, induction, pure_bind]

end Effects

def recorded (parse : Parser) (source : Text) (grammar : Grammar) :
    StateM (List (Text × Grammar)) (Option Tree) := do
  modify fun questions => questions ++ [(source, grammar)]
  pure (parse source grammar)

def firstLookups (known : List Grammar) : List (Text × Grammar) → List (Text × Grammar)
  | [] => []
  | lookup :: later =>
      if lookup.2 ∈ known then firstLookups known later
      else lookup :: firstLookups (lookup.2 :: known) later

example : firstLookups [.tsx] [(['a'], .javascript), (['b'], .tsx), (['c'], .javascript)] =
    [(['a'], .javascript)] := by decide

theorem run_askWith_recorded (source : Text) (grammar : Grammar)
    (questions : List (Text × Grammar)) :
    (askWith (recorded parse) source grammar memo).run questions =
      (memo.ask parse source grammar,
        if (memo.answer? grammar).isSome then questions else questions ++ [(source, grammar)]) := by
  cases answered : memo.answer? grammar with
  | some answer =>
      rw [askWith, answered, ask_of_some answered]
      rfl
  | none =>
      rw [askWith, answered, ask_of_none answered]
      rfl

theorem run_askAllWith_cons {source : Text} {grammar : Grammar} {later : List (Text × Grammar)}
    {questions asked furtherAsked : List (Text × Grammar)} {answers : List (Option Tree)}
    (first : (askWith (recorded parse) source grammar memo).run questions =
      (memo.ask parse source grammar, asked))
    (further : (askAllWith (recorded parse) (memo.ask parse source grammar).2 later).run asked =
      (answers, furtherAsked)) :
    (askAllWith (recorded parse) memo ((source, grammar) :: later)).run questions =
      ((memo.ask parse source grammar).1 :: answers, furtherAsked) := by
  rw [askAllWith, StateT.run_bind, first]
  change (askAllWith (recorded parse) (memo.ask parse source grammar).2 later >>= _).run asked = _
  rw [StateT.run_bind, further]
  rfl

/-- The parser is asked the first lookup of each grammar that the memo does not know. -/
theorem run_askAllWith_recorded {known : List Grammar} (lookups : List (Text × Grammar))
    (knows : ∀ grammar, (memo.answer? grammar).isSome = true ↔ grammar ∈ known)
    (questions : List (Text × Grammar)) :
    (askAllWith (recorded parse) memo lookups).run questions =
      (askAll parse memo lookups, questions ++ firstLookups known lookups) := by
  induction lookups generalizing memo known questions with
  | nil => rw [firstLookups, List.append_nil]; rfl
  | cons lookup later induction =>
      rcases lookup with ⟨source, grammar⟩
      have first : (askWith (recorded parse) source grammar memo).run questions = _ :=
        run_askWith_recorded source grammar questions
      have knowsNext : ∀ other, ((memo.ask parse source grammar).2.answer? other).isSome = true ↔
          other = grammar ∨ other ∈ known := by
        intro other
        rw [answer?_ask, ← knows other]
        split <;> simp [*]
      rw [firstLookups, askAll_cons]
      by_cases isKnown : grammar ∈ known
      · rw [if_pos ((knows grammar).mpr isKnown)] at first
        rw [if_pos isKnown]
        apply run_askAllWith_cons first
        apply induction
        intro other
        rw [knowsNext, or_iff_right_of_imp]
        exact fun same => same ▸ isKnown
      · rw [if_neg fun some => isKnown ((knows grammar).mp some)] at first
        rw [if_neg isKnown]
        apply run_askAllWith_cons first
        have knowsMore : ∀ other, ((memo.ask parse source grammar).2.answer? other).isSome = true ↔
            other ∈ grammar :: known := fun other => by rw [knowsNext, List.mem_cons]
        rw [induction knowsMore, List.append_assoc, List.singleton_append]

private theorem firstLookups_sublist (known : List Grammar) (lookups : List (Text × Grammar)) :
    (firstLookups known lookups).Sublist lookups := by
  induction lookups generalizing known with
  | nil => exact .slnil
  | cons lookup later induction =>
      rw [firstLookups]
      split
      · exact (induction known).cons lookup
      · exact (induction _).cons_cons lookup

private theorem not_mem_of_mem_firstLookups {known : List Grammar}
    {lookups : List (Text × Grammar)} :
    ∀ lookup ∈ firstLookups known lookups, lookup.2 ∉ known := by
  induction lookups generalizing known with
  | nil => simp [firstLookups]
  | cons first later induction =>
      intro lookup member
      rw [firstLookups] at member
      by_cases isKnown : first.2 ∈ known
      · rw [if_pos isKnown] at member
        exact induction lookup member
      · rw [if_neg isKnown] at member
        rcases List.mem_cons.mp member with equal | member
        · exact equal ▸ isKnown
        · exact fun isKnown => induction lookup member (List.mem_cons_of_mem _ isKnown)

theorem nodup_firstLookups (known : List Grammar) (lookups : List (Text × Grammar)) :
    ((firstLookups known lookups).map (·.2)).Nodup := by
  induction lookups generalizing known with
  | nil => exact .nil
  | cons first later induction =>
      rw [firstLookups]
      split
      · exact induction known
      · rw [List.map_cons, List.nodup_cons]
        refine ⟨fun again => ?_, induction _⟩
        rcases List.mem_map.mp again with ⟨lookup, member, same⟩
        exact not_mem_of_mem_firstLookups lookup member (same ▸ List.mem_cons_self)

theorem find?_firstLookups {known : List Grammar} {grammar : Grammar} (unknown : grammar ∉ known)
    (lookups : List (Text × Grammar)) :
    (firstLookups known lookups).find? (·.2 == grammar) = lookups.find? (·.2 == grammar) := by
  induction lookups generalizing known with
  | nil => rfl
  | cons lookup later induction =>
      rw [firstLookups]
      by_cases same : lookup.2 = grammar
      · rw [if_neg (same ▸ unknown)]
        simp only [List.find?_cons, beq_iff_eq.mpr same]
      · have passed : ∀ rest : List (Text × Grammar),
            (lookup :: rest).find? (·.2 == grammar) = rest.find? (·.2 == grammar) := by
          intro rest
          simp only [List.find?_cons, beq_false_of_ne same]
        rw [passed]
        split
        · exact induction unknown
        · rw [passed]
          apply induction
          rw [List.mem_cons, not_or]
          exact ⟨Ne.symm same, unknown⟩

end ParseMemo

/-! ## Numbered places -/

namespace ParseSlots

def checkedAskAll (parse : Parser) : ParseSlots → List (Text × Grammar) →
    Checked (List (Option Tree))
  | _, [] => .ok []
  | slots, (source, grammar) :: rest => do
      let (answer, slots) ← slots.checkedAsk parse source grammar
      let answers ← checkedAskAll parse slots rest
      .ok (answer :: answers)

theorem checkedAskAll_eq {slots : ParseSlots} {memo : ParseMemo} (mirrors : slots.Mirrors memo)
    (parse : Parser) (lookups : List (Text × Grammar)) :
    slots.checkedAskAll parse lookups = .ok (memo.askAll parse lookups) := by
  induction lookups generalizing slots memo with
  | nil => rfl
  | cons lookup later induction =>
      rcases lookup with ⟨source, grammar⟩
      rcases exists_checkedAsk_eq mirrors parse source grammar with ⟨next, asked, nextMirrors⟩
      rw [checkedAskAll, asked, Checked.ok_bind]
      dsimp only
      rw [induction nextMirrors, Checked.ok_bind, ParseMemo.askAll_cons]

end ParseSlots

namespace ParseMemo

/-- A new memo answers each lookup as the parser answers the first one under the same grammar, be it
with a tree or with none. The answers under a grammar are those to its own lookups alone, and
lookups of one source are answered as if each were parsed. An array with a place for each grammar
answers alike. The parser hears the first lookup under each grammar and nothing else. -/
theorem askAll_answers_first_lookups (parse : Parser) (lookups : List (Text × Grammar)) :
    let answers := askAll parse .empty lookups
    answers.length = lookups.length ∧
      (∀ before lookup after, lookups = before ++ lookup :: after →
        ∃ origin, (before ++ [lookup]).find? (·.2 == lookup.2) = some (origin, lookup.2) ∧
          answers[before.length]? = some (parse origin lookup.2)) ∧
      (∀ grammar, ((lookups.zip answers).filter (·.1.2 == grammar)).map (·.2) =
        askAll parse .empty (lookups.filter (·.2 == grammar))) ∧
      (∀ (source : Text) (grammars : List Grammar), lookups = grammars.map (Prod.mk source) →
        answers = grammars.map (parse source)) ∧
      ParseSlots.empty.checkedAskAll parse lookups = .ok answers ∧
      askAllWith (fun source grammar => (pure (parse source grammar) : Id (Option Tree))) .empty
        lookups = answers ∧
      ∃ questions, (askAllWith (recorded parse) .empty lookups).run [] = (answers, questions) ∧
        questions.Sublist lookups ∧ (questions.map (·.2)).Nodup ∧
        ∀ grammar, questions.find? (·.2 == grammar) = lookups.find? (·.2 == grammar) := by
  intro answers
  refine ⟨?_, ?_, askAll_filter lookups, ?_,
    ParseSlots.checkedAskAll_eq ParseSlots.mirrors_empty parse lookups, askAllWith_pure lookups,
    firstLookups [] lookups, ?_, firstLookups_sublist [] lookups, nodup_firstLookups [] lookups,
    fun grammar => find?_firstLookups List.not_mem_nil lookups⟩
  · simp only [answers, askAll_eq_map, List.length_map]
  · intro before lookup after split
    simp only [answers, split]
    exact askAll_getElem? before after lookup
  · intro source grammars same
    simp only [answers, same]
    exact askAll_of_source source grammars
  · have knows : ∀ grammar, (ParseMemo.empty.answer? grammar).isSome = true ↔ grammar ∈ [] := by
      intro grammar
      simp [answer?, empty]
    exact run_askAllWith_recorded lookups knows []

def shortParser : Parser
  | source, grammar =>
      if source.byteLength ≤ 1 then
        some (.node ⟨grammar.name, true, false, false, false, ⟨0, source.byteLength⟩, []⟩ .nil)
      else none

/-- The third lookup gets the remembered failure, although the parser has a tree for its source. -/
theorem askAll_answers_shortParser :
    let lookups : List (Text × Grammar) :=
      [(['é'], .javascript), (['b'], .tsx), (['c'], .javascript)]
    lookups = [(['é'], .javascript), (['b'], .tsx)] ++ (['c'], .javascript) :: [] ∧
      (askAll shortParser .empty lookups)[2]? = some none ∧
      (shortParser ['c'] .javascript).isSome = true ∧
      [(['b'], Grammar.javascript), (['b'], .tsx)] =
        [Grammar.javascript, .tsx].map (Prod.mk ['b']) ∧
      askAll shortParser .empty [(['b'], .javascript), (['b'], .tsx)] =
        [Grammar.javascript, .tsx].map (shortParser ['b']) := by
  intro lookups
  rcases askAll_answers_first_lookups shortParser lookups with ⟨-, answered, -⟩
  rcases answered [(['é'], .javascript), (['b'], .tsx)] (['c'], .javascript) [] rfl with
    ⟨origin, first, answer⟩
  have same : origin = ['é'] := by
    cases first
    rfl
  rcases askAll_answers_first_lookups shortParser [(['b'], .javascript), (['b'], .tsx)] with
    ⟨-, -, -, shared, -⟩
  refine ⟨rfl, ?_, by decide, rfl, shared ['b'] [.javascript, .tsx] rfl⟩
  rw [same] at answer
  exact answer.trans (by decide)

end ParseMemo

end Uncomment

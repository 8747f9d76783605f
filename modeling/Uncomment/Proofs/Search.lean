import Uncomment.Proofs.Admission
import Uncomment.Resolution.Search

/-! # Searching for a dialect

The memo never changes an answer, so a search ends with the first dialect that is accepted when it
is tried alone. -/

namespace Uncomment

/-! ## Memos of one source -/

namespace ParseMemo

def Remembers (parse : Parser) (source : Text) (memo : ParseMemo) : Prop :=
  ∀ grammar answer, memo.answer? grammar = some answer → answer = parse source grammar

variable {parse : Parser} {source : Text} {memo : ParseMemo}

theorem remembers_empty : Remembers parse source .empty := by
  intro grammar answer remembered
  cases remembered

theorem ask_fst (remembers : Remembers parse source memo) (grammar : Grammar) :
    (memo.ask parse source grammar).1 = parse source grammar := by
  rw [ask]
  cases remembered : memo.answer? grammar with
  | none => rfl
  | some answer => exact remembers grammar answer remembered

theorem remembers_ask (remembers : Remembers parse source memo) (grammar : Grammar) :
    Remembers parse source (memo.ask parse source grammar).2 := by
  rw [ask]
  split
  · exact remembers
  · intro other answer remembered
    dsimp only [answer?] at remembered
    rw [List.lookup_append, Option.or_eq_some_iff] at remembered
    rcases remembered with earlier | ⟨-, added⟩
    · exact remembers other answer earlier
    · by_cases same : other = grammar
      · subst other
        simpa using added.symm
      · simp [List.lookup_cons, beq_false_of_ne same] at added

end ParseMemo

/-! ## Searches without a memo -/

namespace Resolution

def firstSuccess (failed : List Attempt) :
    List (Except Attempt Resolution) → Except SearchFailure Resolution
  | [] => .error ⟨failed⟩
  | .ok resolution :: _ => .ok resolution
  | .error failure :: later => firstSuccess (failed ++ [failure]) later

def attemptAfresh (parse : Parser) (source : Text) (options : ParseOptions) (dialect : Dialect) :
    Except Attempt Resolution :=
  attempt source options dialect (parse source dialect.grammar)

def Accepts (parse : Parser) (source : Text) (options : ParseOptions) (dialect : Dialect) : Prop :=
  ∃ tree sourceKind, parse source dialect.grammar = some tree ∧
    tree.fit source dialect options = .ok sourceKind

variable {parse : Parser} {source : Text} {options : ParseOptions}

theorem search_eq_firstSuccess {memo : ParseMemo} (remembers : memo.Remembers parse source)
    (failed : List Attempt) (dialects : List Dialect) :
    search parse source options memo failed dialects =
      firstSuccess failed (dialects.map (attemptAfresh parse source options)) := by
  induction dialects generalizing memo failed with
  | nil => rfl
  | cons dialect later induction =>
      have answer := ParseMemo.ask_fst remembers dialect.grammar
      have further := ParseMemo.remembers_ask remembers dialect.grammar
      rw [search, List.map_cons, attemptAfresh, ← answer]
      dsimp only
      cases attempt source options dialect (memo.ask parse source dialect.grammar).1 with
      | ok resolution => rfl
      | error failure => exact induction further (failed ++ [failure])

theorem firstSuccess_eq_ok_iff (failed : List Attempt)
    (attempts : List (Except Attempt Resolution)) (resolution : Resolution) :
    firstSuccess failed attempts = .ok resolution ↔
      ∃ before after, attempts = before ++ .ok resolution :: after ∧
        ∀ earlier ∈ before, ∃ failure, earlier = .error failure := by
  induction attempts generalizing failed with
  | nil => simp [firstSuccess]
  | cons first later induction =>
      cases first with
      | ok other =>
          constructor
          · intro success
            cases success
            exact ⟨[], later, rfl, by simp⟩
          · intro found
            rcases found with ⟨before, after, equal, failures⟩
            cases before with
            | nil =>
                cases equal
                rfl
            | cons earlier before =>
                cases equal
                rcases failures _ List.mem_cons_self with ⟨failure, impossible⟩
                cases impossible
      | error failure =>
          rw [firstSuccess, induction]
          constructor
          · intro found
            rcases found with ⟨before, after, rfl, failures⟩
            refine ⟨.error failure :: before, after, rfl, ?_⟩
            intro earlier member
            rcases List.mem_cons.mp member with equal | member
            · exact ⟨failure, equal⟩
            · exact failures earlier member
          · intro found
            rcases found with ⟨before, after, equal, failures⟩
            cases before with
            | nil => cases equal
            | cons earlier before =>
                cases equal
                exact ⟨before, after, rfl, fun other member =>
                  failures other (List.mem_cons_of_mem _ member)⟩

private theorem exists_firstSuccess_of_mem {attempts : List (Except Attempt Resolution)}
    {resolution : Resolution} (member : .ok resolution ∈ attempts) (failed : List Attempt) :
    ∃ winner, firstSuccess failed attempts = .ok winner := by
  induction attempts generalizing failed with
  | nil => cases member
  | cons first later induction =>
      cases first with
      | ok winner => exact ⟨winner, rfl⟩
      | error failure =>
          rcases List.mem_cons.mp member with impossible | member
          · cases impossible
          · exact induction member _

theorem find_some (dialect : Dialect) :
    find parse source (some dialect) options =
      firstSuccess [] [attemptAfresh parse source options dialect] :=
  search_eq_firstSuccess ParseMemo.remembers_empty [] [dialect]

theorem find_none :
    find parse source none options =
      firstSuccess [] (Dialect.defaults.map (attemptAfresh parse source options)) :=
  search_eq_firstSuccess ParseMemo.remembers_empty [] Dialect.defaults

/-! ## Acceptance -/

theorem attemptAfresh_eq_ok_iff (dialect : Dialect) (resolution : Resolution) :
    attemptAfresh parse source options dialect = .ok resolution ↔
      ∃ tree sourceKind, parse source dialect.grammar = some tree ∧
        tree.fit source dialect options = .ok sourceKind ∧
        resolution = ⟨dialect, tree, sourceKind, tree.comments source⟩ := by
  rw [attemptAfresh]
  cases parse source dialect.grammar with
  | none => simp [attempt]
  | some tree =>
      cases fits : tree.fit source dialect options with
      | error diagnostic => simp [attempt, fits]
      | ok sourceKind =>
          simp only [attempt, fits, Except.ok.injEq, Option.some.injEq]
          constructor
          · intro equal
            subst equal
            exact ⟨tree, sourceKind, rfl, fits, rfl⟩
          · intro fits
            rcases fits with ⟨_, _, rfl, equal, rfl⟩
            rw [fits] at equal
            cases equal
            rfl

theorem find_some_eq_ok_iff (dialect : Dialect) (resolution : Resolution) :
    find parse source (some dialect) options = .ok resolution ↔
      attemptAfresh parse source options dialect = .ok resolution := by
  rw [find_some]
  cases attemptAfresh parse source options dialect <;> simp [firstSuccess]

theorem find_some_of_fit {dialect : Dialect} {tree : Tree} {sourceKind : SourceKind}
    (parsed : parse source dialect.grammar = some tree)
    (fits : tree.fit source dialect options = .ok sourceKind) :
    find parse source (some dialect) options =
      .ok ⟨dialect, tree, sourceKind, tree.comments source⟩ := by
  rw [find_some_eq_ok_iff, attemptAfresh_eq_ok_iff]
  exact ⟨tree, sourceKind, parsed, fits, rfl⟩

theorem accepts_iff_attemptAfresh (dialect : Dialect) :
    Accepts parse source options dialect ↔
      ∃ resolution, attemptAfresh parse source options dialect = .ok resolution := by
  simp only [attemptAfresh_eq_ok_iff]
  constructor
  · intro accepted
    rcases accepted with ⟨tree, sourceKind, parsed, fits⟩
    exact ⟨_, tree, sourceKind, parsed, fits, rfl⟩
  · intro succeeds
    rcases succeeds with ⟨_, tree, sourceKind, parsed, fits, -⟩
    exact ⟨tree, sourceKind, parsed, fits⟩

/-- A dialect is accepted when it is found by a search that tries no other. -/
theorem accepts_iff_find_some (dialect : Dialect) :
    Accepts parse source options dialect ↔
      ∃ resolution, find parse source (some dialect) options = .ok resolution := by
  simp only [accepts_iff_attemptAfresh, find_some_eq_ok_iff]

theorem not_accepts_of_attemptAfresh {dialect : Dialect} {failure : Attempt}
    (failed : attemptAfresh parse source options dialect = .error failure) :
    ¬Accepts parse source options dialect := by
  intro accepted
  rcases (accepts_iff_attemptAfresh dialect).mp accepted with ⟨resolution, success⟩
  rw [failed] at success
  cases success

theorem accepts_of_covers {richer plainer : Dialect} (covers : richer.Covers plainer)
    (sameGrammar : richer.grammar = plainer.grammar)
    (accepted : Accepts parse source options plainer) : Accepts parse source options richer := by
  rcases accepted with ⟨tree, sourceKind, parsed, fits⟩
  exact ⟨tree, sourceKind, sameGrammar ▸ parsed, Tree.fit_of_covers covers fits⟩

theorem exists_find_none_of_accepts {dialect : Dialect} (member : dialect ∈ Dialect.defaults)
    (accepted : Accepts parse source options dialect) :
    ∃ resolution, find parse source none options = .ok resolution := by
  rcases (accepts_iff_attemptAfresh dialect).mp accepted with ⟨resolution, success⟩
  have attempted : .ok resolution ∈ Dialect.defaults.map (attemptAfresh parse source options) :=
    List.mem_map.mpr ⟨dialect, member, success⟩
  rw [find_none]
  exact exists_firstSuccess_of_mem attempted []

theorem find_none_eq_ok {resolution : Resolution}
    (found : find parse source none options = .ok resolution) :
    ∃ number : Nat, Dialect.defaults[number]? = some resolution.dialect ∧
      Accepts parse source options resolution.dialect ∧
      ∀ earlier < number, ∀ other ∈ Dialect.defaults[earlier]?,
        ¬Accepts parse source options other := by
  rw [find_none, firstSuccess_eq_ok_iff] at found
  rcases found with ⟨before, after, equal, failures⟩
  rcases List.map_eq_append_iff.mp equal with ⟨refused, others, defaults, rfl, winner⟩
  rcases List.map_eq_cons_iff.mp winner with ⟨dialect, later, rfl, success, rfl⟩
  have same : resolution.dialect = dialect := by
    rcases (attemptAfresh_eq_ok_iff _ _).mp success with ⟨_, _, _, _, rfl⟩
    rfl
  rw [same, defaults]
  refine ⟨refused.length, by simp, (accepts_iff_attemptAfresh dialect).mpr ⟨_, success⟩, ?_⟩
  intro earlier inFront other number
  rw [List.getElem?_append_left inFront] at number
  rcases failures _ (List.mem_map_of_mem (List.mem_of_getElem? number)) with ⟨failure, failed⟩
  exact not_accepts_of_attemptAfresh failed

theorem parse_of_find {dialect : Option Dialect} {resolution : Resolution}
    (found : find parse source dialect options = .ok resolution) :
    parse source resolution.dialect.grammar = some resolution.tree ∧
      resolution.comments = resolution.tree.comments source := by
  have attempted : ∃ tried, attemptAfresh parse source options tried = .ok resolution := by
    cases dialect with
    | some dialect => exact ⟨dialect, (find_some_eq_ok_iff dialect resolution).mp found⟩
    | none =>
        rw [find_none, firstSuccess_eq_ok_iff] at found
        rcases found with ⟨before, after, equal, -⟩
        have member : .ok resolution ∈ Dialect.defaults.map (attemptAfresh parse source options) := by
          rw [equal]
          exact List.mem_append_right before List.mem_cons_self
        rcases List.mem_map.mp member with ⟨tried, -, success⟩
        exact ⟨tried, success⟩
  rcases attempted with ⟨tried, success⟩
  rcases (attemptAfresh_eq_ok_iff _ _).mp success with ⟨tree, sourceKind, parsed, -, rfl⟩
  exact ⟨parsed, rfl⟩

end Resolution

end Uncomment

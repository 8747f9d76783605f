import Uncomment.Proofs.Search

/-! # Searches that share nothing

The default search hands the trees that it has parsed on from one dialect to the next. It answers as
if each dialect had been searched for alone and every search had begun without trees. -/

namespace Uncomment

namespace Resolution

/-! ## One dialect after the other -/

def findSeparately (parse : Parser) (source : Text) (options : ParseOptions) :
    List Dialect → Except SearchFailure Resolution
  | [] => .error ⟨[]⟩
  | dialect :: later =>
      match find parse source (some dialect) options with
      | .ok resolution => .ok resolution
      | .error failure =>
          match findSeparately parse source options later with
          | .ok resolution => .ok resolution
          | .error others => .error ⟨failure.attempts ++ others.attempts⟩

variable {parse : Parser} {source : Text} {options : ParseOptions}

theorem find_some_eq_error_iff (dialect : Dialect) (failure : SearchFailure) :
    find parse source (some dialect) options = .error failure ↔
      ∃ attempt, attemptAfresh parse source options dialect = .error attempt ∧
        failure = ⟨[attempt]⟩ := by
  rw [find_some]
  cases attemptAfresh parse source options dialect <;> simp [firstSuccess, eq_comm]

theorem dialect_of_attemptAfresh {dialect : Dialect} {attempt : Attempt}
    (failed : attemptAfresh parse source options dialect = .error attempt) :
    attempt.dialect = dialect := by
  rw [attemptAfresh, Resolution.attempt.eq_def] at failed
  split at failed
  · cases failed
    rfl
  · split at failed <;> cases failed
    rfl

theorem dialect_of_find_some {dialect : Dialect} {resolution : Resolution}
    (found : find parse source (some dialect) options = .ok resolution) :
    resolution.dialect = dialect := by
  rw [find_some_eq_ok_iff, attemptAfresh_eq_ok_iff] at found
  rcases found with ⟨tree, sourceKind, -, -, rfl⟩
  rfl

/-- The attempts that failed already come before those of the separate searches. -/
theorem firstSuccess_eq_findSeparately (failed : List Attempt) (dialects : List Dialect) :
    firstSuccess failed (dialects.map (attemptAfresh parse source options)) =
      match findSeparately parse source options dialects with
      | .ok resolution => .ok resolution
      | .error others => .error ⟨failed ++ others.attempts⟩ := by
  induction dialects generalizing failed with
  | nil => simp [firstSuccess, findSeparately]
  | cons dialect later induction =>
      rw [List.map_cons, findSeparately]
      cases tried : attemptAfresh parse source options dialect with
      | ok resolution =>
          rw [(find_some_eq_ok_iff dialect resolution).mpr tried]
          rfl
      | error attempt =>
          have alone : find parse source (some dialect) options = .error ⟨[attempt]⟩ :=
            (find_some_eq_error_iff dialect _).mpr ⟨attempt, tried, rfl⟩
          rw [firstSuccess, induction, alone]
          cases findSeparately parse source options later with
          | ok resolution => rfl
          | error others => simp [List.append_assoc]

theorem find_none_eq_findSeparately :
    find parse source none options = findSeparately parse source options Dialect.defaults := by
  rw [find_none, firstSuccess_eq_findSeparately]
  cases findSeparately parse source options Dialect.defaults <;> rfl

/-! ## What the separate searches answer -/

theorem findSeparately_eq_ok_iff (dialects : List Dialect) (resolution : Resolution) :
    findSeparately parse source options dialects = .ok resolution ↔
      ∃ before dialect after, dialects = before ++ dialect :: after ∧
        find parse source (some dialect) options = .ok resolution ∧
        ∀ earlier ∈ before, ∃ failure,
          find parse source (some earlier) options = .error failure := by
  induction dialects with
  | nil => simp [findSeparately]
  | cons first later induction =>
      rw [findSeparately]
      constructor
      · intro succeeds
        cases alone : find parse source (some first) options with
        | ok other =>
            rw [alone] at succeeds
            cases succeeds
            exact ⟨[], first, later, rfl, alone, by simp⟩
        | error failure =>
            have succeedsLater : findSeparately parse source options later = .ok resolution := by
              rw [alone] at succeeds
              cases further : findSeparately parse source options later <;>
                rw [further] at succeeds <;> cases succeeds
              rfl
            rcases induction.mp succeedsLater with ⟨before, dialect, after, rfl, wins, failures⟩
            exact ⟨first :: before, dialect, after, rfl, wins,
              List.forall_mem_cons.mpr ⟨⟨failure, alone⟩, failures⟩⟩
      · intro firstSuccess
        rcases firstSuccess with ⟨before, dialect, after, split, wins, failures⟩
        cases before with
        | nil =>
            cases split
            rw [wins]
        | cons earlier before =>
            cases split
            rcases List.forall_mem_cons.mp failures with ⟨⟨failure, alone⟩, failures⟩
            rw [alone, induction.mpr ⟨before, dialect, after, rfl, wins, failures⟩]

theorem findSeparately_eq_error_iff (dialects : List Dialect) (failure : SearchFailure) :
    findSeparately parse source options dialects = .error failure ↔
      dialects.map (fun dialect => find parse source (some dialect) options) =
        failure.attempts.map fun attempt => .error ⟨[attempt]⟩ := by
  rcases failure with ⟨attempts⟩
  induction dialects generalizing attempts with
  | nil => cases attempts <;> simp [findSeparately]
  | cons first later induction =>
      rw [findSeparately, List.map_cons]
      cases tried : attemptAfresh parse source options first with
      | ok resolution =>
          rw [(find_some_eq_ok_iff first resolution).mpr tried]
          cases attempts <;> simp
      | error attempt =>
          rw [(find_some_eq_error_iff first _).mpr ⟨attempt, tried, rfl⟩]
          cases further : findSeparately parse source options later with
          | ok resolution =>
              have never : ∀ others : List Attempt,
                  later.map (fun dialect => find parse source (some dialect) options) ≠
                    others.map fun attempt => .error ⟨[attempt]⟩ := by
                intro others equal
                rw [(induction others).mpr equal] at further
                cases further
              cases attempts <;> simp [never]
          | error others =>
              have equal := (induction others.attempts).mp further
              cases attempts with
              | nil => simp
              | cons other attempts =>
                  have same : (others = ⟨attempts⟩) ↔
                      later.map (fun dialect => find parse source (some dialect) options) =
                        attempts.map fun attempt => .error ⟨[attempt]⟩ := by
                    rw [← induction attempts, further, Except.error.injEq]
                  rw [List.map_cons, List.cons.injEq, ← same]
                  rcases others with ⟨others⟩
                  simp [eq_comm]

/-- Every attempt of a failed search is about its own dialect. -/
theorem map_dialect_attempts {dialects : List Dialect} {failure : SearchFailure}
    (fails : findSeparately parse source options dialects = .error failure) :
    failure.attempts.map (·.dialect) = dialects := by
  rw [findSeparately_eq_error_iff] at fails
  have dialectOf : ∀ dialect attempt,
      find parse source (some dialect) options = .error ⟨[attempt]⟩ →
        attempt.dialect = dialect := by
    intro dialect attempt alone
    rcases (find_some_eq_error_iff dialect _).mp alone with ⟨other, tried, same⟩
    cases same
    exact dialect_of_attemptAfresh tried
  rcases failure with ⟨attempts⟩
  induction dialects generalizing attempts with
  | nil =>
      cases attempts with
      | nil => rfl
      | cons attempt attempts => cases fails
  | cons dialect later induction =>
      cases attempts with
      | nil => cases fails
      | cons attempt attempts =>
          rcases List.cons.inj fails with ⟨alone, others⟩
          rw [List.map_cons, dialectOf dialect attempt alone, induction attempts others]

/-- The default search answers as the separate searches of the default dialects do. The first of
them that succeeds gives its result; when all fail, each has made a single attempt and the failure
holds these in order. Searching for the winner alone gives the same result again. -/
theorem find_none_refines_separate_searches (parse : Parser) (source : Text)
    (options : ParseOptions) :
    find parse source none options = findSeparately parse source options Dialect.defaults ∧
    (∀ resolution, find parse source none options = .ok resolution ↔
      ∃ before dialect after, Dialect.defaults = before ++ dialect :: after ∧
        find parse source (some dialect) options = .ok resolution ∧
        ∀ earlier ∈ before, ∃ failure,
          find parse source (some earlier) options = .error failure) ∧
    (∀ failure, find parse source none options = .error failure ↔
      Dialect.defaults.map (fun dialect => find parse source (some dialect) options) =
        failure.attempts.map fun attempt => .error ⟨[attempt]⟩) ∧
    (∀ failure, find parse source none options = .error failure →
      failure.attempts.map (·.dialect) = Dialect.defaults) ∧
    (∀ resolution, find parse source none options = .ok resolution →
      resolution.dialect ∈ Dialect.defaults ∧
        find parse source (some resolution.dialect) options = .ok resolution) := by
  refine ⟨find_none_eq_findSeparately, ?_, ?_, ?_, ?_⟩
  · intro resolution
    rw [find_none_eq_findSeparately, findSeparately_eq_ok_iff]
  · intro failure
    rw [find_none_eq_findSeparately, findSeparately_eq_error_iff]
  · intro failure fails
    rw [find_none_eq_findSeparately] at fails
    exact map_dialect_attempts fails
  · intro resolution found
    rw [find_none_eq_findSeparately, findSeparately_eq_ok_iff] at found
    rcases found with ⟨before, dialect, after, split, alone, -⟩
    rw [dialect_of_find_some alone]
    exact ⟨split ▸ List.mem_append_right before List.mem_cons_self, alone⟩

def untypedParser : Parser
  | _, .javascript => some (.node ⟨"program", true, false, false, false, ⟨0, 0⟩, []⟩ .nil)
  | _, _ => none

theorem find_untypedParser :
    ∃ resolution, find untypedParser [] none {} = .ok resolution ∧
      Dialect.defaults[2]? = some resolution.dialect ∧
      find untypedParser [] (some resolution.dialect) {} = .ok resolution := by
  rcases find_none_refines_separate_searches untypedParser [] {} with ⟨_, wins, _, _, forced⟩
  let tree : Tree := .node ⟨"program", true, false, false, false, ⟨0, 0⟩, []⟩ .nil
  let dialect : Dialect := .ofList (.decorators true :: .jsx :: Plugin.common)
  have fits : tree.fit [] dialect {} = .ok .script := by
    rw [Tree.fit_eq_ok_iff]
    decide
  have alone : find untypedParser [] (some dialect) {} =
      .ok ⟨dialect, tree, .script, tree.comments []⟩ := by
    rw [find_some_eq_ok_iff, attemptAfresh_eq_ok_iff]
    exact ⟨tree, .script, rfl, fits, rfl⟩
  have givesUp : ∀ earlier ∈ Dialect.defaults.take 2,
      ∃ failure, find untypedParser [] (some earlier) {} = .error failure := by
    intro earlier member
    have typed : untypedParser [] earlier.grammar = none := by
      revert earlier
      decide
    refine ⟨⟨[⟨earlier, .ofWhole (.noTree earlier.grammar)⟩]⟩, ?_⟩
    rw [find_some_eq_error_iff]
    exact ⟨_, by rw [attemptAfresh, typed]; rfl, rfl⟩
  have found := (wins _).mpr
    ⟨Dialect.defaults.take 2, dialect, Dialect.defaults.drop 3, rfl, alone, givesUp⟩
  exact ⟨_, found, rfl, (forced _ found).2⟩

end Resolution

end Uncomment

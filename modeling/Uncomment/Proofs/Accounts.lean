import Uncomment.Proofs.Reports

/-! # Reports as accounts

The totals of a report are those of the entries pushed into it, after every push. What a run prints
and its exit code are read off the same report, so they count an entry as the totals count it. -/

namespace Uncomment

/-! ## Totals after every push -/

namespace Report

private theorem hasFailures_ofEntries (entries : List ReportEntry) :
    (ofEntries entries).hasFailures = true ↔ ∃ entry ∈ entries, entry.error ≠ none := by
  simp [hasFailures, ofEntries, Summary.ofEntries, List.countP_pos_iff, ReportEntry.isFailed,
    Option.isSome_iff_ne_none]

private theorem changed_pos_iff (entries : List ReportEntry) :
    0 < (ofEntries entries).summary.changed ↔
      ∃ entry ∈ entries, entry.error = none ∧ entry.isChanged = true := by
  simp [ofEntries, Summary.ofEntries, List.countP_pos_iff, ReportEntry.isFailed]

end Report

namespace StripCommand

/-! ## Printed lines -/

private theorem errorLines_eq (report : Report) :
    errorLines report = (report.entries.filterMap (·.error)).map ("error: " ++ ·) := by
  rw [List.map_filterMap]
  rfl

private theorem length_errorLines (entries : List ReportEntry) :
    (errorLines (.ofEntries entries)).length = (Report.ofEntries entries).summary.failed := by
  rw [errorLines_eq, List.length_map, List.length_filterMap_eq_countP]
  rfl

private theorem changeLines_eq (arguments : StripArguments) (report : Report) :
    changeLines arguments report =
      if arguments.write then [] else
        (report.entries.filter fun entry => entry.error.isNone && entry.isChanged).map
          ("would change: " ++ ·.path) := by
  rw [changeLines]
  cases arguments.write <;> simp [ReportEntry.isFailed]

private theorem length_changeLines (arguments : StripArguments) (entries : List ReportEntry) :
    (changeLines arguments (.ofEntries entries)).length =
      if arguments.write then 0 else (Report.ofEntries entries).summary.changed := by
  rw [changeLines, List.length_map, ← List.countP_eq_length_filter]
  cases arguments.write <;> simp [Report.ofEntries, Summary.ofEntries]

private theorem printed_finish {arguments : StripArguments} (plain : arguments.json = false)
    (report : Report) (files : FileTree) :
    (finish arguments report files).output =
        unlines (changeLines arguments report ++ [report.summary.display]) ∧
      (finish arguments report files).errors = unlines (errorLines report) := by
  rw [finish, plain]
  exact ⟨rfl, rfl⟩

/-! ## Exit codes -/

private theorem exitCode_finish (arguments : StripArguments) (report : Report) (files : FileTree) :
    (finish arguments report files).exitCode = exitCode arguments report := by
  rw [finish]
  split <;> rfl

private theorem exitCode_ofEntries (arguments : StripArguments) (entries : List ReportEntry) :
    exitCode arguments (.ofEntries entries) ≠ 0 ↔
      (∃ entry ∈ entries, entry.error ≠ none) ∨
        arguments.check = true ∧ ∃ entry ∈ entries, entry.error = none ∧ entry.isChanged = true := by
  rw [← Report.hasFailures_ofEntries, ← Report.changed_pos_iff, exitCode]
  split <;> simp_all

/-! ## Runs -/

/-- A run does nothing to its report but push entries. -/
theorem exists_stripFiles_pushed (parse : Parser) (options : StripOptions) (write failFast : Bool)
    (report : Report) (files : FileTree) (paths : List Path) :
    ∃ entries : List ReportEntry,
      (stripFiles parse options write failFast report files paths).1 =
        entries.foldl .push report := by
  induction paths generalizing report files with
  | nil => exact ⟨[], rfl⟩
  | cons path later induction =>
      rw [stripFiles]
      rcases reportFile parse options write files path with ⟨entry, written⟩
      simp only
      split
      · exact ⟨[entry], rfl⟩
      · rcases induction (report.push entry) written with ⟨entries, pushed⟩
        exact ⟨entry :: entries, pushed⟩

theorem stripAll_pushed {parse : Parser} {arguments : StripArguments} {files written : FileTree}
    {report : Report} (strips : stripAll parse arguments files = .ok (report, written)) :
    report = report.entries.foldl .push .empty := by
  rw [stripAll] at strips
  cases listed : files.sources arguments.paths with
  | error reason => rw [listed] at strips; cases strips
  | ok found =>
      rw [listed] at strips
      rcases exists_stripFiles_pushed parse arguments.options arguments.write arguments.failFast
        .empty files found with ⟨entries, pushed⟩
      have same : report = entries.foldl .push .empty := by
        rw [← pushed]
        exact (congrArg Prod.fst (Except.ok.inj strips)).symm
      rw [same, entries_foldl_push]
      rfl

theorem execute_of_stripAll {parse : Parser} {arguments : StripArguments} {words : List String}
    {files written : FileTree} {report : Report}
    (reads : StripArguments.ofList words = .ok arguments)
    (strips : stripAll parse arguments files = .ok (report, written)) :
    execute parse words files = .finished (finish arguments report written) := by
  rw [execute, reads]
  simp only [strips]

/-- After every push the totals of a report are those of its entries, and it has failures exactly
when one of them has an error. Without `json` one message is printed for each entry that is counted
as failed, and without `write` one for each that is counted as changed. The exit code tells a
failure, or with `check` a change. Every run that lists its sources ends with such a report. -/
theorem report_accounts_for_entries (entries : List ReportEntry) (arguments : StripArguments) :
    let report := entries.foldl Report.push .empty
    report.entries = entries ∧
    report.summary.files = entries.length ∧
    report.summary.failed = entries.countP (·.error.isSome) ∧
    report.summary.changed = entries.countP (fun entry => entry.error.isNone && entry.isChanged) ∧
    report.summary.comments = ReportEntry.total (·.commentCount) entries ∧
    report.summary.removedBytes = ReportEntry.total (·.removedBytes) entries ∧
    (report.hasFailures = true ↔ ∃ entry ∈ entries, entry.error ≠ none) ∧
    (∀ files, arguments.json = false →
      ∃ changes failures,
        (finish arguments report files).output = unlines (changes ++ [report.summary.display]) ∧
        (finish arguments report files).errors = unlines failures ∧
        changes = (if arguments.write then [] else
          (entries.filter fun entry => entry.error.isNone && entry.isChanged).map
            ("would change: " ++ ·.path)) ∧
        failures = (entries.filterMap (·.error)).map ("error: " ++ ·) ∧
        changes.length = (if arguments.write then 0 else report.summary.changed) ∧
        failures.length = report.summary.failed) ∧
    (∀ files, (finish arguments report files).exitCode ≠ 0 ↔
      (∃ entry ∈ entries, entry.error ≠ none) ∨
        arguments.check = true ∧
          ∃ entry ∈ entries, entry.error = none ∧ entry.isChanged = true) ∧
    ∀ parse words files made written, StripArguments.ofList words = .ok arguments →
      stripAll parse arguments files = .ok (made, written) →
        made = made.entries.foldl .push .empty ∧
          execute parse words files = .finished (finish arguments made written) := by
  intro report
  have whole : report = .ofEntries entries := Report.foldl_push_empty entries
  rw [whole]
  refine ⟨rfl, rfl, rfl, ?_, rfl, rfl, Report.hasFailures_ofEntries entries, ?_, ?_, ?_⟩
  · simp only [Report.ofEntries, Summary.ofEntries, ReportEntry.isFailed, Option.not_isSome]
  · intro files plain
    rcases printed_finish plain (.ofEntries entries) files with ⟨output, errors⟩
    exact ⟨_, _, output, errors, changeLines_eq arguments _, errorLines_eq _,
      length_changeLines arguments entries, length_errorLines entries⟩
  · intro files
    rw [exitCode_finish]
    exact exitCode_ofEntries arguments entries
  · intro parse words files made written reads strips
    exact ⟨stripAll_pushed strips, execute_of_stripAll reads strips⟩

theorem report_accounts_mixedFileTree :
    StripArguments.ofList ["--write", "--fail-fast", "--dialect", "plain"] =
        .ok (writeArguments [.ofString "."]) ∧
      ∃ report written failures,
        stripAll slashesParser (writeArguments [.ofString "."]) mixedFileTree =
          .ok (report, written) ∧
        execute slashesParser ["--write", "--fail-fast", "--dialect", "plain"]
          mixedFileTree = .finished (finish (writeArguments [.ofString "."]) report written) ∧
        (finish (writeArguments [.ofString "."]) report written).errors = unlines failures ∧
        failures.length = report.summary.failed := by
  have reads : StripArguments.ofList ["--write", "--fail-fast", "--dialect", "plain"] =
      .ok (writeArguments [.ofString "."]) := by
    decide +kernel
  have strips : ∃ result, stripAll slashesParser (writeArguments [.ofString "."])
      mixedFileTree = .ok result := by
    rw [stripAll, writeArguments, sources_mixedFileTree]
    exact ⟨_, rfl⟩
  rcases strips with ⟨⟨report, written⟩, strips⟩
  rcases report_accounts_for_entries report.entries (writeArguments [.ofString "."]) with
    ⟨-, -, -, -, -, -, -, printed, -, runs⟩
  rcases runs _ _ _ _ _ reads strips with ⟨pushed, executed⟩
  rw [← pushed] at printed
  rcases printed written rfl with ⟨changes, failures, -, errors, -, -, -, count⟩
  exact ⟨reads, report, written, failures, strips, executed, errors, count⟩

end StripCommand

end Uncomment

import Uncomment.Proofs.Rewriting

/-! # Reports of runs that differ in a flag

A report is its entries with their totals. A run that stops at the first failure reports what the
whole run reports up to that failure, and a run that writes reports what a run without writing
reports. -/

namespace Uncomment

/-! ## Totals -/

namespace ReportEntry

def total (measure : ReportEntry → Nat) : List ReportEntry → Nat
  | [] => 0
  | entry :: later => (if entry.isFailed then 0 else measure entry) + total measure later

private theorem total_append (measure : ReportEntry → Nat) (first second : List ReportEntry) :
    total measure (first ++ second) = total measure first + total measure second := by
  induction first with
  | nil => exact (Nat.zero_add _).symm
  | cons entry later induction =>
      rw [List.cons_append, total, total, induction, Nat.add_assoc]

end ReportEntry

namespace Summary

def ofEntries (entries : List ReportEntry) : Summary where
  files := entries.length
  changed := entries.countP fun entry => !entry.isFailed && entry.isChanged
  failed := entries.countP (·.isFailed)
  comments := ReportEntry.total (·.commentCount) entries
  removedBytes := ReportEntry.total (·.removedBytes) entries

private theorem add_ofEntries (entries : List ReportEntry) (entry : ReportEntry) :
    (ofEntries entries).add entry = ofEntries (entries ++ [entry]) := by
  cases failed : entry.isFailed <;> cases changed : entry.isChanged <;>
    simp [add, ofEntries, ReportEntry.total_append, ReportEntry.total, List.countP_append, failed,
      changed]

end Summary

namespace Report

def ofEntries (entries : List ReportEntry) : Report where
  entries := entries
  summary := .ofEntries entries

private theorem push_ofEntries (entries : List ReportEntry) (entry : ReportEntry) :
    (ofEntries entries).push entry = ofEntries (entries ++ [entry]) := by
  rw [push, ofEntries, ofEntries, Summary.add_ofEntries]

theorem foldl_push_ofEntries (entries later : List ReportEntry) :
    later.foldl push (ofEntries entries) = ofEntries (entries ++ later) := by
  induction later generalizing entries with
  | nil => rw [List.append_nil, List.foldl_nil]
  | cons entry later induction =>
      rw [List.foldl_cons, push_ofEntries, induction, ← List.append_cons]

theorem foldl_push_empty (entries : List ReportEntry) :
    entries.foldl push empty = ofEntries entries :=
  foldl_push_ofEntries [] entries

/-- A report cut after its first failed entry. Without a failed entry nothing is cut. -/
def upToFailure (report : Report) : Report :=
  .ofEntries (report.entries.take (report.entries.findIdx (·.isFailed) + 1))

theorem upToFailure_of_no_failure {entries : List ReportEntry}
    (succeed : ∀ entry ∈ entries, entry.isFailed = false) :
    (ofEntries entries).upToFailure = ofEntries entries := by
  have all : entries.take (entries.findIdx (·.isFailed) + 1) = entries := by
    rw [List.findIdx_eq_length_of_false succeed, List.take_of_length_le (Nat.le_succ _)]
  exact congrArg ofEntries all

end Report

/-! ## Runs -/

namespace StripCommand

variable {parse : Parser} {options : StripOptions} {write : Bool} {files : FileTree}

theorem map_fileEntry_processed_true (paths : List Path) :
    (processed parse options true files paths).map (fileEntry parse options files) =
      (paths.map (fileEntry parse options files)).take
        ((paths.map (fileEntry parse options files)).findIdx (·.isFailed) + 1) := by
  induction paths with
  | nil => rfl
  | cons path later induction =>
      rw [processed, List.map_cons, List.findIdx_cons, isFailed_fileEntry]
      cases (strippedFile? parse options files path).isNone with
      | true => rfl
      | false => exact congrArg (fileEntry parse options files path :: ·) induction

theorem report_stripFiles {found : List Path}
    (apart : found.Pairwise fun first second => ¬files.SameFile first second) (failFast : Bool) :
    (stripFiles parse options write failFast .empty files found).1 =
      .ofEntries ((processed parse options failFast files found).map
        (fileEntry parse options files)) := by
  rw [stripFiles_eq parse options write (.refl files found) apart, Report.foldl_push_empty]

theorem exists_stripAll {arguments : StripArguments} {found : List Path}
    (listed : files.sources arguments.paths = .ok found)
    (apart : found.Pairwise fun first second => ¬files.SameFile first second) :
    ∃ written, stripAll parse arguments files =
      .ok (.ofEntries ((processed parse arguments.options arguments.failFast files found).map
        (fileEntry parse arguments.options files)), written) := by
  have report := @report_stripFiles parse arguments.options arguments.write files found apart
    arguments.failFast
  refine ⟨(stripFiles parse arguments.options arguments.write arguments.failFast .empty files
    found).2, ?_⟩
  rw [stripAll, listed, ← report]
  rfl

/-- Runs that differ only in whether they write give the same report. A run that stops at the first
failure gives the report of the whole run cut after its first failed entry, which is the whole
report when there is none. -/
theorem flags_keep_report (parse : Parser) (arguments : StripArguments) (files : FileTree)
    (found : List Path) (listed : files.sources arguments.paths = .ok found)
    (apart : found.Pairwise fun first second => ¬files.SameFile first second) :
    ∃ report : Report, report.summary = .ofEntries report.entries ∧
      (∀ write, ∃ written,
        stripAll parse { arguments with write := write, failFast := false } files =
          .ok (report, written)) ∧
      (∀ write, ∃ written,
        stripAll parse { arguments with write := write, failFast := true } files =
          .ok (report.upToFailure, written)) ∧
      ((∀ entry ∈ report.entries, entry.isFailed = false) → report.upToFailure = report) := by
  let entries := found.map (fileEntry parse arguments.options files)
  refine ⟨.ofEntries entries, rfl, fun write => ?_, fun write => ?_, fun succeed => ?_⟩
  · have run := @exists_stripAll parse files
      { arguments with write := write, failFast := false } found listed apart
    rwa [processed_false] at run
  · have run := @exists_stripAll parse files
      { arguments with write := write, failFast := true } found listed apart
    rwa [map_fileEntry_processed_true] at run
  · exact Report.upToFailure_of_no_failure succeed

theorem flags_keep_report_mixedFileTree :
    ∃ report : Report, report.entries.map (·.path) = ["./a.js", "./m.js", "./z.js"] ∧
      (∀ write, ∃ written, stripAll slashesParser
          { writeArguments [.ofString "."] with write := write, failFast := false }
          mixedFileTree = .ok (report, written)) ∧
      report.upToFailure.entries.map (·.path) = ["./a.js", "./m.js"] ∧
      ∀ write, ∃ written, stripAll slashesParser
          { writeArguments [.ofString "."] with write := write, failFast := true }
          mixedFileTree = .ok (report.upToFailure, written) := by
  rcases flags_keep_report slashesParser (writeArguments [.ofString "."]) mixedFileTree _
    sources_mixedFileTree apart_mixedFileTree with ⟨report, -, whole, cut, -⟩
  let entry (path : Path) : ReportEntry :=
    fileEntry slashesParser (writeArguments [.ofString "."]).options mixedFileTree path
  have reported : report =
      .ofEntries [entry (.ofString "./a.js"), entry (.ofString "./m.js"),
        entry (.ofString "./z.js")] := by
    rcases whole false with ⟨written, run⟩
    rcases @exists_stripAll slashesParser mixedFileTree
      { writeArguments [.ofString "."] with write := false, failFast := false } _
      sources_mixedFileTree apart_mixedFileTree with ⟨writtenAlso, runAlso⟩
    rw [processed_false, run] at runAlso
    exact (Prod.mk.inj (Except.ok.inj runAlso)).1
  rcases strippedFile?_mixedFileTree [.ofString "."] with ⟨comment, textless, -⟩
  have passes : (entry (.ofString "./a.js")).isFailed = false := by
    rw [isFailed_fileEntry, comment]
    rfl
  have fails : (entry (.ofString "./m.js")).isFailed = true := by
    rw [isFailed_fileEntry, textless]
    rfl
  have cutEntries : report.upToFailure.entries =
      [entry (.ofString "./a.js"), entry (.ofString "./m.js")] := by
    rw [reported]
    simp only [Report.upToFailure, Report.ofEntries, List.findIdx_cons, passes, fails, cond_true,
      cond_false, Nat.zero_add, List.take_succ_cons, List.take_zero]
  refine ⟨report, ?_, whole, ?_, cut⟩
  · rw [reported]
    simp only [Report.ofEntries, List.map_cons, List.map_nil, entry, path_fileEntry]
    decide
  · rw [cutEntries]
    simp only [List.map_cons, List.map_nil, entry, path_fileEntry]
    decide

end StripCommand

end Uncomment

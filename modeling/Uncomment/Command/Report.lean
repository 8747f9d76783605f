import Uncomment.Json.Printer

/-! # Reports

One entry per file that was processed, and a summary that is kept while entries are added. -/

namespace Uncomment

structure ReportEntry where
  path : String
  commentCount : Nat
  removedBytes : Nat
  isChanged : Bool
  error : Option String
  deriving DecidableEq, Repr

namespace ReportEntry

def failed (path error : String) : ReportEntry where
  path := path
  commentCount := 0
  removedBytes := 0
  isChanged := false
  error := some error

def isFailed (entry : ReportEntry) : Bool :=
  entry.error.isSome

end ReportEntry

structure Summary where
  files : Nat
  changed : Nat
  failed : Nat
  comments : Nat
  removedBytes : Nat
  deriving DecidableEq, Repr

namespace Summary

def empty : Summary := ⟨0, 0, 0, 0, 0⟩

def add (summary : Summary) (entry : ReportEntry) : Summary :=
  if entry.isFailed then
    { summary with
      files := summary.files + 1
      failed := summary.failed + 1 }
  else
    { summary with
      files := summary.files + 1
      comments := summary.comments + entry.commentCount
      removedBytes := summary.removedBytes + entry.removedBytes
      changed := if entry.isChanged then summary.changed + 1 else summary.changed }

def display (summary : Summary) : String :=
  toString summary.files ++ " file(s) processed, " ++ toString summary.changed ++ " changed, " ++
    toString summary.comments ++ " comment(s) removed (" ++ toString summary.removedBytes ++
    " chars), " ++ toString summary.failed ++ " failed"

end Summary

structure Report where
  entries : List ReportEntry
  summary : Summary
  deriving DecidableEq, Repr

namespace Report

def empty : Report := ⟨[], .empty⟩

def push (report : Report) (entry : ReportEntry) : Report where
  entries := report.entries ++ [entry]
  summary := report.summary.add entry

def hasFailures (report : Report) : Bool :=
  0 < report.summary.failed

end Report

/-! ## Reports as JSON -/

def ReportEntry.toJson (entry : ReportEntry) : Json :=
  .object ([("path", .string entry.path), ("commentCount", .number entry.commentCount),
    ("removedChars", .number entry.removedBytes), ("changed", .boolean entry.isChanged)] ++
    (entry.error.map fun error => ("error", Json.string error)).toList)

def Summary.toJson (summary : Summary) : Json :=
  .object [("files", .number summary.files), ("changed", .number summary.changed),
    ("failed", .number summary.failed), ("comments", .number summary.comments),
    ("removedChars", .number summary.removedBytes)]

def Report.toJson (report : Report) : Json :=
  .object [("files", .array (report.entries.map (·.toJson))), ("summary", report.summary.toJson)]

end Uncomment

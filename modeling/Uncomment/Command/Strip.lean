import Uncomment.Command.Arguments
import Uncomment.Command.Outcome
import Uncomment.Command.Report
import Uncomment.FileTree.Sources

/-! # The strip command

Strips every source below the given paths, reports on each, and writes the results back when asked
to. Files are processed one after the other, each as the ones before have left it. -/

namespace Uncomment

namespace StripCommand

/-! ## One file -/

inductive FileError
  | unreadable (path : Path)
  | tooLong (path : Path)
  | unwritable (path : Path)
  | notStripped (cause : StripFailure)
  deriving DecidableEq

def FileError.message : FileError → String
  | .unreadable path =>
      "Failed to read " ++ path.display ++ ": No such file or directory (os error 2)"
  | .tooLong path => "Failed to read " ++ path.display ++ ": File name too long (os error 36)"
  | .unwritable path => "Failed to write " ++ path.display ++ ": Is a directory (os error 21)"
  | .notStripped cause => cause.message

def stripFile? (parse : Parser) (options : StripOptions) (write : Bool) (files : FileTree)
    (path : Path) : Except FileError (ReportEntry × FileTree) :=
  match files.read? path with
  | none => .error (if path.isTooLong then .tooLong path else .unreadable path)
  | some content =>
      match stripBytes parse content { options with filename := some path.display } with
      | .error cause => .error (.notStripped cause)
      | .ok stripped =>
          let result := stripped.code.encode
          let isChanged : Bool := result ≠ content
          let entry : ReportEntry :=
            { path := path.display
              commentCount := stripped.commentCount
              removedBytes := stripped.removedBytes
              isChanged := isChanged
              error := none }
          if write && isChanged then
            match files.write? path result with
            | some written => .ok (entry, written)
            | none => .error (.unwritable path)
          else
            .ok (entry, files)

def reportFile (parse : Parser) (options : StripOptions) (write : Bool) (files : FileTree)
    (path : Path) : ReportEntry × FileTree :=
  match stripFile? parse options write files path with
  | .ok result => result
  | .error error => (.failed path.display error.message, files)

/-! ## All files -/

/-- Process files in order and add to a report. With `failFast` the first failure is the last file
processed. -/
def stripFiles (parse : Parser) (options : StripOptions) (write failFast : Bool)
    (report : Report) (files : FileTree) : List Path → Report × FileTree
  | [] => (report, files)
  | path :: later =>
      let (entry, files) := reportFile parse options write files path
      let report := report.push entry
      if failFast && entry.isFailed then
        (report, files)
      else
        stripFiles parse options write failFast report files later

def stripAll (parse : Parser) (arguments : StripArguments) (files : FileTree) :
    Except SourcesError (Report × FileTree) :=
  (files.sources arguments.paths).map fun paths =>
    stripFiles parse arguments.options arguments.write arguments.failFast .empty files paths

/-! ## Printing -/

def errorLines (report : Report) : List String :=
  report.entries.filterMap fun entry => entry.error.map fun error => "error: " ++ error

def changeLines (arguments : StripArguments) (report : Report) : List String :=
  (report.entries.filter fun entry => !entry.isFailed && entry.isChanged && !arguments.write).map
    fun entry => "would change: " ++ entry.path

def sourcesErrorText (error : SourcesError) : String :=
  let numbered := error.causes.zipIdx.map fun (cause, number) =>
    "    " ++ toString number ++ ": " ++
      "\n       ".intercalate ((Text.splitAt '\n' cause.toList).map String.ofList)
  let causes := if numbered.isEmpty then [] else ["", "Caused by:"] ++ numbered
  unlines (("Error: " ++ error.context) :: causes)

def exitCode (arguments : StripArguments) (report : Report) : Nat :=
  if report.hasFailures || (arguments.check && decide (0 < report.summary.changed)) then 1 else 0

def finish (arguments : StripArguments) (report : Report) (files : FileTree) : Finished :=
  if arguments.json then
    { exitCode := exitCode arguments report
      output := unlines [report.toJson.pretty]
      errors := ""
      files := files }
  else
    { exitCode := exitCode arguments report
      output := unlines (changeLines arguments report ++ [report.summary.display])
      errors := unlines (errorLines report)
      files := files }

def execute (parse : Parser) (arguments : List String) (files : FileTree) : Outcome :=
  match StripArguments.ofList arguments with
  | .error (.help isLong) =>
      .finished ⟨0, if isLong then StripArguments.longHelp else StripArguments.shortHelp, "", files⟩
  | .error .version => .finished ⟨0, StripArguments.versionText, "", files⟩
  | .error reason => .misused reason
  | .ok arguments =>
      match stripAll parse arguments files with
      | .error error => .finished ⟨1, "", sourcesErrorText error, files⟩
      | .ok (report, files) => .finished (finish arguments report files)

end StripCommand

end Uncomment

import Uncomment.CommandLine.Basic
import Uncomment.Dialect.Preset
import Uncomment.Path.Basic
import Uncomment.Stripping.Basic

/-! # Arguments of the strip command -/

namespace Uncomment

structure StripArguments where
  /-- The files and directories to process. -/
  paths : List Path
  write : Bool
  check : Bool
  json : Bool
  dialect : Option Preset
  legacyDecorators : Bool
  furthestError : Bool
  failFast : Bool
  deriving DecidableEq, Repr

namespace StripArguments

inductive Key
  | paths
  | write
  | check
  | json
  | dialect
  | legacyDecorators
  | furthestError
  | failFast
  | help
  | version
  deriving DecidableEq, Repr

def usage : Usage Key where
  switches :=
    [⟨.write, "write", none, .flag⟩,
      ⟨.check, "check", none, .flag⟩,
      ⟨.json, "json", none, .flag⟩,
      ⟨.dialect, "dialect", none, .value⟩,
      ⟨.legacyDecorators, "legacy-decorators", none, .flag⟩,
      ⟨.furthestError, "furthest-error", none, .flag⟩,
      ⟨.failFast, "fail-fast", none, .flag⟩,
      ⟨.help, "help", some 'h', .help⟩,
      ⟨.version, "version", some 'V', .version⟩]
  operand := some ⟨.paths, true⟩
  accepts key value :=
    match key with
    | .dialect => (Preset.ofName? value).isSome
    | _ => value ≠ ""

def ofList (arguments : List String) : Except Interruption StripArguments := do
  let progress ← usage.read arguments
  if progress.has .legacyDecorators ∧ !progress.has .dialect then
    throw .missingArgument
  let paths := progress.values .paths
  return {
    paths := (if paths.isEmpty then ["."] else paths).map .ofString
    write := progress.has .write
    check := progress.has .check
    json := progress.has .json
    dialect := (progress.values .dialect).head?.bind Preset.ofName?
    legacyDecorators := progress.has .legacyDecorators
    furthestError := progress.has .furthestError
    failFast := progress.has .failFast }

def fixedDialect (arguments : StripArguments) : Option Dialect :=
  arguments.dialect.map (·.dialect arguments.legacyDecorators)

def failureChoice (arguments : StripArguments) : FailureChoice :=
  if arguments.furthestError then .furthest else .last

def options (arguments : StripArguments) : StripOptions where
  dialect := arguments.fixedDialect
  failureChoice := arguments.failureChoice

/-! ## Texts -/

def versionText : String := "strip-comments 0.1.0\n"

def longHelp : String :=
  "Remove comments from JavaScript, JSX, TypeScript and Flow sources\n\n" ++
  "Usage: strip-comments [OPTIONS] [PATHS]...\n\n" ++
  "Arguments:\n" ++
  "  [PATHS]...\n" ++
  "          Files or directories to process\n" ++
  "          \n" ++
  "          [default: .]\n\n" ++
  "Options:\n" ++
  "      --write\n" ++
  "          Overwrite changed files in place\n\n" ++
  "      --check\n" ++
  "          Exit non-zero if any file would change\n\n" ++
  "      --json\n" ++
  "          Print a JSON report instead of the text summary\n\n" ++
  "      --dialect <DIALECT>\n" ++
  "          Parse with one fixed dialect instead of trying the default list\n\n" ++
  "          Possible values:\n" ++
  "          - typescript: JSX and TypeScript\n" ++
  "          - flow:       JSX and Flow\n" ++
  "          - jsx:        JSX only\n" ++
  "          - plain:      No language extensions\n" ++
  "          - minimal:    No language extensions and no decorators\n\n" ++
  "      --legacy-decorators\n" ++
  "          Use legacy decorators with --dialect\n\n" ++
  "      --furthest-error\n" ++
  "          Report the parse error located furthest into each file\n\n" ++
  "      --fail-fast\n" ++
  "          Stop at the first file that fails\n\n" ++
  "  -h, --help\n" ++
  "          Print help (see a summary with '-h')\n\n" ++
  "  -V, --version\n" ++
  "          Print version\n"

def shortHelp : String :=
  "Remove comments from JavaScript, JSX, TypeScript and Flow sources\n\n" ++
  "Usage: strip-comments [OPTIONS] [PATHS]...\n\n" ++
  "Arguments:\n" ++
  "  [PATHS]...  Files or directories to process [default: .]\n\n" ++
  "Options:\n" ++
  "      --write              Overwrite changed files in place\n" ++
  "      --check              Exit non-zero if any file would change\n" ++
  "      --json               Print a JSON report instead of the text summary\n" ++
  "      --dialect <DIALECT>  Parse with one fixed dialect instead of trying the default list " ++
  "[possible values: typescript, flow, jsx, plain, minimal]\n" ++
  "      --legacy-decorators  Use legacy decorators with --dialect\n" ++
  "      --furthest-error     Report the parse error located furthest into each file\n" ++
  "      --fail-fast          Stop at the first file that fails\n" ++
  "  -h, --help               Print help (see more with '--help')\n" ++
  "  -V, --version            Print version\n"

end StripArguments

end Uncomment

import Uncomment.Command.Outcome
import Uncomment.Stripping.Basic

/-! # The fixtures command

A fixture is a supported file of one directory, and its expected result stands beside it with `.out`
before the extension. The command writes the results, or compares them with the written ones. -/

namespace Uncomment

structure FixturesArguments where
  write : Bool
  directory : Path
  deriving DecidableEq, Repr

namespace FixturesArguments

inductive Key
  | write
  | directory
  | help
  deriving DecidableEq, Repr

def usage : Usage Key where
  switches :=
    [⟨.write, "write", some 'w', .flag⟩,
      ⟨.directory, "dir", none, .value⟩,
      ⟨.help, "help", some 'h', .help⟩]
  operand := none
  accepts _ value := value ≠ ""

def ofList (arguments : List String) : Except Interruption FixturesArguments := do
  let progress ← usage.read arguments
  return {
    write := progress.has .write
    directory := .ofString ((progress.values .directory).head?.getD "fixtures") }

def helpText : String :=
  "Create or validate fixture files\n\n" ++
  "Usage: fixtures [OPTIONS]\n\n" ++
  "Options:\n" ++
  "  -w, --write      Write fixtures instead of validating them\n" ++
  "      --dir <DIR>  Path to the fixtures directory (defaults to \"./fixtures\") " ++
  "[default: fixtures]\n" ++
  "  -h, --help       Print help\n"

end FixturesArguments

namespace FixturesCommand

/-! ## File names -/

def isOutputName (name : Name) : Bool :=
  Name.contains ".out.".toList name.text

/-- The path of the expected result of a fixture: `.out` is put before the last dot of its name. -/
def outputPath? (directory : Path) (name : Name) : Option Path :=
  (Name.splitAtLastDot? name.text).bind fun (stem, extension) =>
    (Name.ofText? (stem ++ ".out.".toList ++ extension)).map directory.join

def inputs (files : FileTree) (directory : Path) (content : Directory) : List Name :=
  content.names.filter fun name =>
    files.isFile (directory.join name) && !isOutputName name && name.isSupported

/-! ## Processing -/

structure State where
  printed : List String
  mismatches : List String
  files : FileTree

structure Aborted where
  state : State

def processFixture (parse : Parser) (arguments : FixturesArguments) (state : State) (name : Name) :
    Option State := do
  let path := arguments.directory.join name
  let shown := String.ofList name.text
  let output ← outputPath? arguments.directory name
  let source ← (state.files.read? path).bind fun content => (Text.decode content).toOption
  let stripped ← (strip parse source { filename := some shown }).toOption
  let result := stripped.code.encode
  if arguments.write then
    let written ← state.files.write? output result
    let line := "  " ++ shown ++ ": " ++ toString stripped.commentCount ++ " comment(s) -> " ++
      output.display
    return { state with printed := state.printed ++ [line], files := written }
  else
    match state.files.read? output with
    | some expected =>
        if expected = result then
          return { state with printed := state.printed ++ ["  ✓ " ++ shown] }
        else
          return { state with mismatches := state.mismatches ++ [shown ++ ": code mismatch"] }
    | none =>
        let mismatch := shown ++ ": missing output file " ++ output.display
        return { state with mismatches := state.mismatches ++ [mismatch] }

def processFixtures (parse : Parser) (arguments : FixturesArguments) (state : State) :
    List Name → Except Aborted State
  | [] => .ok state
  | name :: later =>
      match processFixture parse arguments state name with
      | some state => processFixtures parse arguments state later
      | none => .error ⟨state⟩

def finish (count : Nat) (state : State) : Finished :=
  if state.mismatches.isEmpty then
    let total := "\n" ++ toString count ++ " fixture(s) processed."
    ⟨0, unlines (state.printed ++ [total]), "", state.files⟩
  else
    let failures := state.mismatches.map ("  ✗ " ++ ·)
    ⟨1, unlines state.printed, unlines ("\nValidation failed:" :: failures), state.files⟩

def run (parse : Parser) (arguments : FixturesArguments) (files : FileTree) : Finished :=
  match files.directory? arguments.directory with
  | none => ⟨1, "", "", files⟩
  | some content =>
      let names := inputs files arguments.directory content
      match processFixtures parse arguments ⟨[], [], files⟩ names with
      | .ok state => finish names.length state
      | .error ⟨state⟩ => ⟨1, unlines state.printed, "", state.files⟩

def execute (parse : Parser) (arguments : List String) (files : FileTree) : Outcome :=
  match FixturesArguments.ofList arguments with
  | .error (.help _) => .finished ⟨0, FixturesArguments.helpText, "", files⟩
  | .error reason => .misused reason
  | .ok arguments => .finished (run parse arguments files)

end FixturesCommand

end Uncomment

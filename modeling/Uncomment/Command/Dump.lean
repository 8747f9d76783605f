import Uncomment.Command.Outcome
import Uncomment.Resolution.Search
import Uncomment.Tree.Dump
import Uncomment.Tree.SExpression

/-! # The dump command

Prints the tree of one source, under the dialect it fits or under a given grammar. -/

namespace Uncomment

structure DumpArguments where
  input : Path
  /-- The grammar to use whether the source fits it or not. -/
  grammar : Option Grammar
  sExpression : Bool
  deriving DecidableEq, Repr

namespace DumpArguments

inductive Key
  | input
  | grammar
  | sExpression
  | help
  deriving DecidableEq, Repr

def usage : Usage Key where
  switches :=
    [⟨.grammar, "grammar", some 'g', .value⟩,
      ⟨.sExpression, "sexp", some 's', .flag⟩,
      ⟨.help, "help", some 'h', .help⟩]
  operand := some ⟨.input, false⟩
  accepts key value :=
    match key with
    | .grammar => (Grammar.ofName? value).isSome
    | _ => value ≠ ""

def ofList (arguments : List String) : Except Interruption DumpArguments := do
  let progress ← usage.read arguments
  match progress.values .input with
  | [] => throw .missingArgument
  | input :: _ =>
      return {
        input := .ofString input
        grammar := (progress.values .grammar).head?.bind Grammar.ofName?
        sExpression := progress.has .sExpression }

def helpText : String :=
  "Resolve a source file's dialect and print its CST\n\n" ++
  "Usage: parse [OPTIONS] <INPUT>\n\n" ++
  "Arguments:\n" ++
  "  <INPUT>  Path to the source file to parse\n\n" ++
  "Options:\n" ++
  "  -g, --grammar <GRAMMAR>  Dump the tree of this grammar instead of the resolved dialect's " ++
  "[possible values: javascript, typescript, tsx]\n" ++
  "  -s, --sexp               Print the tree in S-expression format instead of the default " ++
  "dump format\n" ++
  "  -h, --help               Print help\n"

end DumpArguments

namespace DumpCommand

def header (resolution : Resolution) : String :=
  "# dialect: " ++ resolution.dialect.name ++ " (" ++ resolution.dialect.grammar.name ++ "), " ++
    resolution.sourceKind.name ++ ", " ++ toString resolution.comments.length ++ " comment(s)"

def treeLines (arguments : DumpArguments) (source : Text) (tree : Tree) : List String :=
  if arguments.sExpression then [tree.sExpression] else tree.dump source

def lines? (parse : Parser) (arguments : DumpArguments) (source : Text) : Option (List String) :=
  match arguments.grammar with
  | some grammar => (parse source grammar).map (treeLines arguments source)
  | none =>
      match Resolution.find parse source none {} with
      | .ok resolution => some (header resolution :: treeLines arguments source resolution.tree)
      | .error _ => none

def readText? (files : FileTree) (path : Path) : Option Text :=
  (files.read? path).bind fun content => (Text.decode content).toOption

def execute (parse : Parser) (arguments : List String) (files : FileTree) : Outcome :=
  match DumpArguments.ofList arguments with
  | .error (.help _) => .finished ⟨0, DumpArguments.helpText, "", files⟩
  | .error reason => .misused reason
  | .ok arguments =>
      match (readText? files arguments.input).bind (lines? parse arguments) with
      | some lines => .finished ⟨0, unlines lines, "", files⟩
      | none => .finished ⟨1, "", "", files⟩

end DumpCommand

end Uncomment

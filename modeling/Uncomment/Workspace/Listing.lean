import Uncomment.FileTree.Basic
import Uncomment.Resolution.ParseMemo
import Uncomment.Tree.Rows

/-! # Workspace listings

A listing names the files, directories and links that a command may see, and holds the syntax trees
of sources among them. It has one item per line, in fields between tabs:

* `file`, a path;
* `directory`, a path;
* `link`, a path and the target of the link;
* `tree`, a grammar and the path of the source; the lines that follow are the nodes of its tree;
* `node`, a depth, flags (`n` named, `e` error, `m` missing, `h` has an error), a start, a stop,
  the fields filled, between commas, and a kind. -/

namespace Uncomment

inductive ListingLine
  | file (path : Path)
  | directory (path : Path)
  | link (path target : Path)
  | tree (grammar : Grammar) (path : Path)
  | node (depth : Nat) (node : Node)
  deriving DecidableEq, Repr

namespace ListingLine

def number? (text : Text) : Option Nat :=
  (String.ofList text).toNat?

def ofFields? : List String → Option ListingLine
  | ["file", path] => some (.file (.ofString path))
  | ["directory", path] => some (.directory (.ofString path))
  | ["link", path, target] => some (.link (.ofString path) (.ofString target))
  | ["tree", grammar, path] =>
      (Grammar.ofName? grammar).map fun grammar => .tree grammar (.ofString path)
  | ["node", depth, flags, start, stop, filled, kind] => do
      let flags := flags.toList
      let filled := (Text.splitAt ',' filled.toList).filter (· ≠ [])
      return .node (← number? depth.toList)
        { kind := kind
          isNamed := flags.contains 'n'
          isError := flags.contains 'e'
          isMissing := flags.contains 'm'
          hasError := flags.contains 'h'
          span := ⟨← number? start.toList, ← number? stop.toList⟩
          fields := filled.map String.ofList }
  | _ => none

def ofText? (text : Text) : Option ListingLine :=
  ofFields? ((Text.splitAt '\t' text).map String.ofList)

def row? : ListingLine → Option (Nat × Node)
  | .node depth row => some (depth, row)
  | _ => none

end ListingLine

abbrev Listing := List ListingLine

namespace Listing

def files (listing : Listing) : List Path :=
  listing.filterMap fun line =>
    match line with
    | .file path => some path
    | _ => none

def trees : Listing → List (Path × Grammar × Tree)
  | [] => []
  | .tree grammar path :: rest =>
      let rows := (rest.takeWhile (·.row?.isSome)).filterMap (·.row?)
      match Tree.ofRows? rows with
      | some tree => (path, grammar, tree) :: trees rest
      | none => trees rest
  | _ :: rest => trees rest

def fileTree (listing : Listing) (contents : List (Path × Bytes)) : FileTree :=
  listing.foldl
    (fun tree line =>
      match line with
      | .file path => tree.putFile path.location ((contents.lookup path).getD [])
      | .directory path => tree.putDirectory path.location
      | .link path target => tree.putLink path.location target
      | _ => tree)
    .empty

def parser (listing : Listing) (contents : List (Path × Bytes)) : Parser :=
  let answers := listing.trees.filterMap fun (path, grammar, tree) =>
    ((contents.lookup path).bind fun content => (Text.decode content).toOption).map fun source =>
      ((source, grammar), tree)
  fun source grammar => answers.lookup (source, grammar)

end Listing

end Uncomment

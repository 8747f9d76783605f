import Uncomment.FileTree.Basic

/-! # Sources of a file tree

The sources that given paths name: files by themselves, and directories with what lies below them
except hidden entries and installed packages. The path of a source is the given path with the names
that lead on from it, so a directory below can have a path that is too long to read it. -/

namespace Uncomment

/-! ## Walking a directory -/

def skippedDirectories : List String :=
  ["node_modules"]

def Entry.isSkipped (name : Name) (entry : Entry) : Bool :=
  name.isHidden ||
    match entry with
    | .directory _ => skippedDirectories.contains (String.ofList name.text)
    | _ => false

mutual

def Entry.sources (path : Path) : Entry → Except Path (List Path)
  | .file _ => .ok (if path.isSupported then [path] else [])
  | .link _ => .ok []
  | .directory content => if path.isTooLong then .error path else content.sources path

/-- The supported files of the directory at a path, in the order of its names and with the contents
of a directory at its place, or the first directory below that cannot be read. -/
def Directory.sources (path : Path) : Directory → Except Path (List Path)
  | .empty => .ok []
  | .cons name entry later => do
      let found ← if entry.isSkipped name then .ok [] else entry.sources (path.join name)
      return found ++ (← later.sources path)

end

/-! ## Sources of paths -/

inductive SourcesError
  | missing (path : Path)
  /-- A directory below the path has a path that is too long to read it. -/
  | unreadable (path directory : Path)
  deriving DecidableEq, Repr

namespace SourcesError

def context : SourcesError → String
  | .missing path => "Path does not exist: " ++ path.display
  | .unreadable path _ => "Failed to read directory entry under " ++ path.display

def causes : SourcesError → List String
  | .missing _ => []
  | .unreadable _ directory =>
      ["IO error for operation on " ++ directory.display ++ ": File name too long (os error 36)",
        "File name too long (os error 36)"]

def message (error : SourcesError) : String :=
  ": ".intercalate (error.context :: error.causes)

end SourcesError

namespace FileTree

def sourcesOf (tree : FileTree) (path : Path) : Except SourcesError (List Path) :=
  match tree.resolve? path with
  | none => .error (.missing path)
  | some (.file _) => .ok (if path.isSupported then [path] else [])
  | some (.link _) => .ok []
  | some (.directory content) => (content.sources path).mapError (.unreadable path)

/-- The paths of a list without those that have the components of an earlier one, or of one that
was `seen` before. -/
def withoutRepetitions (seen : List Path) : List Path → List Path
  | [] => []
  | path :: later =>
      if seen.any (·.components = path.components) then
        withoutRepetitions seen later
      else
        path :: withoutRepetitions (path :: seen) later

def sources (tree : FileTree) (paths : List Path) : Except SourcesError (List Path) :=
  (paths.mapM tree.sourcesOf).map fun found => withoutRepetitions [] found.flatten

end FileTree

end Uncomment

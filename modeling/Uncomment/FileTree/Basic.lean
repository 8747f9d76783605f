import Uncomment.FileTree.Directory

/-! # File trees

The files below a working directory. Paths are followed as an operating system follows them: links
lead on from the directory that holds them, and only a directory can be stepped through. A path that
is too long leads nowhere, and no entry is made under a name that is too long. Nothing outside the
working directory can be reached. -/

namespace Uncomment

/-- A working directory in which every directory is in order. -/
structure FileTree where
  root : Directory
  ordered : root.Ordered
  deriving DecidableEq

inductive Destination
  /-- To an entry that is there and is no link. -/
  | found (location : Location)
  /-- To a name that a directory does not have and could have. -/
  | vacant (location : Location)
  | unreachable
  deriving DecidableEq, Repr

namespace FileTree

def empty : FileTree where
  root := .empty
  ordered := by simp [Directory.Ordered]

/-! ## Locations -/

def entryAt? (tree : FileTree) (location : Location) : Option Entry :=
  tree.root.entryAt? location

def directoryAt? (tree : FileTree) (location : Location) : Option Directory :=
  match tree.entryAt? location with
  | some (.directory content) => some content
  | _ => none

theorem directoryAt?_eq_some_iff {tree : FileTree} {location : Location} {content : Directory} :
    tree.directoryAt? location = some content ↔
      tree.entryAt? location = some (.directory content) := by
  rw [directoryAt?]
  cases tree.entryAt? location with
  | none => simp
  | some entry => cases entry <;> simp

def putFile (tree : FileTree) (location : Location) (content : Bytes) : FileTree where
  root := tree.root.put location (.file content)
  ordered := Directory.ordered_put (by simp [Entry.Ordered]) tree.ordered

def putLink (tree : FileTree) (location : Location) (target : Path) : FileTree where
  root := tree.root.put location (.link target)
  ordered := Directory.ordered_put (by simp [Entry.Ordered]) tree.ordered

def putDirectory (tree : FileTree) (location : Location) : FileTree where
  root := tree.root.put location (.directory .empty)
  ordered := Directory.ordered_put (by simp [Entry.Ordered, Directory.Ordered]) tree.ordered

/-! ## Following paths -/

def maxLinks : Nat := 40

/-- Follow steps from a location, through at most `links` links. -/
def follow (tree : FileTree) (links : Nat) (here : Location) :
    List Component → Destination
  | [] => .found here
  | .root :: _ => .unreachable
  | .current :: rest =>
      if (tree.directoryAt? here).isSome then tree.follow links here rest else .unreachable
  | .parent :: rest =>
      if (tree.directoryAt? here).isSome ∧ here ≠ [] then
        tree.follow links here.dropLast rest
      else
        .unreachable
  | .entry name :: rest =>
      match tree.directoryAt? here with
      | none => .unreachable
      | some directory =>
          match directory.find? name with
          | none =>
              if rest = [] ∧ !name.isTooLong then .vacant (here ++ [name]) else .unreachable
          | some (.link target) =>
              match links with
              | 0 => .unreachable
              | links + 1 => tree.follow links here (target.steps ++ rest)
          | some _ => tree.follow links (here ++ [name]) rest
termination_by steps => (links, steps.length)

def destination (tree : FileTree) (path : Path) : Destination :=
  if path.text = [] ∨ path.isTooLong then .unreachable else tree.follow maxLinks [] path.steps

def resolve? (tree : FileTree) (path : Path) : Option Entry :=
  match tree.destination path with
  | .found location => tree.entryAt? location
  | _ => none

def contains (tree : FileTree) (path : Path) : Bool :=
  (tree.resolve? path).isSome

def read? (tree : FileTree) (path : Path) : Option Bytes :=
  match tree.resolve? path with
  | some (.file content) => some content
  | _ => none

def isFile (tree : FileTree) (path : Path) : Bool :=
  (tree.read? path).isSome

def directory? (tree : FileTree) (path : Path) : Option Directory :=
  match tree.resolve? path with
  | some (.directory content) => some content
  | _ => none

def write? (tree : FileTree) (path : Path) (content : Bytes) : Option FileTree :=
  match tree.destination path with
  | .found location =>
      match tree.entryAt? location with
      | some (.file _) => some (tree.putFile location content)
      | _ => none
  | .vacant location => some (tree.putFile location content)
  | .unreachable => none

end FileTree

/-! ## Listing files -/

mutual

def Entry.filesBelow (way : Location) : Entry → List (Location × Bytes)
  | .file content => [(way, content)]
  | .link _ => []
  | .directory content => content.filesBelow way

def Directory.filesBelow (way : Location) : Directory → List (Location × Bytes)
  | .empty => []
  | .cons name entry later => entry.filesBelow (way ++ [name]) ++ later.filesBelow way

end

namespace FileTree

def files (tree : FileTree) : List (Location × Bytes) :=
  tree.root.filesBelow []

def changes (before after : FileTree) : List (Location × Bytes) :=
  after.files.filter fun file => before.entryAt? file.1 ≠ some (.file file.2)

end FileTree

/-! ## Locations as paths -/

def Location.path (location : Location) : Path :=
  ⟨['/'].intercalate (location.map (·.text))⟩

def Path.location (path : Path) : Location :=
  path.components.filterMap fun component =>
    match component with
    | .entry name => some name
    | _ => none

end Uncomment

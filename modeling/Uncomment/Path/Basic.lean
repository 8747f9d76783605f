import Uncomment.Path.Name

/-! # Paths

A path is a text that names a file by the steps that lead to it. How it is written matters in what
is printed; two paths with the same components count as one. -/

namespace Uncomment

structure Path where
  text : Text
  deriving DecidableEq, Repr

inductive Component
  | root
  | current
  | parent
  | entry (name : Name)
  deriving DecidableEq, Repr

def Component.ofPart (part : Text) : Component :=
  match Name.ofText? part with
  | some name => .entry name
  | none => if part = ['.', '.'] then .parent else .current

namespace Path

def ofString (text : String) : Path := ⟨text.toList⟩

def display (path : Path) : String :=
  String.ofList path.text

def maxBytes : Nat := 4095

def isTooLong (path : Path) : Bool :=
  maxBytes < path.text.byteLength

/-! ## Components -/

def parts (text : Text) : List Text :=
  Text.splitAt '/' text

/-- The steps of a path that is followed from a directory. A path that begins with a slash is
followed from the root of all directories, and one that ends with a slash ends in a directory. -/
def steps (path : Path) : List Component :=
  match path.text with
  | [] => []
  | '/' :: rest => .root :: (parts rest).map .ofPart
  | text => (parts text).map .ofPart

/-- The components by which paths are compared: the steps without those that stay where they are,
except one that the path begins with. -/
def components (path : Path) : List Component :=
  match path.text with
  | '.' :: '/' :: rest => .current :: moving rest
  | ['.'] => [.current]
  | '/' :: rest => .root :: moving rest
  | text => moving text
where
  /-- The steps of a relative path that do move. -/
  moving (text : Text) : List Component :=
    ((parts text).map .ofPart).filter (· ≠ .current)

def fileName? (path : Path) : Option Name :=
  -- A path that ends with a step to another directory has no name.
  match path.components.getLast? with
  | some (.entry name) => some name
  | _ => none

def isSupported (path : Path) : Bool :=
  path.fileName?.any (·.isSupported)

def join (path : Path) (name : Name) : Path :=
  match path.text.getLast? with
  | none => ⟨name.text⟩
  | some '/' => ⟨path.text ++ name.text⟩
  | some _ => ⟨path.text ++ '/' :: name.text⟩

example : (ofString "./a//b/.").components =
    [.current, .entry ⟨['a'], by decide⟩, .entry ⟨['b'], by decide⟩] := by decide +kernel

example : ["dir.ts/file", "dir/.js", "dir/.x.js", "a.js/./"].map (isSupported <| ofString ·) =
    [false, false, true, true] := by decide +kernel

end Path

end Uncomment

import Uncomment.Path.Basic
import Uncomment.Text.Utf8

/-! # Directories

The entries of a directory have distinct names and stand in ascending order. -/

namespace Uncomment

mutual

inductive Entry where
  | file (content : Bytes)
  /-- A symbolic link, followed from the directory that holds it. -/
  | link (target : Path)
  | directory (content : Directory)

inductive Directory where
  | empty
  | cons (name : Name) (entry : Entry) (later : Directory)

end

deriving instance DecidableEq for Entry
deriving instance DecidableEq for Directory
deriving instance Repr for Entry
deriving instance Repr for Directory

abbrev Location := List Name

namespace Directory

/-! ## Reading -/

def names : Directory → List Name
  | .empty => []
  | .cons name _ later => name :: later.names

def find? (wanted : Name) : Directory → Option Entry
  | .empty => none
  | .cons name entry later => if name = wanted then some entry else later.find? wanted

def subdirectory? (directory : Directory) (name : Name) : Option Directory :=
  match directory.find? name with
  | some (.directory content) => some content
  | _ => none

theorem subdirectory?_eq_some_iff {directory content : Directory} {name : Name} :
    directory.subdirectory? name = some content ↔
      directory.find? name = some (.directory content) := by
  unfold subdirectory?
  cases directory.find? name with
  | none => simp
  | some entry => cases entry <;> simp

def entryAt? (directory : Directory) : Location → Option Entry
  | [] => some (.directory directory)
  | [name] => directory.find? name
  | name :: rest => (directory.subdirectory? name).bind (·.entryAt? rest)

/-! ## Writing -/

def insert (added : Name) (value : Entry) : Directory → Directory
  | .empty => .cons added value .empty
  | .cons name entry later =>
      if added = name then
        .cons added value later
      else if added.Before name then
        .cons added value (.cons name entry later)
      else
        .cons name entry (later.insert added value)

/-- Give a location an entry. Directories on the way are made where there are none; the empty
location keeps its directory. -/
def put (directory : Directory) : Location → Entry → Directory
  | [], _ => directory
  | [name], value => directory.insert name value
  | name :: rest, value =>
      directory.insert name
        (.directory (((directory.subdirectory? name).getD .empty).put rest value))

end Directory

/-! ## Order -/

mutual

def Entry.Ordered : Entry → Prop
  | .file _ => True
  | .link _ => True
  | .directory content => content.Ordered

def Directory.Ordered : Directory → Prop
  | .empty => True
  | .cons name entry later =>
      (∀ other ∈ later.names, name.Before other) ∧ entry.Ordered ∧ later.Ordered

end

namespace Directory

theorem mem_names_insert {added name : Name} {value : Entry} {directory : Directory}
    (member : name ∈ (directory.insert added value).names) :
    name = added ∨ name ∈ directory.names := by
  cases directory with
  | empty => simpa [insert, names] using member
  | cons first entry later =>
      unfold insert at member
      split at member
      · rcases List.mem_cons.mp member with equal | member
        · exact .inl equal
        · exact .inr (List.mem_cons_of_mem _ member)
      · split at member
        · simpa [names] using member
        · rcases List.mem_cons.mp member with equal | member
          · exact .inr (equal ▸ List.mem_cons_self)
          · rcases mem_names_insert member with equal | member
            · exact .inl equal
            · exact .inr (List.mem_cons_of_mem _ member)

theorem ordered_insert {added : Name} {value : Entry} (isOrdered : value.Ordered)
    {directory : Directory} (ordered : directory.Ordered) :
    (directory.insert added value).Ordered := by
  cases directory with
  | empty => simp [insert, Ordered, names, isOrdered]
  | cons first entry later =>
      obtain ⟨firstBefore, entryOrdered, laterOrdered⟩ := ordered
      rw [insert]
      by_cases equal : added = first
      · rw [if_pos equal]
        exact ⟨fun other member => equal ▸ firstBefore other member, isOrdered, laterOrdered⟩
      · rw [if_neg equal]
        by_cases before : added.Before first
        · rw [if_pos before]
          refine ⟨fun other member => ?_, isOrdered, firstBefore, entryOrdered, laterOrdered⟩
          rcases List.mem_cons.mp member with same | member
          · exact same ▸ before
          · exact Name.before_trans before (firstBefore other member)
        · rw [if_neg before]
          refine ⟨fun other member => ?_, entryOrdered, ordered_insert isOrdered laterOrdered⟩
          rcases mem_names_insert member with same | member
          · exact same ▸ Name.before_of_not_before equal before
          · exact firstBefore other member

theorem ordered_of_find {name : Name} {found : Entry} {directory : Directory}
    (ordered : directory.Ordered) (isFound : directory.find? name = some found) :
    found.Ordered := by
  cases directory with
  | empty => cases isFound
  | cons first entry later =>
      unfold find? at isFound
      split at isFound
      · cases isFound
        exact ordered.2.1
      · exact ordered_of_find ordered.2.2 isFound

theorem ordered_subdirectory {name : Name} {directory : Directory}
    (ordered : directory.Ordered) : ((directory.subdirectory? name).getD .empty).Ordered := by
  cases below : directory.subdirectory? name with
  | none => simp [Ordered]
  | some content =>
      simpa [Entry.Ordered] using ordered_of_find ordered (subdirectory?_eq_some_iff.mp below)

theorem ordered_put {location : Location} {value : Entry} (isOrdered : value.Ordered)
    {directory : Directory} (ordered : directory.Ordered) :
    (directory.put location value).Ordered := by
  induction location generalizing directory with
  | nil => exact ordered
  | cons name rest induction =>
      cases rest with
      | nil => exact ordered_insert isOrdered ordered
      | cons next rest =>
          apply ordered_insert _ ordered
          simpa [Entry.Ordered] using induction (ordered_subdirectory ordered)

end Directory

end Uncomment

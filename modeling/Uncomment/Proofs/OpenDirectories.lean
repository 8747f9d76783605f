import Uncomment.Proofs.FileContents

/-! # Files of a directory

What a program does with the files of one directory depends on the entries of that directory alone,
whatever links the path to it leads through. A file that is written there, new or not, changes the
entry of its name and no other file. -/

namespace Uncomment

/-! ## Entries of a directory -/

namespace Directory

theorem nodup_names {directory : Directory} (ordered : directory.Ordered) :
    directory.names.Nodup := by
  cases directory with
  | empty => exact List.nodup_nil
  | cons name entry later =>
      rw [names, List.nodup_cons]
      exact ⟨fun member => List.lt_irrefl _ (ordered.1 name member), nodup_names ordered.2.2⟩

theorem names_insert_filter {name : Name} {keeps : Name → Bool} (skipped : keeps name = false)
    (value : Entry) (directory : Directory) :
    (directory.insert name value).names.filter keeps = directory.names.filter keeps := by
  cases directory with
  | empty => simp [insert, names, skipped]
  | cons first entry later =>
      rw [insert]
      by_cases same : name = first
      · subst same
        rw [if_pos rfl]
        rfl
      · rw [if_neg same]
        by_cases before : name.Before first
        · rw [if_pos before, names, List.filter_cons_of_neg (by simp [skipped])]
        · rw [if_neg before, names, names, List.filter_cons, List.filter_cons,
            names_insert_filter skipped value later]

def fileContent? (directory : Directory) (name : Name) : Option Bytes :=
  match directory.find? name with
  | some (.file content) => some content
  | _ => none

def HoldsNoLink (directory : Directory) : Prop :=
  ∀ name target, directory.find? name ≠ some (.link target)

theorem HoldsNoLink.insert {directory : Directory} (linkFree : directory.HoldsNoLink) (name : Name)
    (bytes : Bytes) : (directory.insert name (.file bytes)).HoldsNoLink := by
  intro other target
  rw [find?_insert]
  split
  · simp
  · exact linkFree other target

theorem fileContent?_insert (directory : Directory) (added name : Name) (bytes : Bytes) :
    (directory.insert added (.file bytes)).fileContent? name =
      if added = name then some bytes else directory.fileContent? name := by
  rw [fileContent?, find?_insert]
  by_cases same : added = name
  · rw [if_pos same, if_pos same]
  · rw [if_neg same, if_neg same, fileContent?]

def insertAll (directory : Directory) (files : List (Name × Bytes)) : Directory :=
  files.foldl (fun directory file => directory.insert file.1 (.file file.2)) directory

theorem insertAll_cons (directory : Directory) (file : Name × Bytes)
    (later : List (Name × Bytes)) :
    directory.insertAll (file :: later) =
      (directory.insert file.1 (.file file.2)).insertAll later := rfl

variable {files : List (Name × Bytes)}

theorem HoldsNoLink.insertAll {directory : Directory} (linkFree : directory.HoldsNoLink)
    (files : List (Name × Bytes)) : (directory.insertAll files).HoldsNoLink := by
  induction files generalizing directory with
  | nil => exact linkFree
  | cons file later induction => exact induction (linkFree.insert file.1 file.2)

theorem names_insertAll_filter {keeps : Name → Bool}
    (skipped : ∀ file ∈ files, keeps file.1 = false) (directory : Directory) :
    (directory.insertAll files).names.filter keeps = directory.names.filter keeps := by
  induction files generalizing directory with
  | nil => rfl
  | cons file later induction =>
      rw [insertAll_cons, induction fun other member => skipped other (.tail _ member),
        names_insert_filter (skipped file List.mem_cons_self)]

theorem fileContent?_insertAll_of_not_mem {name : Name} (apart : ∀ file ∈ files, file.1 ≠ name)
    (directory : Directory) :
    (directory.insertAll files).fileContent? name = directory.fileContent? name := by
  induction files generalizing directory with
  | nil => rfl
  | cons file later induction =>
      rw [insertAll_cons, induction fun other member => apart other (.tail _ member),
        fileContent?_insert, if_neg (apart file List.mem_cons_self)]

/-- Each of several files with different names is found again. -/
theorem fileContent?_insertAll_of_mem (distinct : (files.map Prod.fst).Nodup)
    {file : Name × Bytes} (member : file ∈ files) (directory : Directory) :
    (directory.insertAll files).fileContent? file.1 = some file.2 := by
  induction files generalizing directory with
  | nil => cases member
  | cons first later induction =>
      rw [List.map_cons, List.nodup_cons] at distinct
      rw [insertAll_cons]
      rcases List.mem_cons.mp member with rfl | member
      · have apart : ∀ other ∈ later, other.1 ≠ file.1 := fun other isLater same =>
          distinct.1 (List.mem_map.mpr ⟨other, isLater, same⟩)
        rw [fileContent?_insertAll_of_not_mem apart, fileContent?_insert, if_pos rfl]
      · exact induction distinct.2 member _

end Directory

def Entry.surface : Entry → Entry
  | .directory _ => .directory .empty
  | entry => entry

@[simp] theorem Entry.emptied_surface (entry : Entry) : entry.surface.emptied = entry.emptied := by
  cases entry <;> rfl

namespace FileTree

variable {tree larger : FileTree} {links : Nat} {here there location : Location} {path : Path}
  {content : Directory} {name : Name}

/-! ## Larger trees -/

def surfaceAt? (tree : FileTree) (location : Location) : Option Entry :=
  (tree.entryAt? location).map .surface

theorem map_emptied_surfaceAt? (tree : FileTree) (location : Location) :
    (tree.surfaceAt? location).map Entry.emptied = (tree.entryAt? location).map Entry.emptied := by
  rw [surfaceAt?, Option.map_map]
  exact congrArg (Option.map · _) (funext Entry.emptied_surface)

/-- A tree has every entry of another one, and of the same kind. -/
def Enlarges (larger tree : FileTree) : Prop :=
  ∀ location kind, (tree.entryAt? location).map Entry.emptied = some kind →
    (larger.entryAt? location).map Entry.emptied = some kind

/-- What a path leads to is still there in a larger tree. -/
theorem follow_of_enlarges (grown : larger.Enlarges tree) {steps : List Component}
    (leads : tree.follow links here steps = .found there) :
    larger.follow links here steps = .found there := by
  have isDirectory : ∀ {location}, (tree.directoryAt? location).isSome = true →
      (larger.directoryAt? location).isSome = true := by
    intro location
    rw [isSome_directoryAt?, isSome_directoryAt?]
    exact grown location _
  have found : ∀ {location directory}, tree.directoryAt? location = some directory →
      (larger.directoryAt? location).isSome = true := by
    intro location directory holds
    exact isDirectory (by rw [holds, Option.isSome_some])
  fun_induction tree.follow links here steps with
  | case1 =>
      rw [follow]
      exact leads
  | case2 | case4 | case6 | case7 | case8 | case9 | case10 => cases leads
  | case3 _ _ _ holds induction => rw [follow, if_pos (isDirectory holds), induction leads]
  | case5 _ _ _ holds induction =>
      rw [follow, if_pos ⟨isDirectory holds.1, holds.2⟩, induction leads]
  | case11 _ name _ _ holds target isLink _ induction =>
      have kind := grown (_ ++ [name]) (.link target)
        (by rw [entryAt?_append_singleton holds, isLink]; rfl)
      rw [follow_entry_eq, if_pos (found holds), kind]
      exact induction leads
  | case12 _ _ name _ _ holds entry other isFound induction =>
      have kind := grown (_ ++ [name]) entry.emptied
        (by rw [entryAt?_append_singleton holds, isFound]; rfl)
      rw [follow_entry_eq, if_pos (found holds), kind]
      cases entry with
      | link target => exact absurd rfl (other target)
      | file content => exact induction leads
      | directory content => exact induction leads

/-! ## Steps in two stretches -/

private theorem follow_append_cases (tree : FileTree) (links : Nat) (here : Location)
    (front : List Component) :
    (∃ middle left, ∀ back, tree.follow links here (front ++ back) = tree.follow left middle back) ∨
      ∀ back there, tree.follow links here (front ++ back) ≠ .found there := by
  fun_induction tree.follow links here front with
  | case1 links here => exact .inl ⟨here, links, fun _ => rfl⟩
  | case2 => exact .inr fun back there => by simp [follow]
  | case3 _ _ _ holds induction =>
      simpa only [List.cons_append, follow, if_pos holds] using induction
  | case4 _ _ _ missing => exact .inr fun back there => by simp [follow, missing]
  | case5 _ _ _ holds induction =>
      simpa only [List.cons_append, follow, if_pos holds] using induction
  | case6 _ _ _ missing =>
      refine .inr fun back there => ?_
      rw [List.cons_append, follow, if_neg missing]
      simp
  | case7 _ _ _ _ missing => exact .inr fun back there => by simp [follow, missing]
  | case8 _ _ _ _ _ holds isFree | case9 _ _ _ _ _ holds isFree =>
      refine .inr fun back there => ?_
      rw [List.cons_append, follow, holds]
      simp only [isFree]
      split <;> simp
  | case10 _ _ _ _ holds target isLink =>
      refine .inr fun back there => ?_
      rw [List.cons_append, follow, holds]
      simp [isLink]
  | case11 _ _ _ _ holds target isLink _ induction =>
      simpa only [List.cons_append, follow, holds, isLink, List.append_assoc] using induction
  | case12 _ _ _ _ _ holds entry other isFound induction =>
      cases entry with
      | link target => exact absurd rfl (other target)
      | file content => simpa only [List.cons_append, follow, holds, isFound] using induction
      | directory content => simpa only [List.cons_append, follow, holds, isFound] using induction

/-! ## Open directories -/

/-- A path leads to the directory at a location, and this is what the directory holds. -/
structure Opens (tree : FileTree) (path : Path) (location : Location) (content : Directory) :
    Prop where
  leads : tree.destination path = .found location
  isDirectory : tree.directoryAt? location = some content

theorem Opens.directory? (opened : tree.Opens path location content) :
    tree.directory? path = some content := by
  rw [FileTree.directory?, resolve?, opened.leads]
  simp only [directoryAt?_eq_some_iff.mp opened.isDirectory]

theorem exists_opens (isDirectory : tree.directory? path = some content) :
    ∃ location, tree.Opens path location content := by
  rw [directory?_eq_some_iff, resolve?] at isDirectory
  cases leads : tree.destination path with
  | unreachable => rw [leads] at isDirectory; cases isDirectory
  | vacant location => rw [leads] at isDirectory; cases isDirectory
  | found location =>
      rw [leads] at isDirectory
      refine ⟨location, leads, ?_⟩
      rw [directoryAt?]
      simp only [isDirectory]

/-- The last step of a joined path is taken from the directory that the path leads to. -/
theorem Opens.exists_follow_join (opened : tree.Opens path location content) (name : Name) :
    ∃ left, tree.follow maxLinks [] (path.join name).steps =
      tree.follow left location [.entry name] := by
  have leads := (destination_eq_found_iff.mp opened.leads).2
  rcases Path.exists_steps_join path name with ⟨lead, shape, joined⟩
  rcases follow_append_cases tree maxLinks [] lead with ⟨middle, left, goesOn⟩ | lost
  · have same : middle = location := by
      rcases shape with whole | ⟨-, staying⟩
      · have reached := goesOn []
        rw [List.append_nil, ← whole, leads, follow] at reached
        exact (Destination.found.inj reached).symm
      · have reached := goesOn [.current]
        rw [← staying, leads, follow] at reached
        split at reached
        · rw [follow] at reached
          exact (Destination.found.inj reached).symm
        · cases reached
    exact ⟨left, by rw [joined, goesOn, same]⟩
  · rcases shape with whole | ⟨-, staying⟩
    · exact absurd (by rw [List.append_nil, ← whole, leads]) (lost [] location)
    · exact absurd (by rw [← staying, leads]) (lost [.current] location)

/-- Where a name below an open directory leads, when the directory holds no link. -/
theorem Opens.destination_join (opened : tree.Opens path location content)
    (linkFree : content.HoldsNoLink) (name : Name) :
    tree.destination (path.join name) =
      if (path.join name).isTooLong then .unreachable
      else if (content.find? name).isSome then .found (location ++ [name])
      else if name.isTooLong then .unreachable
      else .vacant (location ++ [name]) := by
  have written : (path.join name).text ≠ [] := by
    intro empty
    have components := Path.components_join path name
    rw [Path.components_eq, Path.steps, empty] at components
    exact absurd components.symm (by simp)
  rw [destination]
  by_cases tooLong : (path.join name).isTooLong = true
  · rw [if_pos (.inr tooLong), if_pos tooLong]
  · rcases opened.exists_follow_join name with ⟨left, follows⟩
    rw [if_neg (not_or.mpr ⟨written, tooLong⟩), if_neg tooLong, follows, follow,
      opened.isDirectory]
    cases isFound : content.find? name with
    | none => cases name.isTooLong <;> simp [isFound]
    | some entry =>
        cases entry with
        | link target => exact absurd isFound (linkFree name target)
        | file bytes => simp [isFound, follow]
        | directory below => simp [isFound, follow]

theorem Opens.read?_join (opened : tree.Opens path location content)
    (linkFree : content.HoldsNoLink) (name : Name) :
    tree.read? (path.join name) =
      if (path.join name).isTooLong then none else content.fileContent? name := by
  rw [read?_eq, opened.destination_join linkFree, Directory.fileContent?]
  by_cases tooLong : (path.join name).isTooLong = true
  · rw [if_pos tooLong, if_pos tooLong]
  · rw [if_neg tooLong, if_neg tooLong]
    cases isFound : content.find? name with
    | none => cases name.isTooLong <;> rfl
    | some entry =>
        have isEntry := entryAt?_append_singleton opened.isDirectory name
        rw [isFound] at isEntry
        cases entry <;> simp only [Option.isSome_some, if_true, contentAt?, isEntry]

theorem Opens.destination_of_read?_join (opened : tree.Opens path location content)
    (linkFree : content.HoldsNoLink) {bytes : Bytes}
    (reads : tree.read? (path.join name) = some bytes) :
    tree.destination (path.join name) = .found (location ++ [name]) := by
  rcases exists_destination_of_read? reads with ⟨other, leads, -⟩
  rw [opened.destination_join linkFree] at leads ⊢
  by_cases tooLong : (path.join name).isTooLong = true
  · rw [if_pos tooLong] at leads
    cases leads
  · rw [if_neg tooLong] at leads ⊢
    by_cases present : (content.find? name).isSome = true
    · rw [if_pos present]
    · rw [if_neg present] at leads
      split at leads <;> cases leads

theorem Opens.write?_join (opened : tree.Opens path location content)
    (linkFree : content.HoldsNoLink) (name : Name) (bytes : Bytes) :
    tree.write? (path.join name) bytes =
      if (path.join name).isTooLong then none
      else match content.find? name with
        | none => if name.isTooLong then none else some (tree.putFile (location ++ [name]) bytes)
        | some (.file _) => some (tree.putFile (location ++ [name]) bytes)
        | some _ => none := by
  rw [write?, opened.destination_join linkFree]
  by_cases tooLong : (path.join name).isTooLong = true
  · rw [if_pos tooLong, if_pos tooLong]
  · rw [if_neg tooLong, if_neg tooLong]
    cases isFound : content.find? name with
    | none => cases name.isTooLong <;> rfl
    | some entry =>
        simp only [Option.isSome_some, if_true, entryAt?_append_singleton opened.isDirectory,
          isFound]
        cases entry <;> rfl

/-- A file that is written below an open directory is put into it, in place of no directory. -/
theorem Opens.of_write?_join (opened : tree.Opens path location content)
    (linkFree : content.HoldsNoLink) {bytes : Bytes} {written : FileTree}
    (writes : tree.write? (path.join name) bytes = some written) :
    (path.join name).isTooLong = false ∧ (∀ below, content.find? name ≠ some (.directory below)) ∧
      written = tree.putFile (location ++ [name]) bytes := by
  rw [opened.write?_join linkFree] at writes
  by_cases tooLong : (path.join name).isTooLong = true
  · rw [if_pos tooLong] at writes
    cases writes
  · rw [if_neg tooLong] at writes
    refine ⟨Bool.not_eq_true _ ▸ tooLong, ?_⟩
    cases isFound : content.find? name with
    | none =>
        simp only [isFound] at writes
        by_cases unusable : name.isTooLong = true
        · rw [if_pos unusable] at writes
          cases writes
        · rw [if_neg unusable] at writes
          exact ⟨by simp, (Option.some.inj writes).symm⟩
    | some entry =>
        simp only [isFound] at writes
        cases entry with
        | file old => exact ⟨by simp, (Option.some.inj writes).symm⟩
        | link target => cases writes
        | directory below => cases writes

/-! ## Putting a file into an open directory -/

section PutFile

variable (isDirectory : tree.directoryAt? location = some content)
  (free : ∀ below, content.find? name ≠ some (.directory below))

include isDirectory free

theorem surfaceAt?_putFile_last (bytes : Bytes) (other : Location) :
    (tree.putFile (location ++ [name]) bytes).surfaceAt? other =
      if other = location ++ [name] then some (.file bytes) else tree.surfaceAt? other := by
  rw [surfaceAt?, surfaceAt?, putFile, entryAt?, entryAt?]
  rcases Directory.entryAt?_put_last (directoryAt?_eq_some_iff.mp isDirectory) free bytes other with
    same | ⟨apart, before, after, isBefore, isAfter⟩
  · rw [same]
    by_cases equal : other = location ++ [name]
    · rw [if_pos equal, if_pos equal]
      rfl
    · rw [if_neg equal, if_neg equal]
  · rw [isBefore, isAfter, if_neg apart]
    rfl

theorem enlarges_putFile_last (linkFree : content.HoldsNoLink) (bytes : Bytes) :
    (tree.putFile (location ++ [name]) bytes).Enlarges tree := by
  intro other kind holds
  rw [← map_emptied_surfaceAt?, surfaceAt?_putFile_last isDirectory free]
  by_cases equal : other = location ++ [name]
  · subst equal
    rw [if_pos rfl]
    rw [entryAt?_append_singleton isDirectory] at holds
    cases isFound : content.find? name with
    | none => rw [isFound] at holds; cases holds
    | some entry =>
        rw [isFound] at holds
        cases entry with
        | link target => exact absurd isFound (linkFree name target)
        | directory below => exact absurd isFound (free below)
        | file old => exact holds
  · rw [if_neg equal, map_emptied_surfaceAt?]
    exact holds

end PutFile

theorem Opens.putFile (opened : tree.Opens path location content) (linkFree : content.HoldsNoLink)
    (free : ∀ below, content.find? name ≠ some (.directory below)) (bytes : Bytes) :
    (tree.putFile (location ++ [name]) bytes).Opens path location
      (content.insert name (.file bytes)) where
  leads := by
    rcases destination_eq_found_iff.mp opened.leads with ⟨usable, leads⟩
    have enlarges := enlarges_putFile_last opened.isDirectory free linkFree bytes
    exact destination_eq_found_iff.mpr ⟨usable, follow_of_enlarges enlarges leads⟩
  isDirectory := by
    have inserted := Directory.entryAt?_put_front (directoryAt?_eq_some_iff.mp opened.isDirectory)
      name (.file bytes)
    rw [directoryAt?, entryAt?, FileTree.putFile, inserted]

end FileTree

end Uncomment

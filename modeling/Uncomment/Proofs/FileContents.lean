import Uncomment.Proofs.Contributions

/-! # Writing to a file

Writing to a file that is there changes what it holds and nothing else: every other file keeps its
content, and every path leads where it led before. -/

namespace Uncomment

/-! ## Entries of a directory -/

namespace Directory

variable {directory : Directory} {name : Name}

theorem find?_insert (added name : Name) (value : Entry) (directory : Directory) :
    (directory.insert added value).find? name =
      if added = name then some value else directory.find? name := by
  cases directory with
  | empty => rfl
  | cons first entry later =>
      rw [insert]
      by_cases same : added = first
      · subst first
        rw [if_pos rfl, find?, find?]
        split <;> rfl
      · rw [if_neg same]
        by_cases before : added.Before first
        · rw [if_pos before]
          rfl
        · rw [if_neg before, find?, find?_insert added name value later, find?]
          by_cases found : first = name
          · rw [if_pos found, if_pos found, if_neg fun equal => same (equal.trans found.symm)]
          · rw [if_neg found, if_neg found]

theorem entryAt?_eq_of_find? {first second : Directory}
    (equal : first.find? name = second.find? name) (rest : Location) :
    first.entryAt? (name :: rest) = second.entryAt? (name :: rest) := by
  cases rest with
  | nil => exact equal
  | cons next rest =>
      change (first.subdirectory? name).bind _ = (second.subdirectory? name).bind _
      rw [subdirectory?, equal]
      rfl

theorem exists_find?_of_entryAt? {rest : Location} {entry : Entry} (further : rest ≠ [])
    (holds : directory.entryAt? (name :: rest) = some entry) :
    ∃ content, directory.find? name = some (.directory content) ∧
      content.entryAt? rest = some entry := by
  cases rest with
  | nil => exact absurd rfl further
  | cons next rest =>
      rcases Option.bind_eq_some_iff.mp holds with ⟨content, isSubdirectory, inside⟩
      exact ⟨content, subdirectory?_eq_some_iff.mp isSubdirectory, inside⟩

section Put

variable {front : Location} {content : Directory}

theorem exists_find?_of_directory {rest : Location}
    (holds : directory.entryAt? (name :: rest) = some (.directory content)) :
    ∃ below, directory.find? name = some (.directory below) ∧
      below.entryAt? rest = some (.directory content) := by
  cases rest with
  | nil => exact ⟨content, holds, rfl⟩
  | cons next rest => exact exists_find?_of_entryAt? (List.cons_ne_nil _ _) holds

private theorem put_cons_of_directory {first : Name} {below : Directory}
    (isFound : directory.find? first = some (.directory below)) (front : Location) (name : Name)
    (value : Entry) :
    directory.put (first :: (front ++ [name])) value =
      directory.insert first (.directory (below.put (front ++ [name]) value)) := by
  cases shape : front ++ [name] with
  | nil => exact absurd shape (by simp)
  | cons next rest =>
      change directory.insert first (.directory _) = _
      rw [subdirectory?, isFound]
      rfl

/-- A directory in which a name is given an entry has it inserted. -/
theorem entryAt?_put_front
    (isDirectory : directory.entryAt? front = some (.directory content)) (name : Name)
    (value : Entry) :
    (directory.put (front ++ [name]) value).entryAt? front =
      some (.directory (content.insert name value)) := by
  induction front generalizing directory with
  | nil =>
      cases isDirectory
      rfl
  | cons first rest induction =>
      rcases exists_find?_of_directory isDirectory with ⟨below, isFound, inside⟩
      rw [List.cons_append, put_cons_of_directory isFound,
        entryAt?_cons (by rw [find?_insert, if_pos rfl])]
      exact induction inside

/-- A file that is put into a directory, in place of no other directory, changes itself and the
directories it lies below. -/
theorem entryAt?_put_last (isDirectory : directory.entryAt? front = some (.directory content))
    (free : ∀ below, content.find? name ≠ some (.directory below)) (new : Bytes)
    (other : Location) :
    (directory.put (front ++ [name]) (.file new)).entryAt? other =
        (if other = front ++ [name] then some (.file new) else directory.entryAt? other) ∨
      other ≠ front ++ [name] ∧ ∃ before after, directory.entryAt? other = some (.directory before) ∧
        (directory.put (front ++ [name]) (.file new)).entryAt? other =
          some (.directory after) := by
  induction front generalizing directory other with
  | nil =>
      cases isDirectory
      have found : (content.insert name (.file new)).find? name = some (.file new) := by
        rw [find?_insert, if_pos rfl]
      rcases other with _ | ⟨first, others⟩
      · exact .inr ⟨List.cons_ne_nil _ _ ∘ Eq.symm, content, _, rfl, rfl⟩
      refine .inl ?_
      by_cases same : name = first
      · subst first
        cases others with
        | nil =>
            rw [if_pos (by rfl)]
            exact found
        | cons next others =>
            change (subdirectory? _ name).bind _ = if _ then _ else
              (content.subdirectory? name).bind _
            rw [if_neg (by simp), subdirectory?, List.nil_append, put, found, subdirectory?]
            cases isFound : content.find? name with
            | none => rfl
            | some entry =>
                cases entry with
                | file old => rfl
                | link target => rfl
                | directory below => exact absurd isFound (free below)
      · rw [List.nil_append, if_neg fun equal => same (List.cons.inj equal).1.symm]
        exact entryAt?_eq_of_find? (by rw [put, find?_insert, if_neg same]) others
  | cons head rest induction =>
      rcases exists_find?_of_directory isDirectory with ⟨below, isFound, inside⟩
      rw [List.cons_append, put_cons_of_directory isFound]
      rcases other with _ | ⟨first, others⟩
      · exact .inr ⟨List.cons_ne_nil _ _ ∘ Eq.symm, directory, _, rfl, rfl⟩
      by_cases same : head = first
      · subst first
        rw [entryAt?_cons (by rw [find?_insert, if_pos rfl]), entryAt?_cons isFound]
        simpa only [ne_eq, List.cons.injEq, true_and] using induction inside others
      · refine .inl ?_
        rw [if_neg fun equal => same (List.cons.inj equal).1.symm]
        exact entryAt?_eq_of_find? (by rw [find?_insert, if_neg same]) others

end Put

/-- A file that gets another content changes itself and the directories it lies below. -/
theorem entryAt?_put {location : Location} {old : Bytes}
    (isFile : directory.entryAt? location = some (.file old)) (new : Bytes) (other : Location) :
    (directory.put location (.file new)).entryAt? other =
        (if other = location then some (.file new) else directory.entryAt? other) ∨
      other ≠ location ∧ ∃ before after, directory.entryAt? other = some (.directory before) ∧
        (directory.put location (.file new)).entryAt? other = some (.directory after) := by
  rcases List.eq_nil_or_concat location with rfl | ⟨front, name, rfl⟩
  · cases isFile
  · rw [List.concat_eq_append] at isFile ⊢
    rw [entryAt?_append_singleton] at isFile
    cases isDirectory : directory.entryAt? front with
    | none =>
        rw [isDirectory] at isFile
        cases isFile
    | some entry =>
        rw [isDirectory] at isFile
        cases entry with
        | file content => cases isFile
        | link target => cases isFile
        | directory content =>
            refine entryAt?_put_last isDirectory (fun below isFound => ?_) new other
            simp only [isFound] at isFile
            cases isFile

end Directory

namespace FileTree

/-! ## Trees that differ in contents -/

def contentAt? (tree : FileTree) (location : Location) : Option Bytes :=
  match tree.entryAt? location with
  | some (.file content) => some content
  | _ => none

end FileTree

def Entry.emptied : Entry → Entry
  | .file _ => .file []
  | .link target => .link target
  | .directory _ => .directory .empty

namespace FileTree

/-- The trees have the same files, links and directories, up to what the files hold. -/
def Alike (first second : FileTree) : Prop :=
  ∀ location, (first.entryAt? location).map Entry.emptied =
    (second.entryAt? location).map Entry.emptied

variable {first second : FileTree} {location : Location}

theorem Alike.refl (tree : FileTree) : tree.Alike tree :=
  fun _ => rfl

theorem Alike.symm (alike : first.Alike second) : second.Alike first :=
  fun location => (alike location).symm

theorem Alike.trans {third : FileTree} (left : first.Alike second) (right : second.Alike third) :
    first.Alike third :=
  fun location => (left location).trans (right location)

theorem contentAt?_eq_some_iff (tree : FileTree) (location : Location) (content : Bytes) :
    tree.contentAt? location = some content ↔
      tree.entryAt? location = some (.file content) := by
  rw [contentAt?]
  cases tree.entryAt? location with
  | none => simp
  | some entry => cases entry <;> simp

theorem isSome_directoryAt? (tree : FileTree) (location : Location) :
    (tree.directoryAt? location).isSome = true ↔
      (tree.entryAt? location).map Entry.emptied = some (.directory .empty) := by
  rw [directoryAt?]
  cases tree.entryAt? location with
  | none => simp
  | some entry => cases entry <;> simp [Entry.emptied]

/-- Where a step to a name leads depends on the kinds of entries only. -/
theorem follow_entry_eq (tree : FileTree) (links : Nat) (here : Location) (name : Name)
    (rest : List Component) :
    tree.follow links here (.entry name :: rest) =
      if (tree.directoryAt? here).isSome then
        match (tree.entryAt? (here ++ [name])).map Entry.emptied with
        | none => if rest = [] ∧ !name.isTooLong then .vacant (here ++ [name]) else .unreachable
        | some (.link target) =>
            match links with
            | 0 => .unreachable
            | links + 1 => tree.follow links here (target.steps ++ rest)
        | some _ => tree.follow links (here ++ [name]) rest
      else
        .unreachable := by
  rw [follow.eq_def]
  cases holds : tree.directoryAt? here with
  | none => rfl
  | some directory =>
      simp only [Option.isSome_some, if_true, entryAt?_append_singleton holds]
      cases directory.find? name with
      | none => rfl
      | some entry =>
          cases entry with
          | link target => cases links <;> rfl
          | file content => rfl
          | directory content => rfl

theorem follow_eq_of_alike (alike : first.Alike second) (links : Nat) (here : Location)
    (steps : List Component) : second.follow links here steps = first.follow links here steps := by
  have isDirectory : ∀ location, (second.directoryAt? location).isSome = true ↔
      (first.directoryAt? location).isSome = true := by
    intro location
    rw [isSome_directoryAt?, isSome_directoryAt?, alike location]
  have found : ∀ {location directory}, first.directoryAt? location = some directory →
      (second.directoryAt? location).isSome = true := by
    intro location directory holds
    rw [isDirectory, holds, Option.isSome_some]
  fun_induction first.follow links here steps with
  | case1 | case2 => rw [follow]
  | case3 _ _ _ holds induction => rw [follow, if_pos ((isDirectory _).mpr holds), induction]
  | case4 _ _ _ missing => rw [follow, if_neg (missing ∘ (isDirectory _).mp)]
  | case5 _ _ _ holds induction =>
      rw [follow, if_pos ⟨(isDirectory _).mpr holds.1, holds.2⟩, induction]
  | case6 _ _ _ missing =>
      rw [follow, if_neg fun holds => missing ⟨(isDirectory _).mp holds.1, holds.2⟩]
  | case7 _ here _ _ missing =>
      have unfound : ¬(second.directoryAt? here).isSome = true := by
        rw [isDirectory, missing]
        exact Bool.false_ne_true
      rw [follow_entry_eq, if_neg unfound]
  | case8 _ _ name _ _ holds isFree ends =>
      rw [follow_entry_eq, if_pos (found holds), ← alike, entryAt?_append_singleton holds, isFree]
      exact if_pos ends
  | case9 _ _ name _ _ holds isFree further =>
      rw [follow_entry_eq, if_pos (found holds), ← alike, entryAt?_append_singleton holds, isFree]
      exact if_neg further
  | case10 _ name _ _ holds target isLink =>
      rw [follow_entry_eq, if_pos (found holds), ← alike, entryAt?_append_singleton holds, isLink]
      rfl
  | case11 _ name _ _ holds target isLink links induction =>
      rw [follow_entry_eq, if_pos (found holds), ← alike, entryAt?_append_singleton holds, isLink]
      exact induction
  | case12 _ _ name _ _ holds entry other isFound induction =>
      rw [follow_entry_eq, if_pos (found holds), ← alike, entryAt?_append_singleton holds, isFound]
      cases entry with
      | link target => exact absurd rfl (other target)
      | file content => exact induction
      | directory content => exact induction

theorem destination_eq_of_alike (alike : first.Alike second) (path : Path) :
    second.destination path = first.destination path := by
  rw [destination, destination, follow_eq_of_alike alike]

private theorem exists_file_of_alike (alike : first.Alike second)
    (isFile : ∃ content, first.entryAt? location = some (.file content)) :
    ∃ content, second.entryAt? location = some (.file content) := by
  rcases isFile with ⟨content, isFile⟩
  have same := alike location
  rw [isFile] at same
  rcases Option.map_eq_some_iff.mp same.symm with ⟨entry, holds, emptied⟩
  cases entry with
  | file other => exact ⟨other, holds⟩
  | link target => cases emptied
  | directory other => cases emptied

theorem NamesFile.of_alike {path : Path} (names : first.NamesFile path location)
    (alike : first.Alike second) : second.NamesFile path location where
  leads := by rw [follow_eq_of_alike alike, names.leads]
  isFile := exists_file_of_alike alike names.isFile

/-! ## Reading -/

variable {tree : FileTree} {path : Path} {content : Bytes}

theorem read?_eq (tree : FileTree) (path : Path) :
    tree.read? path =
      match tree.destination path with
      | .found location => tree.contentAt? location
      | _ => none := by
  rw [read?, resolve?]
  cases tree.destination path <;> rfl

theorem exists_destination_of_read? (reads : tree.read? path = some content) :
    ∃ location, tree.destination path = .found location ∧
      tree.contentAt? location = some content := by
  rw [read?_eq] at reads
  cases leads : tree.destination path with
  | found location =>
      rw [leads] at reads
      exact ⟨location, rfl, reads⟩
  | vacant location => rw [leads] at reads; cases reads
  | unreachable => rw [leads] at reads; cases reads

theorem namesFile_of_destination (leads : tree.destination path = .found location)
    (holds : tree.contentAt? location = some content) : tree.NamesFile path location where
  leads := (destination_eq_found_iff.mp leads).2
  isFile := ⟨content, (contentAt?_eq_some_iff _ _ _).mp holds⟩

theorem NamesFile.location_eq {other : Location} (names : tree.NamesFile path location)
    (namesOther : tree.NamesFile path other) : location = other :=
  Destination.found.inj (names.leads.symm.trans namesOther.leads)

theorem not_sameFile_of_destination {first second : Path} {there other : Location}
    (leads : tree.destination first = .found there)
    (leadsToo : tree.destination second = .found other)
    (isFile : (tree.contentAt? there).isSome = true)
    (isFileToo : (tree.contentAt? other).isSome = true)
    (different : there ≠ other) : ¬tree.SameFile first second := by
  rcases Option.isSome_iff_exists.mp isFile with ⟨_, holds⟩
  rcases Option.isSome_iff_exists.mp isFileToo with ⟨_, holdsToo⟩
  intro same
  rcases same with ⟨location, names, namesToo⟩
  have isThere := (namesFile_of_destination leads holds).location_eq names
  have isOther := (namesFile_of_destination leadsToo holdsToo).location_eq namesToo
  exact different (isThere.trans isOther.symm)

/-- A dot and a name lead to the entry with that name, unless it is a link. -/
theorem destination_of_entryAt? {name : Name} {content : Bytes}
    (isFile : tree.entryAt? [name] = some (.file content))
    (steps : path.steps = [.current, .entry name]) (usable : ¬(path.text = [] ∨ path.isTooLong)) :
    tree.destination path = .found [name] := by
  have here : (tree.directoryAt? []).isSome = true := rfl
  rw [destination, if_neg usable, steps, follow, if_pos here, follow_entry_eq, if_pos here,
    List.nil_append, isFile]
  change tree.follow _ [name] [] = _
  rw [follow]

/-! ## Writing -/

theorem alike_putFile (holds : tree.contentAt? location = some content) (new : Bytes) :
    tree.Alike (tree.putFile location new) := by
  have isFile := (contentAt?_eq_some_iff _ _ _).mp holds
  intro other
  rcases Directory.entryAt?_put isFile new other with
    same | ⟨-, before, after, isDirectory, isWritten⟩
  · change _ = Option.map Entry.emptied ((tree.root.put location (.file new)).entryAt? other)
    rw [same]
    by_cases equal : other = location
    · rw [if_pos equal, equal, isFile]
      rfl
    · rw [if_neg equal]
      rfl
  · change Option.map Entry.emptied (tree.root.entryAt? other) =
      Option.map Entry.emptied ((tree.root.put location (.file new)).entryAt? other)
    rw [isDirectory, isWritten]
    rfl

theorem contentAt?_putFile (holds : tree.contentAt? location = some content) (new : Bytes)
    (other : Location) :
    (tree.putFile location new).contentAt? other =
      if other = location then some new else tree.contentAt? other := by
  have isFile := (contentAt?_eq_some_iff _ _ _).mp holds
  rw [contentAt?, contentAt?, putFile, entryAt?, entryAt?]
  rcases Directory.entryAt?_put isFile new other with
    same | ⟨apart, before, after, isDirectory, isWritten⟩
  · rw [same]
    by_cases equal : other = location
    · rw [if_pos equal, if_pos equal]
    · rw [if_neg equal, if_neg equal]
  · rw [isDirectory, isWritten, if_neg apart]

theorem exists_write?_of_read? (reads : tree.read? path = some content) (new : Bytes) :
    ∃ location, tree.NamesFile path location ∧ tree.contentAt? location = some content ∧
      tree.write? path new = some (tree.putFile location new) := by
  rcases exists_destination_of_read? reads with ⟨location, leads, holds⟩
  refine ⟨location, namesFile_of_destination leads holds, holds, ?_⟩
  rw [write?, leads]
  change (match tree.entryAt? location with
    | some (.file _) => some (tree.putFile location new)
    | _ => none) = _
  rw [(contentAt?_eq_some_iff _ _ _).mp holds]

/-- A path to another file is read as before. -/
theorem read?_putFile (holds : tree.contentAt? location = some content) (new : Bytes)
    (apart : ¬tree.NamesFile path location) :
    (tree.putFile location new).read? path = tree.read? path := by
  rw [read?_eq, read?_eq, destination_eq_of_alike (alike_putFile holds new)]
  cases leads : tree.destination path with
  | vacant other => rfl
  | unreachable => rfl
  | found other =>
      refine (contentAt?_putFile holds new other).trans (if_neg fun equal => apart ?_)
      subst equal
      exact namesFile_of_destination leads holds

end FileTree

end Uncomment

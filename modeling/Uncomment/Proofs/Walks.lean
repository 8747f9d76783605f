import Mathlib.Data.List.Forall2
import Uncomment.Proofs.ByteOrder
import Uncomment.Proofs.Sources

/-! # Walks of directories

A walk of a directory visits its entries in the order of their names, a directory before what it
holds, and passes by what is hidden and the directories that are never entered. Each entry is
visited once, and the names that lead to the entries ascend. -/

namespace Uncomment

/-! ## Names below a path -/

namespace Path

def joinAll (path : Path) (names : List Name) : Path :=
  names.foldl Path.join path

end Path

/-! ## Visited entries -/

mutual

def Entry.visited (name : Name) : Entry → List (List Name × Entry)
  | .file content => [([name], .file content)]
  | .link target => [([name], .link target)]
  | .directory content =>
      ([name], .directory content) :: content.visited.map fun item => (name :: item.1, item.2)

def Directory.visited : Directory → List (List Name × Entry)
  | .empty => []
  | .cons name entry later =>
      (if entry.isSkipped name then [] else entry.visited name) ++ later.visited

end

/-- A walk of a directory reaches an entry by names: none of them is skipped, and all but the last
lead to directories. -/
inductive Directory.Reaches : Directory → List Name → Entry → Prop
  | here {directory : Directory} {name : Name} {entry : Entry}
      (isFound : directory.find? name = some entry) (kept : entry.isSkipped name = false) :
      directory.Reaches [name] entry
  | inside {directory content : Directory} {name : Name} {names : List Name} {entry : Entry}
      (isFound : directory.find? name = some (.directory content))
      (kept : (Entry.directory content).isSkipped name = false)
      (reaches : content.Reaches names entry) : directory.Reaches (name :: names) entry

theorem Directory.Reaches.ne_nil {directory : Directory} {names : List Name} {entry : Entry}
    (reaches : directory.Reaches names entry) : names ≠ [] := by
  cases reaches <;> exact List.cons_ne_nil _ _

private theorem Directory.reaches_cons_later {name : Name} {value found : Entry} {later : Directory}
    {names : List Name} (ordered : (Directory.cons name value later).Ordered)
    (reaches : later.Reaches names found) :
    (Directory.cons name value later).Reaches names found := by
  cases reaches with
  | here isFound kept => exact .here (find?_cons_later ordered isFound) kept
  | inside isFound kept reaches => exact .inside (find?_cons_later ordered isFound) kept reaches

mutual

theorem Entry.mem_visited_iff (name : Name) : ∀ (entry : Entry), entry.Ordered →
    ∀ names found, (names, found) ∈ entry.visited name ↔ (names = [name] ∧ found = entry) ∨
      ∃ content rest, entry = .directory content ∧ names = name :: rest ∧
        content.Reaches rest found
  | .file content, _, names, found => by simp [Entry.visited]
  | .link target, _, names, found => by simp [Entry.visited]
  | .directory content, ordered, names, found => by
      rw [Entry.visited, List.mem_cons, Prod.mk.injEq, List.mem_map]
      refine or_congr Iff.rfl ⟨?_, ?_⟩
      · rintro ⟨⟨rest, entry⟩, member, same⟩
        cases same
        exact ⟨content, rest, rfl, rfl,
          (Directory.mem_visited_iff content ordered rest entry).mp member⟩
      · rintro ⟨_, rest, same, rfl, reaches⟩
        cases same
        exact ⟨(rest, found), (Directory.mem_visited_iff content ordered rest found).mpr reaches,
          rfl⟩

theorem Directory.mem_visited_iff : ∀ (directory : Directory), directory.Ordered →
    ∀ names found, (names, found) ∈ directory.visited ↔ directory.Reaches names found
  | .empty, _, names, found => by
      constructor
      · intro member
        cases member
      · intro reaches
        cases reaches with
        | here isFound => cases isFound
        | inside isFound => cases isFound
  | .cons name entry later, ordered, names, found => by
      have inEntry := Entry.mem_visited_iff name entry ordered.2.1 names found
      have inLater := Directory.mem_visited_iff later ordered.2.2 names found
      rw [Directory.visited, List.mem_append, inLater]
      constructor
      · rintro (member | reaches)
        · cases kept : entry.isSkipped name with
          | true =>
              rw [kept] at member
              cases member
          | false =>
              rw [kept] at member
              rcases inEntry.mp member with ⟨rfl, rfl⟩ | ⟨content, rest, rfl, rfl, reaches⟩
              · exact .here (by simp [Directory.find?]) kept
              · exact .inside (by simp [Directory.find?]) kept reaches
        · exact Directory.reaches_cons_later ordered reaches
      · intro reaches
        cases reaches with
        | @here _ wanted _ isFound kept =>
            rw [Directory.find?] at isFound
            by_cases same : name = wanted
            · rw [if_pos same] at isFound
              cases isFound
              subst same
              rw [kept]
              exact .inl (inEntry.mpr (.inl ⟨rfl, rfl⟩))
            · rw [if_neg same] at isFound
              exact .inr (.here isFound kept)
        | @inside _ content wanted _ _ isFound kept reaches =>
            rw [Directory.find?] at isFound
            by_cases same : name = wanted
            · rw [if_pos same] at isFound
              cases isFound
              subst same
              rw [kept]
              exact .inl (inEntry.mpr (.inr ⟨_, _, rfl, rfl, reaches⟩))
            · rw [if_neg same] at isFound
              exact .inr (.inside isFound kept reaches)

end

/-! ## Order -/

mutual

theorem Entry.exists_of_mem_visited (name : Name) : ∀ (entry : Entry),
    ∀ item ∈ entry.visited name, ∃ rest, item.1 = name :: rest
  | .file content, item, member => ⟨[], by rw [List.mem_singleton.mp member]⟩
  | .link target, item, member => ⟨[], by rw [List.mem_singleton.mp member]⟩
  | .directory content, item, member => by
      rcases List.mem_cons.mp member with rfl | member
      · exact ⟨[], rfl⟩
      · rcases List.mem_map.mp member with ⟨inner, -, rfl⟩
        exact ⟨inner.1, rfl⟩

theorem Directory.exists_of_mem_visited : ∀ (directory : Directory),
    ∀ item ∈ directory.visited, ∃ name ∈ directory.names, ∃ rest, item.1 = name :: rest
  | .empty, item, member => nomatch member
  | .cons name entry later, item, member => by
      rcases List.mem_append.mp member with member | member
      · split at member
        · cases member
        · exact ⟨name, List.mem_cons_self, Entry.exists_of_mem_visited name entry item member⟩
      · rcases Directory.exists_of_mem_visited later item member with ⟨other, isName, rest, shape⟩
        exact ⟨other, List.mem_cons_of_mem _ isName, rest, shape⟩

end

def Location.Before (first second : Location) : Prop :=
  first.map Name.bytes < second.map Name.bytes

mutual

theorem Entry.pairwise_visited (name : Name) : ∀ (entry : Entry), entry.Ordered →
    (entry.visited name).Pairwise fun first second => Location.Before first.1 second.1
  | .file content, _ => List.pairwise_singleton _ _
  | .link target, _ => List.pairwise_singleton _ _
  | .directory content, ordered => by
      rw [Entry.visited, List.pairwise_cons]
      constructor
      · intro item member
        rcases List.mem_map.mp member with ⟨inner, isInner, rfl⟩
        rcases Directory.exists_of_mem_visited content inner isInner with ⟨_, -, _, shape⟩
        rw [Location.Before, shape]
        exact List.cons_lt_cons_iff.mpr (.inr ⟨rfl, List.nil_lt_cons _ _⟩)
      · refine List.pairwise_map.mpr ((Directory.pairwise_visited content ordered).imp ?_)
        intro first second before
        exact List.cons_lt_cons_iff.mpr (.inr ⟨rfl, before⟩)

theorem Directory.pairwise_visited : ∀ (directory : Directory), directory.Ordered →
    directory.visited.Pairwise fun first second => Location.Before first.1 second.1
  | .empty, _ => .nil
  | .cons name entry later, ordered => by
      rw [Directory.visited, List.pairwise_append]
      refine ⟨?_, Directory.pairwise_visited later ordered.2.2, ?_⟩
      · split
        · exact .nil
        · exact Entry.pairwise_visited name entry ordered.2.1
      · intro first inEntry second inLater
        split at inEntry
        · cases inEntry
        · rcases Entry.exists_of_mem_visited name entry first inEntry with ⟨_, firstShape⟩
          rcases Directory.exists_of_mem_visited later second inLater with
            ⟨other, isName, _, secondShape⟩
          rw [Location.Before, firstShape, secondShape]
          exact List.cons_lt_cons_iff.mpr
            (.inl (Name.bytes_lt_of_before (ordered.1 other isName)))

end

/-! ## Checks in order -/

section Checks

variable {Item Value Reason : Type} {check : Item → Except Reason Value}

theorem mapM_eq_ok_iff (items : List Item) (values : List Value) :
    items.mapM check = .ok values ↔
      List.Forall₂ (fun item value => check item = .ok value) items values := by
  induction items generalizing values with
  | nil => cases values <;> simp [pure, Except.pure]
  | cons item items induction =>
      rw [List.mapM_cons]
      constructor
      · intro succeeds
        rcases exists_of_bind_eq_ok succeeds with ⟨value, checked, succeeds⟩
        rcases exists_of_bind_eq_ok succeeds with ⟨others, checkedLater, whole⟩
        cases whole
        exact .cons checked ((induction others).mp checkedLater)
      · intro checked
        cases checked with
        | cons first later =>
            rw [first, (induction _).mpr later]
            rfl

theorem exists_ok_of_mem {items : List Item} {values : List Value}
    (checked : List.Forall₂ (fun item value => check item = .ok value) items values) {item : Item}
    (member : item ∈ items) : ∃ value, check item = .ok value := by
  induction checked with
  | nil => cases member
  | cons first _ induction =>
      rcases List.mem_cons.mp member with rfl | member
      · exact ⟨_, first⟩
      · exact induction member

/-- Checks end with the first refusal. -/
theorem mapM_eq_error_iff (items : List Item) (reason : Reason) :
    items.mapM check = .error reason ↔
      ∃ before item after, items = before ++ item :: after ∧ check item = .error reason ∧
        ∀ earlier ∈ before, ∃ value, check earlier = .ok value := by
  induction items with
  | nil => simp [pure, Except.pure]
  | cons first items induction =>
      rw [List.mapM_cons]
      constructor
      · intro fails
        cases checked : check first with
        | error other =>
            rw [checked] at fails
            cases fails
            exact ⟨[], first, items, rfl, checked, by simp⟩
        | ok value =>
            have failsLater : items.mapM check = .error reason := by
              rw [checked] at fails
              cases later : items.mapM check <;> rw [later] at fails <;> cases fails
              rfl
            rcases induction.mp failsLater with ⟨before, item, after, rfl, refused, passed⟩
            exact ⟨first :: before, item, after, rfl, refused,
              List.forall_mem_cons.mpr ⟨⟨value, checked⟩, passed⟩⟩
      · rintro ⟨before, item, after, split, refused, passed⟩
        cases before with
        | nil =>
            cases split
            rw [refused]
            rfl
        | cons earlier before =>
            cases split
            rcases List.forall_mem_cons.mp passed with ⟨⟨value, checked⟩, passed⟩
            rw [checked, induction.mpr ⟨before, item, after, rfl, refused, passed⟩]
            rfl

end Checks

/-! ## Sources of a directory -/

namespace Path

def visit (path : Path) (item : List Name × Entry) : Except Path (List Path) :=
  let place := path.joinAll item.1
  match item.2 with
  | .file _ => .ok (if place.isSupported then [place] else [])
  | .link _ => .ok []
  | .directory _ => if place.isTooLong then .error place else .ok []

theorem visit_directory (path : Path) (way : List Name) (content : Directory) :
    path.visit (way, .directory content) =
      if (path.joinAll way).isTooLong then .error (path.joinAll way) else .ok [] := rfl

def visitAll (path : Path) (items : List (List Name × Entry)) : Except Path (List Path) :=
  (items.mapM path.visit).map List.flatten

private theorem visitAll_append (path : Path) (front back : List (List Name × Entry)) :
    path.visitAll (front ++ back) =
      do return (← path.visitAll front) ++ (← path.visitAll back) := by
  rw [visitAll, visitAll, visitAll, List.mapM_append]
  cases front.mapM path.visit with
  | error place => rfl
  | ok listed =>
      cases back.mapM path.visit with
      | error place => rfl
      | ok others => exact congrArg Except.ok List.flatten_append

private theorem visitAll_directory (path : Path) (name : Name) (content : Directory)
    (items : List (List Name × Entry)) :
    path.visitAll (([name], .directory content) :: items.map fun item => (name :: item.1, item.2)) =
      if (path.join name).isTooLong then .error (path.join name)
      else (path.join name).visitAll items := by
  have single : path.joinAll [name] = path.join name := rfl
  rw [visitAll, List.mapM_cons, visit_directory, single, List.mapM_map]
  split
  · rfl
  · change ((items.mapM (path.join name).visit >>= fun listed => pure ([] :: listed)).map _) = _
    rw [visitAll]
    cases items.mapM (path.join name).visit <;> rfl

end Path

mutual

theorem Entry.sources_eq_visitAll (path : Path) (name : Name) : ∀ entry : Entry,
    entry.sources (path.join name) = path.visitAll (entry.visited name)
  | .file content => by
      change Except.ok _ = Except.ok _
      exact congrArg Except.ok (List.append_nil _).symm
  | .link target => rfl
  | .directory content => by
      rw [Entry.sources, Entry.visited, Path.visitAll_directory,
        Directory.sources_eq_visitAll (path.join name) content]

theorem Directory.sources_eq_visitAll (path : Path) : ∀ directory : Directory,
    directory.sources path = path.visitAll directory.visited
  | .empty => rfl
  | .cons name entry later => by
      rw [Directory.sources, Directory.visited, Path.visitAll_append,
        Directory.sources_eq_visitAll path later]
      split
      · rfl
      · rw [Entry.sources_eq_visitAll path name entry]

end

/-! ## Reached entries by location -/

namespace Directory

variable {directory content : Directory} {name : Name}

/-- A walk enters the directory at the end of a way: every name of the way leads to a directory, is
not hidden, and is not that of the packages that are installed. -/
def Enters (directory : Directory) (way : List Name) : Prop :=
  ∀ front name back, way = front ++ name :: back →
    (∃ content, directory.entryAt? (front ++ [name]) = some (.directory content)) ∧
      name.isHidden = false ∧ String.ofList name.text ≠ "node_modules"

def FindsFile (directory : Directory) (names : List Name) : Prop :=
  ∃ way name content, names = way ++ [name] ∧ directory.Enters way ∧ name.isHidden = false ∧
    directory.entryAt? names = some (.file content)

theorem entryAt?_cons (isFound : directory.find? name = some (.directory content))
    (rest : List Name) : directory.entryAt? (name :: rest) = content.entryAt? rest := by
  cases rest with
  | nil => exact isFound
  | cons next rest =>
      change (directory.subdirectory? name).bind _ = _
      rw [subdirectory?, isFound]
      rfl

theorem isSkipped_directory_iff (name : Name) (content : Directory) :
    (Entry.directory content).isSkipped name = false ↔
      name.isHidden = false ∧ String.ofList name.text ≠ "node_modules" := by
  simp [Entry.isSkipped, skippedDirectories]

theorem isSkipped_file (name : Name) (content : Bytes) :
    (Entry.file content).isSkipped name = name.isHidden := by
  simp [Entry.isSkipped]

theorem enters_nil (directory : Directory) : directory.Enters [] := by
  intro front name back split
  cases front <;> cases split

theorem enters_cons_iff (directory : Directory) (name : Name) (way : List Name) :
    directory.Enters (name :: way) ↔
      ∃ content, directory.find? name = some (.directory content) ∧
        (Entry.directory content).isSkipped name = false ∧ content.Enters way := by
  simp only [isSkipped_directory_iff]
  constructor
  · intro enters
    rcases enters [] name way rfl with ⟨⟨content, isFound⟩, kept⟩
    refine ⟨content, isFound, kept, fun front next back split => ?_⟩
    rw [← entryAt?_cons isFound]
    exact enters (name :: front) next back (by rw [split]; rfl)
  · rintro ⟨content, isFound, kept, enters⟩ front next back split
    cases front with
    | nil =>
        cases split
        exact ⟨⟨content, isFound⟩, kept⟩
    | cons first front =>
        cases split
        rw [List.cons_append, entryAt?_cons isFound]
        exact enters front next back rfl

theorem reaches_iff (directory : Directory) (names : List Name) (entry : Entry) :
    directory.Reaches names entry ↔
      ∃ way name, names = way ++ [name] ∧ directory.Enters way ∧
        directory.entryAt? names = some entry ∧ entry.isSkipped name = false := by
  constructor
  · intro reaches
    induction reaches with
    | here isFound kept => exact ⟨[], _, rfl, enters_nil _, isFound, kept⟩
    | inside isFound keptDirectory _ induction =>
        rcases induction with ⟨way, last, rfl, enters, holds, kept⟩
        refine ⟨_ :: way, last, rfl, ?_, ?_, kept⟩
        · exact (enters_cons_iff _ _ _).mpr ⟨_, isFound, keptDirectory, enters⟩
        · rw [entryAt?_cons isFound, holds]
  · rintro ⟨way, name, rfl, enters, holds, kept⟩
    induction way generalizing directory with
    | nil => exact .here holds kept
    | cons first way induction =>
        rcases (enters_cons_iff _ _ _).mp enters with
          ⟨content, isFound, keptDirectory, entersContent⟩
        rw [List.cons_append, entryAt?_cons isFound] at holds
        exact .inside isFound keptDirectory (induction content entersContent holds)

theorem exists_reaches_file_iff (directory : Directory) (names : List Name) :
    (∃ content, directory.Reaches names (.file content)) ↔ directory.FindsFile names := by
  simp only [reaches_iff, isSkipped_file]
  constructor
  · rintro ⟨content, way, name, split, enters, holds, visible⟩
    exact ⟨way, name, content, split, enters, visible, holds⟩
  · rintro ⟨way, name, content, split, enters, visible, holds⟩
    exact ⟨content, way, name, split, enters, holds, visible⟩

theorem exists_reaches_directory_iff (directory : Directory) (way : List Name) :
    (∃ content, directory.Reaches way (.directory content)) ↔ way ≠ [] ∧ directory.Enters way := by
  constructor
  · rintro ⟨content, reaches⟩
    refine ⟨reaches.ne_nil, ?_⟩
    induction way generalizing directory with
    | nil => exact enters_nil _
    | cons first way induction =>
        rw [enters_cons_iff]
        cases reaches with
        | here isFound kept => exact ⟨content, isFound, kept, enters_nil _⟩
        | inside isFound kept reaches => exact ⟨_, isFound, kept, induction _ reaches⟩
  · rintro ⟨some, enters⟩
    induction way generalizing directory with
    | nil => exact absurd rfl some
    | cons first way induction =>
        rcases (enters_cons_iff _ _ _).mp enters with ⟨content, isFound, kept, entersContent⟩
        cases way with
        | nil => exact ⟨content, .here isFound kept⟩
        | cons next way =>
            rcases induction content (List.cons_ne_nil _ _) entersContent with ⟨inner, reaches⟩
            exact ⟨inner, .inside isFound kept reaches⟩

end Directory

end Uncomment

import Uncomment.FileTree.Sources
import Uncomment.Proofs.Following

/-! # Which sources are listed twice

Listed paths are told apart by their components, so a file is listed once for every way in which the
given paths spell it. One given path lists each file below it once. Two given paths list a file
twice when neither continues the other. -/

namespace Uncomment

namespace FileTree

/-! ## Files that paths name -/

/-- A path leads to a file. It may be too long to be read there. -/
structure NamesFile (tree : FileTree) (path : Path) (location : Location) : Prop where
  leads : tree.follow maxLinks [] path.steps = .found location
  isFile : ∃ content, tree.entryAt? location = some (.file content)

def SameFile (tree : FileTree) (first second : Path) : Prop :=
  ∃ location, tree.NamesFile first location ∧ tree.NamesFile second location

def Lists (tree : FileTree) (given source : Path) : Prop :=
  ∃ found, tree.sourcesOf given = .ok found ∧ source ∈ found

/-- Two given paths both list a file, each under some path. -/
def ListCommonFile (tree : FileTree) (first second : Path) : Prop :=
  ∃ ofFirst ofSecond, tree.Lists first ofFirst ∧ tree.Lists second ofSecond ∧
    tree.SameFile ofFirst ofSecond

end FileTree

/-! ## Sources below a path -/

theorem Directory.mem_names_of_find {name : Name} {entry : Entry} {directory : Directory}
    (isFound : directory.find? name = some entry) : name ∈ directory.names := by
  cases directory with
  | empty => cases isFound
  | cons first entry later =>
      rw [find?] at isFound
      by_cases equal : first = name
      · rw [equal]
        exact List.mem_cons_self
      · rw [if_neg equal] at isFound
        exact List.mem_cons_of_mem _ (mem_names_of_find isFound)

theorem Directory.find?_cons_later {name first : Name} {entry value : Entry} {later : Directory}
    (ordered : (Directory.cons first value later).Ordered)
    (isFound : later.find? name = some entry) :
    (Directory.cons first value later).find? name = some entry := by
  have different : first ≠ name := by
    rintro rfl
    exact List.lt_irrefl _ (ordered.1 _ (mem_names_of_find isFound))
  rw [find?, if_neg different, isFound]

theorem exists_of_bind_eq_ok {Reason First Second : Type} {first : Except Reason First}
    {next : First → Except Reason Second} {result : Second}
    (succeeds : first >>= next = .ok result) :
    ∃ value, first = .ok value ∧ next value = .ok result := by
  cases first with
  | error reason => cases succeeds
  | ok value => exact ⟨value, rfl, succeeds⟩

theorem Directory.exists_of_sources_cons {path : Path} {name : Name} {entry : Entry}
    {later : Directory} {found : List Path}
    (listed : (Directory.cons name entry later).sources path = .ok found) :
    ∃ here rest, (entry.isSkipped name = true ∧ here = [] ∨
        entry.sources (path.join name) = .ok here) ∧
      later.sources path = .ok rest ∧ found = here ++ rest := by
  rw [sources] at listed
  by_cases skipped : entry.isSkipped name = true
  · rw [if_pos skipped] at listed
    change (later.sources path >>= fun rest => pure ([] ++ rest)) = .ok found at listed
    rcases exists_of_bind_eq_ok listed with ⟨rest, laterListed, whole⟩
    exact ⟨[], rest, .inl ⟨skipped, rfl⟩, laterListed, (Except.ok.inj whole).symm⟩
  · rw [if_neg skipped] at listed
    rcases exists_of_bind_eq_ok listed with ⟨here, entryListed, listed⟩
    rcases exists_of_bind_eq_ok listed with ⟨rest, laterListed, whole⟩
    exact ⟨here, rest, .inr entryListed, laterListed, (Except.ok.inj whole).symm⟩

theorem Directory.ordered_of_entryAt {directory : Directory} (ordered : directory.Ordered)
    {location : Location} {entry : Entry} (holds : directory.entryAt? location = some entry) :
    entry.Ordered := by
  induction location generalizing directory with
  | nil =>
      cases holds
      exact ordered
  | cons name rest induction =>
      cases rest with
      | nil => exact ordered_of_find ordered holds
      | cons next rest =>
          rcases Option.bind_eq_some_iff.mp holds with ⟨content, subdirectory, below⟩
          exact induction (ordered_of_find ordered (subdirectory?_eq_some_iff.mp subdirectory))
            below

section Below

variable {tree : FileTree}

mutual

theorem Entry.mem_sources (linkFree : tree.IsLinkFree) {path : Path} {location : Location}
    {found : List Path} (leads : tree.follow FileTree.maxLinks [] path.steps = .found location) :
    ∀ entry : Entry, tree.entryAt? location = some entry → entry.Ordered →
      entry.sources path = .ok found →
      ∀ source ∈ found, source.Continues path ∧ ∃ place, tree.NamesFile source place
  | .file content, holds, _, listed => by
      rw [Entry.sources] at listed
      cases listed
      intro source member
      split at member
      · rw [List.mem_singleton] at member
        subst source
        exact ⟨path.continues_refl, location, leads, content, holds⟩
      · cases member
  | .link target, holds, _, _ => absurd holds (linkFree location target)
  | .directory content, holds, ordered, listed => by
      rw [Entry.sources] at listed
      split at listed
      · cases listed
      · have isDirectory : tree.directoryAt? location = some content := by
          rw [FileTree.directoryAt?, holds]
        exact Directory.mem_sources linkFree leads isDirectory content (fun _ _ isFound => isFound)
          ordered listed

/-- The sources of what is left to walk of the directory at a path. -/
theorem Directory.mem_sources (linkFree : tree.IsLinkFree) {path : Path} {location : Location}
    {found : List Path} (leads : tree.follow FileTree.maxLinks [] path.steps = .found location)
    {whole : Directory} (isDirectory : tree.directoryAt? location = some whole) :
    ∀ remaining : Directory,
      (∀ name entry, remaining.find? name = some entry → whole.find? name = some entry) →
      remaining.Ordered → remaining.sources path = .ok found →
      ∀ source ∈ found, source.Continues path ∧ ∃ place, tree.NamesFile source place
  | .empty, _, _, listed => by
      cases listed
      simp
  | .cons name entry later, part, ordered, listed => by
      rcases Directory.exists_of_sources_cons listed with
        ⟨here, rest, entryListed, laterListed, rfl⟩
      have isFound : whole.find? name = some entry := part name entry (by simp [Directory.find?])
      intro source member
      rcases List.mem_append.mp member with inEntry | inLater
      · rcases entryListed with ⟨_, rfl⟩ | entryListed
        · cases inEntry
        · have holds : tree.entryAt? (location ++ [name]) = some entry :=
            (FileTree.entryAt?_append_singleton isDirectory name).trans isFound
          have entryLeads :=
            FileTree.follow_join linkFree leads isDirectory (Option.isSome_of_mem isFound)
          have below := Entry.mem_sources linkFree entryLeads entry holds ordered.2.1 entryListed
            source inEntry
          exact ⟨Path.continues_of_join below.1, below.2⟩
      · have laterPart : ∀ other value, later.find? other = some value →
            whole.find? other = some value := fun other value isLater =>
          part other value (Directory.find?_cons_later ordered isLater)
        exact Directory.mem_sources linkFree leads isDirectory later laterPart ordered.2.2
          laterListed source inLater

end

end Below

namespace FileTree

variable {tree : FileTree}

theorem destination_eq_found_iff {path : Path} {location : Location} :
    tree.destination path = .found location ↔
      ¬(path.text = [] ∨ path.isTooLong = true) ∧
        tree.follow maxLinks [] path.steps = .found location := by
  rw [destination]
  by_cases unusable : path.text = [] ∨ path.isTooLong = true
  · rw [if_pos unusable]
    exact ⟨nofun, fun leads => absurd unusable leads.1⟩
  · rw [if_neg unusable]
    exact (and_iff_right unusable).symm

theorem exists_follow_of_resolve {path : Path} {entry : Entry}
    (resolved : tree.resolve? path = some entry) :
    ∃ location, tree.follow maxLinks [] path.steps = .found location ∧
      tree.entryAt? location = some entry := by
  rw [resolve?] at resolved
  cases leads : tree.destination path with
  | vacant location => rw [leads] at resolved; cases resolved
  | unreachable => rw [leads] at resolved; cases resolved
  | found location =>
      rw [leads] at resolved
      exact ⟨location, (destination_eq_found_iff.mp leads).2, resolved⟩

theorem Lists.mem_sources (linkFree : tree.IsLinkFree) {given source : Path}
    (lists : tree.Lists given source) :
    source.Continues given ∧ ∃ location, tree.NamesFile source location := by
  rcases lists with ⟨found, listed, member⟩
  rw [sourcesOf] at listed
  cases resolved : tree.resolve? given with
  | none =>
      rw [resolved] at listed
      cases listed
  | some entry =>
      rw [resolved] at listed
      rcases exists_follow_of_resolve resolved with ⟨location, leads, holds⟩
      cases entry with
      | file content =>
          cases listed
          by_cases supported : given.isSupported = true
          · rw [if_pos supported, List.mem_singleton] at member
            subst source
            exact ⟨given.continues_refl, location, leads, content, holds⟩
          · rw [if_neg supported] at member
            cases member
      | link target =>
          cases listed
          cases member
      | directory content =>
          have isDirectory := directoryAt?_eq_some_iff.mpr holds
          have contentListed : content.sources given = .ok found := by
            cases below : content.sources given <;> simp only [below] at listed <;> cases listed
            rfl
          have ordered : content.Ordered := Directory.ordered_of_entryAt tree.ordered holds
          exact Directory.mem_sources linkFree leads isDirectory content
            (fun _ _ isFound => isFound) ordered contentListed source member

/-! ## Repetitions -/

theorem withoutRepetitions_sublist (seen paths : List Path) :
    (withoutRepetitions seen paths).Sublist paths := by
  induction paths generalizing seen with
  | nil => exact .slnil
  | cons path later induction =>
      rw [withoutRepetitions]
      split
      · exact (induction seen).cons path
      · exact (induction _).cons_cons path

private theorem components_ne_of_mem_withoutRepetitions {seen paths : List Path} :
    ∀ path ∈ withoutRepetitions seen paths, ∀ other ∈ seen,
      other.components ≠ path.components := by
  induction paths generalizing seen with
  | nil => simp [withoutRepetitions]
  | cons head later induction =>
      intro path member other wasSeen
      rw [withoutRepetitions] at member
      by_cases isKnown : seen.any (·.components = head.components) = true
      · rw [if_pos isKnown] at member
        exact induction path member other wasSeen
      · rw [if_neg isKnown] at member
        rcases List.mem_cons.mp member with rfl | member
        · intro equal
          exact isKnown (List.any_eq_true.mpr ⟨other, wasSeen, decide_eq_true equal⟩)
        · exact induction path member other (List.mem_cons_of_mem _ wasSeen)

theorem pairwise_withoutRepetitions (seen paths : List Path) :
    (withoutRepetitions seen paths).Pairwise fun first second =>
      first.components ≠ second.components := by
  induction paths generalizing seen with
  | nil => exact .nil
  | cons path later induction =>
      rw [withoutRepetitions]
      split
      · exact induction seen
      · exact .cons (fun other member =>
          components_ne_of_mem_withoutRepetitions other member path List.mem_cons_self)
          (induction _)

theorem exists_mem_withoutRepetitions (seen : List Path) {paths : List Path} {path : Path}
    (member : path ∈ paths) :
    ∃ other ∈ seen ++ withoutRepetitions seen paths, other.components = path.components := by
  induction paths generalizing seen with
  | nil => cases member
  | cons head later induction =>
      rw [withoutRepetitions]
      by_cases wasSeen : seen.any (·.components = head.components) = true
      · rw [if_pos wasSeen]
        rcases List.mem_cons.mp member with rfl | member
        · rcases List.any_eq_true.mp wasSeen with ⟨other, otherSeen, equal⟩
          exact ⟨other, List.mem_append_left _ otherSeen, of_decide_eq_true equal⟩
        · exact induction seen member
      · rw [if_neg wasSeen]
        rcases List.mem_cons.mp member with rfl | member
        · exact ⟨path, List.mem_append_right _ List.mem_cons_self, rfl⟩
        · rcases induction (head :: seen) member with ⟨other, otherMember, equal⟩
          refine ⟨other, ?_, equal⟩
          rcases List.mem_cons.mp otherMember with rfl | otherMember
          · exact List.mem_append_right _ List.mem_cons_self
          · rcases List.mem_append.mp otherMember with wasSeen | isLater
            · exact List.mem_append_left _ wasSeen
            · exact List.mem_append_right _ (List.mem_cons_of_mem _ isLater)

/-! ## Sources of several paths -/

private theorem mem_flatten_of_mapM {paths : List Path} {lists : List (List Path)}
    (listed : paths.mapM tree.sourcesOf = .ok lists) (source : Path) :
    source ∈ lists.flatten ↔ ∃ given ∈ paths, tree.Lists given source := by
  induction paths generalizing lists with
  | nil =>
      cases listed
      simp
  | cons given later induction =>
      rw [List.mapM_cons] at listed
      rcases exists_of_bind_eq_ok listed with ⟨found, givenListed, listed⟩
      rcases exists_of_bind_eq_ok listed with ⟨others, laterListed, whole⟩
      cases whole
      rw [List.flatten_cons, List.mem_append, induction laterListed]
      constructor
      · rintro (inFound | ⟨other, member, lists⟩)
        · exact ⟨given, List.mem_cons_self, found, givenListed, inFound⟩
        · exact ⟨other, List.mem_cons_of_mem _ member, lists⟩
      · rintro ⟨other, member, lists⟩
        rcases List.mem_cons.mp member with rfl | member
        · rcases lists with ⟨again, againListed, inAgain⟩
          rw [givenListed] at againListed
          cases againListed
          exact .inl inAgain
        · exact .inr ⟨other, member, lists⟩

variable {paths found : List Path}

theorem exists_listed_of_sources (succeeds : tree.sources paths = .ok found) :
    ∃ listed, found = withoutRepetitions [] listed ∧
      ∀ source, source ∈ listed ↔ ∃ given ∈ paths, tree.Lists given source := by
  rw [sources] at succeeds
  cases each : paths.mapM tree.sourcesOf with
  | error reason =>
      rw [each] at succeeds
      cases succeeds
  | ok lists =>
      rw [each] at succeeds
      cases succeeds
      exact ⟨lists.flatten, rfl, mem_flatten_of_mapM each⟩

theorem exists_lists_of_mem_sources (succeeds : tree.sources paths = .ok found) {source : Path}
    (member : source ∈ found) : ∃ given ∈ paths, tree.Lists given source := by
  rcases exists_listed_of_sources succeeds with ⟨listed, rfl, members⟩
  exact (members source).mp ((withoutRepetitions_sublist _ _).subset member)

theorem exists_mem_sources_of_lists (succeeds : tree.sources paths = .ok found)
    {given source : Path} (member : given ∈ paths) (lists : tree.Lists given source) :
    ∃ other ∈ found, other.components = source.components := by
  rcases exists_listed_of_sources succeeds with ⟨listed, rfl, members⟩
  exact exists_mem_withoutRepetitions [] ((members source).mpr ⟨given, member, lists⟩)

theorem pairwise_sources (succeeds : tree.sources paths = .ok found) :
    found.Pairwise fun first second => first.components ≠ second.components := by
  rcases exists_listed_of_sources succeeds with ⟨listed, rfl, _⟩
  exact pairwise_withoutRepetitions [] listed

theorem SameFile.endpoint_eq (linkFree : tree.IsLinkFree) {first second : Path}
    (same : tree.SameFile first second) : first.endpoint = second.endpoint := by
  rcases same with ⟨location, ofFirst, ofSecond⟩
  rw [← eq_endpoint_of_follow linkFree ofFirst.leads,
    ← eq_endpoint_of_follow linkFree ofSecond.leads]

/-- Paths to files name the same file when they have the same endpoint. -/
theorem sameFile_of_endpoint_eq (linkFree : tree.IsLinkFree) {first second : Path}
    (left : ∃ location, tree.NamesFile first location)
    (right : ∃ location, tree.NamesFile second location)
    (equal : first.endpoint = second.endpoint) : tree.SameFile first second := by
  rcases left with ⟨location, ofFirst⟩
  rcases right with ⟨place, ofSecond⟩
  have same : location = place := by
    rw [eq_endpoint_of_follow linkFree ofFirst.leads, equal,
      eq_endpoint_of_follow linkFree ofSecond.leads]
  subst place
  exact ⟨location, ofFirst, ofSecond⟩

theorem SameFile.symm {first second : Path} (same : tree.SameFile first second) :
    tree.SameFile second first := by
  rcases same with ⟨location, ofFirst, ofSecond⟩
  exact ⟨location, ofSecond, ofFirst⟩

theorem eq_of_sameFile (once : found.Pairwise fun first second => ¬tree.SameFile first second)
    {first second : Path} (firstMember : first ∈ found) (secondMember : second ∈ found)
    (same : tree.SameFile first second) : first = second :=
  (once.imp fun different same => absurd same different).forall_of_forall_of_flip
    (R := fun first second => tree.SameFile first second → first = second)
    (fun _ _ _ => rfl) (once.imp fun different same => absurd same.symm different)
    firstMember secondMember same

/-- When a file is listed once, the given paths that list it found it under the same components. -/
theorem continues_of_listCommonFile (linkFree : tree.IsLinkFree)
    (succeeds : tree.sources paths = .ok found)
    (once : found.Pairwise fun first second => ¬tree.SameFile first second) {first second : Path}
    (firstMember : first ∈ paths) (secondMember : second ∈ paths)
    (common : tree.ListCommonFile first second) :
    first.Continues second ∨ second.Continues first := by
  rcases common with ⟨ofFirst, ofSecond, firstLists, secondLists, same⟩
  rcases exists_mem_sources_of_lists succeeds firstMember firstLists with
    ⟨left, leftMember, leftEqual⟩
  rcases exists_mem_sources_of_lists succeeds secondMember secondLists with
    ⟨right, rightMember, rightEqual⟩
  have isFile : ∀ source ∈ found, ∃ location, tree.NamesFile source location := by
    intro source member
    rcases exists_lists_of_mem_sources succeeds member with ⟨given, _, lists⟩
    exact (lists.mem_sources linkFree).2
  have endpoints : left.endpoint = right.endpoint := by
    rw [Path.endpoint, Path.endpoint, leftEqual, rightEqual]
    exact same.endpoint_eq linkFree
  have one := eq_of_sameFile once leftMember rightMember
    (sameFile_of_endpoint_eq linkFree (isFile left leftMember) (isFile right rightMember) endpoints)
  exact Path.continues_of_components_eq (firstLists.mem_sources linkFree).1
    (secondLists.mem_sources linkFree).1 (by rw [← leftEqual, ← rightEqual, one])

/-- In a tree without links each file is listed once exactly when, of two given paths that list a
common file, one always goes on from the other. -/
theorem sources_once_iff (linkFree : tree.IsLinkFree) (succeeds : tree.sources paths = .ok found) :
    (found.Pairwise fun first second => ¬tree.SameFile first second) ↔
      ∀ first ∈ paths, ∀ second ∈ paths, tree.ListCommonFile first second →
        first.Continues second ∨ second.Continues first := by
  constructor
  · intro once first firstMember second secondMember common
    exact continues_of_listCommonFile linkFree succeeds once firstMember secondMember common
  · intro alike
    refine (List.Pairwise.and_mem.mp (pairwise_sources succeeds)).imp ?_
    intro left right placed same
    rcases placed with ⟨leftMember, rightMember, different⟩
    rcases exists_lists_of_mem_sources succeeds leftMember with ⟨first, firstMember, firstLists⟩
    rcases exists_lists_of_mem_sources succeeds rightMember with
      ⟨second, secondMember, secondLists⟩
    have leftContinues := (firstLists.mem_sources linkFree).1
    have rightContinues := (secondLists.mem_sources linkFree).1
    have endpoints := same.endpoint_eq linkFree
    rcases alike first firstMember second secondMember
      ⟨left, right, firstLists, secondLists, same⟩ with further | further
    · exact different (Path.components_eq_of_endpoint_eq
        (Path.continues_trans leftContinues further) rightContinues endpoints)
    · exact different (Path.components_eq_of_endpoint_eq leftContinues
        (Path.continues_trans rightContinues further) endpoints)

def loneName : Name := ⟨['a', '.', 'j', 's'], by decide⟩

def loneFileTree : FileTree :=
  empty.putFile [loneName] []

private theorem isLinkFree_loneFileTree : loneFileTree.IsLinkFree := by
  intro location target holds
  rcases location with _ | ⟨first, rest⟩
  · cases holds
  · have lone : ∀ name entry, loneFileTree.root.find? name = some entry → entry = .file [] := by
      intro name entry isFound
      change (if _ then some (Entry.file []) else none) = some entry at isFound
      split at isFound <;> cases isFound
      rfl
    rcases rest with _ | ⟨second, rest⟩
    · cases lone first _ holds
    · rcases Option.bind_eq_some_iff.mp holds with ⟨content, subdirectory, _⟩
      cases lone first _ (Directory.subdirectory?_eq_some_iff.mp subdirectory)

private theorem follow_loneFileTree :
    loneFileTree.follow maxLinks [] (Path.ofString ".").steps = .found [] ∧
      loneFileTree.follow maxLinks [] (Path.ofString "./a.js").steps = .found [loneName] ∧
      loneFileTree.follow maxLinks [] (Path.ofString "a.js").steps = .found [loneName] := by
  have dot : (Path.ofString ".").steps = [.current] := by decide
  have dotFile : (Path.ofString "./a.js").steps = [.current, .entry loneName] := by decide
  have file : (Path.ofString "a.js").steps = [.entry loneName] := by decide
  have here : (loneFileTree.directoryAt? []).isSome = true := rfl
  have enter : loneFileTree.follow maxLinks [] [.entry loneName] = .found [loneName] := by
    refine (follow_entry isLinkFree_loneFileTree _ _).mpr ⟨⟨_, rfl, by decide⟩, ?_⟩
    rw [follow]
    rfl
  rw [dot, dotFile, file, follow, if_pos here, follow, follow, if_pos here]
  exact ⟨rfl, enter, enter⟩

theorem sourcesOf_loneFileTree :
    loneFileTree.sourcesOf (.ofString ".") = .ok [.ofString "./a.js"] ∧
      loneFileTree.sourcesOf (.ofString "./a.js") = .ok [.ofString "./a.js"] ∧
      loneFileTree.sourcesOf (.ofString "a.js") = .ok [.ofString "a.js"] := by
  rcases follow_loneFileTree with ⟨dot, dotFile, file⟩
  simp only [sourcesOf, resolve?, destination, dot, dotFile, file]
  exact ⟨rfl, rfl, rfl⟩

theorem sources_once_loneFileTree :
    loneFileTree.IsLinkFree ∧
      loneFileTree.sources [.ofString ".", .ofString "./a.js"] = .ok [.ofString "./a.js"] ∧
      ∀ first ∈ [Path.ofString ".", .ofString "./a.js"],
        ∀ second ∈ [Path.ofString ".", .ofString "./a.js"],
          loneFileTree.ListCommonFile first second →
            first.Continues second ∨ second.Continues first := by
  have succeeds : loneFileTree.sources [.ofString ".", .ofString "./a.js"] =
      .ok [.ofString "./a.js"] := by
    rw [sources, List.mapM_cons, List.mapM_cons, sourcesOf_loneFileTree.1,
      sourcesOf_loneFileTree.2.1]
    rfl
  exact ⟨isLinkFree_loneFileTree, succeeds,
    (sources_once_iff isLinkFree_loneFileTree succeeds).mp (List.pairwise_singleton _ _)⟩

/-- The components of `./a.js` and `a.js` differ, so the file is listed under both. -/
theorem sources_twice_loneFileTree :
    loneFileTree.IsLinkFree ∧
      loneFileTree.sources [.ofString ".", .ofString "a.js"] =
        .ok [.ofString "./a.js", .ofString "a.js"] ∧
      loneFileTree.SameFile (.ofString "./a.js") (.ofString "a.js") := by
  have file : loneFileTree.entryAt? [loneName] = some (.file []) := by decide
  refine ⟨isLinkFree_loneFileTree, ?_, [loneName], ?_, ?_⟩
  · rw [sources, List.mapM_cons, List.mapM_cons, sourcesOf_loneFileTree.1,
      sourcesOf_loneFileTree.2.2]
    rfl
  · exact ⟨follow_loneFileTree.2.1, [], file⟩
  · exact ⟨follow_loneFileTree.2.2, [], file⟩

end FileTree

end Uncomment

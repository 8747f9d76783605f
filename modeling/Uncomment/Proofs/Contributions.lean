import Uncomment.Proofs.Text
import Uncomment.Proofs.Walks

/-! # What given paths contribute

A given path contributes itself if it leads to a file, and the files that the walk finds if it leads
to a directory. The sources of several paths are their contributions in order, without those that
have the components of an earlier one. A directory that cannot be read ends the search. -/

namespace Uncomment

/-! ## Contributions of a walk -/

namespace Path

def lists (path : Path) (item : List Name × Entry) : Bool :=
  match item.2 with
  | .file _ => (path.joinAll item.1).isSupported
  | _ => false

private theorem flatten_of_visits {path : Path} {items : List (List Name × Entry)}
    {listed : List (List Path)}
    (visits : List.Forall₂ (fun item found => path.visit item = .ok found) items listed) :
    listed.flatten = ((items.filter path.lists).map Prod.fst).map path.joinAll := by
  induction visits with
  | nil => rfl
  | @cons item found _ _ visited _ induction =>
      rcases item with ⟨names, entry⟩
      rw [List.flatten_cons, induction, List.filter_cons]
      cases entry with
      | file content =>
          cases visited
          cases supported : (path.joinAll names).isSupported <;> simp [lists, supported]
      | link target =>
          cases visited
          rfl
      | directory content =>
          rw [visit_directory] at visited
          split at visited <;> cases visited
          rfl

end Path

namespace Directory

variable {directory : Directory} {path : Path}

def Supplies (directory : Directory) (path : Path) (names : List Name) : Prop :=
  directory.FindsFile names ∧ (path.joinAll names).isSupported = true

private theorem mem_lists_iff (ordered : directory.Ordered) (names : List Name) :
    names ∈ (directory.visited.filter path.lists).map Prod.fst ↔ directory.Supplies path names := by
  rw [Supplies, ← exists_reaches_file_iff]
  constructor
  · intro member
    rcases List.mem_map.mp member with ⟨⟨_, entry⟩, kept, rfl⟩
    rcases List.mem_filter.mp kept with ⟨visited, lists⟩
    have reaches := (mem_visited_iff directory ordered _ _).mp visited
    cases entry with
    | file content => exact ⟨⟨content, reaches⟩, lists⟩
    | link target => cases lists
    | directory content => cases lists
  · rintro ⟨⟨content, reaches⟩, supported⟩
    refine List.mem_map.mpr ⟨(names, .file content), List.mem_filter.mpr ⟨?_, supported⟩, rfl⟩
    exact (mem_visited_iff directory ordered _ _).mpr reaches

/-- A walk that ends lists the supported files it finds, in ascending order, and has entered no
directory with a path that is too long. -/
theorem exists_of_sources_eq_ok (ordered : directory.Ordered) {found : List Path}
    (listed : directory.sources path = .ok found) :
    (∃ ways : List Location, found = ways.map path.joinAll ∧ ways.Pairwise Location.Before ∧
      ∀ names, names ∈ ways ↔ directory.Supplies path names) ∧
    ∀ way, way ≠ [] → directory.Enters way → (path.joinAll way).isTooLong = false := by
  rw [sources_eq_visitAll, Path.visitAll] at listed
  cases visits : directory.visited.mapM path.visit with
  | error place => rw [visits] at listed; cases listed
  | ok each =>
      rw [visits] at listed
      cases listed
      rw [mapM_eq_ok_iff] at visits
      refine ⟨⟨_, Path.flatten_of_visits visits, ?_, mem_lists_iff ordered⟩, ?_⟩
      · have ascending := pairwise_visited directory ordered
        exact List.pairwise_map.mpr (ascending.sublist List.filter_sublist)
      · intro way some enters
        rcases (exists_reaches_directory_iff directory way).mpr ⟨some, enters⟩ with
          ⟨content, reaches⟩
        rcases exists_ok_of_mem visits ((mem_visited_iff directory ordered _ _).mpr reaches) with
          ⟨listed, visited⟩
        rw [Path.visit_directory] at visited
        by_cases tooLong : (path.joinAll way).isTooLong = true
        · rw [if_pos tooLong] at visited
          cases visited
        · exact Bool.not_eq_true _ ▸ tooLong

theorem exists_of_sources_eq_error (ordered : directory.Ordered) {place : Path}
    (fails : directory.sources path = .error place) :
    ∃ way, way ≠ [] ∧ directory.Enters way ∧ place = path.joinAll way ∧
      place.isTooLong = true := by
  rw [sources_eq_visitAll, Path.visitAll] at fails
  cases visits : directory.visited.mapM path.visit with
  | ok each => rw [visits] at fails; cases fails
  | error other =>
      rw [visits] at fails
      cases fails
      rcases (mapM_eq_error_iff _ _).mp visits with ⟨before, ⟨way, entry⟩, after, split, refused, -⟩
      have reaches : directory.Reaches way entry := by
        rw [← mem_visited_iff directory ordered, split]
        exact List.mem_append_right before List.mem_cons_self
      cases entry with
      | file content => cases refused
      | link target => cases refused
      | directory content =>
          rw [Path.visit_directory] at refused
          by_cases tooLong : (path.joinAll way).isTooLong = true
          · rw [if_pos tooLong] at refused
            cases refused
            have entered := (exists_reaches_directory_iff directory way).mp ⟨content, reaches⟩
            exact ⟨way, entered.1, entered.2, rfl, tooLong⟩
          · rw [if_neg tooLong] at refused
            cases refused

end Directory

namespace FileTree

variable {tree : FileTree}

/-! ## Where given paths lead -/

private theorem entryAt?_dropLast_ne_link {location : Location}
    (isDirectory : (tree.directoryAt? location).isSome = true) (target : Path) :
    tree.entryAt? location.dropLast ≠ some (.link target) := by
  intro isLink
  rcases List.eq_nil_or_concat location with rfl | ⟨front, name, rfl⟩
  · cases isLink
  · rw [List.concat_eq_append, List.dropLast_concat, entryAt?] at isLink
    rw [directoryAt?, entryAt?, List.concat_eq_append, Directory.entryAt?_append_singleton,
      isLink] at isDirectory
    cases isDirectory

/-- A path that leads anywhere leads through the links on its way. -/
theorem entryAt?_ne_link_of_follow {links : Nat} {here there : Location} {steps : List Component}
    (notLink : ∀ target, tree.entryAt? here ≠ some (.link target))
    (leads : tree.follow links here steps = .found there) (target : Path) :
    tree.entryAt? there ≠ some (.link target) := by
  fun_induction tree.follow links here steps with
  | case1 =>
      cases leads
      exact notLink target
  | case2 | case4 | case6 | case7 | case8 | case9 | case10 => cases leads
  | case3 _ _ _ _ induction => exact induction notLink leads
  | case5 _ _ _ isDirectory induction =>
      exact induction (entryAt?_dropLast_ne_link isDirectory.1) leads
  | case11 _ _ _ _ _ _ _ _ induction => exact induction notLink leads
  | case12 _ _ name _ _ holds _ other isFound induction =>
      refine induction (fun _ isLink => ?_) leads
      rw [entryAt?_append_singleton holds, isFound] at isLink
      exact other _ (Option.some.inj isLink)

theorem resolve?_ne_link (path target : Path) : tree.resolve? path ≠ some (.link target) := by
  intro resolved
  rcases exists_follow_of_resolve resolved with ⟨location, leads, isLink⟩
  refine entryAt?_ne_link_of_follow (fun other isRoot => ?_) leads target isLink
  cases isRoot

theorem isFile_iff (path : Path) :
    tree.isFile path = true ↔ ∃ content, tree.resolve? path = some (.file content) := by
  rw [isFile, read?]
  cases tree.resolve? path with
  | none => simp
  | some entry => cases entry <;> simp

theorem directory?_eq_some_iff (path : Path) (content : Directory) :
    tree.directory? path = some content ↔ tree.resolve? path = some (.directory content) := by
  rw [directory?]
  cases tree.resolve? path with
  | none => simp
  | some entry => cases entry <;> simp

theorem ordered_of_directory? {path : Path} {content : Directory}
    (isDirectory : tree.directory? path = some content) : content.Ordered := by
  rcases exists_follow_of_resolve ((directory?_eq_some_iff _ _).mp isDirectory) with ⟨_, -, holds⟩
  exact Directory.ordered_of_entryAt tree.ordered holds

theorem directory?_eq_none_of_isFile {path : Path} (isFile : tree.isFile path = true) :
    tree.directory? path = none := by
  rcases (isFile_iff path).mp isFile with ⟨content, resolved⟩
  rw [directory?, resolved]

/-! ## Paths that stay where they are -/

theorem follow_replicate_current (tree : FileTree) (links count : Nat) :
    tree.follow links [] (List.replicate count .current) = .found [] := by
  induction count with
  | zero => rw [List.replicate_zero, follow]
  | succ count induction =>
      have here : (tree.directoryAt? []).isSome = true := rfl
      rw [List.replicate_succ, follow, if_pos here, induction]

def stayingPath : Nat → Path
  | 0 => ⟨['.']⟩
  | count + 1 => ⟨'.' :: '/' :: (stayingPath count).text⟩

private theorem steps_stayingPath (count : Nat) :
    (stayingPath count).steps = List.replicate (count + 1) .current := by
  induction count with
  | zero => decide
  | succ count induction =>
      have dot : Path.steps ⟨['.']⟩ = [.current] := by decide
      rcases Path.exists_steps_slash ['.'] with ⟨lead, -, alone, behind⟩
      have later : (stayingPath count).steps =
          (Path.parts (stayingPath count).text).map .ofPart := by
        cases count <;> exact Path.steps_relative (by decide) _
      have joined := behind (stayingPath count).text
      rw [← alone (by decide), dot, ← later, induction] at joined
      exact joined

private theorem byteLength_stayingPath (count : Nat) :
    (stayingPath count).text.byteLength = 2 * count + 1 := by
  induction count with
  | zero => decide
  | succ count induction =>
      have dot : Char.utf8Size '.' = 1 := by decide
      have slash : Char.utf8Size '/' = 1 := by decide
      rw [stayingPath, Text.byteLength_cons, Text.byteLength_cons, induction, dot, slash]
      omega

theorem resolve?_stayingPath {count : Nat} (short : 2 * count + 1 ≤ Path.maxBytes) :
    tree.resolve? (stayingPath count) = some (.directory tree.root) := by
  have written : (stayingPath count).text ≠ [] := by
    cases count <;> exact List.cons_ne_nil _ _
  have followed : (stayingPath count).isTooLong = false := by
    rw [Path.isTooLong, byteLength_stayingPath]
    exact decide_eq_false (Nat.not_lt.mpr short)
  rw [resolve?, destination, if_neg (by simp [written, followed]), steps_stayingPath,
    follow_replicate_current]
  rfl

/-! ## Contributions -/

def Enters (tree : FileTree) (given directory : Path) : Prop :=
  ∃ content way, tree.directory? given = some content ∧ way ≠ [] ∧ content.Enters way ∧
    directory = given.joinAll way

/-- Every directory that the walk from a given path enters can be read, as its path is not too
long. -/
def Walkable (tree : FileTree) (given : Path) : Prop :=
  ∀ directory, tree.Enters given directory → directory.isTooLong = false

/-- A path with a supported extension is a source of a given path: the given path itself, leading to
a file, or the path of a file that the walk from the given path finds. -/
def HasSource (tree : FileTree) (given source : Path) : Prop :=
  source.isSupported = true ∧
    (source = given ∧ tree.isFile given = true ∨
      ∃ content names, tree.directory? given = some content ∧ content.FindsFile names ∧
        source = given.joinAll names)

inductive Contributes (tree : FileTree) (given : Path) : List Path → Prop
  | source (isFile : tree.isFile given = true) (supported : given.isSupported = true) :
      tree.Contributes given [given]
  | unsupported (isFile : tree.isFile given = true) (unsupported : given.isSupported = false) :
      tree.Contributes given []
  | directory {content : Directory} {ways : List Location}
      (isDirectory : tree.directory? given = some content)
      (ascending : ways.Pairwise Location.Before)
      (complete : ∀ names, names ∈ ways ↔
        content.FindsFile names ∧ (given.joinAll names).isSupported = true) :
      tree.Contributes given (ways.map given.joinAll)

theorem Contributes.mem_iff {given : Path} {contribution : List Path}
    (contributes : tree.Contributes given contribution) (source : Path) :
    source ∈ contribution ↔ tree.HasSource given source := by
  cases contributes with
  | source isFile supported =>
      rw [HasSource, directory?_eq_none_of_isFile isFile, List.mem_singleton]
      constructor
      · rintro rfl
        exact ⟨supported, .inl ⟨rfl, isFile⟩⟩
      · rintro ⟨-, ⟨same, -⟩ | ⟨_, _, impossible, -⟩⟩
        · exact same
        · cases impossible
  | unsupported isFile unsupported =>
      rw [HasSource, directory?_eq_none_of_isFile isFile]
      constructor
      · intro member
        cases member
      · rintro ⟨supported, ⟨rfl, -⟩ | ⟨_, _, impossible, -⟩⟩
        · rw [unsupported] at supported
          cases supported
        · cases impossible
  | directory isDirectory ascending complete =>
      rw [HasSource, List.mem_map]
      constructor
      · rintro ⟨names, member, rfl⟩
        have found := (complete names).mp member
        exact ⟨found.2, .inr ⟨_, names, isDirectory, found.1, rfl⟩⟩
      · rintro ⟨supported, ⟨-, isFile⟩ | ⟨content, names, again, finds, rfl⟩⟩
        · rw [directory?_eq_none_of_isFile isFile] at isDirectory
          cases isDirectory
        · rw [isDirectory] at again
          cases again
          exact ⟨names, (complete names).mpr ⟨finds, supported⟩, rfl⟩

theorem contributes_of_sourcesOf {given : Path} {found : List Path}
    (listed : tree.sourcesOf given = .ok found) :
    tree.Contributes given found ∧ tree.Walkable given := by
  rw [sourcesOf] at listed
  cases resolved : tree.resolve? given with
  | none =>
      rw [resolved] at listed
      cases listed
  | some entry =>
      rw [resolved] at listed
      cases entry with
      | link target => exact absurd resolved (resolve?_ne_link given target)
      | file content =>
          have isFile : tree.isFile given = true := (isFile_iff given).mpr ⟨content, resolved⟩
          have walkable : tree.Walkable given := by
            rintro _ ⟨_, _, isDirectory, -⟩
            rw [directory?_eq_none_of_isFile isFile] at isDirectory
            cases isDirectory
          cases listed
          refine ⟨?_, walkable⟩
          by_cases supported : given.isSupported = true
          · rw [if_pos supported]
            exact .source isFile supported
          · rw [if_neg supported]
            exact .unsupported isFile (Bool.not_eq_true _ ▸ supported)
      | directory content =>
          have isDirectory := (directory?_eq_some_iff given content).mpr resolved
          cases walked : content.sources given with
          | error place =>
              simp only [walked] at listed
              cases listed
          | ok sources =>
              simp only [walked] at listed
              cases listed
              rcases Directory.exists_of_sources_eq_ok (ordered_of_directory? isDirectory) walked
                with ⟨⟨ways, rfl, ascending, complete⟩, short⟩
              refine ⟨.directory isDirectory ascending complete, ?_⟩
              rintro _ ⟨other, way, again, some, enters, rfl⟩
              rw [isDirectory] at again
              cases again
              exact short way some enters

theorem unreadable_of_sourcesOf {given : Path} {reason : SourcesError}
    (present : tree.contains given = true) (fails : tree.sourcesOf given = .error reason) :
    ∃ directory, reason = .unreadable given directory ∧ tree.Enters given directory ∧
      directory.isTooLong = true := by
  rw [sourcesOf] at fails
  cases resolved : tree.resolve? given with
  | none =>
      rw [contains, resolved] at present
      cases present
  | some entry =>
      rw [resolved] at fails
      cases entry with
      | file content => cases fails
      | link target => cases fails
      | directory content =>
          have isDirectory := (directory?_eq_some_iff given content).mpr resolved
          cases walked : content.sources given with
          | ok sources =>
              simp only [walked] at fails
              cases fails
          | error place =>
              simp only [walked] at fails
              cases fails
              rcases Directory.exists_of_sources_eq_error (ordered_of_directory? isDirectory) walked
                with ⟨way, some, enters, rfl, tooLong⟩
              exact ⟨_, rfl, ⟨content, way, isDirectory, some, enters, rfl⟩, tooLong⟩

theorem exists_sourcesOf_iff {given : Path} (present : tree.contains given = true) :
    (∃ found, tree.sourcesOf given = .ok found) ↔ tree.Walkable given := by
  constructor
  · rintro ⟨found, listed⟩
    exact (contributes_of_sourcesOf listed).2
  · intro walkable
    cases listed : tree.sourcesOf given with
    | ok found => exact ⟨found, rfl⟩
    | error reason =>
        rcases unreadable_of_sourcesOf present listed with ⟨directory, -, enters, tooLong⟩
        rw [walkable directory enters] at tooLong
        cases tooLong

/-! ## Sources of several paths -/

theorem withoutRepetitions_eq_eraseDupsBy (paths : List Path) :
    withoutRepetitions [] paths =
      paths.eraseDupsBy fun path earlier => path.components = earlier.components := by
  have loop : ∀ seen : List Path,
      List.eraseDupsBy.loop (fun path earlier => path.components = earlier.components) paths seen =
        seen.reverse ++ withoutRepetitions seen paths := by
    induction paths with
    | nil => exact fun seen => (List.append_nil _).symm
    | cons path later induction =>
        intro seen
        rw [List.eraseDupsBy.loop, withoutRepetitions]
        simp only [eq_comm (a := path.components), induction]
        cases seen.any fun earlier => earlier.components = path.components with
        | true => rfl
        | false => rw [List.reverse_cons, List.append_assoc]; rfl
  exact (loop []).symm

variable {paths found : List Path}

theorem exists_contributions_of_sources (succeeds : tree.sources paths = .ok found) :
    ∃ contributions, List.Forall₂ tree.Contributes paths contributions ∧
      found = contributions.flatten.eraseDupsBy fun path earlier =>
        path.components = earlier.components := by
  rw [sources] at succeeds
  cases each : paths.mapM tree.sourcesOf with
  | error reason => rw [each] at succeeds; cases succeeds
  | ok contributions =>
      rw [each] at succeeds
      cases succeeds
      rw [mapM_eq_ok_iff] at each
      exact ⟨contributions, each.imp fun _ _ listed => (contributes_of_sourcesOf listed).1,
        withoutRepetitions_eq_eraseDupsBy _⟩

theorem exists_sourcesOf_of_sources (succeeds : tree.sources paths = .ok found) {given : Path}
    (member : given ∈ paths) : ∃ listed, tree.sourcesOf given = .ok listed := by
  rw [sources] at succeeds
  cases each : paths.mapM tree.sourcesOf with
  | error reason => rw [each] at succeeds; cases succeeds
  | ok contributions => exact exists_ok_of_mem ((mapM_eq_ok_iff _ _).mp each) member

theorem exists_sources_iff (present : ∀ given ∈ paths, tree.contains given = true) :
    (∃ found, tree.sources paths = .ok found) ↔ ∀ given ∈ paths, tree.Walkable given := by
  constructor
  · rintro ⟨found, succeeds⟩ given member
    exact (exists_sourcesOf_iff (present given member)).mp
      (exists_sourcesOf_of_sources succeeds member)
  · intro walkable
    rw [sources]
    cases each : paths.mapM tree.sourcesOf with
    | ok contributions => exact ⟨_, rfl⟩
    | error reason =>
        rcases (mapM_eq_error_iff _ _).mp each with ⟨before, given, after, rfl, fails, -⟩
        have member : given ∈ before ++ given :: after :=
          List.mem_append_right before List.mem_cons_self
        rcases (exists_sourcesOf_iff (present given member)).mpr (walkable given member) with
          ⟨listed, succeeds⟩
        rw [fails] at succeeds
        cases succeeds

theorem mem_sources_iff (succeeds : tree.sources paths = .ok found) (path : Path) :
    (∃ source ∈ found, source.components = path.components) ↔
      ∃ given ∈ paths, ∃ source, tree.HasSource given source ∧
        source.components = path.components := by
  constructor
  · rintro ⟨source, member, equal⟩
    rcases exists_lists_of_mem_sources succeeds member with
      ⟨given, isGiven, listed, lists, inListed⟩
    have hasSource := ((contributes_of_sourcesOf lists).1.mem_iff source).mp inListed
    exact ⟨given, isGiven, source, hasSource, equal⟩
  · rintro ⟨given, isGiven, source, hasSource, equal⟩
    rcases exists_sourcesOf_of_sources succeeds isGiven with ⟨listed, lists⟩
    have inListed := ((contributes_of_sourcesOf lists).1.mem_iff source).mpr hasSource
    rcases exists_mem_sources_of_lists succeeds isGiven ⟨listed, lists, inListed⟩ with
      ⟨other, member, same⟩
    exact ⟨other, member, same.trans equal⟩

/-- The sources of paths that exist are listed when every directory that a walk enters can be read.
They are the contributions of the paths in order without those that have the components of an
earlier one, and up to components they are all sources of the paths. -/
theorem sources_of_existing_paths (tree : FileTree) (paths : List Path)
    (present : ∀ given ∈ paths, tree.contains given = true)
    (walkable : ∀ given ∈ paths, tree.Walkable given) :
    ∃ found, tree.sources paths = .ok found ∧
      (∀ path : Path, (∃ source ∈ found, source.components = path.components) ↔
        ∃ given ∈ paths, ∃ source, tree.HasSource given source ∧
          source.components = path.components) ∧
      ∃ contributions, List.Forall₂ tree.Contributes paths contributions ∧
        found = contributions.flatten.eraseDupsBy fun path earlier =>
          path.components = earlier.components := by
  rcases (exists_sources_iff present).mpr walkable with ⟨found, succeeds⟩
  exact ⟨found, succeeds, mem_sources_iff succeeds, exists_contributions_of_sources succeeds⟩

def directoryName : Name := ⟨['b', '.', 'j', 's'], by decide⟩

def packagedFileTree : FileTree :=
  -- A link stands beside the second file, and installed packages beside its directory.
  ((((empty.putFile [loneName] []).putFile [packagesName, loneName] []).putFile [hiddenName] []
    ).putFile [directoryName, loneName] []).putLink [directoryName, linkName] ⟨loneName.text⟩
where
  packagesName : Name :=
    ⟨['n', 'o', 'd', 'e', '_', 'm', 'o', 'd', 'u', 'l', 'e', 's'], by decide⟩
  hiddenName : Name := ⟨['.', 'a', '.', 'j', 's'], by decide⟩
  linkName : Name := ⟨['c', '.', 'j', 's'], by decide⟩

theorem sources_packagedFileTree :
    (∀ given ∈ [Path.ofString ".", .ofString "./."], packagedFileTree.contains given = true) ∧
      (∀ given ∈ [Path.ofString ".", .ofString "./."], packagedFileTree.Walkable given) ∧
      packagedFileTree.sources [.ofString ".", .ofString "./."] =
        .ok [.ofString "./a.js", .ofString "./b.js/a.js"] ∧
      ∀ path : Path,
        (∃ source ∈ [Path.ofString "./a.js", .ofString "./b.js/a.js"],
          source.components = path.components) ↔
        ∃ given ∈ [Path.ofString ".", .ofString "./."], ∃ source,
          packagedFileTree.HasSource given source ∧ source.components = path.components := by
  have dot : packagedFileTree.resolve? (.ofString ".") =
      some (.directory packagedFileTree.root) :=
    resolve?_stayingPath (show 2 * 0 + 1 ≤ _ by decide)
  have dots : packagedFileTree.resolve? (.ofString "./.") =
      some (.directory packagedFileTree.root) :=
    resolve?_stayingPath (show 2 * 1 + 1 ≤ _ by decide)
  have present : ∀ given ∈ [Path.ofString ".", .ofString "./."],
      packagedFileTree.contains given = true := by
    simp [contains, dot, dots]
  have dotSources : packagedFileTree.root.sources (.ofString ".") =
      .ok [.ofString "./a.js", .ofString "./b.js/a.js"] := by
    decide +kernel
  have dotsSources : packagedFileTree.root.sources (.ofString "./.") =
      .ok [.ofString "././a.js", .ofString "././b.js/a.js"] := by
    decide +kernel
  have listed : packagedFileTree.sources [.ofString ".", .ofString "./."] =
      .ok [.ofString "./a.js", .ofString "./b.js/a.js"] := by
    rw [sources, List.mapM_cons, List.mapM_cons, sourcesOf, sourcesOf, dot, dots]
    simp only [dotSources, dotsSources]
    decide +kernel
  have walkable := (exists_sources_iff present).mp ⟨_, listed⟩
  rcases sources_of_existing_paths _ _ present walkable with ⟨found, succeeds, complete, -⟩
  cases listed.symm.trans succeeds
  exact ⟨present, walkable, listed, complete⟩

end FileTree

end Uncomment

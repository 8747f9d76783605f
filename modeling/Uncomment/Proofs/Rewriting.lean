import Uncomment.Command.Strip
import Uncomment.Proofs.FileContents
import Uncomment.Proofs.Stripping

/-! # What the strip command writes

A run works through the found paths one after the other. The files of the paths still to come are as
they were at first, so what is done with each of them can be told from the files before the run. -/

namespace Uncomment

namespace StripCommand

/-! ## One file -/

def strippedFile? (parse : Parser) (options : StripOptions) (files : FileTree) (path : Path) :
    Option Stripped := do
  let content ← files.read? path
  let source ← (Text.decode content).toOption
  (strip parse source { options with filename := some path.display }).toOption

/-- The content that the file at a path is given: the code that is left of it, where that differs
from what it holds. -/
def newContent? (parse : Parser) (options : StripOptions) (files : FileTree) (path : Path) :
    Option Bytes := do
  let stripped ← strippedFile? parse options files path
  if files.read? path = some stripped.code.encode then none else some stripped.code.encode

def fileEntry (parse : Parser) (options : StripOptions) (files : FileTree) (path : Path) :
    ReportEntry :=
  (reportFile parse options false files path).1

def rewrite (parse : Parser) (options : StripOptions) (write : Bool) (files : FileTree)
    (path : Path) : FileTree :=
  match newContent? parse options files path with
  | some content => if write then (files.write? path content).getD files else files
  | none => files

variable {parse : Parser} {options : StripOptions} {write failFast : Bool} {files now : FileTree}
  {path : Path}

theorem strippedFile?_of_read? (reads : now.read? path = files.read? path) :
    strippedFile? parse options now path = strippedFile? parse options files path := by
  rw [strippedFile?, strippedFile?, reads]

theorem newContent?_of_read? (reads : now.read? path = files.read? path) :
    newContent? parse options now path = newContent? parse options files path := by
  rw [newContent?, newContent?, reads, strippedFile?_of_read? reads]

theorem fileEntry_of_read? (reads : now.read? path = files.read? path) :
    fileEntry parse options now path = fileEntry parse options files path := by
  rw [fileEntry, fileEntry, reportFile, reportFile, stripFile?, stripFile?, reads]
  cases files.read? path with
  | none => rfl
  | some content =>
      simp only [Bool.false_and, Bool.false_eq_true, if_false]
      cases stripBytes parse content { options with filename := some path.display } <;> rfl

theorem newContent?_of_strippedFile? (fails : strippedFile? parse options files path = none) :
    newContent? parse options files path = none := by
  rw [newContent?, fails]
  rfl

theorem exists_read?_of_newContent? {content : Bytes}
    (changes : newContent? parse options files path = some content) :
    ∃ old, files.read? path = some old := by
  cases reads : files.read? path with
  | some old => exact ⟨old, rfl⟩
  | none =>
      rw [newContent?_of_strippedFile? (by rw [strippedFile?, reads]; rfl)] at changes
      cases changes

theorem strippedFile?_eq (parse : Parser) (options : StripOptions) (files : FileTree)
    (path : Path) :
    strippedFile? parse options files path =
      (files.read? path).bind fun content =>
        (stripBytes parse content { options with filename := some path.display }).toOption := by
  rw [strippedFile?]
  cases files.read? path with
  | none => rfl
  | some content =>
      simp only [stripBytes, Option.bind_eq_bind, Option.bind_some]
      cases Text.decode content <;> rfl

/-- All that can happen to a file: it fails and is left as it is, or it is stripped and given its
new content. -/
theorem stripFile?_cases (parse : Parser) (options : StripOptions) (files : FileTree)
    (path : Path) :
    (strippedFile? parse options files path = none ∧
      ∃ error, ∀ write, stripFile? parse options write files path = .error error) ∨
    ∃ stripped, strippedFile? parse options files path = some stripped ∧
      ∀ write, stripFile? parse options write files path =
        .ok (⟨path.display, stripped.commentCount, stripped.removedBytes,
          (newContent? parse options files path).isSome, none⟩,
          rewrite parse options write files path) := by
  have result := strippedFile?_eq parse options files path
  cases reads : files.read? path with
  | none =>
      rw [reads, Option.bind_none] at result
      refine .inl ⟨result, if path.isTooLong then .tooLong path else .unreadable path, ?_⟩
      intro write
      rw [stripFile?, reads]
  | some content =>
      rw [reads, Option.bind_some] at result
      cases strips : stripBytes parse content { options with filename := some path.display } with
      | error cause =>
          rw [strips] at result
          refine .inl ⟨result, .notStripped cause, fun write => ?_⟩
          rw [stripFile?, reads]
          simp only [strips]
      | ok stripped =>
          rw [strips] at result
          refine .inr ⟨stripped, result, fun write => ?_⟩
          have changes : newContent? parse options files path =
              if content = stripped.code.encode then none else some stripped.code.encode := by
            rw [newContent?, result, reads]
            simp [Except.toOption]
          rw [stripFile?, reads, rewrite, changes]
          simp only [strips]
          by_cases same : content = stripped.code.encode
          · simp [same]
          · rcases FileTree.exists_write?_of_read? reads stripped.code.encode with
              ⟨location, -, -, written⟩
            cases write <;> simp [same, Ne.symm same, written]

/-- What is reported on a file does not depend on whether anything is written. -/
theorem reportFile_eq (parse : Parser) (options : StripOptions) (write : Bool) (files : FileTree)
    (path : Path) :
    reportFile parse options write files path =
      (fileEntry parse options files path, rewrite parse options write files path) := by
  rw [fileEntry, reportFile, reportFile]
  rcases stripFile?_cases parse options files path with
    ⟨fails, error, result⟩ | ⟨stripped, -, result⟩
  · rw [result, result, rewrite, newContent?_of_strippedFile? fails]
  · rw [result, result]

theorem fileEntry_cases (parse : Parser) (options : StripOptions) (files : FileTree)
    (path : Path) :
    (strippedFile? parse options files path = none ∧
      ∃ error, fileEntry parse options files path = .failed path.display error) ∨
    ∃ stripped, strippedFile? parse options files path = some stripped ∧
      fileEntry parse options files path =
        ⟨path.display, stripped.commentCount, stripped.removedBytes,
          (newContent? parse options files path).isSome, none⟩ := by
  rw [fileEntry, reportFile]
  rcases stripFile?_cases parse options files path with
    ⟨fails, error, result⟩ | ⟨stripped, succeeds, result⟩
  · exact .inl ⟨fails, error.message, by rw [result]⟩
  · exact .inr ⟨stripped, succeeds, by rw [result]⟩

@[simp] theorem path_fileEntry : (fileEntry parse options files path).path = path.display := by
  rcases fileEntry_cases parse options files path with ⟨-, _, entry⟩ | ⟨_, -, entry⟩
  · rw [entry]
    rfl
  · rw [entry]

@[simp] theorem isChanged_fileEntry : (fileEntry parse options files path).isChanged =
    (newContent? parse options files path).isSome := by
  rcases fileEntry_cases parse options files path with ⟨fails, _, entry⟩ | ⟨_, -, entry⟩
  · rw [entry, newContent?_of_strippedFile? fails]
    rfl
  · rw [entry]

@[simp] theorem isFailed_fileEntry : (fileEntry parse options files path).isFailed =
    (strippedFile? parse options files path).isNone := by
  rcases fileEntry_cases parse options files path with
    ⟨fails, _, entry⟩ | ⟨_, succeeds, entry⟩
  · rw [entry, fails]
    rfl
  · rw [entry, succeeds]
    rfl

private theorem rewrite_cases (parse : Parser) (options : StripOptions) (write : Bool)
    (files : FileTree) (path : Path) :
    ((write = true → newContent? parse options files path = none) ∧
      rewrite parse options write files path = files) ∨
    ∃ location old new, write = true ∧ newContent? parse options files path = some new ∧
      files.NamesFile path location ∧ files.contentAt? location = some old ∧
      rewrite parse options write files path = files.putFile location new := by
  rw [rewrite]
  cases changes : newContent? parse options files path with
  | none => exact .inl ⟨fun _ => rfl, rfl⟩
  | some new =>
      cases write with
      | false => exact .inl ⟨fun impossible => absurd impossible Bool.false_ne_true, rfl⟩
      | true =>
          rcases exists_read?_of_newContent? changes with ⟨old, reads⟩
          rcases FileTree.exists_write?_of_read? reads new with ⟨location, names, holds, written⟩
          exact .inr ⟨location, old, new, rfl, rfl, names, holds, by simp [written]⟩

private theorem alike_rewrite (parse : Parser) (options : StripOptions) (write : Bool)
    (files : FileTree) (path : Path) : files.Alike (rewrite parse options write files path) := by
  rcases rewrite_cases parse options write files path with
    ⟨-, same⟩ | ⟨location, old, new, -, -, -, holds, written⟩
  · rw [same]
    exact .refl files
  · rw [written]
    exact FileTree.alike_putFile holds new

private theorem contentAt?_rewrite_of_untouched {location : Location}
    (untouched : files.NamesFile path location → write = true →
      newContent? parse options files path = none) :
    (rewrite parse options write files path).contentAt? location = files.contentAt? location := by
  rcases rewrite_cases parse options write files path with
    ⟨-, same⟩ | ⟨written, old, new, writes, changes, names, holds, result⟩
  · rw [same]
  · rw [result, FileTree.contentAt?_putFile holds]
    refine if_neg fun equal => ?_
    subst equal
    rw [untouched names writes] at changes
    cases changes

private theorem contentAt?_rewrite {location : Location} {content : Bytes} (writes : write = true)
    (changes : newContent? parse options files path = some content)
    (names : files.NamesFile path location) :
    (rewrite parse options write files path).contentAt? location = some content := by
  rcases rewrite_cases parse options write files path with
    ⟨nothing, -⟩ | ⟨written, old, new, -, again, namesWritten, holds, result⟩
  · rw [nothing writes] at changes
    cases changes
  · rw [changes] at again
    cases again
    rw [result, FileTree.contentAt?_putFile holds, if_pos (names.location_eq namesWritten)]

/-! ## All files -/

def processed (parse : Parser) (options : StripOptions) (failFast : Bool) (files : FileTree) :
    List Path → List Path
  | [] => []
  | path :: later =>
      if failFast && (strippedFile? parse options files path).isNone then
        [path]
      else
        path :: processed parse options failFast files later

/-- The files are given the new contents of those at the paths, and are otherwise as they were. -/
structure GivenNewContents (parse : Parser) (options : StripOptions) (write : Bool)
    (files : FileTree) (paths : List Path) (written : FileTree) : Prop where
  changed : ∀ path ∈ paths, ∀ content, newContent? parse options files path = some content →
    write = true → ∀ location, files.NamesFile path location →
      written.contentAt? location = some content
  kept : ∀ location, (∀ path ∈ paths, files.NamesFile path location → write = true →
      newContent? parse options files path = none) →
    written.contentAt? location = files.contentAt? location
  alike : files.Alike written

def rewriteAll (parse : Parser) (options : StripOptions) (write : Bool) (files : FileTree)
    (paths : List Path) : FileTree :=
  paths.foldl (rewrite parse options write) files

/-- In the course of a run all paths lead where they led before, and the files of the paths that are
still to come hold what they held before. -/
structure Pending (files now : FileTree) (paths : List Path) : Prop where
  alike : files.Alike now
  reads : ∀ path ∈ paths, now.read? path = files.read? path

variable {paths : List Path} {report : Report} {location : Location}

theorem Pending.refl (files : FileTree) (paths : List Path) : Pending files files paths where
  alike := .refl files
  reads _ _ := rfl

variable (parse options write)

theorem Pending.rewrite (pending : Pending files now (path :: paths))
    (apart : ∀ later ∈ paths, ¬files.SameFile path later) :
    Pending files (rewrite parse options write now path) paths := by
  refine ⟨pending.alike.trans (alike_rewrite parse options write now path), ?_⟩
  intro later member
  rw [← pending.reads later (.tail _ member)]
  rcases rewrite_cases parse options write now path with
    ⟨-, same⟩ | ⟨location, old, new, -, -, names, holds, written⟩
  · rw [same]
  · rw [written, FileTree.read?_putFile holds new]
    intro namesLater
    exact apart later member
      ⟨location, names.of_alike pending.alike.symm, namesLater.of_alike pending.alike.symm⟩

/-- A run does with each path what it would do with the files as they were at first. -/
theorem stripFiles_eq (pending : Pending files now paths)
    (apart : paths.Pairwise fun first second => ¬files.SameFile first second) (failFast : Bool)
    (report : Report) :
    stripFiles parse options write failFast report now paths =
      (((processed parse options failFast files paths).map
          (fileEntry parse options files)).foldl .push report,
        rewriteAll parse options write now (processed parse options failFast files paths)) := by
  induction paths generalizing now report with
  | nil => rfl
  | cons path later induction =>
      -- The head's file is still as it was, so its entry is that of the first files.
      have reads := pending.reads path List.mem_cons_self
      rw [List.pairwise_cons] at apart
      rw [stripFiles, reportFile_eq, fileEntry_of_read? reads, processed]
      simp only [isFailed_fileEntry]
      split
      · rfl
      · rw [induction (pending.rewrite parse options write apart.1) apart.2]
        rfl

theorem alike_rewriteAll (files : FileTree) (paths : List Path) :
    files.Alike (rewriteAll parse options write files paths) := by
  induction paths generalizing files with
  | nil => exact .refl files
  | cons path later induction =>
      exact (alike_rewrite parse options write files path).trans (induction _)

variable {parse options write}

/-- A file keeps its content when no path to it gives it a new one. -/
theorem contentAt?_rewriteAll_of_untouched (pending : Pending files now paths)
    (apart : paths.Pairwise fun first second => ¬files.SameFile first second)
    (untouched : ∀ path ∈ paths, files.NamesFile path location → write = true →
      newContent? parse options files path = none) :
    (rewriteAll parse options write now paths).contentAt? location = now.contentAt? location := by
  induction paths generalizing now with
  | nil => rfl
  | cons path later induction =>
      rw [List.pairwise_cons] at apart
      refine (induction (pending.rewrite parse options write apart.1) apart.2
        fun other member => untouched other (.tail _ member)).trans ?_
      refine contentAt?_rewrite_of_untouched fun names writes => ?_
      rw [newContent?_of_read? (pending.reads path List.mem_cons_self)]
      exact untouched path List.mem_cons_self (names.of_alike pending.alike.symm) writes

/-- A file holds the new content that a path to it gives it: no later path leads to the file. -/
theorem contentAt?_rewriteAll {content : Bytes} (pending : Pending files now paths)
    (apart : paths.Pairwise fun first second => ¬files.SameFile first second)
    (writes : write = true) (member : path ∈ paths)
    (changes : newContent? parse options files path = some content)
    (names : files.NamesFile path location) :
    (rewriteAll parse options write now paths).contentAt? location = some content := by
  induction paths generalizing now with
  | nil => cases member
  | cons first later induction =>
      rw [List.pairwise_cons] at apart
      have pendingLater := pending.rewrite parse options write apart.1
      rcases List.mem_cons.mp member with rfl | member
      · refine (contentAt?_rewriteAll_of_untouched pendingLater apart.2 ?_).trans ?_
        · exact fun other isLater namesOther =>
            absurd ⟨location, names, namesOther⟩ (apart.1 other isLater)
        · refine contentAt?_rewrite writes ?_ (names.of_alike pending.alike)
          rw [newContent?_of_read? (pending.reads path List.mem_cons_self), changes]
      · exact induction pendingLater apart.2 member

theorem givenNewContents_rewriteAll
    (apart : paths.Pairwise fun first second => ¬files.SameFile first second) :
    GivenNewContents parse options write files paths
      (rewriteAll parse options write files paths) where
  changed _ member _ changes writes _ names :=
    contentAt?_rewriteAll (.refl files paths) apart writes member changes names
  kept _ untouched := contentAt?_rewriteAll_of_untouched (.refl files paths) apart untouched
  alike := alike_rewriteAll parse options write files paths

theorem stripFiles_of_not_write (failFast : Bool) (report : Report) (files : FileTree)
    (paths : List Path) :
    (stripFiles parse options false failFast report files paths).2 = files := by
  induction paths generalizing report with
  | nil => rfl
  | cons path later induction =>
      have same : rewrite parse options false files path = files := by
        rw [rewrite]
        split <;> rfl
      rw [stripFiles, reportFile_eq, same]
      simp only
      split
      · rfl
      · exact induction _

theorem processed_false (paths : List Path) :
    processed parse options false files paths = paths := by
  induction paths with
  | nil => rfl
  | cons path later induction => rw [processed, induction]; rfl

theorem processed_sublist (paths : List Path) :
    (processed parse options failFast files paths).Sublist paths := by
  induction paths with
  | nil => exact .slnil
  | cons path later induction =>
      rw [processed]
      split
      · exact .cons_cons path (List.nil_sublist later)
      · exact .cons_cons path induction

theorem entries_foldl_push (entries : List ReportEntry) (report : Report) :
    (entries.foldl .push report).entries = report.entries ++ entries := by
  induction entries generalizing report with
  | nil => exact (List.append_nil _).symm
  | cons entry later induction =>
      rw [List.foldl_cons, induction]
      exact List.append_assoc _ [entry] later

theorem files_finish (arguments : StripArguments) (report : Report) (files : FileTree) :
    (finish arguments report files).files = files := by
  rw [finish]
  split <;> rfl

/-! ## The whole command -/

theorem exists_sources_error {arguments : StripArguments}
    (missing : ∃ path ∈ arguments.paths, files.contains path = false) :
    ∃ reason, files.sources arguments.paths = .error reason := by
  rcases missing with ⟨path, member, missing⟩
  cases listed : files.sources arguments.paths with
  | error reason => exact ⟨reason, rfl⟩
  | ok found =>
      rcases FileTree.exists_sourcesOf_of_sources listed member with ⟨paths, lists⟩
      have leadsNowhere : files.resolve? path = none := Option.not_isSome_iff_eq_none.mp
        (Bool.not_eq_true _ ▸ missing)
      rw [FileTree.sourcesOf, leadsNowhere] at lists
      cases lists

/-- The command changes no file when a given path does not exist, or when the sources cannot be
listed for another reason. When they can be listed and no two of them name the same file, the
processed files that are stripped to another content are given it with `write`, and nothing else
changes. They are the files that the report marks as changed. -/
theorem strip_writes_new_contents (parse : Parser) (arguments : StripArguments)
    (files : FileTree) :
    ((∃ path ∈ arguments.paths, files.contains path = false) →
      ∃ reason, files.sources arguments.paths = .error reason) ∧
    (∀ reason, files.sources arguments.paths = .error reason →
      stripAll parse arguments files = .error reason ∧
      ∀ words, StripArguments.ofList words = .ok arguments →
        execute parse words files = .finished ⟨1, "", sourcesErrorText reason, files⟩) ∧
    ∀ found, files.sources arguments.paths = .ok found →
      ∃ report written, stripAll parse arguments files = .ok (report, written) ∧
        (∀ words, StripArguments.ofList words = .ok arguments →
          ∃ result, execute parse words files = .finished result ∧ result.files = written) ∧
        (arguments.write = false → written = files) ∧
        ((found.Pairwise fun first second => ¬files.SameFile first second) →
          GivenNewContents parse arguments.options arguments.write files
            (processed parse arguments.options arguments.failFast files found) written ∧
          (report.entries.filter (·.isChanged)).map (·.path) =
            ((processed parse arguments.options arguments.failFast files found).filter
              fun path => (newContent? parse arguments.options files path).isSome).map
                (·.display)) := by
  refine ⟨exists_sources_error, ?_, ?_⟩
  · intro reason fails
    have strips : stripAll parse arguments files = .error reason := by
      rw [stripAll, fails]
      rfl
    refine ⟨strips, fun words reads => ?_⟩
    rw [execute, reads]
    simp only [strips]
  · intro found listed
    rcases result : stripFiles parse arguments.options arguments.write arguments.failFast .empty
      files found with ⟨report, written⟩
    have strips : stripAll parse arguments files = .ok (report, written) := by
      rw [stripAll, listed, ← result]
      rfl
    refine ⟨report, written, strips, ?_, ?_, ?_⟩
    · intro words reads
      refine ⟨finish arguments report written, ?_, files_finish arguments report written⟩
      rw [execute, reads]
      simp only [strips]
    · intro keeps
      rw [keeps] at result
      rw [← stripFiles_of_not_write arguments.failFast .empty files found, result]
    · intro apart
      rw [stripFiles_eq parse arguments.options arguments.write (.refl files found) apart] at result
      cases result
      refine ⟨givenNewContents_rewriteAll (apart.sublist (processed_sublist found)), ?_⟩
      rw [entries_foldl_push]
      simp [Report.empty, List.filter_map, Function.comp_def]

def writeArguments (paths : List Path) : StripArguments where
  paths := paths
  write := true
  check := false
  json := false
  dialect := some .plain
  legacyDecorators := false
  furthestError := false
  failFast := true

def mixedFileTree : FileTree :=
  -- The first file is a comment, the second holds no text and the last is empty.
  ((FileTree.empty.putFile [FileTree.loneName] (Text.encode ['/', '/'])).putFile [textlessName]
    [0xFF]).putFile [emptyName] []
where
  textlessName : Name := ⟨['m', '.', 'j', 's'], by decide⟩
  emptyName : Name := ⟨['z', '.', 'j', 's'], by decide⟩

theorem sources_mixedFileTree :
    mixedFileTree.sources [.ofString "."] =
      .ok [.ofString "./a.js", .ofString "./m.js", .ofString "./z.js"] := by
  have dot : mixedFileTree.resolve? (.ofString ".") = some (.directory mixedFileTree.root) :=
    FileTree.resolve?_stayingPath (show 2 * 0 + 1 ≤ _ by decide)
  have dotSources : mixedFileTree.root.sources (.ofString ".") =
      .ok [.ofString "./a.js", .ofString "./m.js", .ofString "./z.js"] := by decide +kernel
  rw [FileTree.sources, List.mapM_cons, FileTree.sourcesOf, dot]
  simp only [dotSources]
  decide +kernel

theorem destination_mixedFileTree :
    mixedFileTree.destination (.ofString "./a.js") = .found [FileTree.loneName] ∧
      mixedFileTree.destination (.ofString "./m.js") = .found [mixedFileTree.textlessName] ∧
      mixedFileTree.destination (.ofString "./z.js") = .found [mixedFileTree.emptyName] := by
  have comment : mixedFileTree.entryAt? [FileTree.loneName] =
      some (.file (Text.encode ['/', '/'])) := by decide +kernel
  have textless : mixedFileTree.entryAt? [mixedFileTree.textlessName] = some (.file [0xFF]) := by
    decide +kernel
  have empty : mixedFileTree.entryAt? [mixedFileTree.emptyName] = some (.file []) := by
    decide +kernel
  exact ⟨FileTree.destination_of_entryAt? comment (by decide) (by decide),
    FileTree.destination_of_entryAt? textless (by decide) (by decide),
    FileTree.destination_of_entryAt? empty (by decide) (by decide)⟩

theorem apart_mixedFileTree :
    [Path.ofString "./a.js", .ofString "./m.js", .ofString "./z.js"].Pairwise
      fun first second => ¬mixedFileTree.SameFile first second := by
  rcases destination_mixedFileTree with ⟨comment, textless, empty⟩
  have isFile : ∀ name ∈ [FileTree.loneName, mixedFileTree.textlessName, mixedFileTree.emptyName],
      (mixedFileTree.contentAt? [name]).isSome = true := by decide +kernel
  simp only [List.forall_mem_cons] at isFile
  simp only [List.pairwise_cons, List.forall_mem_cons, List.not_mem_nil, false_imp_iff,
    implies_true, List.Pairwise.nil, and_true]
  refine ⟨⟨?_, ?_⟩, ?_⟩
  · exact FileTree.not_sameFile_of_destination comment textless isFile.1 isFile.2.1 (by decide)
  · exact FileTree.not_sameFile_of_destination comment empty isFile.1 isFile.2.2.1 (by decide)
  · exact FileTree.not_sameFile_of_destination textless empty isFile.2.1 isFile.2.2.1 (by decide)

theorem strippedFile?_mixedFileTree (paths : List Path) :
    let options := (writeArguments paths).options
    strippedFile? slashesParser options mixedFileTree (.ofString "./a.js") =
        some ⟨[], 1, 2, [⟨0, 2⟩]⟩ ∧
      strippedFile? slashesParser options mixedFileTree (.ofString "./m.js") = none ∧
      strippedFile? slashesParser options mixedFileTree (.ofString "./z.js") =
        some ⟨[], 0, 0, []⟩ := by
  intro options
  rcases destination_mixedFileTree with ⟨comment, textless, empty⟩
  refine ⟨?_, ?_, ?_⟩
  · have reads : mixedFileTree.read? (.ofString "./a.js") = some (Text.encode ['/', '/']) := by
      rw [FileTree.read?_eq, comment]
      decide +kernel
    have decoded : Text.decode (Text.encode ['/', '/']) = .ok ['/', '/'] := by decide +kernel
    rw [strippedFile?, reads]
    simp only [Option.bind_eq_bind, Option.bind_some, decoded, Except.toOption]
    rw [strip_slashes rfl rfl rfl]
  · have reads : mixedFileTree.read? (.ofString "./m.js") = some [0xFF] := by
      rw [FileTree.read?_eq, textless]
      decide +kernel
    rw [strippedFile?, reads]
    rfl
  · have reads : mixedFileTree.read? (.ofString "./z.js") = some [] := by
      rw [FileTree.read?_eq, empty]
      decide +kernel
    have decoded : Text.decode [] = .ok [] := rfl
    rw [strippedFile?, reads]
    simp only [Option.bind_eq_bind, Option.bind_some, decoded, Except.toOption]
    rw [strip_plain rfl rfl rfl]

theorem newContent?_mixedFileTree (paths : List Path) :
    let options := (writeArguments paths).options
    newContent? slashesParser options mixedFileTree (.ofString "./a.js") = some [] ∧
      newContent? slashesParser options mixedFileTree (.ofString "./m.js") = none ∧
      newContent? slashesParser options mixedFileTree (.ofString "./z.js") = none := by
  intro options
  rcases destination_mixedFileTree with ⟨comment, -, empty⟩
  rcases strippedFile?_mixedFileTree paths with ⟨stripsComment, failsTextless, stripsEmpty⟩
  refine ⟨?_, newContent?_of_strippedFile? failsTextless, ?_⟩
  · rw [newContent?, stripsComment, FileTree.read?_eq, comment]
    decide +kernel
  · rw [newContent?, stripsEmpty, FileTree.read?_eq, empty]
    decide +kernel

theorem contains_mixedFileTree : mixedFileTree.contains (.ofString "b.js") = false := by
  have steps : (Path.ofString "b.js").steps = [.entry ⟨['b', '.', 'j', 's'], by decide⟩] := by
    decide
  rw [FileTree.contains, FileTree.resolve?, FileTree.destination, if_neg (by decide), steps,
    FileTree.follow_entry_eq]
  decide +kernel

theorem strip_mixedFileTree :
    let arguments := { writeArguments [.ofString "."] with failFast := false }
    StripArguments.ofList ["--write", "--dialect", "plain"] = .ok arguments ∧
      (∃ report result, stripAll slashesParser arguments mixedFileTree = .ok (report, result.files) ∧
        execute slashesParser ["--write", "--dialect", "plain"] mixedFileTree = .finished result ∧
        [FileTree.loneName, mixedFileTree.textlessName, mixedFileTree.emptyName].map
          (result.files.contentAt? [·]) = [some [], some [0xFF], some []] ∧
        (report.entries.filter (·.isChanged)).map (·.path) = ["./a.js"]) ∧
      ∃ errors, execute slashesParser ["--write", "--dialect", "plain", ".", "b.js"] mixedFileTree =
        .finished ⟨1, "", errors, mixedFileTree⟩ := by
  intro arguments
  have words : StripArguments.ofList ["--write", "--dialect", "plain"] = .ok arguments := by
    decide +kernel
  have moreWords : StripArguments.ofList ["--write", "--dialect", "plain", ".", "b.js"] =
      .ok { arguments with paths := [.ofString ".", .ofString "b.js"] } := by
    decide +kernel
  rcases destination_mixedFileTree with ⟨comment, -, -⟩
  rcases newContent?_mixedFileTree arguments.paths with ⟨changes, failed, same⟩
  refine ⟨words, ?_, ?_⟩
  · rcases (strip_writes_new_contents slashesParser arguments mixedFileTree).2.2 _
      sources_mixedFileTree with ⟨report, written, strips, finishes, -, contents⟩
    rcases finishes _ words with ⟨result, executed, rfl⟩
    rcases contents apart_mixedFileTree with ⟨given, reported⟩
    rw [processed_false] at given reported
    have names := FileTree.namesFile_of_destination comment
      (show mixedFileTree.contentAt? [FileTree.loneName] = some (Text.encode ['/', '/']) by
        decide +kernel)
    have kept : ∀ location, location ≠ [FileTree.loneName] →
        result.files.contentAt? location = mixedFileTree.contentAt? location := by
      intro location different
      apply given.kept
      simp only [List.forall_mem_cons]
      refine ⟨fun other => absurd (other.location_eq names) different, fun _ _ => failed,
        fun _ _ => same, nofun⟩
    refine ⟨report, result, strips, executed, ?_, ?_⟩
    · rw [List.map_cons, List.map_cons, List.map_cons, List.map_nil,
        given.changed _ List.mem_cons_self [] changes rfl _ names,
        kept [mixedFileTree.textlessName] (by decide), kept [mixedFileTree.emptyName] (by decide)]
      decide +kernel
    · change newContent? slashesParser arguments.options mixedFileTree _ = _ at changes failed same
      rw [reported]
      simp only [List.filter_cons, changes, failed, same, Option.isSome_some, Option.isSome_none,
        List.filter_nil, if_true, Bool.false_eq_true, if_false]
      decide
  · rcases strip_writes_new_contents slashesParser
      { arguments with paths := [.ofString ".", .ofString "b.js"] } mixedFileTree with
      ⟨fails, finishes, -⟩
    rcases fails ⟨_, .tail _ (.head _), contains_mixedFileTree⟩ with ⟨reason, refused⟩
    exact ⟨_, (finishes reason refused).2 _ moreWords⟩

end StripCommand

end Uncomment

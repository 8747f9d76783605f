import Mathlib.Data.List.Nodup
import Uncomment.Command.Fixtures
import Uncomment.Proofs.Decoding
import Uncomment.Proofs.OpenDirectories
import Uncomment.Proofs.Presets
import Uncomment.Proofs.Rewriting

/-! # Written fixtures

What the fixtures command writes it finds again. The outputs of a directory have names of their own,
apart from one another and from those of the inputs, so writing an output changes neither an input
nor what was written before. -/

namespace Uncomment

/-! ## Names with dots -/

namespace Name

theorem splitAtLastDot?_eq_none_iff (text : Text) : splitAtLastDot? text = none ↔ '.' ∉ text := by
  induction text with
  | nil => simp [splitAtLastDot?]
  | cons character rest induction =>
      rw [splitAtLastDot?, List.mem_cons, not_or, ← induction]
      cases splitAtLastDot? rest with
      | some parts => simp
      | none => simp [eq_comm]

theorem splitAtLastDot?_eq_some_iff (text stem extension : Text) :
    splitAtLastDot? text = some (stem, extension) ↔
      text = stem ++ '.' :: extension ∧ '.' ∉ extension := by
  induction text generalizing stem with
  | nil => simp [splitAtLastDot?]
  | cons character rest induction =>
      rw [splitAtLastDot?]
      constructor
      · intro splits
        cases found : splitAtLastDot? rest with
        | some parts =>
            rcases parts with ⟨front, back⟩
            rw [found] at splits
            cases splits
            rcases (induction front).mp found with ⟨rfl, plain⟩
            exact ⟨rfl, plain⟩
        | none =>
            simp only [found] at splits
            by_cases isDot : character = '.'
            · rw [if_pos isDot] at splits
              cases splits
              exact ⟨by rw [isDot, List.nil_append], (splitAtLastDot?_eq_none_iff _).mp found⟩
            · rw [if_neg isDot] at splits
              cases splits
      · rintro ⟨shape, plain⟩
        cases stem with
        | nil =>
            cases shape
            simp [(splitAtLastDot?_eq_none_iff extension).mpr plain]
        | cons first front =>
            rw [List.cons_append, List.cons.injEq] at shape
            rcases shape with ⟨rfl, rfl⟩
            rw [(induction front).mpr ⟨rfl, plain⟩]

private theorem contains_append (part front back : Text) :
    contains part (front ++ part ++ back) = true := by
  induction front with
  | nil =>
      cases shape : part ++ back with
      | nil => simp_all [contains]
      | cons character rest =>
          rw [List.nil_append, shape, contains, ← shape]
          simp
  | cons character front induction =>
      rw [List.append_assoc] at induction
      simp [contains, induction]

theorem ofText?_eq_some_iff (text : Text) (name : Name) :
    ofText? text = some name ↔ text = name.text := by
  rw [ofText?]
  constructor
  · intro found
    split at found
    · cases found
      rfl
    · cases found
  · rintro rfl
    rw [dif_pos name.isName]

end Name

namespace FixturesCommand

/-! ## Outputs -/

def IsOutputOf (name output : Name) : Prop :=
  ∃ stem extension, '.' ∉ extension ∧ name.text = stem ++ '.' :: extension ∧
    output.text = stem ++ ".out.".toList ++ extension

def outputName? (name : Name) : Option Name :=
  (Name.splitAtLastDot? name.text).bind fun (stem, extension) =>
    Name.ofText? (stem ++ ".out.".toList ++ extension)

variable {parse : Parser} {directory : Path} {name first second output : Name}

theorem outputPath?_eq (directory : Path) (name : Name) :
    outputPath? directory name = (outputName? name).map directory.join := by
  rw [outputPath?, outputName?]
  cases Name.splitAtLastDot? name.text <;> rfl

theorem outputName?_eq_some_iff : outputName? name = some output ↔ IsOutputOf name output := by
  simp only [outputName?, Option.bind_eq_some_iff, Prod.exists, Name.splitAtLastDot?_eq_some_iff,
    Name.ofText?_eq_some_iff]
  constructor
  · intro named
    rcases named with ⟨stem, extension, ⟨shape, plain⟩, isOutput⟩
    exact ⟨stem, extension, plain, shape, isOutput.symm⟩
  · intro named
    rcases named with ⟨stem, extension, plain, shape, isOutput⟩
    exact ⟨stem, extension, ⟨shape, plain⟩, isOutput.symm⟩

theorem exists_outputName? (supported : name.isSupported = true) :
    ∃ output, outputName? name = some output := by
  rw [Name.isSupported, Option.any_eq_true] at supported
  rcases supported with ⟨extension, found, -⟩
  rw [Name.extension?] at found
  split at found
  next first stem back splits =>
    rcases (Name.splitAtLastDot?_eq_some_iff _ _ _).mp splits with ⟨shape, plain⟩
    have slashless := name.isName.2.1
    rw [shape] at slashless
    let text := first :: stem ++ ".out.".toList ++ back
    have long : 2 < text.length := by simp [text]; omega
    have isName : text ≠ [] ∧ '/' ∉ text ∧ text ≠ ['.'] ∧ text ≠ ['.', '.'] := by
      refine ⟨?_, by simp_all [text], ?_, ?_⟩ <;> intro equal <;> simp [equal] at long
    exact ⟨⟨text, isName⟩, outputName?_eq_some_iff.mpr ⟨_, _, plain, shape, rfl⟩⟩
  next => cases found

theorem isOutputName_of_outputName? (isOutput : outputName? name = some output) :
    isOutputName output = true := by
  rcases outputName?_eq_some_iff.mp isOutput with ⟨stem, extension, -, -, shape⟩
  rw [isOutputName, shape]
  exact Name.contains_append _ _ _

private theorem exists_split_of_outputName? (isOutput : outputName? name = some output) :
    ∃ stem extension, name.text = stem ++ '.' :: extension ∧
      Name.splitAtLastDot? output.text = some (stem ++ ".out".toList, extension) := by
  rcases outputName?_eq_some_iff.mp isOutput with ⟨stem, extension, plain, shape, isText⟩
  refine ⟨stem, extension, shape, ?_⟩
  rw [Name.splitAtLastDot?_eq_some_iff, isText]
  exact ⟨by simp, plain⟩

theorem outputName?_injective (isOutput : outputName? first = some output)
    (isOutputToo : outputName? second = some output) : first = second := by
  rcases exists_split_of_outputName? isOutput with ⟨stem, extension, isFirst, splits⟩
  rcases exists_split_of_outputName? isOutputToo with ⟨_, _, isSecond, splitsToo⟩
  rw [splits] at splitsToo
  simp only [Option.some.injEq, Prod.mk.injEq, List.append_cancel_right_eq] at splitsToo
  rcases splitsToo with ⟨rfl, rfl⟩
  rw [← Option.some_inj, ← (Name.ofText?_eq_some_iff _ first).mpr rfl,
    ← (Name.ofText?_eq_some_iff _ second).mpr rfl, isFirst, isSecond]

/-! ## Processing one fixture -/

def matchLine (name : Name) : String :=
  "  ✓ " ++ String.ofList name.text

def totalLine (count : Nat) : String :=
  "\n" ++ toString count ++ " fixture(s) processed."

def expected? (parse : Parser) (files : FileTree) (directory : Path) (name : Name) :
    Option (Name × Bytes) := do
  let output ← outputName? name
  let source ← (files.read? (directory.join name)).bind fun content =>
    (Text.decode content).toOption
  let stripped ← (strip parse source { filename := some (String.ofList name.text) }).toOption
  return (output, stripped.code.encode)

/-- The output of a fixture holds the text of the fixture without its comments. -/
def HoldsResult (parse : Parser) (files : FileTree) (directory : Path) (name : Name) : Prop :=
  ∃ output source stripped, IsOutputOf name output ∧
    files.read? (directory.join name) = some (Text.encode source) ∧
    strip parse source { filename := some (String.ofList name.text) } = .ok stripped ∧
    files.read? (directory.join output) = some stripped.code.encode

theorem expected?_eq_some_iff {files : FileTree} {result : Bytes} :
    expected? parse files directory name = some (output, result) ↔
      ∃ source stripped, IsOutputOf name output ∧
        files.read? (directory.join name) = some (Text.encode source) ∧
        strip parse source { filename := some (String.ofList name.text) } = .ok stripped ∧
        stripped.code.encode = result := by
  have toOption : ∀ {ε α : Type} (answer : Except ε α) (value : α),
      answer.toOption = some value ↔ answer = .ok value := by
    intro _ _ answer value
    cases answer <;> simp [Except.toOption]
  simp only [expected?, Option.bind_eq_bind, Option.bind_eq_some_iff, toOption,
    Text.decode_eq_ok_iff, outputName?_eq_some_iff]
  constructor
  · intro found
    rcases found with ⟨_, named, source, ⟨_, reads, rfl⟩, stripped, strips, same⟩
    cases same
    exact ⟨source, stripped, named, reads, strips, rfl⟩
  · intro found
    rcases found with ⟨source, stripped, named, reads, strips, rfl⟩
    exact ⟨output, named, source, ⟨_, reads, rfl⟩, stripped, strips, rfl⟩

theorem holdsResult_iff {files : FileTree} :
    HoldsResult parse files directory name ↔
      ∃ output result, expected? parse files directory name = some (output, result) ∧
        files.read? (directory.join output) = some result := by
  simp only [expected?_eq_some_iff]
  constructor
  · intro holds
    rcases holds with ⟨output, source, stripped, named, reads, strips, written⟩
    exact ⟨output, _, ⟨source, stripped, named, reads, strips, rfl⟩, written⟩
  · intro holds
    rcases holds with ⟨output, _, ⟨source, stripped, named, reads, strips, rfl⟩, written⟩
    exact ⟨output, source, stripped, named, reads, strips, written⟩

theorem expected?_of_read? {files now : FileTree}
    (reads : now.read? (directory.join name) = files.read? (directory.join name)) :
    expected? parse now directory name = expected? parse files directory name := by
  rw [expected?, expected?, reads]

theorem outputName?_of_expected? {files : FileTree} {result : Bytes}
    (found : expected? parse files directory name = some (output, result)) :
    outputName? name = some output := by
  simp only [expected?, Option.bind_eq_bind, Option.bind_eq_some_iff] at found
  rcases found with ⟨isOutput, found, source, -, stripped, -, same⟩
  cases same
  exact found

theorem exists_write_of_processFixture {state next : State}
    (processed : processFixture parse ⟨true, directory⟩ state name = some next) :
    ∃ output result written line,
      expected? parse state.files directory name = some (output, result) ∧
      state.files.write? (directory.join output) result = some written ∧
      next = ⟨state.printed ++ [line], state.mismatches, written⟩ := by
  simp only [processFixture, outputPath?_eq, Option.bind_eq_bind, Option.bind_eq_some_iff,
    Option.map_eq_some_iff, if_true] at processed
  rcases processed with
    ⟨_, ⟨output, named, rfl⟩, source, ⟨content, reads, decodes⟩, stripped, strips, written, writes,
      same⟩
  cases same
  refine ⟨output, stripped.code.encode, written, _, ?_, writes, rfl⟩
  simp [expected?, named, reads, decodes, strips]

theorem processFixture_of_strip {state : State} {source : Text} {stripped : Stripped}
    {written : FileTree} (named : outputName? name = some output)
    (reads : state.files.read? (directory.join name) = some (Text.encode source))
    (strips : strip parse source { filename := some (String.ofList name.text) } = .ok stripped)
    (writes : state.files.write? (directory.join output) stripped.code.encode = some written) :
    processFixture parse ⟨true, directory⟩ state name =
      some ⟨state.printed ++ ["  " ++ String.ofList name.text ++ ": " ++
        toString stripped.commentCount ++ " comment(s) -> " ++ (directory.join output).display],
        state.mismatches, written⟩ := by
  have decodes : Text.decode (Text.encode source) = .ok source :=
    (Text.decode_eq_ok_iff _ _).mpr rfl
  simp [processFixture, outputPath?_eq, named, reads, decodes, strips, writes, Except.toOption]

theorem processFixture_of_match {state : State} {result : Bytes}
    (found : expected? parse state.files directory name = some (output, result))
    (holds : state.files.read? (directory.join output) = some result) :
    processFixture parse ⟨false, directory⟩ state name =
      some { state with printed := state.printed ++ [matchLine name] } := by
  simp only [expected?, Option.bind_eq_bind, Option.bind_eq_some_iff] at found
  rcases found with ⟨_, named, source, ⟨content, reads, decodes⟩, stripped, strips, same⟩
  cases same
  simp [processFixture, outputPath?_eq, named, reads, decodes, strips, holds, matchLine]

/-! ## Writing -/

def results (parse : Parser) (files : FileTree) (directory : Path) (names : List Name) :
    List (Name × Bytes) :=
  names.filterMap (expected? parse files directory)

/-- From one state of a run to another, the outputs of fixtures were put into the directory and
nothing else has changed. -/
structure Writes (parse : Parser) (directory : Path) (location : Location) (content : Directory)
    (names : List Name) (state final : State) : Prop where
  expected : ∀ name ∈ names, ∃ output result,
    expected? parse state.files directory name = some (output, result) ∧
      (directory.join output).isTooLong = false
  opens : final.files.Opens directory location
    (content.insertAll (results parse state.files directory names))
  elsewhere : ∀ other,
    (∀ file ∈ results parse state.files directory names, other ≠ location ++ [file.1]) →
      final.files.surfaceAt? other = state.files.surfaceAt? other
  mismatches : final.mismatches = state.mismatches
  printed : ∃ lines, lines.length = names.length ∧ final.printed = state.printed ++ lines

variable {location : Location} {content : Directory} {names : List Name} {state final : State}

theorem isOutputName_of_mem_results {files : FileTree} {file : Name × Bytes}
    (member : file ∈ results parse files directory names) :
    ∃ name ∈ names, outputName? name = some file.1 ∧ isOutputName file.1 = true := by
  rcases List.mem_filterMap.mp member with ⟨name, isName, found⟩
  have named := outputName?_of_expected? found
  exact ⟨name, isName, named, isOutputName_of_outputName? named⟩

theorem nodup_results (files : FileTree) (distinct : names.Nodup) :
    ((results parse files directory names).map Prod.fst).Nodup := by
  rw [results, List.map_filterMap]
  refine distinct.filterMap fun first second output isFirst isSecond => ?_
  rcases Option.map_eq_some_iff.mp isFirst with ⟨⟨_, result⟩, found, rfl⟩
  rcases Option.map_eq_some_iff.mp isSecond with ⟨⟨_, other⟩, foundToo, rfl⟩
  exact outputName?_injective (outputName?_of_expected? found) (outputName?_of_expected? foundToo)

/-- An output that is put into the directory changes nothing for an input. -/
theorem expected?_of_insert {files next : FileTree} {result : Bytes}
    (opened : files.Opens directory location content) (linkFree : content.HoldsNoLink)
    (openedNext : next.Opens directory location (content.insert output (.file result)))
    (isOutput : isOutputName output = true) (isInput : isOutputName name = false) :
    expected? parse next directory name = expected? parse files directory name := by
  have apart : output ≠ name := by
    rintro rfl
    rw [isInput] at isOutput
    cases isOutput
  refine expected?_of_read? ?_
  rw [openedNext.read?_join (linkFree.insert output result), opened.read?_join linkFree,
    Directory.fileContent?_insert, if_neg apart]

private theorem exists_step_of_processFixtures {arguments : FixturesArguments} {name : Name}
    (processed : processFixtures parse arguments state (name :: names) = .ok final) :
    ∃ next, processFixture parse arguments state name = some next ∧
      processFixtures parse arguments next names = .ok final := by
  rw [processFixtures] at processed
  cases step : processFixture parse arguments state name with
  | none =>
      rw [step] at processed
      cases processed
  | some next =>
      rw [step] at processed
      exact ⟨next, rfl, processed⟩

theorem writes_of_processFixtures (opened : state.files.Opens directory location content)
    (linkFree : content.HoldsNoLink) (inputs : ∀ name ∈ names, isOutputName name = false)
    (processed : processFixtures parse ⟨true, directory⟩ state names = .ok final) :
    Writes parse directory location content names state final := by
  induction names generalizing state content with
  | nil =>
      cases processed
      exact ⟨by simp, opened, fun _ _ => rfl, rfl, [], rfl, (List.append_nil _).symm⟩
  | cons name later induction =>
      rcases exists_step_of_processFixtures processed with ⟨next, step, processed⟩
      rcases exists_write_of_processFixture step with
        ⟨output, result, written, line, found, writes, rfl⟩
      rcases opened.of_write?_join linkFree writes with ⟨short, free, rfl⟩
      have isOutput := isOutputName_of_outputName? (outputName?_of_expected? found)
      have openedNext := opened.putFile linkFree free result
      have rest := induction openedNext (linkFree.insert output result)
        (fun other member => inputs other (.tail _ member)) processed
      -- No later input has the name that was written, so all are still read as before.
      have same : ∀ other ∈ later,
          expected? parse (state.files.putFile (location ++ [output]) result) directory other =
            expected? parse state.files directory other := fun other member =>
        expected?_of_insert opened linkFree openedNext isOutput (inputs other (.tail _ member))
      have sameResults : results parse state.files directory (name :: later) = (output, result) ::
          results parse (state.files.putFile (location ++ [output]) result) directory later := by
        rw [results, results, List.filterMap_cons, found, List.filterMap_congr same]
      refine ⟨?_, ?_, ?_, rest.mismatches, ?_⟩
      · intro other member
        rcases List.mem_cons.mp member with rfl | member
        · exact ⟨output, result, found, short⟩
        · rw [← same other member]
          exact rest.expected other member
      · rw [sameResults]
        exact rest.opens
      · intro other apart
        rw [sameResults, List.forall_mem_cons] at apart
        rw [rest.elsewhere other apart.2,
          FileTree.surfaceAt?_putFile_last opened.isDirectory free, if_neg apart.1]
      · rcases rest.printed with ⟨lines, count, printed⟩
        exact ⟨line :: lines, congrArg (· + 1) count, by simp [printed]⟩

section Written

variable (writes : Writes parse directory location content names state final)
  (opened : state.files.Opens directory location content) (linkFree : content.HoldsNoLink)

include writes opened linkFree

theorem Writes.read?_of_input (isInput : isOutputName name = false) :
    final.files.read? (directory.join name) = state.files.read? (directory.join name) := by
  have apart : ∀ file ∈ results parse state.files directory names, file.1 ≠ name := by
    rintro file member rfl
    rcases isOutputName_of_mem_results member with ⟨-, -, -, isOutput⟩
    rw [isInput] at isOutput
    cases isOutput
  rw [writes.opens.read?_join (linkFree.insertAll _), opened.read?_join linkFree,
    Directory.fileContent?_insertAll_of_not_mem apart]

theorem Writes.inputs_eq :
    inputs final.files directory (content.insertAll (results parse state.files directory names)) =
      inputs state.files directory content := by
  have same : (fun name => final.files.isFile (directory.join name) && !isOutputName name &&
        name.isSupported) =
      fun name => state.files.isFile (directory.join name) && !isOutputName name &&
        name.isSupported := by
    funext name
    cases isInput : isOutputName name with
    | true => simp
    | false =>
        rw [FileTree.isFile, FileTree.isFile, writes.read?_of_input opened linkFree isInput]
  rw [inputs, inputs, same]
  refine Directory.names_insertAll_filter (fun file member => ?_) content
  rcases isOutputName_of_mem_results member with ⟨-, -, -, isOutput⟩
  simp [isOutput]

theorem Writes.exists_match (distinct : names.Nodup)
    (areInputs : ∀ name ∈ names, isOutputName name = false) (member : name ∈ names) :
    ∃ output result, expected? parse final.files directory name = some (output, result) ∧
      final.files.read? (directory.join output) = some result := by
  rcases writes.expected name member with ⟨output, result, found, short⟩
  have unread := writes.read?_of_input opened linkFree (areInputs name member)
  refine ⟨output, result, (expected?_of_read? unread).trans found, ?_⟩
  rw [writes.opens.read?_join (linkFree.insertAll _), if_neg (by simp [short])]
  exact Directory.fileContent?_insertAll_of_mem (nodup_results state.files distinct)
    (List.mem_filterMap.mpr ⟨name, member, found⟩) content

/-- An entry that no output path leads to is as it was. -/
theorem Writes.surfaceAt?_eq (distinct : names.Nodup)
    (areInputs : ∀ name ∈ names, isOutputName name = false) {other : Location}
    (apart : ∀ name ∈ names, ∀ output, outputPath? directory name = some output →
      final.files.destination output ≠ .found other) :
    final.files.surfaceAt? other = state.files.surfaceAt? other := by
  refine writes.elsewhere other fun file member => ?_
  rintro rfl
  rcases isOutputName_of_mem_results member with ⟨name, isName, named, -⟩
  rcases writes.exists_match opened linkFree distinct areInputs isName with
    ⟨output, result, found, reads⟩
  cases (outputName?_of_expected? found).symm.trans named
  exact apart name isName (directory.join file.1) (by rw [outputPath?_eq, named]; rfl)
    (writes.opens.destination_of_read?_join (linkFree.insertAll _) reads)

end Written

/-! ## Comparing -/

theorem processFixtures_of_match {files : FileTree}
    (holds : ∀ name ∈ names, ∃ output result,
      expected? parse files directory name = some (output, result) ∧
        files.read? (directory.join output) = some result) (printed mismatches : List String) :
    processFixtures parse ⟨false, directory⟩ ⟨printed, mismatches, files⟩ names =
      .ok ⟨printed ++ names.map matchLine, mismatches, files⟩ := by
  induction names generalizing printed with
  | nil => rw [processFixtures, List.map_nil, List.append_nil]
  | cons name later induction =>
      rcases holds name List.mem_cons_self with ⟨output, result, found, reads⟩
      rw [processFixtures, processFixture_of_match found reads]
      dsimp only
      rw [induction (fun other member => holds other (.tail _ member)), List.map_cons,
        List.append_assoc]
      rfl

/-- A fixture that is compared leaves the files as they are. It matches its output, or a mismatch is
noted. -/
theorem processFixture_compares {state next : State}
    (processed : processFixture parse ⟨false, directory⟩ state name = some next) :
    next.files = state.files ∧
      (HoldsResult parse state.files directory name ∧ next.mismatches = state.mismatches ∨
        next.mismatches ≠ []) := by
  simp only [processFixture, outputPath?_eq, Option.bind_eq_bind, Option.bind_eq_some_iff,
    Option.map_eq_some_iff, Bool.false_eq_true, if_false] at processed
  rcases processed with
    ⟨_, ⟨output, named, rfl⟩, source, ⟨content, reads, decodes⟩, stripped, strips, compared⟩
  have found :
      expected? parse state.files directory name = some (output, stripped.code.encode) := by
    simp [expected?, named, reads, decodes, strips]
  cases written : state.files.read? (directory.join output) with
  | none =>
      simp only [written] at compared
      cases compared
      exact ⟨rfl, .inr (by simp)⟩
  | some expected =>
      simp only [written] at compared
      by_cases same : expected = stripped.code.encode
      · rw [if_pos same] at compared
        cases compared
        subst same
        exact ⟨rfl, .inl ⟨holdsResult_iff.mpr ⟨output, _, found, written⟩, rfl⟩⟩
      · rw [if_neg same] at compared
        cases compared
        exact ⟨rfl, .inr (by simp)⟩

theorem mismatches_of_processFixtures {final : State} (noted : state.mismatches ≠ [])
    (processed : processFixtures parse ⟨false, directory⟩ state names = .ok final) :
    final.mismatches ≠ [] := by
  induction names generalizing state with
  | nil =>
      cases processed
      exact noted
  | cons name later induction =>
      rcases exists_step_of_processFixtures processed with ⟨next, step, processed⟩
      refine induction ?_ processed
      rcases (processFixture_compares step).2 with ⟨-, same⟩ | notedNow
      · rw [same]
        exact noted
      · exact notedNow

theorem holdsResult_of_processFixtures {final : State}
    (processed : processFixtures parse ⟨false, directory⟩ state names = .ok final)
    (matching : final.mismatches = []) :
    ∀ name ∈ names, HoldsResult parse state.files directory name := by
  induction names generalizing state with
  | nil => exact fun _ member => nomatch member
  | cons name later induction =>
      rcases exists_step_of_processFixtures processed with ⟨next, step, processed⟩
      rcases processFixture_compares step with ⟨sameFiles, holds | noted⟩
      · rw [List.forall_mem_cons, ← sameFiles]
        exact ⟨sameFiles ▸ holds.1, induction processed⟩
      · exact absurd matching (mismatches_of_processFixtures noted processed)

theorem files_of_processFixtures (state : State) (names : List Name) :
    match processFixtures parse ⟨false, directory⟩ state names with
    | .ok final => final.files = state.files
    | .error aborted => aborted.state.files = state.files := by
  induction names generalizing state with
  | nil => rfl
  | cons name later induction =>
      rw [processFixtures]
      cases step : processFixture parse ⟨false, directory⟩ state name with
      | none => rfl
      | some next =>
          rw [← (processFixture_compares step).1]
          exact induction next

/-! ## Runs -/

theorem mem_inputs {files : FileTree} (member : name ∈ inputs files directory content) :
    isOutputName name = false ∧ name.isSupported = true := by
  have holds := (List.mem_filter.mp member).2
  simp only [Bool.and_eq_true, Bool.not_eq_true'] at holds
  exact ⟨holds.1.2, holds.2⟩

theorem exists_outputPath? {files : FileTree} (member : name ∈ inputs files directory content) :
    ∃ output, outputPath? directory name = some output := by
  rcases exists_outputName? (mem_inputs member).2 with ⟨output, named⟩
  exact ⟨directory.join output, by rw [outputPath?_eq, named, Option.map_some]⟩

theorem components_outputPath?_ne {files : FileTree} {path : Path}
    (isOutput : outputPath? directory first = some path)
    (member : second ∈ inputs files directory content) :
    path.components ≠ (directory.join second).components := by
  rw [outputPath?_eq, Option.map_eq_some_iff] at isOutput
  rcases isOutput with ⟨output, named, rfl⟩
  intro same
  rw [Path.components_join, Path.components_join] at same
  cases List.append_cancel_left same
  have isInput := (mem_inputs member).1
  rw [isOutputName_of_outputName? named] at isInput
  cases isInput

theorem outputPath?_injective {path other : Path}
    (isOutput : outputPath? directory first = some path)
    (isOutputToo : outputPath? directory second = some other)
    (same : path.components = other.components) : first = second := by
  rw [outputPath?_eq, Option.map_eq_some_iff] at isOutput isOutputToo
  rcases isOutput with ⟨output, named, rfl⟩
  rcases isOutputToo with ⟨outputToo, namedToo, rfl⟩
  rw [Path.components_join, Path.components_join] at same
  cases List.append_cancel_left same
  exact outputName?_injective named namedToo

theorem exists_processFixtures_of_run {files : FileTree}
    (present : files.directory? directory = some content)
    (succeeds : (run parse ⟨true, directory⟩ files).exitCode = 0) :
    ∃ final, processFixtures parse ⟨true, directory⟩ ⟨[], [], files⟩
        (inputs files directory content) = .ok final ∧
      run parse ⟨true, directory⟩ files =
        finish (inputs files directory content).length final := by
  rw [run, present] at succeeds ⊢
  dsimp only at succeeds ⊢
  cases processed : processFixtures parse ⟨true, directory⟩ ⟨[], [], files⟩
      (inputs files directory content) with
  | ok final => exact ⟨final, rfl, rfl⟩
  | error aborted =>
      rw [processed] at succeeds
      cases succeeds

theorem run_of_match {files : FileTree} (present : files.directory? directory = some content)
    (holds : ∀ name ∈ inputs files directory content, ∃ output result,
      expected? parse files directory name = some (output, result) ∧
        files.read? (directory.join output) = some result) :
    run parse ⟨false, directory⟩ files =
      ⟨0, unlines ((inputs files directory content).map matchLine ++
        [totalLine (inputs files directory content).length]), "", files⟩ := by
  rw [run, present]
  dsimp only
  rw [processFixtures_of_match holds]
  rfl

theorem files_finish (count : Nat) (state : State) : (finish count state).files = state.files := by
  cases matching : state.mismatches.isEmpty <;> simp [finish, matching]

theorem exitCode_finish_iff (count : Nat) (state : State) :
    (finish count state).exitCode = 0 ↔ state.mismatches = [] := by
  rw [← List.isEmpty_iff]
  cases matching : state.mismatches.isEmpty <;> simp [finish, matching]

/-- A run that compares changes no file, and it succeeds when all outputs hold what they should. -/
theorem run_compares {files : FileTree} (present : files.directory? directory = some content) :
    (run parse ⟨false, directory⟩ files).files = files ∧
      ((run parse ⟨false, directory⟩ files).exitCode = 0 ↔
        ∀ name ∈ inputs files directory content, HoldsResult parse files directory name) := by
  have kept := @files_of_processFixtures parse directory ⟨[], [], files⟩
    (inputs files directory content)
  have matched : (∀ name ∈ inputs files directory content,
      HoldsResult parse files directory name) →
        (run parse ⟨false, directory⟩ files).exitCode = 0 := by
    intro holds
    rw [run_of_match present fun name member => holdsResult_iff.mp (holds name member)]
  cases processed : processFixtures parse ⟨false, directory⟩ ⟨[], [], files⟩
      (inputs files directory content) with
  | error aborted =>
      have ends : run parse ⟨false, directory⟩ files =
          ⟨1, unlines aborted.state.printed, "", aborted.state.files⟩ := by
        rw [run, present]
        simp only [processed]
      rw [processed] at kept
      rw [ends] at matched ⊢
      exact ⟨kept, nofun, matched⟩
  | ok final =>
      have ends : run parse ⟨false, directory⟩ files =
          finish (inputs files directory content).length final := by
        rw [run, present]
        simp only [processed]
      rw [processed] at kept
      rw [ends] at matched ⊢
      refine ⟨(files_finish _ final).trans kept, fun succeeds => ?_, matched⟩
      exact holdsResult_of_processFixtures processed ((exitCode_finish_iff _ _).mp succeeds)

/-- Every input of a directory has an output path, outputs of different inputs have different paths,
and none of them is the path of an input. When a run that writes the outputs of a directory without
links succeeds, no input and nothing but the outputs has changed, each output holds its input
without the comments, and a run that compares takes the same inputs, finds that all of them match
and succeeds. A run that compares changes nothing, and it succeeds in no other case than when each
output holds its input without the comments. -/
theorem written_fixtures_match (parse : Parser) (files : FileTree) (directory : Path)
    (content : Directory) :
    (∀ name ∈ inputs files directory content, ∃ output, outputPath? directory name = some output) ∧
    (∀ first ∈ inputs files directory content, ∀ second ∈ inputs files directory content,
      ∀ output, outputPath? directory first = some output →
        output.components ≠ (directory.join second).components ∧
        ∀ other, outputPath? directory second = some other → first ≠ second →
          output.components ≠ other.components) ∧
    (files.directory? directory = some content → content.HoldsNoLink →
      ∀ words later written, FixturesArguments.ofList words = .ok ⟨true, directory⟩ →
        FixturesArguments.ofList later = .ok ⟨false, directory⟩ →
        execute parse words files = .finished written → written.exitCode = 0 →
        (∀ name ∈ inputs files directory content,
          written.files.read? (directory.join name) = files.read? (directory.join name)) ∧
        (∀ location,
          (∀ name ∈ inputs files directory content, ∀ output,
            outputPath? directory name = some output →
              written.files.destination output ≠ .found location) →
          written.files.surfaceAt? location = files.surfaceAt? location) ∧
        (∀ name ∈ inputs files directory content,
          HoldsResult parse written.files directory name) ∧
        ∃ after lines total,
          total = totalLine (inputs files directory content).length ∧
          lines.length = (inputs files directory content).length ∧
          written = ⟨0, unlines (lines ++ [total]), "", written.files⟩ ∧
          written.files.directory? directory = some after ∧
          inputs written.files directory after = inputs files directory content ∧
          execute parse later written.files = .finished
            ⟨0, unlines ((inputs files directory content).map matchLine ++ [total]), "",
              written.files⟩) ∧
    (files.directory? directory = some content →
      ∀ later compared, FixturesArguments.ofList later = .ok ⟨false, directory⟩ →
        execute parse later files = .finished compared →
        compared.files = files ∧
        (compared.exitCode = 0 ↔
          ∀ name ∈ inputs files directory content, HoldsResult parse files directory name)) := by
  refine ⟨fun _ => exists_outputPath?, ?_, ?_, ?_⟩
  · intro first _ second isSecond output isOutput
    exact ⟨components_outputPath?_ne isOutput isSecond, fun other isOther different same =>
      different (outputPath?_injective isOutput isOther same)⟩
  · intro present linkFree words later written isWriting isComparing executed succeeds
    rw [execute, isWriting] at executed
    cases executed
    rcases exists_processFixtures_of_run present succeeds with ⟨final, processed, finishes⟩
    rcases FileTree.exists_opens present with ⟨location, opened⟩
    have areInputs : ∀ name ∈ inputs files directory content, isOutputName name = false :=
      fun name member => (mem_inputs member).1
    have distinct : (inputs files directory content).Nodup :=
      (Directory.nodup_names (FileTree.ordered_of_directory? present)).filter _
    have writes := writes_of_processFixtures opened linkFree areInputs processed
    rcases writes.printed with ⟨lines, count, printed⟩
    have ends : finish (inputs files directory content).length final =
        ⟨0, unlines (lines ++ [totalLine (inputs files directory content).length]), "",
          final.files⟩ := by
      rw [finish, writes.mismatches, printed]
      rfl
    have matching : ∀ name ∈ inputs files directory content, ∃ output result,
        expected? parse final.files directory name = some (output, result) ∧
          final.files.read? (directory.join output) = some result :=
      fun name member => writes.exists_match opened linkFree distinct areInputs member
    -- The second run has the inputs of the first, and each output holds what it expects.
    have again := run_of_match writes.opens.directory? (fun name member =>
      matching name (by rwa [writes.inputs_eq opened linkFree] at member))
    rw [writes.inputs_eq opened linkFree] at again
    rw [finishes, ends]
    refine ⟨fun name member => writes.read?_of_input opened linkFree (areInputs name member),
      fun other apart => writes.surfaceAt?_eq opened linkFree distinct areInputs apart,
      fun name member => holdsResult_iff.mpr (matching name member),
      _, lines, _, rfl, count, rfl, writes.opens.directory?, writes.inputs_eq opened linkFree, ?_⟩
    rw [execute, isComparing, ← again]
  · intro present later compared isComparing executed
    rw [execute, isComparing] at executed
    cases executed
    exact run_compares present

def fixtureFileTree : FileTree :=
  -- Only the first fixture has a comment, and the third file is of another kind.
  ((FileTree.empty.putFile [FileTree.loneName] (Text.encode ['/', '/'])).putFile [typedName]
    (Text.encode ['x'])).putFile [notesName] []
where
  typedName : Name := ⟨['b', '.', 't', 's'], by decide⟩
  notesName : Name := ⟨['n', '.', 'm', 'd'], by decide⟩

theorem opens_fixtureFileTree :
    fixtureFileTree.Opens (.ofString ".") [] fixtureFileTree.root where
  leads := by
    rw [FileTree.destination, if_neg (by decide)]
    exact FileTree.follow_replicate_current _ _ 1
  isDirectory := rfl

theorem holdsNoLink_fixtureFileTree : fixtureFileTree.root.HoldsNoLink := by
  have none : Directory.HoldsNoLink .empty := nofun
  exact ((none.insert FileTree.loneName (Text.encode ['/', '/'])).insert fixtureFileTree.typedName
    (Text.encode ['x'])).insert fixtureFileTree.notesName []

theorem inputs_fixtureFileTree :
    inputs fixtureFileTree (.ofString ".") fixtureFileTree.root =
      [FileTree.loneName, fixtureFileTree.typedName] := by
  have reads := opens_fixtureFileTree.read?_join holdsNoLink_fixtureFileTree
  simp only [inputs, FileTree.isFile, reads]
  decide +kernel

theorem written_fixtures_match_fixtureFileTree :
    ∃ written,
      execute slashesParser ["-w", "--dir", "."] fixtureFileTree = .finished written ∧
      written.exitCode = 0 ∧
      written.output = unlines ["  a.js: 1 comment(s) -> ./a.out.js",
        "  b.ts: 0 comment(s) -> ./b.out.ts", totalLine 2] ∧
      (∀ name ∈ [FileTree.loneName, fixtureFileTree.typedName],
        HoldsResult slashesParser written.files (.ofString ".") name) ∧
      execute slashesParser ["--dir", "."] written.files = .finished
        ⟨0, unlines [matchLine FileTree.loneName, matchLine fixtureFileTree.typedName, totalLine 2],
          "", written.files⟩ := by
  have isWriting : FixturesArguments.ofList ["-w", "--dir", "."] =
      .ok ⟨true, .ofString "."⟩ := by decide +kernel
  have isComparing : FixturesArguments.ofList ["--dir", "."] =
      .ok ⟨false, .ofString "."⟩ := by decide +kernel
  have opened := opens_fixtureFileTree
  have linkFree := holdsNoLink_fixtureFileTree
  have stripsComment : strip slashesParser ['/', '/']
      { filename := some (String.ofList FileTree.loneName.text) } = .ok ⟨[], 1, 2, [⟨0, 2⟩]⟩ :=
    @Preset.strip_of_typed .flow _ _ { filename := _ } _ (by decide) (strip_slashes rfl rfl rfl)
  have stripsPlain : strip slashesParser ['x']
      { filename := some (String.ofList fixtureFileTree.typedName.text) } = .ok ⟨['x'], 0, 0, []⟩ :=
    @Preset.strip_of_typed .flow _ _ { filename := _ } _ (by decide) (strip_plain rfl rfl rfl)
  let commentOutput : Name := ⟨"a.out.js".toList, by decide⟩
  let typedOutput : Name := ⟨"b.out.ts".toList, by decide⟩
  let once := fixtureFileTree.putFile [commentOutput] (Text.encode [])
  have free : fixtureFileTree.root.find? commentOutput = none := by decide +kernel
  have openedOnce : once.Opens (.ofString ".") []
      (fixtureFileTree.root.insert commentOutput (.file (Text.encode []))) :=
    opened.putFile linkFree (by rw [free]; nofun) _
  have linkFreeOnce := linkFree.insert commentOutput (Text.encode [])
  have first := @processFixture_of_strip slashesParser (.ofString ".") FileTree.loneName
    commentOutput ⟨[], [], fixtureFileTree⟩ ['/', '/'] _ once (by decide +kernel)
    (by rw [opened.read?_join linkFree]; decide +kernel) stripsComment
    (by rw [opened.write?_join linkFree]; rfl)
  have second := fun printed => @processFixture_of_strip slashesParser (.ofString ".")
    fixtureFileTree.typedName typedOutput ⟨printed, [], once⟩ ['x'] _
    (once.putFile [typedOutput] (Text.encode ['x'])) (by decide +kernel)
    (by rw [openedOnce.read?_join linkFreeOnce]; decide +kernel) stripsPlain
    (by rw [openedOnce.write?_join linkFreeOnce]; rfl)
  have present := opened.directory?
  have executed : execute slashesParser ["-w", "--dir", "."] fixtureFileTree = .finished
      ⟨0, unlines ["  a.js: 1 comment(s) -> ./a.out.js", "  b.ts: 0 comment(s) -> ./b.out.ts",
        totalLine 2], "", once.putFile [typedOutput] (Text.encode ['x'])⟩ := by
    simp only [execute, isWriting, run, present, inputs_fixtureFileTree, processFixtures, first,
      second]
    rfl
  rcases (written_fixtures_match slashesParser fixtureFileTree (.ofString ".")
    fixtureFileTree.root).2.2.1 present linkFree _ _ _ isWriting isComparing executed rfl with
    ⟨-, -, holds, after, lines, total, rfl, -, -, -, -, compared⟩
  rw [inputs_fixtureFileTree] at holds compared
  exact ⟨_, executed, rfl, rfl, holds, compared⟩

end FixturesCommand

end Uncomment

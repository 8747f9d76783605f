import Uncomment.Proofs.Checked.Erasure
import Uncomment.Proofs.Checked.Search
import Uncomment.Proofs.Stripping

/-! # Stripping takes no faulty step

For trees whose spans lie in the source, in whatever order and wherever they end, every step of a
search, of stripping and of describing the result is in its domain. -/

namespace Uncomment

/-! ## The algorithm -/

def Stripped.checkedOfComments (source : Text) (comments : List Comment) : Checked Stripped :=
  if comments.isEmpty then
    .ok { code := source, commentCount := 0, removedBytes := 0, removed := [] }
  else do
    let erasure ← source.checkedErase (Span.sort (comments.map (·.span)))
    .ok { code := erasure.remainder
          commentCount := comments.length
          removedBytes := erasure.removedBytes
          removed := erasure.removed }

def checkedStrip (parse : Parser) (source : Text) (options : StripOptions) :
    Checked (Except StripFailure Stripped) := do
  match ← Resolution.checkedFind parse source options.dialect options.parse with
  | .ok resolution =>
      let stripped ← Stripped.checkedOfComments source resolution.comments
      .ok (.ok stripped)
  | .error cause => .ok (.error (.unresolved options.sourceName options.failureChoice cause))

/-! ## Every step is in its domain -/

variable {parse : Parser} {source : Text} {options : StripOptions} {stripped : Stripped}

theorem Stripped.checkedOfComments_eq (source : Text) (comments : List Comment) :
    checkedOfComments source comments = .ok (ofComments source comments) := by
  rw [checkedOfComments, ofComments]
  split
  · rfl
  · rw [Text.checkedErase_eq, Checked.ok_bind]

theorem checkedStrip_eq (stays : parse.StaysIn source) (options : StripOptions) :
    checkedStrip parse source options = .ok (strip parse source options) := by
  rw [checkedStrip, Resolution.checkedFind_eq stays, Checked.ok_bind, strip]
  cases Resolution.find parse source options.dialect options.parse with
  | error cause => rfl
  | ok resolution =>
      dsimp only
      rw [Stripped.checkedOfComments_eq, Checked.ok_bind]

theorem valid_of_mem_stripped (succeeds : strip parse source options = .ok stripped) :
    ∀ span ∈ stripped.removed, span.isValidIn source = true := by
  rcases exists_find_of_strip succeeds with ⟨resolution, -, rfl⟩
  exact Text.valid_of_mem_removed source _

/-- No step of a search, of stripping, of mapping the result, of looking up lines or of measuring
the result in code units is a fault, and with all steps checked everything comes out as it does
unchecked. -/
theorem strip_without_fault (parse : Parser) (source : Text) (options : StripOptions)
    (stays : parse.StaysIn source) :
    Resolution.checkedFind parse source options.dialect options.parse =
        .ok (Resolution.find parse source options.dialect options.parse) ∧
      (∀ tree : Tree, tree.LiesIn source →
        tree.checkedComments source = .ok (tree.comments source)) ∧
      checkedStrip parse source options = .ok (strip parse source options) ∧
      (∀ stripped, strip parse source options = .ok stripped →
        SourceMap.checkedAnchors source stripped.code stripped.removed =
            .ok (SourceMap.anchors source stripped.code stripped.removed) ∧
          ScriptResult.checkedOfStripped source stripped = .ok (.ofStripped source stripped)) ∧
      ∀ (text : Text) (offset : Nat),
        text.checkedPositionAt offset = .ok (text.unitPositionAt offset) := by
  refine ⟨Resolution.checkedFind_eq stays _ _, fun tree inside => Tree.checkedComments_eq inside,
    checkedStrip_eq stays options, fun stripped succeeds => ?_, Text.checkedPositionAt_eq⟩
  have valid := valid_of_mem_stripped succeeds
  exact ⟨SourceMap.checkedAnchors_eq _ valid, ScriptResult.checkedOfStripped_eq valid⟩

def tangledTree : Tree :=
  -- The spans overlap, go back and split a character of two bytes.
  .node ⟨"program", true, false, false, false, ⟨1, 4⟩, []⟩ <| .ofList [
    .node ⟨"comment", true, false, false, false, ⟨1, 4⟩, []⟩ .nil,
    .node ⟨"comment", true, false, false, false, ⟨2, 5⟩, []⟩ .nil,
    .node ⟨"number", true, false, false, false, ⟨1, 3⟩, []⟩ <| .ofList [
      .node ⟨"comment", true, false, false, false, ⟨3, 5⟩, []⟩ .nil]]

theorem strip_without_fault_tangledTree :
    Parser.StaysIn (fun _ _ => some tangledTree) ['é', '/', '/', 'x'] ∧
      checkedStrip (fun _ _ => some tangledTree) ['é', '/', '/', 'x'] { dialect := some .empty } =
        .ok (.ok ⟨['é'], 3, 3, [⟨2, 5⟩]⟩) ∧
      SourceMap.checkedAnchors ['é', '/', '/', 'x'] ['é'] [⟨2, 5⟩] = .ok [⟨0, 0, 0, 0⟩] := by
  have stays : Parser.StaysIn (fun _ _ => some tangledTree) ['é', '/', '/', 'x'] := by
    intro grammar tree parsed
    cases parsed
    decide
  have fits : tangledTree.fit ['é', '/', '/', 'x'] .empty {} = .ok .script := by
    rw [Tree.fit_eq_ok_iff]
    decide
  have comments : tangledTree.comments ['é', '/', '/', 'x'] =
      [⟨.block, ⟨1, 4⟩⟩, ⟨.line, ⟨2, 5⟩⟩, ⟨.block, ⟨3, 5⟩⟩] := by
    rw [Tree.comments_eq]
    decide
  have sorted : Span.sort [⟨1, 4⟩, ⟨2, 5⟩, ⟨3, 5⟩] = [⟨1, 4⟩, ⟨2, 5⟩, ⟨3, 5⟩] :=
    List.mergeSort_of_pairwise (by decide)
  have removed : Span.select ['é', '/', '/', 'x'] [⟨1, 4⟩, ⟨2, 5⟩, ⟨3, 5⟩] = [⟨2, 5⟩] := by
    rw [Span.select_of_pairwise (by decide)]
    decide
  have strips : strip (fun _ _ => some tangledTree) ['é', '/', '/', 'x']
      { dialect := some .empty } = .ok ⟨['é'], 3, 3, [⟨2, 5⟩]⟩ := by
    rw [strip_of_fit rfl rfl fits, comments, Stripped.byErasure]
    simp only [List.map_cons, List.map_nil]
    rw [sorted, Text.erase, removed]
    rfl
  rcases strip_without_fault _ _ { dialect := some .empty } stays with
    ⟨-, -, checked, described, -⟩
  refine ⟨stays, ?_, ?_⟩
  · rw [checked, strips]
  · rw [(described _ strips).1]
    exact congrArg Except.ok (by decide +kernel)

end Uncomment

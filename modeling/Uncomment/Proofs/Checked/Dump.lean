import Uncomment.Command.Outcome
import Uncomment.Proofs.Checked.Basic
import Uncomment.Proofs.Conversions
import Uncomment.Proofs.DocumentOrder
import Uncomment.Tree.Dump

/-! # Dumps with checked steps

A dump walks over the tree with a number for its depth that must not go below zero, and cuts a text
off by stepping back from its width to a boundary. No such step fails, and each node gets one line,
which says how deep the node stands. -/

namespace Uncomment

/-! ## The algorithms -/

namespace Text

def checkedTruncate (text : Text) (width : Nat) : Checked Text :=
  if text.byteLength ≤ width then .ok text
  else do
    let stop ← text.checkedFloor width
    text.checkedSlice 0 stop

end Text

namespace Cursor

def checkedClimb (level : Nat) : Forest → List Frame → Checked (Option Cursor)
  | .cons next rest, above =>
      .ok (some { tree := next, later := rest, above := above, level := level })
  | .nil, [] => .ok none
  | .nil, frame :: above => do
      let level ← Checked.difference level 1
      checkedClimb level frame.later above

def checkedNext? (cursor : Cursor) : Checked (Option Cursor) :=
  match cursor.firstChild? with
  | some child => .ok (some child)
  | none => checkedClimb cursor.level.toNat cursor.later cursor.above

theorem eq_climb_of_checkedClimb {level : Nat} {later : Forest} {above : List Frame}
    {moved : Option Cursor} (climbs : checkedClimb level later above = .ok moved) :
    moved = climb level later above := by
  induction above generalizing level later with
  | nil => cases later <;> cases climbs <;> rfl
  | cons frame above induction =>
      cases later with
      | cons next rest =>
          cases climbs
          rfl
      | nil =>
          rw [checkedClimb, Checked.difference] at climbs
          by_cases positive : 1 ≤ level
          · rw [if_pos positive] at climbs
            have lowered : (level : Int) - 1 = (level - 1 : Nat) := by omega
            rw [climb, lowered]
            exact induction climbs
          · rw [if_neg positive] at climbs
            cases climbs

theorem ahead_checkedNext_lt {cursor next : Cursor}
    (moves : cursor.checkedNext? = .ok (some next)) :
    next.ahead < cursor.ahead := by
  rw [checkedNext?] at moves
  cases child : cursor.firstChild? with
  | some first =>
      rw [child] at moves
      cases moves
      exact Nat.lt_of_succ_le (Nat.le_of_eq (ahead_firstChild child))
  | none =>
      rw [child] at moves
      have equal := ahead_climb (eq_climb_of_checkedClimb moves).symm
      have size := size_eq cursor.tree
      rw [equal, ahead]
      omega

end Cursor

def Node.escapedText (source : Text) (node : Node) : Text :=
  match source.slice? node.span.start node.span.stop with
  | some text => Tree.escapeLineFeeds text
  | none => "<non-utf8>".toList

def Node.label (source : Text) (node : Node) : String :=
  let position := source.positionAt node.span.start
  node.kind ++ " [" ++ node.span.display ++ "] (" ++ toString (position.line + 1) ++ ":" ++
    toString position.column ++ ")"

namespace Tree

def lineOf (level : Nat) (label : String) (shown : Text) : Text :=
  List.replicate (2 * level) ' ' ++ label.toList ++ ' ' :: '"' :: shown ++ ['"']

def checkedDumpFrom (source : Text) (lines : List String) (cursor : Cursor) :
    Checked (List String) :=
  match (cursor.tree.root.escapedText source).checkedTruncate dumpWidth with
  | .error fault => .error fault
  | .ok shown =>
      let label := cursor.tree.root.label source
      let lines := lines ++ [String.ofList (lineOf cursor.level.toNat label shown)]
      match _moves : cursor.checkedNext? with
      | .error fault => .error fault
      | .ok none => .ok lines
      | .ok (some next) => checkedDumpFrom source lines next
termination_by cursor.ahead
decreasing_by exact Cursor.ahead_checkedNext_lt _moves

def checkedDump (source : Text) (tree : Tree) : Checked (List String) :=
  checkedDumpFrom source [] (.start tree)

end Tree

/-! ## Lines -/

namespace Text

theorem takeBytes_of_le {text : Text} {width : Nat} (fits : text.byteLength ≤ width) :
    text.takeBytes width = text := by
  have taken := takeBytes_append text [] (width - text.byteLength)
  rwa [List.append_nil, Nat.add_sub_cancel' fits, takeBytes, List.append_nil] at taken

theorem checkedTruncate_eq (text : Text) (width : Nat) :
    text.checkedTruncate width = .ok (text.takeBytes width) := by
  rw [checkedTruncate]
  by_cases fits : text.byteLength ≤ width
  · rw [if_pos fits, takeBytes_of_le fits]
  · rw [if_neg fits, checkedFloor_eq_ok, Checked.ok_bind,
      checkedSlice_of_boundaries (Nat.zero_le _) (isBoundary_zero text)
        (isBoundary_floorBoundary text width),
      slice, dropBytes_zero, takeBytes_floorBoundary]

end Text

private theorem toList_pushn (text : String) (character : Char) (count : Nat) :
    (text.pushn character count).toList = text.toList ++ List.replicate count character := by
  rw [String.pushn_eq_repeat_push]
  induction count with
  | zero => simp [Nat.repeat]
  | succ count induction =>
      rw [Nat.repeat, String.toList_push, induction, List.append_assoc, List.replicate_succ']

namespace Tree

theorem dumpText_eq (source : Text) (node : Node) :
    dumpText source node.span = (node.escapedText source).takeBytes dumpWidth := by
  rw [dumpText, Node.escapedText]
  cases source.slice? node.span.start node.span.stop with
  | some text => rfl
  | none => exact (Text.takeBytes_of_le (by decide)).symm

theorem dumpLine_eq (source : Text) (level : Int) (node : Node) :
    dumpLine source level node = String.ofList (lineOf level.toNat (node.label source)
      ((node.escapedText source).takeBytes dumpWidth)) := by
  rw [← String.toList_inj, String.toList_ofList, lineOf, dumpLine, Node.label, dumpText_eq]
  simp only [String.toList_append, toList_pushn, String.toList_ofList]
  simp

end Tree

/-! ## Walks -/

namespace Cursor

theorem checkedClimb_eq {level : Nat} {later : Forest} {above : List Frame}
    (counts : above.length ≤ level) :
    checkedClimb level later above = .ok (climb level later above) := by
  induction above generalizing level later with
  | nil => cases later <;> rfl
  | cons frame above induction =>
      rw [List.length_cons] at counts
      cases later with
      | cons next rest => rfl
      | nil =>
          have lowered : (level : Int) - 1 = (level - 1 : Nat) := by omega
          rw [checkedClimb, Checked.difference_of_le (by omega), Checked.ok_bind, climb, lowered,
            induction (by omega)]

/-- The next node is found without a fault when the level counts the ancestors. -/
theorem checkedNext?_eq {cursor : Cursor} (counts : cursor.level = cursor.above.length) :
    cursor.checkedNext? = .ok (cursor.next? fun _ => true) := by
  have natural : (cursor.level.toNat : Int) = cursor.level := by omega
  rw [checkedNext?, next?, if_pos rfl]
  cases cursor.firstChild? with
  | some child => rfl
  | none =>
      dsimp only
      rw [checkedClimb_eq (by omega), natural, Option.none_or, skip?]

end Cursor

namespace Tree

theorem checkedDumpFrom_eq (source : Text) (lines : List String) (cursor : Cursor)
    (counts : ∀ stop ∈ cursor.stopsFrom fun _ => true, stop.level = stop.above.length) :
    checkedDumpFrom source lines cursor =
      .ok (lines ++ (cursor.stopsFrom fun _ => true).map fun stop =>
        dumpLine source stop.level stop.tree.root) := by
  induction equal : cursor.ahead using Nat.strongRecOn generalizing lines cursor with
  | _ ahead induction =>
      rw [Cursor.stopsFrom_eq] at counts ⊢
      rcases List.forall_mem_cons.mp counts with ⟨countsHere, countsLater⟩
      have next := Cursor.checkedNext?_eq countsHere
      rw [checkedDumpFrom, Text.checkedTruncate_eq]
      dsimp only
      rw [← dumpLine_eq, List.map_cons]
      split
      next moves => cases moves.symm.trans next
      next moves =>
        rw [← Except.ok.inj (moves.symm.trans next)]
        rfl
      next following moves =>
        have moved := Except.ok.inj (moves.symm.trans next)
        rw [← moved] at countsLater ⊢
        dsimp only at countsLater ⊢
        rw [induction _ (equal ▸ Cursor.ahead_next_lt moved.symm) _ following countsLater rfl,
          List.append_assoc, List.singleton_append]

theorem level_of_mem_stops_start (tree : Tree) :
    ∀ stop ∈ tree.stops (fun _ => true) .nil [] 0, stop.level = stop.above.length :=
  Tree.level_of_mem_stops rfl tree

theorem map_site_stops_start (tree : Tree) :
    (tree.stops (fun _ => true) .nil [] 0).map Cursor.site = tree.sites :=
  Tree.map_site_stops .nil [] 0 tree

theorem dump_eq_map_stops (source : Text) (tree : Tree) :
    tree.dump source = (tree.stops (fun _ => true) .nil [] 0).map fun stop =>
      dumpLine source stop.level stop.tree.root := by
  have visits : ∀ stop ∈ tree.stops (fun _ => true) .nil [] 0,
      (.ok (some (dumpLine source stop.level stop.tree.root)) : Except Empty (Option String)) =
        .ok (some (dumpLine source stop.level stop.tree.root)) := fun _ _ => rfl
  have collected := foldlM_collect visits []
  rw [← Cursor.stopsFrom_start, ← Cursor.traverse_eq_foldlM, Cursor.stopsFrom_start,
    List.nil_append, List.filterMap_eq_map'] at collected
  simp only [Except.map, Option.toList_some] at collected
  rw [dump]
  simp only [collected]

theorem checkedDump_eq (source : Text) (tree : Tree) :
    tree.checkedDump source = .ok (tree.dump source) := by
  have counts := tree.level_of_mem_stops_start
  rw [← Cursor.stopsFrom_start] at counts
  rw [checkedDump, checkedDumpFrom_eq source [] _ counts, List.nil_append, Cursor.stopsFrom_start,
    dump_eq_map_stops]

theorem dump_eq (source : Text) (tree : Tree) :
    tree.dump source = tree.sites.map fun site => dumpLine source site.depth site.node := by
  rw [dump_eq_map_stops, ← tree.map_site_stops_start, List.map_map]
  apply List.map_congr_left
  intro stop member
  rw [tree.level_of_mem_stops_start stop member, Function.comp_apply, Site.depth, Cursor.site,
    List.length_map]
  rfl

end Tree

/-! ## Line feeds -/

private theorem not_mem_toString (number : Nat) : '\n' ∉ (toString number).toList := by
  intro member
  change '\n' ∈ number.repr.toList at member
  rw [Nat.toList_repr] at member
  have digit := Nat.isDigit_of_mem_toDigits (by decide) (by decide) member
  exact absurd digit (by decide)

namespace Node

private theorem not_mem_escapedText (source : Text) (node : Node) :
    '\n' ∉ node.escapedText source := by
  rw [escapedText]
  split
  · intro member
    rcases List.mem_flatMap.mp member with ⟨character, -, written⟩
    by_cases isFeed : character = '\n'
    · rw [if_pos isFeed] at written
      exact absurd written (by decide)
    · rw [if_neg isFeed] at written
      exact isFeed (List.mem_singleton.mp written).symm
  · decide

private theorem not_mem_label {node : Node} (plain : '\n' ∉ node.kind.toList) (source : Text) :
    '\n' ∉ (node.label source).toList := by
  simp only [label, Span.display, String.toList_append, List.mem_append, plain, not_mem_toString,
    or_false, false_or]
  decide

end Node

private theorem splitAt_unlines {lines : List String} (plain : ∀ line ∈ lines, '\n' ∉ line.toList) :
    Text.splitAt '\n' (unlines lines).toList = lines.map String.toList ++ [[]] := by
  induction lines with
  | nil => rfl
  | cons line later induction =>
      have first : (unlines (line :: later)).toList =
          line.toList ++ '\n' :: (unlines later).toList := by
        simp [unlines]
      rcases List.forall_mem_cons.mp plain with ⟨linePlain, laterPlain⟩
      rw [first, Text.splitAt_append, Text.splitAt_of_not_mem linePlain, induction laterPlain]
      rfl

/-! ## One line for each node -/

/-- A line shows the node at a site: behind two blanks for each ancestor and the label stands in
quotes the longest beginning of the node's text that has at most 80 bytes. -/
def Site.ShownBy (source : Text) (site : Site) (line : String) : Prop :=
  ∃ shown : Text,
    line.toList = List.replicate (2 * site.depth) ' ' ++ (site.node.label source).toList ++
      ' ' :: '"' :: shown ++ ['"'] ∧
    shown <+: site.node.escapedText source ∧
    (site.node.escapedText source).IsFloor 80 shown.byteLength

theorem Site.shownBy_dumpLine (source : Text) (site : Site) :
    site.ShownBy source (Tree.dumpLine source site.depth site.node) := by
  rcases Text.exists_takeBytes_append (site.node.escapedText source) 80 with ⟨after, split⟩
  refine ⟨(site.node.escapedText source).takeBytes 80, ?_, ⟨after, split.symm⟩,
    Text.isFloor_floorBoundary _ 80⟩
  rw [Tree.dumpLine_eq, String.toList_ofList]
  rfl

namespace Tree

theorem not_mem_dumpLine {node : Node} (plain : '\n' ∉ node.kind.toList) (source : Text)
    (level : Int) : '\n' ∉ (dumpLine source level node).toList := by
  have cut : '\n' ∉ (node.escapedText source).takeBytes dumpWidth := by
    rcases Text.exists_takeBytes_append (node.escapedText source) dumpWidth with ⟨after, split⟩
    intro member
    have whole := List.mem_append_left after member
    rw [← split] at whole
    exact Node.not_mem_escapedText source node whole
  rw [dumpLine_eq, String.toList_ofList, lineOf]
  simp [Node.not_mem_label plain, cut]

/-- Whatever a visit does, a traversal visits the nodes of a tree in document order, each once, and
ends behind the last one or at the first at which the visit ends it. On each node its level is the
depth of the node. A dump prints one line for each node in this order, and its depth never goes
below zero. -/
theorem visits_and_lines_in_document_order (tree : Tree) :
    (∃ stops : List Cursor, tree.InDocumentOrder (stops.map Cursor.site) ∧
      stops.map Cursor.site = tree.sites ∧ stops.length = tree.size ∧
      (∀ stop ∈ stops, stop.level = stop.site.depth) ∧
      ∀ (State Stopped : Type) (visit : State → Cursor → Except Stopped State) (state : State),
        Cursor.VisitsInOrder visit state stops
          (Cursor.traverse (fun _ => true) visit state (.start tree))
          (Cursor.traverse (fun _ => true) (Cursor.recording visit) (state, []) (.start tree))) ∧
      ∀ source : Text,
        List.Forall₂ (Site.ShownBy source) tree.sites (tree.dump source) ∧
        tree.checkedDump source = .ok (tree.dump source) ∧
        ((∀ site ∈ tree.sites, '\n' ∉ site.kind.toList) →
          Text.splitAt '\n' (unlines (tree.dump source)).toList =
            (tree.dump source).map String.toList ++ [[]]) := by
  have sites := tree.map_site_stops_start
  refine ⟨⟨tree.stops (fun _ => true) .nil [] 0, ?_, sites, ?_, ?_, ?_⟩, fun source =>
    ⟨?_, tree.checkedDump_eq source, fun plain => ?_⟩⟩
  · rw [sites]
    exact tree.inDocumentOrder_sites
  · rw [← List.length_map Cursor.site, sites]
    exact Tree.length_sitesBelow [] tree
  · intro stop member
    rw [tree.level_of_mem_stops_start stop member, Cursor.site, Site.depth, List.length_map]
  · intro State Stopped visit state
    exact Cursor.visitsInOrder_traverse visit state tree
  · rw [dump_eq, List.forall₂_map_right_iff, List.forall₂_same]
    exact fun site _ => site.shownBy_dumpLine source
  · apply splitAt_unlines
    rw [dump_eq]
    intro line member
    rcases List.mem_map.mp member with ⟨site, siteMember, rfl⟩
    exact not_mem_dumpLine (plain site siteMember) source site.depth

def branchingTree : Tree :=
  -- Behind the deepest node a traversal climbs two levels at once.
  .node ⟨"program", true, false, false, false, ⟨0, 4⟩, []⟩ <| .ofList [
    .node ⟨"statement", true, false, false, false, ⟨0, 1⟩, []⟩ <| .ofList [
      .node ⟨"name", true, false, false, false, ⟨0, 1⟩, []⟩ .nil],
    .node ⟨"comment", true, false, false, false, ⟨2, 4⟩, []⟩ .nil]

theorem visits_and_lines_branchingTree :
    (∀ site ∈ branchingTree.sites, '\n' ∉ site.kind.toList) ∧
      Text.splitAt '\n' (unlines (branchingTree.dump ['x', '\n', 'é'])).toList =
        ["program [0..4] (1:0) \"x\\né\"", "  statement [0..1] (1:0) \"x\"",
          "    name [0..1] (1:0) \"x\"", "  comment [2..4] (2:0) \"é\""].map String.toList ++
          [[]] := by
  have plain : ∀ site ∈ branchingTree.sites, '\n' ∉ site.kind.toList := by decide
  have lines : branchingTree.dump ['x', '\n', 'é'] =
      ["program [0..4] (1:0) \"x\\né\"", "  statement [0..1] (1:0) \"x\"",
        "    name [0..1] (1:0) \"x\"", "  comment [2..4] (2:0) \"é\""] := by
    rw [dump_eq]
    decide +kernel
  rcases visits_and_lines_in_document_order branchingTree with ⟨-, dumped⟩
  have printed := (dumped ['x', '\n', 'é']).2.2 plain
  rw [lines] at printed ⊢
  exact ⟨plain, printed⟩

end Tree

end Uncomment

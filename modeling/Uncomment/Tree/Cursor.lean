import Uncomment.Tree.Basic

/-! # Cursors

A cursor stands on one node of a tree and moves to its first child, its next sibling or its parent.
`Cursor.traverse` visits nodes in document order with these moves alone, so no stack grows with the
depth of the tree. -/

namespace Uncomment

structure Frame where
  tree : Tree
  later : Forest
  deriving DecidableEq, Repr

/-- The node a cursor stands on, the siblings that follow it, and its ancestors, the nearest first.
The level counts the moves down less the moves up. -/
structure Cursor where
  tree : Tree
  later : Forest
  above : List Frame
  level : Int
  deriving DecidableEq, Repr

namespace Cursor

def start (tree : Tree) : Cursor :=
  { tree := tree, later := .nil, above := [], level := 0 }

def site (cursor : Cursor) : Site :=
  { tree := cursor.tree
    ancestors := cursor.above.map (·.tree) }

/-! ## Moves -/

def firstChild? (cursor : Cursor) : Option Cursor :=
  match cursor.tree.childForest with
  | .nil => none
  | .cons first rest =>
      some { tree := first
             later := rest
             above := ⟨cursor.tree, cursor.later⟩ :: cursor.above
             level := cursor.level + 1 }

def climb (level : Int) : Forest → List Frame → Option Cursor
  | .cons next rest, above =>
      some { tree := next, later := rest, above := above, level := level }
  | .nil, [] => none
  | .nil, frame :: above => climb (level - 1) frame.later above

def skip? (cursor : Cursor) : Option Cursor :=
  climb cursor.level cursor.later cursor.above

def next? (enters : Tree → Bool) (cursor : Cursor) : Option Cursor :=
  if enters cursor.tree then
    cursor.firstChild?.or cursor.skip?
  else
    cursor.skip?

/-! ## Progress -/

def pending : List Frame → Nat
  | [] => 0
  | frame :: above => frame.later.size + pending above

def ahead (cursor : Cursor) : Nat :=
  cursor.tree.size + cursor.later.size + pending cursor.above

theorem size_eq (tree : Tree) : tree.size = tree.childForest.size + 1 := by
  cases tree
  rfl

theorem ahead_firstChild {cursor next : Cursor} (moved : cursor.firstChild? = some next) :
    next.ahead + 1 = cursor.ahead := by
  have size := size_eq cursor.tree
  unfold firstChild? at moved
  cases children : cursor.tree.childForest with
  | nil =>
      rw [children] at moved
      cases moved
  | cons first rest =>
      rw [children] at moved size
      cases moved
      simp only [Forest.size] at size
      simp only [ahead, pending]
      omega

theorem ahead_climb {level : Int} {later : Forest} {above : List Frame} {next : Cursor}
    (moved : climb level later above = some next) :
    next.ahead = later.size + pending above := by
  induction above generalizing level later with
  | nil =>
      cases later with
      | nil => cases moved
      | cons first rest =>
          cases moved
          simp [ahead, Forest.size]
  | cons frame above induction =>
      cases later with
      | nil =>
          change climb (level - 1) frame.later above = some next at moved
          simp [induction moved, pending, Forest.size]
      | cons first rest =>
          cases moved
          simp [ahead, Forest.size]

theorem ahead_next_lt {enters : Tree → Bool} {cursor next : Cursor}
    (moved : cursor.next? enters = some next) : next.ahead < cursor.ahead := by
  have below : ∀ skipped, cursor.skip? = some skipped → skipped.ahead < cursor.ahead := by
    intro skipped climbed
    have equal := ahead_climb climbed
    have size := size_eq cursor.tree
    simp only [ahead] at equal ⊢
    omega
  unfold next? at moved
  split at moved
  · cases child : cursor.firstChild? with
    | none => exact below next (by simpa [child] using moved)
    | some first =>
        have equal := ahead_firstChild child
        have same : first = next := by simpa [child] using moved
        subst same
        omega
  · exact below next moved

/-! ## Traversals -/

/-- Visit the cursor's node and then the nodes that follow it in document order, without those below
a node that `enters` refuses. The traversal carries a state along; a visit answers with the next
state, or ends the traversal with an error. -/
def traverse (enters : Tree → Bool) (visit : State → Cursor → Except Stopped State) (state : State)
    (cursor : Cursor) : Except Stopped State :=
  match visit state cursor with
  | .error stopped => .error stopped
  | .ok state =>
      match _moved : cursor.next? enters with
      | none => .ok state
      | some next => traverse enters visit state next
termination_by cursor.ahead
decreasing_by exact ahead_next_lt _moved

end Cursor

end Uncomment

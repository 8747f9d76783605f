import Mathlib.Data.List.Forall2
import Uncomment.Proofs.Traversal

/-! # Document order

A node is found by its address: the numbers of the children to go down to from the root. Addresses
are ordered like words, and document order is the order of the addresses. A traversal asks its visit
about the nodes in this order, about each once, until the visit ends it. -/

namespace Uncomment

/-! ## Addresses -/

def Tree.siteBelow? (ancestors : List Tree) (tree : Tree) : List Nat → Option Site
  | [] => some ⟨tree, ancestors⟩
  | number :: address =>
      (tree.children[number]?).bind fun child => child.siteBelow? (tree :: ancestors) address

def Tree.siteAt? (tree : Tree) (address : List Nat) : Option Site :=
  tree.siteBelow? [] address

mutual
def Tree.addresses : Tree → List (List Nat)
  | .node _ children => [] :: children.addressesFrom 0

def Forest.addressesFrom (number : Nat) : Forest → List (List Nat)
  | .nil => []
  | .cons first rest => first.addresses.map (number :: ·) ++ rest.addressesFrom (number + 1)
end

/-- A node is `site.depth` steps below the root. -/
theorem Tree.depth_of_siteBelow? {ancestors : List Tree} {tree : Tree} {address : List Nat}
    {site : Site} (found : tree.siteBelow? ancestors address = some site) :
    site.depth = ancestors.length + address.length := by
  induction address generalizing tree ancestors with
  | nil =>
      cases found
      rfl
  | cons number address induction =>
      rcases Option.bind_eq_some_iff.mp found with ⟨child, -, found⟩
      rw [induction found, List.length_cons, List.length_cons]
      omega

mutual
theorem Tree.map_siteBelow?_addresses (ancestors : List Tree) : ∀ tree : Tree,
    tree.addresses.map (tree.siteBelow? ancestors) = (tree.sitesBelow ancestors).map some
  | .node root children => by
      have below := Forest.map_siteBelow?_addressesFrom ancestors (.node root children) [] children
        rfl
      rw [List.length_nil] at below
      rw [Tree.addresses, Tree.sitesBelow, List.map_cons, List.map_cons, below]
      rfl

theorem Forest.map_siteBelow?_addressesFrom (ancestors : List Tree) (parent : Tree)
    (before : List Tree) : ∀ forest : Forest, parent.children = before ++ forest.toList →
    (forest.addressesFrom before.length).map (parent.siteBelow? ancestors) =
      (forest.sitesBelow (parent :: ancestors)).map some
  | .nil, _ => rfl
  | .cons first rest, split => by
      have child : parent.children[before.length]? = some first := by
        rw [split, List.getElem?_append_right (Nat.le_refl _), Nat.sub_self]
        rfl
      have below : parent.siteBelow? ancestors ∘ (before.length :: ·) =
          first.siteBelow? (parent :: ancestors) := by
        funext address
        rw [Function.comp_apply, Tree.siteBelow?, child, Option.bind_some]
      have later := Forest.map_siteBelow?_addressesFrom ancestors parent (before ++ [first]) rest
        (by rw [split, List.append_assoc]; rfl)
      rw [List.length_append, List.length_singleton] at later
      rw [Forest.addressesFrom, Forest.sitesBelow, List.map_append, List.map_append, List.map_map,
        below, Tree.map_siteBelow?_addresses, later]
end

theorem Forest.mem_addressesFrom_iff {address : List Nat} : ∀ (forest : Forest) (number : Nat),
    address ∈ forest.addressesFrom number ↔
      ∃ index child below, forest.toList[index]? = some child ∧ below ∈ child.addresses ∧
        address = (number + index) :: below
  | .nil, number => by simp [Forest.addressesFrom, Forest.toList]
  | .cons first rest, number => by
      rw [Forest.addressesFrom, List.mem_append, List.mem_map,
        Forest.mem_addressesFrom_iff rest (number + 1), Forest.toList]
      constructor
      · intro listed
        rcases listed with ⟨below, member, rfl⟩ | ⟨index, child, below, found, member, rfl⟩
        · exact ⟨0, first, below, rfl, member, rfl⟩
        · exact ⟨index + 1, child, below, found, member, by rw [Nat.add_right_comm, Nat.add_assoc]⟩
      · intro leads
        rcases leads with ⟨index, child, below, found, member, rfl⟩
        cases index with
        | zero =>
            cases found
            exact .inl ⟨below, member, rfl⟩
        | succ index =>
            exact .inr ⟨index, child, below, found, member,
              by rw [Nat.add_right_comm, Nat.add_assoc]⟩

/-- The addresses of a tree are all that lead to a node. -/
theorem Tree.mem_addresses_iff {address : List Nat} (ancestors : List Tree) (tree : Tree) :
    address ∈ tree.addresses ↔ (tree.siteBelow? ancestors address).isSome = true := by
  induction address generalizing tree ancestors with
  | nil =>
      cases tree
      simp [Tree.addresses, Tree.siteBelow?]
  | cons number address induction =>
      rcases tree with ⟨root, children⟩
      rw [Tree.addresses, List.mem_cons, or_iff_right (List.cons_ne_nil _ _),
        Forest.mem_addressesFrom_iff, Tree.siteBelow?]
      simp only [Nat.zero_add, List.cons.injEq, Option.isSome_bind, Option.any_eq_true]
      constructor
      · intro listed
        rcases listed with ⟨index, child, below, found, member, rfl, rfl⟩
        exact ⟨child, found, (induction _ child).mp member⟩
      · intro some
        rcases some with ⟨child, found, leads⟩
        exact ⟨number, child, address, found, (induction _ child).mpr leads, rfl, rfl⟩

mutual
theorem Tree.pairwise_addresses : ∀ tree : Tree, tree.addresses.Pairwise (· < ·)
  | .node root children => by
      refine List.pairwise_cons.mpr ⟨?_, Forest.pairwise_addressesFrom 0 children⟩
      intro address member
      rcases (Forest.mem_addressesFrom_iff children 0).mp member with ⟨index, -, below, -, -, rfl⟩
      exact List.nil_lt_cons _ _

theorem Forest.pairwise_addressesFrom (number : Nat) :
    ∀ forest : Forest, (forest.addressesFrom number).Pairwise (· < ·)
  | .nil => .nil
  | .cons first rest => by
      refine List.pairwise_append.mpr ⟨?_, Forest.pairwise_addressesFrom (number + 1) rest, ?_⟩
      · refine List.pairwise_map.mpr ((Tree.pairwise_addresses first).imp ?_)
        intro earlier later before
        exact List.cons_lt_cons_iff.mpr (.inr ⟨rfl, before⟩)
      · intro inFirst firstMember inRest restMember
        rcases List.mem_map.mp firstMember with ⟨below, -, rfl⟩
        rcases (Forest.mem_addressesFrom_iff rest _).mp restMember with ⟨index, -, other, -, -, rfl⟩
        exact List.cons_lt_cons_iff.mpr (.inl (by omega))
end

mutual
theorem Tree.length_sitesBelow (ancestors : List Tree) :
    ∀ tree : Tree, (tree.sitesBelow ancestors).length = tree.size
  | .node root children => by
      rw [Tree.sitesBelow, List.length_cons, Forest.length_sitesBelow, Tree.size]

theorem Forest.length_sitesBelow (ancestors : List Tree) :
    ∀ forest : Forest, (forest.sitesBelow ancestors).length = forest.size
  | .nil => rfl
  | .cons first rest => by
      rw [Forest.sitesBelow, List.length_append, Tree.length_sitesBelow, Forest.length_sitesBelow,
        Forest.size]
end

/-- Sites list the nodes of a tree in document order, each once: their addresses ascend, and these
are all the addresses that lead to a node. -/
def Tree.InDocumentOrder (tree : Tree) (sites : List Site) : Prop :=
  ∃ addresses : List (List Nat), addresses.Pairwise (· < ·) ∧
    (∀ address, address ∈ addresses ↔ (tree.siteAt? address).isSome = true) ∧
    List.Forall₂ (fun address site =>
      tree.siteAt? address = some site ∧ site.depth = address.length) addresses sites

theorem Tree.inDocumentOrder_sites (tree : Tree) : tree.InDocumentOrder tree.sites := by
  have located := tree.map_siteBelow?_addresses []
  refine ⟨tree.addresses, tree.pairwise_addresses, fun _ => tree.mem_addresses_iff [], ?_⟩
  rw [← List.forall₂_eq_eq_eq, List.forall₂_map_left_iff, List.forall₂_map_right_iff] at located
  refine located.imp fun address site found => ⟨found, ?_⟩
  rw [Tree.depth_of_siteBelow? found, List.length_nil, Nat.zero_add]

/-! ## Visits -/

namespace Cursor

variable {State Stopped : Type}

def recording (visit : State → Cursor → Except Stopped State) (progress : State × List Cursor)
    (cursor : Cursor) : Except (Stopped × List Cursor) (State × List Cursor) :=
  match visit progress.1 cursor with
  | .ok state => .ok (state, progress.2 ++ [cursor])
  | .error stopped => .error (stopped, progress.2 ++ [cursor])

/-- How a run comes out that is to visit cursors in order, and how it does with a visit that keeps
them: it visits all of them, or those up to the first one at which the visit ends it. -/
def VisitsInOrder (visit : State → Cursor → Except Stopped State) (state : State)
    (cursors : List Cursor) (outcome : Except Stopped State)
    (recorded : Except (Stopped × List Cursor) (State × List Cursor)) : Prop :=
  match outcome with
  | .ok final => cursors.foldlM visit state = .ok final ∧ recorded = .ok (final, cursors)
  | .error stopped => ∃ before last after reached, cursors = before ++ last :: after ∧
      before.foldlM visit state = .ok reached ∧ visit reached last = .error stopped ∧
      recorded = .error (stopped, before ++ [last])

variable {visit : State → Cursor → Except Stopped State} {state next : State} {cursor : Cursor}

private theorem foldlM_cons_of_ok (passed : visit state cursor = .ok next) (later : List Cursor) :
    (cursor :: later).foldlM visit state = later.foldlM visit next := by
  rw [List.foldlM_cons, passed]
  rfl

private theorem recording_of_ok (passed : visit state cursor = .ok next) (seen : List Cursor) :
    recording visit (state, seen) cursor = .ok (next, seen ++ [cursor]) := by
  simp only [recording, passed]

private theorem foldlM_recording_of_ok {cursors : List Cursor} {final : State} (seen : List Cursor)
    (passed : cursors.foldlM visit state = .ok final) :
    cursors.foldlM (recording visit) (state, seen) = .ok (final, seen ++ cursors) := by
  induction cursors generalizing state seen with
  | nil =>
      cases passed
      rw [List.append_nil]
      rfl
  | cons cursor later induction =>
      cases visited : visit state cursor with
      | error stopped =>
          rw [List.foldlM_cons, visited] at passed
          cases passed
      | ok next =>
          rw [foldlM_cons_of_ok visited] at passed
          rw [List.foldlM_cons, recording_of_ok visited]
          exact (induction _ passed).trans (by rw [List.append_assoc, List.singleton_append])

private theorem foldlM_recording_of_error {cursors : List Cursor} {stopped : Stopped}
    (seen : List Cursor) (stops : cursors.foldlM visit state = .error stopped) :
    ∃ before last after reached, cursors = before ++ last :: after ∧
      before.foldlM visit state = .ok reached ∧ visit reached last = .error stopped ∧
      cursors.foldlM (recording visit) (state, seen) =
        .error (stopped, seen ++ (before ++ [last])) := by
  induction cursors generalizing state seen with
  | nil => cases stops
  | cons cursor later induction =>
      cases visited : visit state cursor with
      | error other =>
          have same : other = stopped := by
            rw [List.foldlM_cons, visited] at stops
            cases stops
            rfl
          subst same
          refine ⟨[], cursor, later, state, rfl, rfl, visited, ?_⟩
          rw [List.foldlM_cons]
          simp only [recording, visited]
          rfl
      | ok next =>
          rw [foldlM_cons_of_ok visited] at stops
          rcases induction (seen ++ [cursor]) stops with
            ⟨before, last, after, reached, rfl, passed, stopsAt, recorded⟩
          refine ⟨cursor :: before, last, after, reached, rfl, ?_, stopsAt, ?_⟩
          · rw [foldlM_cons_of_ok visited, passed]
          · rw [List.foldlM_cons, recording_of_ok visited]
            exact recorded.trans (by rw [List.append_assoc, List.singleton_append,
              List.cons_append])

end Cursor

mutual
/-- A level that counts the ancestors at one node of a traversal does so at every node. -/
theorem Tree.level_of_mem_stops {enters : Tree → Bool} {later : Forest} {above : List Frame}
    {level : Int} (counts : level = above.length) :
    ∀ tree : Tree, ∀ stop ∈ tree.stops enters later above level, stop.level = stop.above.length
  | .node root children, stop, member => by
      rw [Tree.stops, List.mem_cons] at member
      rcases member with rfl | member
      · exact counts
      · split at member
        · exact Forest.level_of_mem_stops (by rw [counts, List.length_cons]; rfl) children stop
            member
        · cases member

theorem Forest.level_of_mem_stops {enters : Tree → Bool} {above : List Frame} {level : Int}
    (counts : level = above.length) :
    ∀ forest : Forest, ∀ stop ∈ forest.stops enters above level, stop.level = stop.above.length
  | .nil, _, member => nomatch member
  | .cons first rest, stop, member => by
      rcases List.mem_append.mp member with member | member
      · exact Tree.level_of_mem_stops counts first stop member
      · exact Forest.level_of_mem_stops counts rest stop member
end

namespace Cursor

variable {State Stopped : Type}

/-- A traversal of a whole tree visits the stops of the tree in order. -/
theorem visitsInOrder_traverse (visit : State → Cursor → Except Stopped State) (state : State)
    (tree : Tree) :
    VisitsInOrder visit state (tree.stops (fun _ => true) .nil [] 0)
      (traverse (fun _ => true) visit state (start tree))
      (traverse (fun _ => true) (recording visit) (state, []) (start tree)) := by
  rw [traverse_eq_foldlM, traverse_eq_foldlM, stopsFrom_start]
  cases outcome : (tree.stops (fun _ => true) .nil [] 0).foldlM visit state with
  | ok final => exact ⟨outcome, foldlM_recording_of_ok [] outcome⟩
  | error stopped => exact foldlM_recording_of_error [] outcome

end Cursor

end Uncomment

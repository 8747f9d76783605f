import Uncomment.Resolution.Comment
import Uncomment.Resolution.Fit

/-! # Traversals visit nodes in document order

`Tree.stops` lists the cursors of a traversal by recursion on the tree. A traversal folds over this
list, so what it computes does not depend on the moves it makes. -/

namespace Uncomment

/-! ## Stops -/

mutual
def Tree.stops (enters : Tree → Bool) (later : Forest) (above : List Frame) (level : Int) :
    Tree → List Cursor
  | .node root children =>
      { tree := .node root children, later := later, above := above, level := level } ::
        if enters (.node root children) then
          children.stops enters (⟨.node root children, later⟩ :: above) (level + 1)
        else
          []

def Forest.stops (enters : Tree → Bool) (above : List Frame) (level : Int) :
    Forest → List Cursor
  | .nil => []
  | .cons first rest => first.stops enters rest above level ++ rest.stops enters above level
end

mutual
theorem Tree.map_site_stops (later : Forest) (above : List Frame) (level : Int) :
    ∀ tree : Tree, (tree.stops (fun _ => true) later above level).map Cursor.site =
      tree.sitesBelow (above.map (·.tree))
  | .node root children => by
      rw [Tree.stops, Tree.sitesBelow, if_pos rfl, List.map_cons, Forest.map_site_stops]
      rfl

theorem Forest.map_site_stops (above : List Frame) (level : Int) :
    ∀ forest : Forest, (forest.stops (fun _ => true) above level).map Cursor.site =
      forest.sitesBelow (above.map (·.tree))
  | .nil => rfl
  | .cons first rest => by
      rw [Forest.stops, Forest.sitesBelow, List.map_append, Tree.map_site_stops,
        Forest.map_site_stops]
end

namespace Cursor

variable {State Stopped : Type} {enters : Tree → Bool}

def stopsAfter (enters : Tree → Bool) (level : Int) (later : Forest) : List Frame → List Cursor
  | [] => later.stops enters [] level
  | frame :: above =>
      later.stops enters (frame :: above) level ++
        stopsAfter enters (level - 1) frame.later above

def stopsFrom (enters : Tree → Bool) (cursor : Cursor) : List Cursor :=
  cursor.tree.stops enters cursor.later cursor.above cursor.level ++
    stopsAfter enters cursor.level cursor.later cursor.above

private theorem stopsAfter_cons (level : Int) (next : Tree) (rest : Forest) (above : List Frame) :
    stopsAfter enters level (.cons next rest) above =
      next.stops enters rest above level ++ stopsAfter enters level rest above := by
  cases above with
  | nil => rfl
  | cons frame above => rw [stopsAfter, Forest.stops, List.append_assoc]; rfl

private theorem stopsAfter_eq_climb (level : Int) (later : Forest) (above : List Frame) :
    stopsAfter enters level later above =
      match climb level later above with
      | some next => next.stopsFrom enters
      | none => [] := by
  induction above generalizing level later with
  | nil =>
      cases later with
      | nil => rfl
      | cons next rest => exact stopsAfter_cons level next rest []
  | cons frame above induction =>
      cases later with
      | nil =>
          rw [stopsAfter, Forest.stops, List.nil_append, induction]
          rfl
      | cons next rest => exact stopsAfter_cons level next rest (frame :: above)

private theorem stops_childForest (cursor : Cursor) :
    cursor.tree.childForest.stops enters (⟨cursor.tree, cursor.later⟩ :: cursor.above)
        (cursor.level + 1) ++ stopsAfter enters cursor.level cursor.later cursor.above =
      match cursor.firstChild?.or cursor.skip? with
      | some next => next.stopsFrom enters
      | none => [] := by
  cases children : cursor.tree.childForest with
  | nil =>
      rw [firstChild?, children, Forest.stops, List.nil_append, stopsAfter_eq_climb]
      rfl
  | cons first rest =>
      rw [firstChild?, children, Forest.stops, List.append_assoc]
      change _ = stopsFrom enters _
      rw [stopsFrom, stopsAfter, Int.add_sub_cancel]

theorem stopsFrom_eq (cursor : Cursor) :
    cursor.stopsFrom enters = cursor ::
      match cursor.next? enters with
      | some next => next.stopsFrom enters
      | none => [] := by
  have below := @stops_childForest enters cursor
  rcases cursor with ⟨⟨root, children⟩, later, above, level⟩
  rw [stopsFrom, Tree.stops, next?, List.cons_append]
  congr 1
  by_cases entered : enters (.node root children)
  · rw [if_pos entered, if_pos entered]
    exact below
  · rw [if_neg entered, if_neg entered, List.nil_append, stopsAfter_eq_climb]
    rfl

theorem traverse_eq_foldlM (visit : State → Cursor → Except Stopped State) (state : State)
    (cursor : Cursor) :
    traverse enters visit state cursor = (cursor.stopsFrom enters).foldlM visit state := by
  induction equal : cursor.ahead using Nat.strongRecOn generalizing state cursor with
  | _ ahead induction =>
      rw [traverse, stopsFrom_eq, List.foldlM_cons]
      cases visit state cursor with
      | error stopped => rfl
      | ok state =>
          dsimp only [bind, Except.bind]
          split
          next moved =>
            rw [moved]
            rfl
          next following moved =>
            rw [moved]
            exact induction _ (equal ▸ ahead_next_lt moved) state following rfl

theorem stopsFrom_start (tree : Tree) :
    (start tree).stopsFrom enters = tree.stops enters .nil [] 0 := by
  rw [stopsFrom, start, stopsAfter, Forest.stops, List.append_nil]

/-- A traversal of a whole tree that looks at sites alone folds over the nodes in document order. -/
theorem traverse_start_eq_foldlM (visit : State → Site → Except Stopped State) (state : State)
    (tree : Tree) :
    traverse (fun _ => true) (fun state cursor => visit state cursor.site) state (start tree) =
      tree.sites.foldlM visit state := by
  have sites : (tree.stops (fun _ => true) .nil [] 0).map site = tree.sites :=
    Tree.map_site_stops .nil [] 0 tree
  rw [traverse_eq_foldlM, stopsFrom_start, ← sites, List.foldlM_map]

end Cursor

/-! ## Checks and collections -/

/-- A check of every item in order ends with the first refusal. -/
theorem foldlM_refuse {Item Refusal : Type} (refusal? : Item → Option Refusal)
    (items : List Item) :
    items.foldlM (fun _ item => (refusal? item).elim (.ok ()) .error) () =
      ((items.findSome? refusal?).elim (.ok ()) .error : Except Refusal Unit) := by
  induction items with
  | nil => rfl
  | cons item later induction =>
      rw [List.foldlM_cons, List.findSome?_cons]
      cases refusal? item with
      | some refusal => rfl
      | none => exact induction

theorem foldlM_collect {Item Value Stopped : Type} {visit : Item → Except Stopped (Option Value)}
    {value? : Item → Option Value} {items : List Item}
    (visits : ∀ item ∈ items, visit item = .ok (value? item)) (collected : List Value) :
    items.foldlM (fun collected item =>
        (visit item).map fun value? => collected ++ value?.toList) collected =
      .ok (collected ++ items.filterMap value?) := by
  induction items generalizing collected with
  | nil => rw [List.filterMap_nil, List.append_nil]; rfl
  | cons item later induction =>
      rw [List.foldlM_cons, visits item List.mem_cons_self]
      change List.foldlM _ (collected ++ (value? item).toList) later = _
      rw [induction fun other member => visits other (List.mem_cons_of_mem _ member),
        List.filterMap_cons, List.append_assoc]
      cases value? item <;> rfl

def Site.refusal? (source : Text) (setting : Setting) (site : Site) : Option Diagnostic :=
  (site.problem? source setting).map (.ofNode source site.node)

namespace Tree

theorem fitFeatures_eq (source : Text) (setting : Setting) (tree : Tree) :
    tree.fitFeatures source setting =
      (tree.sites.findSome? (Site.refusal? source setting)).elim (.ok ()) .error := by
  have checked := foldlM_refuse (Site.refusal? source setting) tree.sites
  rw [← Cursor.traverse_start_eq_foldlM] at checked
  refine Eq.trans ?_ checked
  unfold fitFeatures
  dsimp only
  congr 1
  funext state cursor
  rw [Site.refusal?]
  cases cursor.site.problem? source setting <;> rfl

theorem fitFeatures_eq_ok_iff (source : Text) (setting : Setting) (tree : Tree) :
    tree.fitFeatures source setting = .ok () ↔
      ∀ site ∈ tree.sites, site.problem? source setting = none := by
  have none_iff : tree.sites.findSome? (Site.refusal? source setting) = none ↔
      ∀ site ∈ tree.sites, site.problem? source setting = none := by
    simp only [List.findSome?_eq_none_iff, Site.refusal?, Option.map_eq_none_iff]
  rw [fitFeatures_eq, ← none_iff]
  cases tree.sites.findSome? (Site.refusal? source setting) <;> simp

theorem comments_eq (source : Text) (tree : Tree) :
    tree.comments source = tree.sites.filterMap (Site.comment? source) := by
  have visits : ∀ site ∈ tree.sites,
      (.ok (site.comment? source) : Except Empty (Option Comment)) = .ok (site.comment? source) :=
    fun _ _ => rfl
  have collected := foldlM_collect visits []
  rw [← Cursor.traverse_start_eq_foldlM, List.nil_append] at collected
  simp only [Except.map] at collected
  unfold comments
  simp only [collected]

end Tree

end Uncomment

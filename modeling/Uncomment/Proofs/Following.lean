import Uncomment.FileTree.Basic
import Uncomment.Proofs.Text

/-! # Where paths lead

In a tree without links the components of a path alone decide where it can lead, so paths with the
same components never name different files. The converse fails: a file has a path for every way of
spelling the directories around it. -/

namespace Uncomment

/-! ## Steps of joined paths -/

namespace Component

theorem ofPart_text (name : Name) : ofPart name.text = .entry name := by
  rw [ofPart, Name.ofText?, dif_pos name.isName]

private theorem ofPart_eq_current {part : Text} (plain : '/' ∉ part)
    (stays : ofPart part = .current) : part = [] ∨ part = ['.'] := by
  have notParent : part ≠ ['.', '.'] := by
    rintro rfl
    cases stays
  by_cases isName : part ≠ [] ∧ '/' ∉ part ∧ part ≠ ['.'] ∧ part ≠ ['.', '.']
  · rw [ofPart, Name.ofText?, dif_pos isName] at stays
    cases stays
  · exact Decidable.byContradiction fun other =>
      isName ⟨fun equal => other (.inl equal), plain, fun equal => other (.inr equal), notParent⟩

end Component

namespace Path

theorem steps_relative {character : Char} (different : character ≠ '/') (rest : Text) :
    steps ⟨character :: rest⟩ = (parts (character :: rest)).map .ofPart := by
  rw [steps]
  split
  next empty => cases empty
  next begins => exact absurd (List.cons.inj begins).1 different
  next => rfl

private theorem map_ofPart_name (name : Name) :
    (parts name.text).map Component.ofPart = [.entry name] := by
  rw [parts, Text.splitAt_of_not_mem name.isName.2.1, List.map_singleton, Component.ofPart_text]

/-- What follows a slash adds its own steps to those before it. -/
theorem exists_steps_slash (front : Text) :
    ∃ lead, lead ≠ [] ∧ (front ≠ [] → steps ⟨front⟩ = lead) ∧
      ∀ back, steps ⟨front ++ '/' :: back⟩ = lead ++ (parts back).map .ofPart := by
  cases front with
  | nil => exact ⟨[.root], List.cons_ne_nil _ _, fun some => absurd rfl some, fun _ => rfl⟩
  | cons character front =>
      by_cases slash : character = '/'
      · subst character
        refine ⟨_, List.cons_ne_nil _ _, fun _ => rfl, fun back => ?_⟩
        change Component.root :: (parts (front ++ '/' :: back)).map .ofPart = _
        rw [parts, Text.splitAt_append, List.map_append]
        rfl
      · refine ⟨_, ?_, fun _ => steps_relative slash front, fun back => ?_⟩
        · exact fun empty => Text.splitAt_ne_nil _ _ (List.map_eq_nil_iff.mp empty)
        · rw [List.cons_append, steps_relative slash, parts, ← List.cons_append,
            Text.splitAt_append, List.map_append]
          rfl

/-- A joined path has the steps of the path and the name behind them, where a slash at the end of
the path counts as no step. -/
theorem exists_steps_join (path : Path) (name : Name) :
    ∃ lead, (path.steps = lead ∨ lead ≠ [] ∧ path.steps = lead ++ [.current]) ∧
      (path.join name).steps = lead ++ [.entry name] := by
  rcases path with ⟨text⟩
  rw [join]
  split
  next none =>
    have empty : text = [] := List.getLast?_eq_none_iff.mp none
    subst text
    refine ⟨[], .inl rfl, ?_⟩
    rcases shape : name.text with _ | ⟨character, rest⟩
    · exact absurd shape name.isName.1
    · have different : character ≠ '/' := by
        rintro rfl
        exact name.isName.2.1 (shape ▸ List.mem_cons_self)
      rw [steps_relative different, ← shape]
      exact map_ofPart_name name
  next slash =>
    have ends : ∃ front, text = front ++ ['/'] := List.getLast?_eq_some_iff.mp slash
    rcases ends with ⟨front, rfl⟩
    rcases exists_steps_slash front with ⟨lead, some, _, behind⟩
    refine ⟨lead, .inr ⟨some, behind []⟩, ?_⟩
    rw [← map_ofPart_name name, ← behind, List.append_assoc]
    rfl
  next last _ final =>
    have some : text ≠ [] := by
      intro empty
      rw [empty] at final
      cases final
    rcases exists_steps_slash text with ⟨lead, _, whole, behind⟩
    exact ⟨lead, .inl (whole some), by rw [behind, map_ofPart_name]⟩

/-- The components are the steps without those that stay, except the first. -/
theorem components_eq (path : Path) :
    path.components = match path.steps with
      | [] => []
      | first :: rest => first :: rest.filter (· ≠ .current) := by
  rcases path with ⟨text⟩
  rw [components]
  split
  next rest shape =>
    change text = _ at shape
    subst shape
    have first : parts ('.' :: '/' :: rest) = ['.'] :: parts rest := rfl
    rw [steps_relative (by decide), first]
    rfl
  next shape =>
    change text = _ at shape
    subst shape
    decide
  next rest shape =>
    change text = _ at shape
    subst shape
    rfl
  next notDotSlash notDot notSlash =>
    cases text with
    | nil => rfl
    | cons character rest =>
        have different : character ≠ '/' := by
          rintro rfl
          exact notSlash rest rfl
        rw [steps_relative different]
        rw [components.moving]
        cases shape : parts (character :: rest) with
        | nil => rfl
        | cons first later =>
            have moves : Component.ofPart first ≠ .current := by
              intro stays
              rcases Text.splitAt_eq_cons shape with ⟨plain, reach⟩
              rcases Component.ofPart_eq_current plain stays with rfl | rfl
              · rcases reach with empty | ⟨beyond, begins⟩
                · cases empty
                · exact notSlash beyond begins
              · rcases reach with whole | ⟨beyond, begins⟩
                · exact notDot whole
                · exact notDotSlash beyond begins
            exact List.filter_cons_of_pos (by simpa using moves)

theorem components_join (path : Path) (name : Name) :
    (path.join name).components = path.components ++ [.entry name] := by
  rcases exists_steps_join path name with ⟨lead, whole | ⟨some, staying⟩, joined⟩
  · rw [components_eq, components_eq, whole, joined]
    cases lead <;> simp
  · rw [components_eq, components_eq, staying, joined]
    cases lead with
    | nil => exact absurd rfl some
    | cons first rest => simp

/-- A path goes on from another one by names alone. -/
def Continues (further path : Path) : Prop :=
  ∃ names : List Name, further.components = path.components ++ names.map .entry

theorem continues_refl (path : Path) : path.Continues path :=
  ⟨[], (List.append_nil _).symm⟩

theorem continues_trans {first second third : Path} (left : third.Continues second)
    (right : second.Continues first) : third.Continues first := by
  rcases left with ⟨further, leftEqual⟩
  rcases right with ⟨names, rightEqual⟩
  exact ⟨names ++ further, by rw [leftEqual, rightEqual, List.map_append, List.append_assoc]⟩

/-- Of two paths that go on to the same components one goes on from the other. -/
theorem continues_of_components_eq {first second ofFirst ofSecond : Path}
    (left : ofFirst.Continues first) (right : ofSecond.Continues second)
    (equal : ofFirst.components = ofSecond.components) :
    first.Continues second ∨ second.Continues first := by
  rcases left with ⟨names, leftEqual⟩
  rcases right with ⟨others, rightEqual⟩
  rw [leftEqual, rightEqual] at equal
  rcases List.append_eq_append_iff.mp equal with ⟨between, further, split⟩ |
    ⟨between, further, split⟩
  · rcases List.map_eq_append_iff.mp split with ⟨front, back, _, entries, _⟩
    exact .inr ⟨front, by rw [further, entries]⟩
  · rcases List.map_eq_append_iff.mp split with ⟨front, back, _, entries, _⟩
    exact .inl ⟨front, by rw [further, entries]⟩

theorem continues_of_join {further path : Path} {name : Name}
    (continues : further.Continues (path.join name)) : further.Continues path := by
  rcases continues with ⟨names, equal⟩
  exact ⟨name :: names, by rw [equal, components_join, List.append_assoc]; rfl⟩

end Path

/-! ## Destinations by components -/

def Location.after (here : Location) : List Component → Location
  | [] => here
  | .root :: rest => after [] rest
  | .current :: rest => here.after rest
  | .parent :: rest => after here.dropLast rest
  | .entry name :: rest => after (here ++ [name]) rest

namespace Location

private theorem after_filter (here : Location) (components : List Component) :
    here.after (components.filter (· ≠ .current)) = here.after components := by
  induction components generalizing here with
  | nil => rfl
  | cons component rest induction => cases component <;> exact induction _

theorem after_append (here : Location) (front back : List Component) :
    here.after (front ++ back) = (here.after front).after back := by
  induction front generalizing here with
  | nil => rfl
  | cons component rest induction => cases component <;> exact induction _

theorem after_names (here : Location) (names : List Name) :
    here.after (names.map .entry) = here ++ names := by
  induction names generalizing here with
  | nil => exact (List.append_nil here).symm
  | cons name names induction =>
      rw [List.map_cons, after, induction, List.append_assoc]
      rfl

end Location

def Path.endpoint (path : Path) : Location :=
  Location.after [] path.components

theorem Path.endpoint_eq_after_steps (path : Path) :
    path.endpoint = Location.after [] path.steps := by
  rw [endpoint, components_eq]
  cases path.steps with
  | nil => rfl
  | cons first rest => cases first <;> exact Location.after_filter _ rest

/-- Paths that go on from one path lead to the same location only with the same components. -/
theorem Path.components_eq_of_endpoint_eq {path first second : Path}
    (left : first.Continues path) (right : second.Continues path)
    (equal : first.endpoint = second.endpoint) : first.components = second.components := by
  rcases left with ⟨names, leftEqual⟩
  rcases right with ⟨others, rightEqual⟩
  have endpoints : path.endpoint ++ names = path.endpoint ++ others := by
    rw [endpoint, endpoint, leftEqual, rightEqual] at equal
    rwa [Location.after_append, Location.after_append, Location.after_names,
      Location.after_names] at equal
  rw [leftEqual, rightEqual, List.append_cancel_left endpoints]

theorem Directory.entryAt?_append_singleton (directory : Directory) (location : Location)
    (name : Name) :
    directory.entryAt? (location ++ [name]) =
      match directory.entryAt? location with
      | some (.directory content) => content.find? name
      | _ => none := by
  induction location generalizing directory with
  | nil => rfl
  | cons first rest induction =>
      have enter : ∀ rest, rest ≠ [] → directory.entryAt? (first :: rest) =
          (directory.subdirectory? first).bind (·.entryAt? rest) := by
        intro rest some
        cases rest with
        | nil => exact absurd rfl some
        | cons next rest => rfl
      rw [List.cons_append, enter _ (by simp), subdirectory?]
      cases rest with
      | nil =>
          change _ = match directory.find? first with
            | some (.directory content) => content.find? name
            | _ => none
          cases directory.find? first with
          | none => rfl
          | some entry => cases entry <;> rfl
      | cons next rest =>
          rw [enter _ (List.cons_ne_nil _ _), subdirectory?]
          split
          · exact induction _
          · rfl

namespace FileTree

def IsLinkFree (tree : FileTree) : Prop :=
  ∀ location target, tree.entryAt? location ≠ some (.link target)

theorem entryAt?_append_singleton {tree : FileTree} {location : Location} {directory : Directory}
    (holds : tree.directoryAt? location = some directory) (name : Name) :
    tree.entryAt? (location ++ [name]) = directory.find? name := by
  rw [directoryAt?_eq_some_iff, entryAt?] at holds
  rw [entryAt?, Directory.entryAt?_append_singleton, holds]

variable {tree : FileTree} {links : Nat} {here there : Location}

theorem follow_entry (linkFree : tree.IsLinkFree) (name : Name) (rest : List Component) :
    tree.follow links here (.entry name :: rest) = .found there ↔
      (∃ directory, tree.directoryAt? here = some directory ∧ (directory.find? name).isSome) ∧
        tree.follow links (here ++ [name]) rest = .found there := by
  rw [follow]
  cases holds : tree.directoryAt? here with
  | none => simp
  | some directory =>
      cases isFound : directory.find? name with
      | none =>
          simp only [isFound]
          split <;> simp [isFound]
      | some entry =>
          cases entry with
          | link target =>
              have isLink := entryAt?_append_singleton holds name
              rw [isFound] at isLink
              exact absurd isLink (linkFree _ target)
          | file content => simp [isFound]
          | directory content => simp [isFound]

/-- Following steps in two stretches. -/
theorem follow_append (linkFree : tree.IsLinkFree) (front back : List Component) :
    tree.follow links here (front ++ back) = .found there ↔
      ∃ middle, tree.follow links here front = .found middle ∧
        tree.follow links middle back = .found there := by
  induction front generalizing here with
  | nil => simp [follow]
  | cons step front induction =>
      cases step with
      | root => simp [follow]
      | current | parent =>
          rw [List.cons_append, follow, follow]
          split
          · exact induction
          · simp
      | entry name =>
          rw [List.cons_append, follow_entry linkFree, induction]
          simp only [follow_entry linkFree, and_assoc, exists_and_left]

theorem eq_after_of_follow (linkFree : tree.IsLinkFree) {steps : List Component}
    (leads : tree.follow links here steps = .found there) : there = here.after steps := by
  induction steps generalizing here with
  | nil =>
      rw [follow] at leads
      exact (Destination.found.inj leads).symm
  | cons step rest induction =>
      cases step with
      | root => rw [follow] at leads; cases leads
      | current | parent =>
          rw [follow] at leads
          split at leads
          · exact induction leads
          · cases leads
      | entry name => exact induction ((follow_entry linkFree name rest).mp leads).2

/-- Where a path leads in a tree without links is a matter of its components. -/
theorem eq_endpoint_of_follow (linkFree : tree.IsLinkFree) {path : Path}
    (leads : tree.follow links [] path.steps = .found here) : here = path.endpoint := by
  rw [Path.endpoint_eq_after_steps]
  exact eq_after_of_follow linkFree leads

theorem follow_join (linkFree : tree.IsLinkFree) {path : Path} {directory : Directory}
    {name : Name} (leads : tree.follow links [] path.steps = .found here)
    (holds : tree.directoryAt? here = some directory) (has : (directory.find? name).isSome) :
    tree.follow links [] (path.join name).steps = .found (here ++ [name]) := by
  rcases Path.exists_steps_join path name with ⟨lead, shape, joined⟩
  have reached : tree.follow links [] lead = .found here := by
    rcases shape with whole | ⟨_, staying⟩
    · exact whole ▸ leads
    · rw [staying] at leads
      rcases (follow_append linkFree _ _).mp leads with ⟨middle, front, back⟩
      rw [follow, follow] at back
      split at back
      · cases back
        exact front
      · cases back
  rw [joined, follow_append linkFree]
  refine ⟨here, reached, (follow_entry linkFree _ _).mpr ⟨⟨directory, holds, has⟩, ?_⟩⟩
  rw [follow]

end FileTree

end Uncomment

import Uncomment.Proofs.Construction
import Uncomment.Proofs.Inclusion

/-! # Names of plugins

A name selects the plugin that it was printed for, except that standard decorators after `export`
have the name of those before it. The names of a dialect therefore leave out one thing only: where
its decorators stand. -/

namespace Uncomment

namespace Plugin

/-! ## Plugins by name -/

def named : Plugin → Plugin
  | .decorators _ => .decorators true
  | other => other

theorem ofName_name (plugin : Plugin) : ofName plugin.name = .ok plugin.named := by
  cases plugin <;> rfl

@[simp] theorem isDecorators_named (plugin : Plugin) :
    plugin.named.isDecorators = plugin.isDecorators := by
  cases plugin <;> rfl

theorem named_of_not_isDecorators {plugin : Plugin} (plain : plugin.isDecorators = false) :
    plugin.named = plugin := by
  cases plugin with
  | decorators _ => cases plain
  | _ => rfl

theorem named_eq_self_iff (plugin : Plugin) :
    plugin.named = plugin ↔ plugin ≠ .decorators false := by
  cases plugin with
  | decorators beforeExport => cases beforeExport <;> simp [named]
  | _ => simp [named]

private theorem named_ne (plugin : Plugin) : plugin.named ≠ .decorators false := by
  cases plugin <;> simp [named]

/-- Plugins that exclude each other by name exclude each other. -/
theorem Compatible.named {first second : Plugin} (compatible : first.Compatible second) :
    first.named.Compatible second.named := by
  constructor
  · intro same
    have alike : first.isDecorators = second.isDecorators := by
      simpa using congrArg isDecorators same
    cases decorators : first.isDecorators with
    | true => exact compatible.2 ⟨decorators, alike ▸ decorators⟩
    | false =>
        apply compatible.1
        rwa [named_of_not_isDecorators decorators,
          named_of_not_isDecorators (alike ▸ decorators)] at same
  · simpa using compatible.2

def restore (decorators? : Option Plugin) (plugin : Plugin) : Plugin :=
  if plugin.isDecorators then decorators?.getD plugin else plugin

end Plugin

namespace Dialect

/-! ## Dialects by name -/

def names (dialect : Dialect) : List String :=
  dialect.plugins.map Plugin.name

def named (dialect : Dialect) : Dialect where
  plugins := dialect.plugins.map Plugin.named
  compatible := dialect.compatible.map Plugin.named fun _ _ => Plugin.Compatible.named

theorem ofNames_names (dialect : Dialect) : ofNames dialect.names = .ok dialect.named := by
  have read : ∀ plugins : List Plugin,
      (plugins.map Plugin.name).mapM Plugin.ofName = .ok (plugins.map Plugin.named) := by
    intro plugins
    induction plugins with
    | nil => rfl
    | cons plugin later induction =>
        rw [List.map_cons, List.mapM_cons, Plugin.ofName_name, induction]
        rfl
  rw [ofNames, names, read]
  exact congrArg Except.ok (ofList_plugins dialect.named)

theorem named_eq_self_iff (dialect : Dialect) :
    dialect.named = dialect ↔ dialect.decorators? ≠ some (.decorators false) := by
  have decorators : Plugin.isDecorators (.decorators false) = true := rfl
  rw [ne_eq, decorators?_eq_some_iff, and_iff_left decorators]
  constructor
  · intro same member
    rw [← same] at member
    rcases List.mem_map.mp member with ⟨plugin, -, isAfter⟩
    exact plugin.named_ne isAfter
  · intro absent
    apply eq_of_plugins
    apply (List.map_congr_left ?_).trans (List.map_id _)
    intro plugin member
    apply (Plugin.named_eq_self_iff plugin).mpr
    rintro rfl
    exact absent member

private theorem map_restore_named (dialect : Dialect) :
    dialect.named.plugins.map (Plugin.restore dialect.decorators?) = dialect.plugins := by
  rw [named, List.map_map]
  apply (List.map_congr_left ?_).trans (List.map_id _)
  intro plugin member
  rw [Function.comp_apply, Plugin.restore, Plugin.isDecorators_named, id_eq]
  cases decorators : plugin.isDecorators with
  | true =>
      have convention := (decorators?_eq_some_iff dialect plugin).mpr ⟨member, decorators⟩
      rw [convention]
      rfl
  | false => exact Plugin.named_of_not_isDecorators decorators

theorem eq_iff_names (first second : Dialect) :
    first = second ↔ first.names = second.names ∧ first.decorators? = second.decorators? := by
  constructor
  · intro same
    rw [same]
    exact ⟨rfl, rfl⟩
  · rintro ⟨sameNames, sameDecorators⟩
    have sameNamed : first.named = second.named := by
      apply Except.ok.inj
      rw [← ofNames_names, ← ofNames_names, sameNames]
    apply eq_of_plugins
    rw [← map_restore_named first, ← map_restore_named second, sameNamed, sameDecorators]

/-- The names of a dialect give it back unless its decorators stand after `export`, and then they
give the same dialect with those before it. Dialects of the same names differ in nothing but their
decorators. -/
theorem ofNames_names_iff (plugins : List Plugin) :
    let dialect := ofList plugins
    ofNames dialect.names = .ok dialect.named ∧
      (ofNames dialect.names = .ok dialect ↔ dialect.decorators? ≠ some (.decorators false)) ∧
      ∀ others, ofList others = dialect ↔
        (ofList others).names = dialect.names ∧
          (ofList others).decorators? = dialect.decorators? := by
  intro dialect
  refine ⟨ofNames_names dialect, ?_, fun others => eq_iff_names (ofList others) dialect⟩
  rw [ofNames_names, Except.ok.injEq]
  exact named_eq_self_iff dialect

/-- The two placements of standard decorators print alike, and one of them is not read back. -/
theorem ofNames_names_decoratorsAfterExport :
    (ofList [.decorators false]).names = (ofList [.decorators true]).names ∧
      ofList [.decorators false] ≠ ofList [.decorators true] ∧
      ofNames (ofList [.decorators false]).names ≠ .ok (ofList [.decorators false]) := by
  refine ⟨rfl, by decide, ?_⟩
  rw [ofNames_names, ne_eq, Except.ok.injEq]
  decide

end Dialect

end Uncomment

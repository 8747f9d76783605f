import Uncomment.Proofs.PluginNames
import Uncomment.Proofs.Walks

/-! # Dialects of lists

The dialect of a list of plugins keeps, in order, the first occurrence of every plugin, and of its
decorator conventions the first. What one insertion does to the plugins and to the convention
carries over to the whole list. A list of names stands for its plugins when all are known. -/

namespace Uncomment

/-! ## Known names -/

namespace Plugin

def IsName (name : String) : Prop :=
  name = "decorators-after-export" ∨ ∃ plugin : Plugin, plugin.name = name

private theorem exists_ofName_of_isName {name : String} (isName : IsName name) :
    ∃ plugin, ofName name = .ok plugin := by
  rcases isName with rfl | ⟨plugin, rfl⟩
  · exact ⟨.decorators false, rfl⟩
  · exact ⟨plugin.named, ofName_name plugin⟩

private theorem isName_of_ofName {name : String} {plugin : Plugin}
    (selects : ofName name = .ok plugin) : IsName name := by
  by_cases after : name = "decorators-after-export"
  · exact .inl after
  · refine .inr ⟨plugin, ?_⟩
    unfold ofName at selects
    split at selects <;> cases selects <;> first
      | rfl
      | exact absurd rfl after

theorem exists_ofName_iff (name : String) : (∃ plugin, ofName name = .ok plugin) ↔ IsName name :=
  ⟨fun ⟨_, selects⟩ => isName_of_ofName selects, exists_ofName_of_isName⟩

theorem eq_of_ofName_error {name : String} {unknown : UnknownPlugin}
    (fails : ofName name = .error unknown) : unknown = ⟨name⟩ := by
  unfold ofName at fails
  split at fails <;> cases fails
  rfl

theorem ofName_eq_error_iff (name : String) (unknown : UnknownPlugin) :
    ofName name = .error unknown ↔ ¬IsName name ∧ unknown = ⟨name⟩ := by
  rw [← exists_ofName_iff]
  constructor
  · intro fails
    refine ⟨?_, eq_of_ofName_error fails⟩
    rintro ⟨plugin, selects⟩
    rw [selects] at fails
    cases fails
  · rintro ⟨nameless, rfl⟩
    cases result : ofName name with
    | ok plugin => exact absurd ⟨plugin, result⟩ nameless
    | error unknown => rw [eq_of_ofName_error result]

end Plugin

namespace Dialect

/-! ## One insertion -/

private theorem insert_cases (dialect : Dialect) (plugin : Plugin) :
    (∃ present ∈ dialect, ¬present.Compatible plugin) ∧ dialect.insert plugin = dialect ∨
      (∀ present ∈ dialect, present.Compatible plugin) ∧
        (dialect.insert plugin).plugins = dialect.plugins ++ [plugin] := by
  by_cases fits : ∀ present ∈ dialect.plugins, present.Compatible plugin
  · exact .inr ⟨fits, plugins_insert fits⟩
  · refine .inl ⟨?_, by rw [insert, dif_neg fits]⟩
    simp only [not_forall, exists_prop] at fits
    exact fits

theorem insert_sublist (dialect : Dialect) (plugin : Plugin) :
    (dialect.insert plugin).plugins.Sublist (dialect.plugins ++ [plugin]) := by
  rcases insert_cases dialect plugin with ⟨-, same⟩ | ⟨-, added⟩
  · rw [same]
    exact List.sublist_append_left _ _
  · rw [added]

/-- Insertion adds every plugin that is no decorator convention. -/
theorem mem_insert_iff {plugin : Plugin} (plain : plugin.isDecorators = false) (dialect : Dialect)
    (added : Plugin) : plugin ∈ dialect.insert added ↔ plugin ∈ dialect ∨ plugin = added := by
  rcases insert_cases dialect added with ⟨⟨present, member, excludes⟩, same⟩ | ⟨-, whole⟩
  · rw [same]
    refine ⟨.inl, fun either => either.elim id ?_⟩
    rintro rfl
    have equal : present = plugin := by
      refine Decidable.byContradiction fun different => excludes ⟨different, fun both => ?_⟩
      exact absurd both.2 (by rw [plain]; exact Bool.false_ne_true)
    exact equal ▸ member
  · change plugin ∈ (dialect.insert added).plugins ↔ _
    rw [whole, List.mem_append, List.mem_singleton]
    rfl

/-- Insertion keeps the convention that a dialect has, and gives one to a dialect without. -/
theorem decorators?_insert (dialect : Dialect) (added : Plugin) :
    (dialect.insert added).decorators? =
      dialect.decorators?.or (if added.isDecorators then some added else none) := by
  rcases insert_cases dialect added with ⟨⟨present, member, excludes⟩, same⟩ | ⟨fits, whole⟩
  · rw [same]
    cases convention : added.isDecorators with
    | false => exact (Option.or_none).symm
    | true =>
        -- The plugin that excludes a convention is one itself.
        have isConvention : present.isDecorators = true := by
          by_cases equal : present = added
          · exact equal ▸ convention
          · exact Decidable.byContradiction fun plain => excludes ⟨equal, fun both => plain both.1⟩
        rw [(decorators?_eq_some_iff dialect present).mpr ⟨member, isConvention⟩]
        rfl
  · rw [decorators?, whole, List.find?_append, decorators?]
    cases convention : added.isDecorators <;> simp [convention]

/-! ## Lists of plugins -/

theorem foldl_insert_sublist (plugins : List Plugin) (dialect : Dialect) :
    (plugins.foldl insert dialect).plugins.Sublist (dialect.plugins ++ plugins) := by
  induction plugins generalizing dialect with
  | nil => exact List.sublist_append_left _ _
  | cons plugin later induction =>
      refine (induction (dialect.insert plugin)).trans ?_
      rw [← List.singleton_append, ← List.append_assoc]
      exact (insert_sublist dialect plugin).append_right later

theorem mem_foldl_insert_iff {plugin : Plugin} (plain : plugin.isDecorators = false)
    (plugins : List Plugin) (dialect : Dialect) :
    plugin ∈ plugins.foldl insert dialect ↔ plugin ∈ dialect ∨ plugin ∈ plugins := by
  induction plugins generalizing dialect with
  | nil => simp
  | cons first later induction =>
      rw [List.foldl_cons, induction, mem_insert_iff plain, List.mem_cons, or_assoc]

theorem decorators?_foldl_insert (plugins : List Plugin) (dialect : Dialect) :
    (plugins.foldl insert dialect).decorators? =
      dialect.decorators?.or (plugins.find? (·.isDecorators)) := by
  induction plugins generalizing dialect with
  | nil => exact (Option.or_none).symm
  | cons first later induction =>
      rw [List.foldl_cons, induction, decorators?_insert, Option.or_assoc, List.find?_cons]
      cases first.isDecorators <;> rfl

theorem ofList_sublist (plugins : List Plugin) : (ofList plugins).plugins.Sublist plugins :=
  foldl_insert_sublist plugins empty

theorem decorators?_ofList (plugins : List Plugin) :
    (ofList plugins).decorators? = plugins.find? (·.isDecorators) :=
  decorators?_foldl_insert plugins empty

theorem mem_ofList_iff (plugins : List Plugin) (plugin : Plugin) :
    plugin ∈ ofList plugins ↔
      plugin ∈ plugins ∧
        (plugin.isDecorators = false ∨ plugins.find? (·.isDecorators) = some plugin) := by
  cases convention : plugin.isDecorators with
  | false =>
      have nothing : plugin ∉ empty := List.not_mem_nil
      rw [ofList, mem_foldl_insert_iff convention]
      simp [nothing]
  | true =>
      rw [← decorators?_ofList, decorators?_eq_some_iff, and_iff_left convention]
      simp only [Bool.true_eq_false, false_or, iff_and_self]
      exact fun member => (ofList_sublist plugins).mem member

theorem ofList_append (first second : List Plugin) :
    ofList (first ++ second) = second.foldl insert (ofList first) := by
  rw [ofList, List.foldl_append, ofList]

theorem ofList_append_plugins (first second : List Plugin) :
    ofList ((ofList first).plugins ++ second) = ofList (first ++ second) := by
  rw [ofList_append, ofList_append, ofList_plugins]

/-! ## The rules of a dialect -/

theorem nodup_plugins (dialect : Dialect) : dialect.plugins.Nodup :=
  dialect.compatible.imp And.left

theorem countP_isDecorators_le (dialect : Dialect) :
    dialect.plugins.countP (·.isDecorators) ≤ 1 := by
  have apart := dialect.compatible.filter (·.isDecorators)
  have conventions : ∀ plugin ∈ dialect.plugins.filter (·.isDecorators),
      plugin.isDecorators = true := fun _ member => (List.mem_filter.mp member).2
  rw [List.countP_eq_length_filter]
  generalize dialect.plugins.filter (·.isDecorators) = found at apart conventions ⊢
  rcases found with _ | ⟨first, _ | ⟨second, later⟩⟩
  · exact Nat.zero_le 1
  · exact Nat.le_refl 1
  · have excluded := (List.pairwise_cons.mp apart).1 second List.mem_cons_self
    exact absurd ⟨conventions _ List.mem_cons_self,
      conventions _ (List.mem_cons_of_mem _ List.mem_cons_self)⟩ excluded.2

/-! ## Lists of names -/

theorem ofNames_eq_error_iff (names : List String) (unknown : UnknownPlugin) :
    ofNames names = .error unknown ↔
      ∃ before name after, names = before ++ name :: after ∧
        (∀ earlier ∈ before, Plugin.IsName earlier) ∧ ¬Plugin.IsName name ∧ unknown = ⟨name⟩ := by
  have refused : ofNames names = .error unknown ↔ names.mapM Plugin.ofName = .error unknown := by
    rw [ofNames]
    cases names.mapM Plugin.ofName <;> simp [Except.map]
  rw [refused, mapM_eq_error_iff]
  simp only [Plugin.exists_ofName_iff, Plugin.ofName_eq_error_iff]
  constructor
  · rintro ⟨before, name, after, split, unnamed, known⟩
    exact ⟨before, name, after, split, known, unnamed⟩
  · rintro ⟨before, name, after, split, known, unnamed⟩
    exact ⟨before, name, after, split, unnamed, known⟩

theorem ofNames_eq_ok_iff (names : List String) (dialect : Dialect) :
    ofNames names = .ok dialect ↔
      ∃ plugins, List.Forall₂ (fun name plugin => Plugin.ofName name = .ok plugin) names plugins ∧
        dialect = ofList plugins := by
  simp only [← mapM_eq_ok_iff]
  rw [ofNames]
  cases names.mapM Plugin.ofName <;> simp [Except.map, eq_comm]

theorem exists_ofNames_iff (names : List String) :
    (∃ dialect, ofNames names = .ok dialect) ↔ ∀ name ∈ names, Plugin.IsName name := by
  constructor
  · rintro ⟨dialect, succeeds⟩ name member
    rcases (ofNames_eq_ok_iff names dialect).mp succeeds with ⟨plugins, selected, -⟩
    exact (Plugin.exists_ofName_iff name).mp (exists_ok_of_mem selected member)
  · intro known
    cases result : ofNames names with
    | ok dialect => exact ⟨dialect, rfl⟩
    | error unknown =>
        rcases (ofNames_eq_error_iff names unknown).mp result with
          ⟨before, name, after, rfl, -, unnamed, -⟩
        exact absurd (known name (List.mem_append_right _ List.mem_cons_self)) unnamed

/-- The dialect of a list keeps its order, has no plugin twice and one decorator convention at most:
the first of the list. It has every plugin of the list that is no convention. A list can be built
piece by piece. Names are refused at the first one that is unknown. -/
theorem ofList_keeps_first (plugins : List Plugin) :
    (ofList plugins).plugins.Sublist plugins ∧
    (ofList plugins).plugins.Nodup ∧
    (ofList plugins).plugins.countP (·.isDecorators) ≤ 1 ∧
    (∀ plugin, plugin ∈ ofList plugins ↔ plugin ∈ plugins ∧
      (plugin.isDecorators = false ∨ plugins.find? (·.isDecorators) = some plugin)) ∧
    (ofList plugins).decorators? = plugins.find? (·.isDecorators) ∧
    ofList (ofList plugins).plugins = ofList plugins ∧
    (∀ later, ofList (plugins ++ later) = ofList ((ofList plugins).plugins ++ later)) ∧
    ∀ names,
      ((∃ dialect, ofNames names = .ok dialect) ↔ ∀ name ∈ names, Plugin.IsName name) ∧
      (∀ unknown, ofNames names = .error unknown ↔
        ∃ before name after, names = before ++ name :: after ∧
          (∀ earlier ∈ before, Plugin.IsName earlier) ∧ ¬Plugin.IsName name ∧
          unknown = ⟨name⟩) ∧
      ∀ dialect, ofNames names = .ok dialect ↔
        ∃ parsed, List.Forall₂ (fun name plugin => Plugin.ofName name = .ok plugin) names parsed ∧
          dialect = ofList parsed :=
  ⟨ofList_sublist plugins, nodup_plugins _, countP_isDecorators_le _, mem_ofList_iff plugins,
    decorators?_ofList plugins, ofList_plugins _,
    fun later => (ofList_append_plugins plugins later).symm,
    fun names => ⟨exists_ofNames_iff names, ofNames_eq_error_iff names, ofNames_eq_ok_iff names⟩⟩

end Dialect

end Uncomment

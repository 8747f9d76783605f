import Uncomment.Dialect.Basic

/-! # Building dialects

Plugins that are compatible with each other and with those of a dialect are all added to it, in
order. So every dialect is built from its own plugins. -/

namespace Uncomment

namespace Dialect

theorem eq_of_plugins {first second : Dialect} (same : first.plugins = second.plugins) :
    first = second := by
  cases first
  cases second
  cases same
  rfl

theorem plugins_insert {dialect : Dialect} {plugin : Plugin}
    (fits : ∀ present ∈ dialect.plugins, present.Compatible plugin) :
    (dialect.insert plugin).plugins = dialect.plugins ++ [plugin] := by
  rw [insert, dif_pos fits]

theorem plugins_foldl_insert {dialect : Dialect} {plugins : List Plugin}
    (compatible : (dialect.plugins ++ plugins).Pairwise Plugin.Compatible) :
    (plugins.foldl insert dialect).plugins = dialect.plugins ++ plugins := by
  induction plugins generalizing dialect with
  | nil => exact (List.append_nil _).symm
  | cons plugin later induction =>
      have fits : ∀ present ∈ dialect.plugins, present.Compatible plugin := fun present member =>
        (List.pairwise_append.mp compatible).2.2 present member plugin List.mem_cons_self
      have further : (dialect.insert plugin).plugins ++ later =
          dialect.plugins ++ plugin :: later := by
        rw [plugins_insert fits, List.append_assoc, List.singleton_append]
      rw [List.foldl_cons, induction (further ▸ compatible), further]

theorem ofList_plugins (dialect : Dialect) : ofList dialect.plugins = dialect := by
  apply eq_of_plugins
  exact @plugins_foldl_insert empty dialect.plugins dialect.compatible

end Dialect

end Uncomment

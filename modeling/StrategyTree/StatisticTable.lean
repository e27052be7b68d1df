import StrategyTree.Error
import StrategyTree.Keyed
import StrategyTree.Series

/-!
# Node statistics on the day axis

A `StatisticTable` holds, for each node that some node above it ranks, the statistic of its
simulated returns along the day axis, by the node's id.
-/

namespace StrategyTree

/-- The node statistics by id. -/
structure StatisticTable (α : Type) where
  series : SortedMap String (Series α)

namespace StatisticTable

variable {α : Type}

/-- The table without statistics. -/
def empty : StatisticTable α := ⟨SortedMap.empty⟩

/-- The statistic of a node on a day. -/
def value (t : StatisticTable α) (node : String) (index : Nat) : Except Error α :=
  match t.series.get? node with
  | none => .error (.unknownStatistic node)
  | some s =>
    if index < s.start then .error (.notYetAvailable ("pre-calc " ++ node) index s.start)
    else
      match s.valueAt index with
      | some x => .ok x
      | none => .error (.insufficientData s!"pre-calc {node} has no value at index {index}")

/-- The first day from which on every statistic has started. -/
def firstComplete (t : StatisticTable α) : Nat := (t.series.values.map Series.start).foldl max 0

end StatisticTable

end StrategyTree

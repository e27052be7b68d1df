import StrategyTree.Portfolio
import StrategyTree.Requirements

/-!
# Simulated runs

`simulate` walks the days of a price table: on each day a strategy is evaluated and a portfolio is
rebalanced to its allocation. The run of a whole strategy and the runs of single subtrees, whose
returns are ranked by the nodes above them, are both such walks.

`StatisticTable.load` prepares the statistics of all ranked nodes, the most deeply nested ones
first, so that a subtree's run can read the statistics of the nodes within it. A run starts on the
first day on which its tickers have closes, the statistics within it have started, and so have all
indicators. Its first return belongs to the day after, and the first value of its statistic to the
last day of the first full window.

* `StatisticTable.simulationStart`, `StatisticTable.ofNode`: where a run starts, and its statistic.
* `StatisticTable.addBatch`: statistics prepared side by side.
-/

namespace StrategyTree

open Scalar

variable {α : Type} [Scalar α]

/-! ## Walking the days -/

/-- What a run records of a day. -/
structure Day (α : Type) where
  index : Nat
  allocation : Allocation α
  balance : α

/-- Runs a strategy over a list of days, from a portfolio on. A day on which `stop` holds ends the
run as cancelled. -/
def simulate (e : Evaluator α) (table : PriceTable α) (tree : Node α) (stop : Nat → Bool) :
    List Nat → Portfolio α → Except Error (List (Day α) × Portfolio α)
  | [], p => .ok ([], p)
  | index :: rest, p =>
    if stop index then .error (.cancelled index)
    else do
      let allocation ← e.evaluate index tree
      match p.rebalance table index allocation with
      | (_, .error err) => throw err
      | (p, .ok r) =>
        let (days, p) ← simulate e table tree stop rest p
        return (⟨index, allocation, r.balance⟩ :: days, p)

/-- The percent return from one balance to the next. -/
def percentReturn (previous next : α) : α := (next / previous - one) * hundred

/-- The daily percent returns of a list of balances. -/
def dailyReturns (balances : List α) : List α := List.zipWith percentReturn balances balances.tail

/-! ## Statistics of ranked nodes -/

namespace StatisticTable

/-- The first day on which every ticker of a set has had a close; the end of the axis if one of
them never has. -/
def dataStart (table : PriceTable α) (tickers : SortedSet String) : Nat :=
  (tickers.toList.map fun t => (table.firstIndex? t).getD table.length).foldl max 0

/-- The first day on which every statistic of a node within a tree, but for the tree's own, has
started. -/
def nestedStart (t : StatisticTable α) (tree : Node α) : Nat :=
  ((t.series.entries.filter fun s => s.1 != tree.id && (tree.find s.1).isSome).map
    fun s => s.2.start).foldl max 0

/-- The first day of the run of a subtree. -/
def simulationStart (t : StatisticTable α) (table : PriceTable α) (indicators : IndicatorTable α)
    (tree : Node α) : Nat :=
  max (max (dataStart table tree.tickers) (t.nestedStart tree)) indicators.firstComplete

/-- The balances of the run of a subtree from a day on. -/
def balancesFrom (t : StatisticTable α) (table : PriceTable α) (indicators : IndicatorTable α)
    (settings : Settings α) (capital : α) (tree : Node α) (start : Nat) :
    Except Error (List α) := do
  let e : Evaluator α := ⟨tree.tickers, indicators, t, settings⟩
  let (days, _) ← simulate e table tree (fun _ => false) (table.daysFrom start)
    (Portfolio.ofCash capital)
  return days.map Day.balance

/-- The statistic of a subtree's run, on the axis. -/
def ofNode (t : StatisticTable α) (table : PriceTable α) (indicators : IndicatorTable α)
    (settings : Settings α) (capital : α) (tree : Node α) (s : NodeStatistic) :
    Except Error (Series α) := do
  let start := t.simulationStart table indicators tree
  let returns := dailyReturns (← t.balancesFrom table indicators settings capital tree start)
  match s.ranking.statistic.compute returns s.ranking.window with
  | .ok values =>
    return ⟨start + 1 + s.ranking.statistic.firstOffset s.ranking.window, values⟩
  | .error (.tooFewValues _ available needed) =>
    throw (.insufficientData
      s!"pre-calc for node {s.node}: {available} simulated returns, {needed} needed")
  | .error err => throw err

/-- The statistic of the node with its id in a tree. -/
def ofTree (t : StatisticTable α) (tree : Node α) (table : PriceTable α)
    (indicators : IndicatorTable α) (settings : Settings α) (capital : α) (s : NodeStatistic) :
    Except Error (Series α) :=
  match tree.find s.node with
  | none => .error (.nodeNotFound s.node)
  | some node => t.ofNode table indicators settings capital node s

/-- Adds a batch of statistics, all of which read the table as it was before. Where several fail,
the error is that of the first one in the batch; a build that works on them at the same time may
report that of any of them. -/
def addBatch (tree : Node α) (table : PriceTable α) (indicators : IndicatorTable α)
    (settings : Settings α) (capital : α) (t : StatisticTable α) (batch : List NodeStatistic) :
    Except Error (StatisticTable α) := do
  let added ← batch.mapM fun s =>
    return (s.node, ← t.ofTree tree table indicators settings capital s)
  return ⟨t.series.insertAll added⟩

/-- The statistics of one depth. -/
def level (requirements : Requirements) (depth : Nat) : List NodeStatistic :=
  requirements.statistics.filter fun s => s.depth == depth

/-- The depths from the deepest one up to 1. -/
def depths (nesting : Nat) : List Nat := (List.range nesting).reverse.map (· + 1)

/-- Prepares the statistics of all ranked nodes, unless they are nested too deeply. -/
def load (tree : Node α) (requirements : Requirements) (table : PriceTable α)
    (indicators : IndicatorTable α) (settings : Settings α) (capital : α) :
    Except Error (StatisticTable α) :=
  match requirements.statistics.find? fun s => settings.nestingLimit < s.depth with
  | some s => .error (.nestingTooDeep s.node s.depth settings.nestingLimit)
  | none =>
    ((depths requirements.nesting).map (level requirements)).foldlM
      (addBatch tree table indicators settings capital) empty

end StatisticTable

end StrategyTree

import StrategyTree.Tree.Basic
import StrategyTree.Word

/-!
# What a strategy requires

Before a strategy can be evaluated, prices must be loaded, indicators computed and simulated
statistics prepared. `Requirements.ofTree` goes through a tree once, each node before the nodes
below it, and gathers what evaluation may ask for:

* the tickers it mentions, those it holds, and those whose past it looks at;
* the indicators its conditions read;
* a statistic for each child of a node that ranks its children, with its depth, the number of such
  nodes above the child.

On the way it refuses trees that make no sense: a weight over zero, a filter that keeps nothing, an
empty window. The first such fault, in the order of the walk, is the one reported.
-/

namespace StrategyTree

/-- A statistic over the simulated returns of one node, with its depth: the number of nodes above
that rank their children, at least one. -/
structure NodeStatistic where
  node : String
  ranking : Ranking
  depth : Nat
  deriving DecidableEq, Repr

/-- What a strategy requires: every ticker mentioned, those that assets hold and those whose prices
before the first day matter; the indicators in key order, and the statistics in the order in which
the walk meets them; the largest window of either, and the largest depth of a statistic. -/
structure Requirements where
  tickers : SortedSet String := SortedMap.empty
  tradeable : SortedSet String := SortedMap.empty
  lookback : SortedSet String := SortedMap.empty
  indicators : SortedSet Indicator.Key := SortedMap.empty
  statistics : List NodeStatistic := []
  indicatorWindow : Nat := 0
  statisticWindow : Nat := 0
  nesting : Nat := 0

namespace Requirements

variable {α : Type}

/-- The number of days before the first day that evaluation may look back on. It is reckoned in
words: windows whose sum does not fit leave a shorter look-back than they take. -/
def requiredLookback (r : Requirements) : Nat :=
  Word.add r.indicatorWindow (Word.mul r.statisticWindow r.nesting)

/-- The tickers that are held but not looked back on. -/
def tradeableOnly (r : Requirements) : SortedSet String := SortedSet.diff r.tradeable r.lookback

/-- The statistic of a node. -/
def statisticOf (r : Requirements) (node : String) : Option NodeStatistic :=
  r.statistics.find? fun s => s.node == node

/-- The ticker whose trading days are the common axis: the first one looked back on, else the first
one held. -/
def anchor (r : Requirements) : Option String :=
  r.lookback.toList.head? <|> r.tradeable.toList.head?

/-! ## Gathering -/

/-- Takes in an asset at a depth. -/
def addTicker (depth : Nat) (ticker : String) (r : Requirements) : Requirements :=
  { r with
    tickers := r.tickers.add ticker
    tradeable := r.tradeable.add ticker
    lookback := if 0 < depth then r.lookback.add ticker else r.lookback }

/-- Takes in an indicator. -/
def addIndicator (r : Requirements) (key : Indicator.Key) : Except Error Requirements :=
  if key.window = 0 then .error (.zeroWindow key.function.name)
  else .ok
    { r with
      tickers := r.tickers.add key.ticker
      lookback := r.lookback.add key.ticker
      indicators := r.indicators.add key
      indicatorWindow := max r.indicatorWindow key.window }

/-- Takes in the statistic of one node, unless one is known for its id. -/
def addStatistic (ranking : Ranking) (depth : Nat) (r : Requirements) (node : String) :
    Requirements :=
  if (r.statisticOf node).isSome then r
  else { r with statistics := r.statistics ++ [⟨node, ranking, depth⟩] }

/-- Takes in the statistics by which a node ranks its children. -/
def addRanking (owner : String) (children : List String) (ranking : Ranking) (depth : Nat)
    (r : Requirements) : Except Error Requirements :=
  if ranking.window = 0 then
    .error (.zeroWindow (ranking.statistic.name ++ " on node " ++ owner))
  else
    let r := { r with
      statisticWindow := max r.statisticWindow ranking.window
      nesting := max r.nesting depth }
    .ok (children.foldl (addStatistic ranking depth) r)

/-- Refuses a weight over zero. -/
def checkWeight (id : String) (weight : Option Fraction) : Except Error Unit :=
  match weight with
  | some ⟨_, 0⟩ => .error (.invalidWeight id "denominator must be > 0")
  | _ => .ok ()

/-- Refuses a filter that keeps nothing. -/
def checkRule (id : String) (rule : Rule) : Except Error Unit :=
  match rule with
  | .filter _ _ 0 => .error (.invalidNode id "filter count must be > 0")
  | _ => .ok ()

/-- Takes in what a node itself asks of its children: the depth they stand at, and their
statistics. -/
def enterSplit (depth : Nat) (id : String) (rule : Rule) (children : List String)
    (r : Requirements) : Except Error (Nat × Requirements) := do
  checkRule id rule
  match rule.ranking? with
  | none => return (depth, r)
  | some ranking => return (depth + 1, ← addRanking id children ranking (depth + 1) r)

mutual

/-- Takes in a tree at a depth. -/
def visit (depth : Nat) (r : Requirements) : Node α → Except Error Requirements
  | .asset id weight ticker => do
    checkWeight id weight
    return r.addTicker depth ticker
  | .unknown id weight => do
    checkWeight id weight
    return r
  | .choice id weight conditions yes no => do
    checkWeight id weight
    let r ← (conditions.items.flatMap Condition.keys).foldlM addIndicator r
    let r ← visit depth r yes
    visit depth r no
  | .split id weight rule children => do
    checkWeight id weight
    let (depth, r) ← enterSplit depth id rule (children.map Node.id) r
    visitAll depth r children

/-- Takes in a list of trees at a depth. -/
def visitAll (depth : Nat) (r : Requirements) : List (Node α) → Except Error Requirements
  | [] => .ok r
  | c :: cs => do
    let r ← visit depth r c
    visitAll depth r cs

end

/-- What a tree requires. -/
def ofTree (tree : Node α) : Except Error Requirements := visit 0 {} tree

end Requirements

end StrategyTree

import StrategyTree.Statistics

/-!
# Statistics of simulated returns

A node that ranks its children does so by a statistic of the daily percent returns each child would
have had on its own. The families are those of the price indicators, but the input is a list of
returns already, so that the first value of every function belongs to offset `window - 1`.

* `ReturnStatistic.ofName_name`: a function is found by its name.
-/

namespace StrategyTree

/-- The statistics by which children are ranked. -/
inductive ReturnStatistic where
  | standardDeviationReturn
  | movingAverageReturn
  | cumulativeReturn
  | maxDrawdown
  deriving DecidableEq, Repr

namespace ReturnStatistic

open Scalar Statistics

/-- The name of a statistic in documents and messages. -/
def name : ReturnStatistic → String
  | standardDeviationReturn => "standard-deviation-return"
  | movingAverageReturn => "moving-average-return"
  | cumulativeReturn => "cumulative-return"
  | maxDrawdown => "max-drawdown"

/-- All statistics. -/
def all : List ReturnStatistic :=
  [standardDeviationReturn, movingAverageReturn, cumulativeReturn, maxDrawdown]

/-- The statistic of a name. -/
def ofName (s : String) : Except Error ReturnStatistic :=
  match all.find? fun f => f.name == s with
  | some f => .ok f
  | none => .error (.unknownFunction s)

theorem ofName_name (f : ReturnStatistic) : ofName f.name = .ok f := by
  cases f <;> rfl

/-- The offset into the returns to which the first value belongs. -/
def firstOffset (_ : ReturnStatistic) (window : Nat) : Nat := window - 1

variable {α : Type} [Scalar α]

/-- The statistic of one window of returns. -/
def ofWindow (f : ReturnStatistic) (returns : List α) : α :=
  match f with
  | standardDeviationReturn => deviation returns
  | movingAverageReturn => mean returns
  | cumulativeReturn => compoundReturn returns
  | maxDrawdown => drawdown (equityCurve returns)

/-- The statistic of every window of returns, if the window is not empty and there is one. -/
def compute (f : ReturnStatistic) (returns : List α) (window : Nat) : Except Error (List α) := do
  checkWindow f.name returns.length window window
  return (windows window returns).map f.ofWindow

end ReturnStatistic

end StrategyTree

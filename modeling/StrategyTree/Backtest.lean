import StrategyTree.Performance
import StrategyTree.PriceSource
import StrategyTree.Request
import StrategyTree.Simulation

/-!
# Backtests

A backtest runs the strategy of a request over loaded prices and reports on it. It starts on the
first day on which trading is wanted and every indicator and statistic has started, and ends with
the axis or before the first day without any close.

* `Backtest.prepare`: what a backtest consults, and where it starts.
* `Backtest.run`: a backtest over a price table.
* `Backtest.runOn`: a backtest that loads its prices from a source.
-/

namespace StrategyTree

/-- A day of a backtest's history. -/
structure HistoryPoint (α : Type) where
  date : Date
  allocation : Allocation α
  value : α

/-- The report of a backtest. -/
structure Backtest (α : Type) where
  dateFrom : Date
  dateTo : Date
  startingBalance : α
  endingBalance : α
  tickerStarts : SortedMap String Date
  performance : Performance α
  trades : Nat
  history : Option (List (HistoryPoint α))

namespace Backtest

open Scalar

variable {α : Type} [Scalar α]

/-- The date of a day on the axis. -/
def dateAt (table : PriceTable α) (index : Nat) : Except Error Date :=
  match table.dateAt? index with
  | some d => .ok d
  | none => .error (.insufficientData ("no calendar date for index " ++ toString index))

/-- The first day with a close of each ticker that has one. -/
def firstDates (table : PriceTable α) (tickers : List String) : SortedMap String Date :=
  SortedMap.ofList <| tickers.filterMap fun t => do
    return (t, ← table.dateAt? (← table.firstIndex? t))

/-- The index of the first day of a run. -/
def startIndex (table : PriceTable α) (indicators : IndicatorTable α)
    (statistics : StatisticTable α) : Nat :=
  max (max table.tradeableStart indicators.firstComplete) statistics.firstComplete

/-- The capital a request starts with. -/
def capital (request : Request α) : α := ofNat request.startingBalance

/-- Prepares what the evaluation of a request's strategy consults, and finds the index of the first
day of its run. -/
def prepare (request : Request α) (requirements : Requirements) (table : PriceTable α)
    (settings : Settings α) : Except Error (Evaluator α × Nat) := do
  let indicators ← IndicatorTable.load table requirements.indicators.toList
  let statistics ←
    StatisticTable.load request.tree requirements table indicators settings (capital request)
  return (⟨requirements.tradeable, indicators, statistics, settings⟩,
    startIndex table indicators statistics)

/-- Runs a request over a price table. A day on which `stop` holds ends the run as cancelled. -/
def run (request : Request α) (requirements : Requirements) (table : PriceTable α)
    (settings : Settings α) (stop : Nat → Bool) : Except Error (Backtest α) := do
  let (e, start) ← prepare request requirements table settings
  let (days, portfolio) ←
    simulate e table request.tree stop (table.daysFrom start) (Portfolio.ofCash (capital request))
  let history ← days.mapM fun d =>
    return (⟨← dateAt table d.index, d.allocation, d.balance⟩ : HistoryPoint α)
  match history.head?, history.getLast? with
  | some first, some last =>
    return {
      dateFrom := first.date
      dateTo := last.date
      startingBalance := capital request
      endingBalance := last.value
      tickerStarts := firstDates table requirements.tickers.toList
      performance := Performance.ofBalances (days.map Day.balance) settings.riskFreeRate
      trades := portfolio.log.length
      history := if request.history then some history else none }
  | _, _ =>
    throw (.insufficientData
      s!"no tradeable days: evaluation starts at index {start} of {table.length}")

/-- Runs a request over the prices of a source: works out what the strategy requires, finds the
bounds, and loads the prices. -/
def runOn (source : PriceSource α) (request : Request α) (settings : Settings α) (today : Date)
    (stop : Nat → Bool) : Except Error (Backtest α) := do
  let requirements ← Requirements.ofTree request.tree
  let bounds ← Bounds.resolve source requirements request.startDate request.endDate today
  let table ← PriceTable.load source requirements bounds
  run request requirements table settings stop

end Backtest

end StrategyTree

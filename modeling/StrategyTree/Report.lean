import StrategyTree.Backtest

/-!
# Reports

A backtest is reported as a document with a line for each part. Dates and numbers are written as
elsewhere in documents; a number that is not an ordinary one becomes `null`, and so does a ticker
that no weight was routed to.
-/

namespace StrategyTree

open Document

/-- Performance figures as a document. -/
def Performance.toDocument (p : Performance Float) : Document :=
  record [("cumulative_return", ofFloat p.cumulativeReturn),
    ("annualized_return", ofFloat p.annualizedReturn),
    ("standard_deviation", ofFloat p.standardDeviation),
    ("max_drawdown", ofFloat p.maxDrawdown),
    ("calmar", ofFloat p.calmar),
    ("sharpe", ofFloat p.sharpe),
    ("sortino", ofFloat p.sortino),
    ("trailing_1_month", ofFloat p.trailingMonth),
    ("trailing_3_month", ofFloat p.trailingQuarter)]

/-- An allocation as a document. -/
def allocationDocument (a : Allocation Float) : Document :=
  record (a.entries.map fun e => (e.1, (e.2.map ofFloat).getD null))

/-- A day of a history as a document. -/
def HistoryPoint.toDocument (h : HistoryPoint Float) : Document :=
  record [("date", text (DateText.render h.date)), ("tickers", allocationDocument h.allocation),
    ("value", ofFloat h.value)]

namespace Backtest

/-- A backtest as a document; without a history there is no member for it. -/
def toDocument (b : Backtest Float) : Document :=
  record <|
    [("date_from", text (DateText.render b.dateFrom)),
      ("date_to", text (DateText.render b.dateTo)),
      ("starting_balance", ofFloat b.startingBalance),
      ("ending_balance", ofFloat b.endingBalance),
      ("ticker_start_dates",
        record (b.tickerStarts.entries.map fun e => (e.1, text (DateText.render e.2)))),
      ("metrics", b.performance.toDocument),
      ("trades", nat b.trades)] ++
    match b.history with
    | some days => [("history", array (days.map HistoryPoint.toDocument))]
    | none => []

/-- The text of a report. -/
def render (b : Backtest Float) : String := b.toDocument.pretty

/-- The content of a file with a report. -/
def fileContent (b : Backtest Float) : String := b.render ++ "\n"

end Backtest

end StrategyTree

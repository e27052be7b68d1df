import StrategyTree.Statistics

/-!
# Performance figures

What a backtest reports about its daily balances. Ratios of returns are in percent; a year has 252
trading days and a month 21.
-/

namespace StrategyTree

/-- The performance figures of a run: returns, deviation and falls in percent; the yearly return
over the largest fall (`calmar`), and the yearly return in excess of the risk-free rate over the
deviation (`sharpe`) and over that of the days below the rate (`sortino`). -/
structure Performance (α : Type) where
  cumulativeReturn : α
  annualizedReturn : α
  standardDeviation : α
  maxDrawdown : α
  calmar : α
  sharpe : α
  sortino : α
  trailingMonth : α
  trailingQuarter : α
  deriving Repr

namespace Performance

open Scalar Statistics

variable {α : Type} [Scalar α]

/-- The trading days of a year. -/
def daysPerYear : α := ofNat 252

/-- The trading days of a month. -/
def daysPerMonth : Nat := 21

/-- The percent growth from one balance to another; from a balance that is not positive there is
none. -/
def growthPercent (first last : α) : α :=
  if zero < first then (last - first) / first * hundred else zero

/-- The daily return between two balances, as a fraction. -/
def dailyReturn (previous next : α) : α :=
  if zero < previous then (next - previous) / previous else zero

/-- The growth over the last `days` steps, or over the whole list when it is shorter. -/
def trailing (balances : List α) (days : Nat) : α :=
  match balances[balances.length - (days + 1)]?, balances.getLast? with
  | some first, some last => growthPercent first last
  | _, _ => zero

/-- The yearly return in percent that turns the first balance into the last one. -/
def annualized (balances : List α) (first last : α) : α :=
  let years := ofNat (balances.length - 1) / daysPerYear
  let growth := last / first
  if zero < years ∧ zero < growth ∧ isFinite growth then
    (pow growth (one / years) - one) * hundred
  else zero

/-- The largest percent fall below a running peak of the balances. -/
def fallFromPeak (balances : List α) : α := largestFall fallFraction balances * hundred

/-- The yearly ratio of a mean to a deviation, zero if there is no deviation. -/
def yearlyRatio (mean deviation : α) : α :=
  if zero < deviation then mean / deviation * sqrt daysPerYear else zero

/-- The square root of the mean square by which returns fall short of a rate; returns above it
count as zero. -/
def shortfall (returns : List α) (rate : α) : α :=
  let below := returns.filter fun r => decide (r < rate)
  sqrt (sum (below.map fun r => (r - rate) * (r - rate)) / ofNat returns.length)

/-- The deviation, the Sharpe ratio and the Sortino ratio of daily returns. -/
def riskAdjusted (returns : List α) (dailyRate : α) : α × α × α :=
  if returns.isEmpty then (zero, zero, zero)
  else
    let spread := deviation returns
    let excess := mean returns - dailyRate
    (spread, yearlyRatio excess spread, yearlyRatio excess (shortfall returns dailyRate))

/-- The figures of a list of daily balances, the first of which is the starting balance. -/
def ofBalances (balances : List α) (riskFreeRate : α) : Performance α :=
  match balances.head?, balances.getLast? with
  | some first, some last =>
    let yearly := annualized balances first last
    let fall := fallFromPeak balances
    let returns := List.zipWith dailyReturn balances balances.tail
    let (spread, sharpe, sortino) := riskAdjusted returns (riskFreeRate / daysPerYear)
    { cumulativeReturn := growthPercent first last
      annualizedReturn := yearly
      standardDeviation := spread * sqrt daysPerYear * hundred
      maxDrawdown := fall
      calmar := if zero < fall then yearly / fall else zero
      sharpe := sharpe
      sortino := sortino
      trailingMonth := trailing balances daysPerMonth
      trailingQuarter := trailing balances (3 * daysPerMonth) }
  | _, _ => ⟨zero, zero, zero, zero, zero, zero, zero, zero, zero⟩

end Performance

end StrategyTree

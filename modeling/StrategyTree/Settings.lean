import StrategyTree.Scalar

/-!
# Engine settings

The numbers that a run depends on besides the strategy and the prices.
-/

namespace StrategyTree

/-- The settings of the engine: the volatility taken for a child whose volatility is not a positive
number, how deep nodes that rank their children may be nested, and the yearly risk-free rate, as a
fraction. -/
structure Settings (α : Type) where
  volatilityFloor : α
  nestingLimit : Nat
  riskFreeRate : α
  deriving Repr

/-- The settings that hold unless a configuration says otherwise: a floor of `0.0001`, three levels
of nesting and no risk-free return. -/
def Settings.default {α : Type} [Scalar α] : Settings α where
  volatilityFloor := Scalar.tenToMinus 4
  nestingLimit := 3
  riskFreeRate := Scalar.zero

end StrategyTree

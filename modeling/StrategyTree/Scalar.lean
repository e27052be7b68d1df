/-!
# Numbers the engine computes with

Prices, balances, weights and statistics are values of one number type. `Scalar` lists what the
engine asks of it, so that every computation is defined once and runs on two kinds of numbers:

* `Float`, the IEEE-754 double, whose operations round and whose values include NaN and infinities;
* exact numbers, on which no operation rounds (their instance lives with the exact-arithmetic
  theory).

A statement proved for every `Scalar` therefore holds of the doubles bit for bit, except that there
is a single NaN among them: its sign and payload are not told apart, and it is ranked above positive
infinity. Where NaNs carry a sign and one with the sign bit set is ranked below negative infinity, a
filter over such values may keep other children.
-/

namespace StrategyTree

/-- The arithmetic the engine relies on. The order and the equality test are those of the number
type itself: on doubles, every comparison with NaN is false. `ofNat n` and `tenToMinus n` are the
numbers nearest to `n` and to `10⁻ⁿ`, and `emptySum` is the sum of no terms. `isFinite` tells
ordinary numbers from infinities and NaN, and `opensPeak` whether a value exceeds the least finite
number, so that it can be the first of a series of peaks; in exact arithmetic every value does.
`rankLe` is the total order by which values are ranked, defined also where `<` decides nothing. -/
class Scalar (α : Type) extends Add α, Sub α, Mul α, Div α, Neg α, LT α, BEq α where
  [ltDecidable : DecidableLT α]
  ofNat : Nat → α
  tenToMinus : Nat → α
  abs : α → α
  sqrt : α → α
  pow : α → α → α
  isFinite : α → Bool
  opensPeak : α → Bool
  emptySum : α
  rankLe : α → α → Bool

attribute [reducible, instance] Scalar.ltDecidable

namespace Scalar

variable {α : Type} [Scalar α]

/-- The number `0`. -/
def zero : α := ofNat 0

/-- The number `1`. -/
def one : α := ofNat 1

/-- The number `100`, the whole of a percentage. -/
def hundred : α := ofNat 100

/-- The sum of a list, added up from left to right. -/
def sum (xs : List α) : α := xs.foldl (· + ·) emptySum

/-- The arithmetic mean of a list. -/
def mean (xs : List α) : α := sum xs / ofNat xs.length

/-- The larger of two values; a second value that is not comparable is passed over. -/
def larger (a b : α) : α := if a < b then b else a

/-- Whether a value reaches a bound. -/
def atLeast (x bound : α) : Bool := bound < x || x == bound

end Scalar

/-! ## Doubles -/

namespace Double

/-- Ranks doubles as integers: the order of the reals, with `-0.0` just below `0.0`, negative
infinity at the bottom, and NaN, of which there is only one, above positive infinity. -/
def rank (x : Float) : Int :=
  let bits := x.toBits.toNat
  if bits < Nat.pow 2 63 then bits else (Nat.pow 2 63 : Int) - 1 - bits

/-- The least finite double. -/
def leastFinite : Float := -(Float.ofScientific 17976931348623157 false 292)

instance : Scalar Float where
  ofNat := Float.ofNat
  tenToMinus n := Float.ofScientific 1 true n
  abs := Float.abs
  sqrt := Float.sqrt
  pow := Float.pow
  isFinite := Float.isFinite
  opensPeak x := leastFinite < x
  emptySum := -0.0
  rankLe x y := rank x ≤ rank y

end Double

end StrategyTree
